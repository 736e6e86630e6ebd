import Monoblok.Snapshot.Files
import Monoblok.Snapshot.Limits
import Monoblok.Snapshot.Reachable
import Monoblok.Snapshot.Serialised

/-!
# Lives of a server

A process starts from the snapshot file it finds, serves, and is shut down or
killed; what it leaves to the next one is the disk. Between two lives the
patchbay file and the cache filters may change.

A file that is found was there before the first life, or it is a snapshot that
one of the lives built: a process killed in the middle of a write leaves the file
of the last write that came to its end.
-/

namespace Monoblok.Snapshot

open Patchbay Trace

variable {N : Type} [Number N]

/-- What a process is set up with: a router with its cache filters and a loaded
program. -/
structure Setup (N : Type) where
  router : Router
  program : Option (Program N)

/-- Nothing is cached yet and no rule has any state. -/
structure Setup.Fresh (x : Setup N) : Prop where
  cache : EmptyCache x.router x.router
  state : ∀ p, x.program = some p → ∀ rule ∈ p.rules, rule.state.items = []

/-- The start of a process, which fails when the snapshot file is refused. -/
def boot (E : ReadEnv) (x : Setup N) (disk : Disk) : Option (SnapshotServer N) :=
  (snapshotLoadFile E disk.file x.router x.program).map fun l =>
    .start l.router l.program true disk

/-! ## What the files hold -/

/-- The state of a process that may be written: the cache is as the router keeps
it, and every ring stays within a field. -/
def Sound (r : Router) (p : Option (Program N)) : Prop :=
  LvcInv r ∧ ∀ q, p = some q → RingsFit q

/-- The bytes of a snapshot of some state with a property. -/
def BuiltFrom (P : Router → Option (Program N) → Prop) (bs : Bytes) : Prop :=
  ∃ r p, P r p ∧ snapshotBuild r p = some bs

/-- What the jobs and the last write of a process put into the file was built from
states with the property. -/
structure WritesBuilt (P : Router → Option (Program N) → Prop) (found : Option Bytes)
    (s : SnapshotServer N) : Prop where
  jobs : JobsInv s
  state : P s.router s.program
  pool : ∀ job ∈ s.pool, BuiltFrom P job.snapshot
  filled : ∀ job ∈ s.pool, job.stage = .running .filled → s.disk.tmp = some job.snapshot
  file : s.disk.file = found ∨ ∃ bs, s.disk.file = some bs ∧ BuiltFrom P bs

section Written

variable {P : Router → Option (Program N) → Prop} {found : Option Bytes} {s s' : SnapshotServer N}

theorem file_writeStep (ok : Bool) {snapshot : Bytes} {stage : WriteStage} {disk : Disk}
    (h : stage = .filled → disk.tmp = some snapshot) :
    (writeStep ok snapshot stage disk).2.file = disk.file ∨
      (writeStep ok snapshot stage disk).2.file = some snapshot := by
  cases stage with
  | ready => cases ok <;> exact .inl rfl
  | opened => cases ok <;> exact .inl rfl
  | filled =>
    simp only [writeStep, h rfl]
    cases ok
    · exact .inl rfl
    · exact .inr rfl
  | done result => exact .inl rfl

theorem tmp_writeStep {ok : Bool} {snapshot : Bytes} {stage : WriteStage} {disk : Disk}
    (h : (writeStep ok snapshot stage disk).1 = .filled) :
    (writeStep ok snapshot stage disk).2.tmp = some snapshot := by
  cases stage with
  | ready => cases ok <;> simp [writeStep] at h
  | opened =>
    cases ok
    · simp [writeStep] at h
    · rfl
  | filled =>
    simp only [writeStep] at h
    split at h <;> cases h
  | done result => simp [writeStep] at h

/-- A step that leaves the jobs and the disk alone. -/
theorem WritesBuilt.keeps (h : WritesBuilt P found s) (hjobs : JobsInv s')
    (hstate : P s'.router s'.program) (hpool : s'.pool = s.pool) (hdisk : s'.disk = s.disk) :
    WritesBuilt P found s' where
  jobs := hjobs
  state := hstate
  pool := hpool ▸ h.pool
  filled := by
    rw [hpool, hdisk]
    exact h.filled
  file := hdisk ▸ h.file

/-- A timer callback adds a job at most, which has not begun. -/
theorem writesBuilt_timer (g : Grants) (h : WritesBuilt P found s)
    (hjobs : JobsInv (s.onSnapshotTimer g).2) : WritesBuilt P found (s.onSnapshotTimer g).2 := by
  have hstep := timerStep s g
  generalize (s.onSnapshotTimer g).1 = d at hstep
  generalize (s.onSnapshotTimer g).2 = s' at hstep hjobs ⊢
  cases hstep with
  | off _ => exact h
  | deferred _ _ _ => exact h.keeps hjobs h.state rfl rfl
  | failed _ _ _ _ => exact h
  | unqueued _ _ _ _ => exact h.keeps hjobs h.state rfl rfl
  | started bytes _ _ _ hbuilt =>
    have hbytes : snapshotBuild s.router s.program = some bytes := by
      unfold Grants.start at hbuilt
      split_ifs at hbuilt
      exact hbuilt
    refine ⟨hjobs, h.state, ?_, ?_, h.file⟩
    · intro job hjob
      rcases List.mem_append.mp hjob with hjob | hjob
      · exact h.pool job hjob
      · rw [List.mem_singleton.mp hjob]
        exact ⟨_, _, h.state, hbytes⟩
    · intro job hjob hstage
      rcases List.mem_append.mp hjob with hjob | hjob
      · exact h.filled job hjob hstage
      · rw [List.mem_singleton.mp hjob] at hstage
        cases hstage

omit [Number N] in
/-- The job that is found is the only one. -/
theorem OneJob.pool_eq_singleton (h : OneJob s) {id : ℕ} {job : SnapshotJob}
    (hfind : s.pool.find? (fun job => job.id = id) = some job) : s.pool = [job] := by
  have hmem : job ∈ s.pool := List.mem_of_find?_eq_some hfind
  have hlen := h.length_pool
  match hpool : s.pool with
  | [] => simp [hpool] at hmem
  | [other] =>
    rw [hpool, List.mem_singleton] at hmem
    rw [hmem]
  | _ :: _ :: _ =>
    rw [hpool] at hlen
    simp at hlen

theorem writesBuilt_work {id : ℕ} {job : SnapshotJob} (ok : Bool) (h : WritesBuilt P found s)
    (hfind : s.pool.find? (fun job => job.id = id) = some job)
    (hjobs : JobsInv { s with
      pool := s.pool.map fun other => if other.id = id then (job.work ok s.disk).1 else other
      disk := (job.work ok s.disk).2 }) :
    WritesBuilt P found { s with
      pool := s.pool.map fun other => if other.id = id then (job.work ok s.disk).1 else other
      disk := (job.work ok s.disk).2 } := by
  have hmem : job ∈ s.pool := List.mem_of_find?_eq_some hfind
  have hid : job.id = id := by simpa using List.find?_some hfind
  have hpool : (s.pool.map fun other => if other.id = id then (job.work ok s.disk).1 else other) =
      [(job.work ok s.disk).1] := by
    simp [h.jobs.jobs.pool_eq_singleton hfind, hid]
  have hbuilt := h.pool job hmem
  have hfilled := h.filled job hmem
  cases hstage : job.stage with
  | queued =>
    have hwork : job.work ok s.disk = ({ job with stage := .running .ready }, s.disk) := by
      simp [SnapshotJob.work, hstage]
    rw [hwork] at hpool hjobs ⊢
    refine ⟨hjobs, h.state, ?_, ?_, h.file⟩
    · simp only [hpool, List.mem_singleton, forall_eq]
      exact hbuilt
    · simp [hpool]
  | running stage =>
    have hwork : job.work ok s.disk =
        ({ job with stage := .running (writeStep ok job.snapshot stage s.disk).1 },
          (writeStep ok job.snapshot stage s.disk).2) := by
      simp [SnapshotJob.work, hstage]
    rw [hwork] at hpool hjobs ⊢
    refine ⟨hjobs, h.state, ?_, ?_, ?_⟩
    · simp only [hpool, List.mem_singleton, forall_eq]
      exact hbuilt
    · simp only [hpool, List.mem_singleton, forall_eq, JobStage.running.injEq]
      exact tmp_writeStep
    · rcases file_writeStep ok (fun heq => hfilled (hstage.trans (congrArg _ heq))) with hfile | hfile
      · exact hfile ▸ h.file
      · exact .inr ⟨job.snapshot, hfile, hbuilt⟩
  | canceled =>
    have hwork : job.work ok s.disk = (job, s.disk) := by simp [SnapshotJob.work, hstage]
    rw [hwork] at hpool hjobs ⊢
    refine ⟨hjobs, h.state, ?_, ?_, h.file⟩
    · simp only [hpool, List.mem_singleton, forall_eq]
      exact hbuilt
    · simp [hpool, hstage]

theorem writesBuilt_afterWork {id : ℕ} {job : SnapshotJob} (g : Grants)
    (h : WritesBuilt P found s) (hloop : s.phase.inLoop = true)
    (hfind : s.pool.find? (fun job => job.id = id) = some job)
    (hjobs : JobsInv (s.snapshotAfterWork id g).2) :
    WritesBuilt P found (s.snapshotAfterWork id g).2 := by
  obtain ⟨hone, hempty⟩ := oneJob_clearJob h.jobs.jobs hfind
  have hcleared : ∀ again, WritesBuilt P found { s.clearJob id with snapshotWriteAgain := again } := by
    intro again
    refine ⟨⟨⟨hone.pool, hone.pending, hone.path⟩, lastWrite_of_inLoop hloop⟩, h.state, ?_, ?_, h.file⟩
    · simp [hempty]
    · simp [hempty]
  unfold SnapshotServer.snapshotAfterWork at hjobs ⊢
  dsimp only at hjobs ⊢
  split_ifs at hjobs ⊢
  · exact writesBuilt_timer g (hcleared false) hjobs
  · exact hcleared s.snapshotWriteAgain

theorem writesBuilt_finalWrite {snapshot : Bytes} {stage : WriteStage} (ok : Bool)
    (h : WritesBuilt P found s) (hphase : s.phase = .writing snapshot stage)
    (hjobs : JobsInv (s.finalWrite ok snapshot stage)) :
    WritesBuilt P found (s.finalWrite ok snapshot stage) := by
  have hlast := h.jobs.last
  unfold LastWrite at hlast
  rw [hphase] at hlast
  obtain ⟨hnone, hbuild, hstage⟩ := hlast
  -- the pool is empty by now
  have hempty : s.pool = [] := h.jobs.jobs.pool_eq_nil_iff.mpr hnone
  have hfilled : stage = .filled → s.disk.tmp = some snapshot := by
    rintro rfl
    exact hstage
  refine ⟨hjobs, h.state, ?_, ?_, ?_⟩
  · simp [SnapshotServer.finalWrite, hempty]
  · simp [SnapshotServer.finalWrite, hempty]
  · rcases file_writeStep ok hfilled with hfile | hfile
    · exact (show (s.finalWrite ok snapshot stage).disk.file = _ from hfile) ▸ h.file
    · exact .inr ⟨snapshot, hfile, _, _, h.state, hbuild⟩

/-- The states other callbacks bring about have the property. -/
def SnapshotAction.Brings (P : Router → Option (Program N) → Prop) : SnapshotAction N → Prop
  | .change router program => P router program
  | _ => True

theorem writesBuilt_step {a : SnapshotAction N} {d : List (SnapshotEvent N)} (ha : a.Brings P)
    (h : WritesBuilt P found s) (hstep : SnapshotServer.step a s = some (d, s')) :
    WritesBuilt P found s' := by
  have hjobs : JobsInv s' := jobsInv_step h.jobs hstep
  unfold SnapshotServer.step at hstep
  cases a with
  | change router program =>
    dsimp only at hstep
    split_ifs at hstep
    cases hstep
    exact h.keeps hjobs ha rfl rfl
  | timer g =>
    dsimp only at hstep
    split_ifs at hstep
    have heq : (s.onSnapshotTimer g).2 = s' := congrArg Prod.snd (Option.some.inj hstep)
    rw [← heq] at hjobs ⊢
    exact writesBuilt_timer g h hjobs
  | work id ok =>
    dsimp only at hstep
    split at hstep
    · cases hstep
    · rename_i job hfind
      cases hstep
      exact writesBuilt_work ok h hfind hjobs
  | afterWork id g =>
    dsimp only at hstep
    split at hstep
    · cases hstep
    · rename_i job hfind
      split_ifs at hstep with hready
      have hloop : s.phase.inLoop = true := (Bool.and_eq_true_iff.mp hready).1
      have heq : (s.snapshotAfterWork id g).2 = s' := congrArg Prod.snd (Option.some.inj hstep)
      rw [← heq] at hjobs ⊢
      exact writesBuilt_afterWork g h hloop hfind hjobs
  | signal =>
    dsimp only at hstep
    split_ifs at hstep
    cases hstep
    exact h.keeps hjobs h.state rfl rfl
  | close =>
    dsimp only at hstep
    split at hstep
    · cases hstep
      refine ⟨hjobs, h.state, ?_, ?_, h.file⟩
      · intro job hjob
        unfold SnapshotServer.beginClose at hjob
        cases hjobs : s.snapshotJob with
        | none => exact h.pool job (by simpa [hjobs] using hjob)
        | some id =>
          simp only [hjobs, List.mem_map] at hjob
          obtain ⟨other, hother, rfl⟩ := hjob
          have hbytes : (if other.id = id then other.cancel else other).snapshot = other.snapshot := by
            unfold SnapshotJob.cancel
            split_ifs
            · cases other.stage <;> rfl
            · rfl
          rw [hbytes]
          exact h.pool other hother
      · intro job hjob hstage
        unfold SnapshotServer.beginClose at hjob
        cases hjobs : s.snapshotJob with
        | none => exact h.filled job (by simpa [hjobs] using hjob) hstage
        | some id =>
          simp only [hjobs, List.mem_map] at hjob
          obtain ⟨other, hother, rfl⟩ := hjob
          -- a job that runs is not canceled
          have hsame : (if other.id = id then other.cancel else other) = other := by
            unfold SnapshotJob.cancel at hstage ⊢
            split_ifs at hstage ⊢
            · cases hother : other.stage <;> simp [hother] at hstage ⊢
            · rfl
          rw [hsame] at hstage ⊢
          exact h.filled other hother hstage
    · cases hstep
  | runReturns alive =>
    dsimp only at hstep
    split at hstep
    · cases hstep
    split at hstep
    · cases hstep
      exact h.keeps hjobs h.state rfl rfl
    · split_ifs at hstep
      · cases hstep
        exact h.keeps hjobs h.state rfl rfl
      · cases hstep
        exact h.keeps hjobs h.state rfl rfl
    · cases hstep
  | check =>
    dsimp only at hstep
    split at hstep
    · cases hstep
      exact h.keeps hjobs h.state rfl rfl
    · cases hstep
  | finalBuild memory =>
    dsimp only at hstep
    split at hstep
    · have heq : s.finalBuild memory = s' := congrArg Prod.snd (Option.some.inj hstep)
      rw [← heq] at hjobs ⊢
      unfold SnapshotServer.finalBuild at hjobs ⊢
      split_ifs at hjobs ⊢
      · exact h.keeps hjobs h.state rfl rfl
      · split at hjobs <;> exact h.keeps hjobs h.state rfl rfl
      · exact h.keeps hjobs h.state rfl rfl
    · cases hstep
  | finalWrite ok =>
    dsimp only at hstep
    split at hstep
    · rename_i snapshot stage hphase
      have heq : s.finalWrite ok snapshot stage = s' := congrArg Prod.snd (Option.some.inj hstep)
      rw [← heq] at hjobs ⊢
      exact writesBuilt_finalWrite ok h hphase hjobs
    · cases hstep

theorem writesBuilt_run {actions : List (SnapshotAction N)} {c : List (SnapshotEvent N)}
    (hactions : ∀ a ∈ actions, a.Brings P) (h : WritesBuilt P found s)
    (hrun : collect SnapshotServer.step actions s = some (c, s')) : WritesBuilt P found s' := by
  induction actions generalizing s c with
  | nil =>
    cases hrun
    exact h
  | cons a actions ih =>
    cases collected_of_collect hrun with
    | mk hfirst hrest =>
      exact ih (fun a ha => hactions a (List.mem_cons_of_mem _ ha))
        (writesBuilt_step (hactions a List.mem_cons_self) h hfirst) hrest

end Written

/-! ## A start -/

omit [Number N] in
theorem ringFits_of_kind {e : StateEntry N} (h : e.kind ≠ .ring) : RingFits e :=
  fun hkind => absurd hkind h

/-- A slot that came through the file is within the limits if its record was. -/
theorem ringFits_restore {s : Saved N} (k : StateKey) (h : s.fitsSkip = true) :
    RingFits (restore (freshEntry k) s.afterRead) := by
  cases s with
  | empty => exact ringFits_of_kind (by simp [Saved.afterRead, restore])
  | bytes data => exact ringFits_of_kind (by simp [Saved.afterRead, restore])
  | number n => exact ringFits_of_kind (by simp [Saved.afterRead, restore])
  | bar op high low count cap windowMs windowStartMs lastClose =>
    exact ringFits_of_kind (by simp [Saved.afterRead, restore])
  | countRing cap len sum values =>
    simpa [RingFits, Saved.afterRead, restore, freshEntry, Saved.fitsSkip] using h
  | timeRing windowMs samples =>
    simpa [RingFits, Saved.afterRead, restore, freshEntry, Saved.fitsSkip] using h

theorem ringsFit_appendState {p p' : Program N} {idx : ℕ} {filter key : Bytes} {s : Saved N}
    (hp : RingsFit p) (hs : s.fitsSkip = true)
    (h : appendState p idx filter key s.afterRead = some p') : RingsFit p' := by
  unfold appendState at h
  split at h
  · rename_i rule op subject hrule hsplit
    split_ifs at h
    obtain ⟨st, hst, rfl⟩ := Option.map_eq_some_iff.mp h
    obtain ⟨cap, -, rfl⟩ := Option.map_eq_some_iff.mp hst
    intro r hr e he
    rcases List.mem_or_eq_of_mem_set hr with hr | rfl
    · exact hp r hr e he
    · rcases List.mem_append.mp he with he | he
      · exact hp rule (List.mem_of_getElem? hrule) e he
      · rw [List.mem_singleton.mp he]
        exact ringFits_restore _ hs
  · cases h

/-- Slots within the limits go into a program whose slots are. -/
theorem ringsFit_placeSlots {es : List (Slot N)} (hes : ∀ x ∈ es, fitsSkip x.2.2 = true)
    {l : Loading N} (hl : ∀ p, l.program = some p → RingsFit p) :
    (es.foldl placeSlot l).router = l.router ∧
      ∀ p, (es.foldl placeSlot l).program = some p → RingsFit p := by
  induction es generalizing l with
  | nil => exact ⟨rfl, hl⟩
  | cons x es ih =>
    have hplaced : (placeSlot l x).router = l.router ∧
        ∀ p, (placeSlot l x).program = some p → RingsFit p := by
      unfold placeSlot
      split
      · rename_i p s hp hs
        have hfits : s.fitsSkip = true := by
          have hx := hes x List.mem_cons_self
          rwa [fitsSkip, hs] at hx
        unfold placeEntry
        split
        · exact ⟨rfl, hl⟩
        · rename_i p' happend
          refine ⟨rfl, fun q hq => ?_⟩
          cases hq
          exact ringsFit_appendState (hl p hp) hfits happend
      · exact ⟨rfl, hl⟩
    obtain ⟨hrouter, hprogram⟩ := ih (fun x hx => hes x (List.mem_cons_of_mem _ hx)) hplaced.2
    exact ⟨hrouter.trans hplaced.1, hprogram⟩

/-- The cache of one router under the filters of another. -/
def withConfig (r x : Router) : Router :=
  { r with lvcEnabled := x.lvcEnabled, lvcFilters := x.lvcFilters }

theorem lvcInv_withConfig {r : Router} (h : LvcInv r) (x : Router) : LvcInv (withConfig r x) :=
  h.of_entries rfl rfl rfl rfl

omit [Number N] in
theorem Setup.Fresh.ringsFit {x : Setup N} (h : x.Fresh) (p : Program N) (hp : x.program = some p) :
    RingsFit p := by
  intro rule hrule e he
  rw [h.state p hp rule hrule] at he
  cases he

/-- What a start makes of a built snapshot: the cached values that the filters
allow, and a sound state again. -/
theorem load_built {x : Setup N} (hx : x.Fresh) {r : Router} {p : Option (Program N)} {bs : Bytes}
    (hsound : Sound r p) (hbuild : snapshotBuild r p = some bs) :
    ∃ l, snapshotLoad bs x.router x.program = some l ∧ Sound l.router l.program ∧
      l.router.lvc = r.lvc.filter fun e => cacheable x.router e.subject := by
  have hempty : EmptyCache (withConfig r x.router) x.router :=
    ⟨hx.cache.lvc, hx.cache.caps, hx.cache.index, hx.cache.bytes, rfl, rfl⟩
  have hbuild' : snapshotBuild (withConfig r x.router) p = some bs := hbuild
  obtain ⟨r', slots, fuel, hr', hslots, hfuel, heq⟩ :=
    snapshotLoad_build (lvcInv_withConfig hsound.1 x.router) hempty hbuild' x.program
  have hlvc : r'.lvc = r.lvc.filter fun e => cacheable x.router e.subject := by
    rw [hr'.lvc, hx.cache.lvc, List.nil_append]
    rfl
  have hfits : ∀ y ∈ slotsOf p, fitsSkip y.2.2 = true := by
    cases p with
    | none => simp [slotsOf]
    | some p =>
      have hall := (all_fitsSkip_iff hslots).mpr (hsound.2 p rfl)
      exact List.all_eq_true.mp hall
  cases hprogram : x.program with
  | none =>
    rw [hprogram, loadRecords_slots_skip hslots rfl hfuel, if_pos (List.all_eq_true.mpr hfits)] at heq
    exact ⟨_, heq, ⟨hr'.inv, fun q hq => by cases hq⟩, hlvc⟩
  | some q =>
    have hload : ∀ y ∈ slotsOf p, fitsLoad y.2.2 = true :=
      fun y hy => fitsLoad_of_fitsSkip (hfits y hy)
    rw [hprogram, loadRecords_slots hslots rfl hfuel, if_pos (List.all_eq_true.mpr hload)] at heq
    obtain ⟨hrouter, hrings⟩ := ringsFit_placeSlots hfits (l := ⟨r', some q, ⟨r.lvc.length, 0⟩⟩)
      (fun q' hq' => by
        cases hq'
        exact hx.ringsFit q hprogram)
    exact ⟨_, heq, ⟨hrouter ▸ hr'.inv, hrings⟩, hrouter ▸ hlvc⟩

/-- The file a start may find: none, another file, or a snapshot of a sound state. -/
def Found (N : Type) [Number N] (file : Option Bytes) : Prop :=
  (∀ bs, file = some bs → headerOk bs = false) ∨
    ∃ bs, file = some bs ∧ BuiltFrom (Sound (N := N)) bs

theorem load_found {x : Setup N} (hx : x.Fresh) {bs : Bytes} (h : Found N (some bs)) :
    ∃ l, snapshotLoad bs x.router x.program = some l ∧ Sound l.router l.program := by
  rcases h with h | ⟨bs', heq, r, p, hsound, hbuild⟩
  · refine ⟨⟨x.router, x.program, ⟨0, 0⟩⟩, ?_, hx.cache.lvcInv, hx.ringsFit⟩
    simp [snapshotLoad, h bs rfl]
  · cases heq
    obtain ⟨l, hl, hsound', -⟩ := load_built hx hsound hbuild
    exact ⟨l, hl, hsound'⟩

/-- A process that has started is in a sound state. -/
theorem sound_of_boot {x : Setup N} (hx : x.Fresh) {E : ReadEnv} {disk : Disk}
    {s : SnapshotServer N} (h : Found N disk.file) (hboot : boot E x disk = some s) :
    Sound s.router s.program := by
  obtain ⟨l, hl, rfl⟩ := Option.map_eq_some_iff.mp hboot
  unfold snapshotLoadFile at hl
  cases hread : readFile E disk.file with
  | missing =>
    rw [hread] at hl
    cases hl
    exact ⟨hx.cache.lvcInv, hx.ringsFit⟩
  | failed =>
    rw [hread] at hl
    cases hl
  | read bs =>
    rw [hread] at hl
    rw [readFile_eq_read hread] at h
    obtain ⟨l', hl', hsound⟩ := load_found hx h
    obtain rfl : l' = l := Option.some.inj (hl'.symm.trans hl)
    exact hsound

theorem boot_of_found {x : Setup N} (hx : x.Fresh) {E : ReadEnv} (hE : E.Succeeds) {disk : Disk}
    (h : Found N disk.file) : ∃ s, boot E x disk = some s := by
  unfold boot snapshotLoadFile
  cases hfile : disk.file with
  | none => exact ⟨_, rfl⟩
  | some bs =>
    rw [hfile] at h
    obtain ⟨l, hl, -⟩ := load_found hx h
    simp [readFile_of_succeeds hE, hl]

theorem lvc_of_boot {x : Setup N} (hx : x.Fresh) {E : ReadEnv} (hE : E.Succeeds) {disk : Disk}
    {s : SnapshotServer N} (hboot : boot E x disk = some s) {r : Router} {p : Option (Program N)}
    {bs : Bytes} (hsound : Sound r p) (hbuild : snapshotBuild r p = some bs)
    (hfile : disk.file = some bs) :
    s.router.lvc = r.lvc.filter fun e => cacheable x.router e.subject := by
  obtain ⟨l, hl, -, hlvc⟩ := load_built hx hsound hbuild
  simp only [boot, snapshotLoadFile, hfile, readFile_of_succeeds hE, hl, Option.map_some,
    Option.some.injEq] at hboot
  exact hboot ▸ hlvc

/-! ## Any number of lives -/

/-- The disks that processes leave, each of them set up anew and stopped after any
of its steps. -/
inductive Disks (P : Router → Option (Program N) → Prop) : Disk → Prop
  | first (disk : Disk) (h : ∀ bs, disk.file = some bs → headerOk bs = false) : Disks P disk
  | life {disk : Disk} {x : Setup N} {E : ReadEnv} {s s' : SnapshotServer N}
      {actions : List (SnapshotAction N)} {c : List (SnapshotEvent N)} (h : Disks P disk)
      (fresh : x.Fresh) (booted : boot E x disk = some s) (brings : ∀ a ∈ actions, a.Brings P)
      (run : collect SnapshotServer.step actions s = some (c, s')) : Disks P s'.disk

/-- A process up to any of its steps. -/
theorem writesBuilt_life {P : Router → Option (Program N) → Prop} {x : Setup N} {E : ReadEnv}
    {disk : Disk} {s s' : SnapshotServer N} {actions : List (SnapshotAction N)}
    {c : List (SnapshotEvent N)} (hboot : boot E x disk = some s) (hstart : P s.router s.program)
    (hbrings : ∀ a ∈ actions, a.Brings P)
    (hrun : collect SnapshotServer.step actions s = some (c, s')) :
    WritesBuilt P disk.file s' := by
  obtain ⟨l, -, rfl⟩ := Option.map_eq_some_iff.mp hboot
  refine writesBuilt_run hbrings ⟨jobsInv_start _ _ _ _, hstart, ?_, ?_, .inl rfl⟩ hrun
  · simp [SnapshotServer.start]
  · simp [SnapshotServer.start]

theorem found_of_disks {disk : Disk} (h : Disks (Sound (N := N)) disk) : Found N disk.file := by
  induction h with
  | first disk h => exact .inl h
  | @life disk x E s s' actions c _ fresh booted brings run ih =>
    rcases (writesBuilt_life booted (sound_of_boot fresh ih booted) brings run).file with hfile | hfile
    · exact hfile ▸ ih
    · exact .inr hfile

/-- However many processes were killed or shut down at whatever step, and whatever
they were set up with: the next one starts. It takes over the values of the
snapshot it finds, as far as its filters allow, and leaves the file or puts a
snapshot of one of its own states in its place. -/
theorem killed_servers_start_again {disk : Disk} (hdisk : Disks (Sound (N := N)) disk)
    {x : Setup N} (hx : x.Fresh) {E : ReadEnv} (hE : E.Succeeds) :
    ∃ s : SnapshotServer N, boot E x disk = some s ∧ Sound s.router s.program ∧
      (∀ r (p : Option (Program N)) bs, Sound r p → snapshotBuild r p = some bs →
        disk.file = some bs →
        s.router.lvc = r.lvc.filter fun e => cacheable x.router e.subject) ∧
      ∀ (P : Router → Option (Program N) → Prop) actions c s', P s.router s.program →
        (∀ a ∈ actions, SnapshotAction.Brings P a) →
        collect SnapshotServer.step actions s = some (c, s') →
        s'.disk.file = disk.file ∨ ∃ bs, s'.disk.file = some bs ∧ BuiltFrom P bs := by
  have hfound := found_of_disks hdisk
  obtain ⟨s, hboot⟩ := boot_of_found hx hE hfound
  refine ⟨s, hboot, sound_of_boot hx hfound hboot, ?_, ?_⟩
  · intro r p bs hsound hbuild hfile
    exact lvc_of_boot hx hE hboot hsound hbuild hfile
  · intro P actions c s' hstart hbrings hrun
    exact (writesBuilt_life hboot hstart hbrings hrun).file

/-- A router that caches everything. -/
def cachingRouter : Router := { routerInit with lvcEnabled := true, lvcFilters := [lit ">"] }

def cachedRouter (payload : Bytes) : Router :=
  (lvcStore Alloc.succeeds cachingRouter (lit "a") payload).1

/-- A snapshot is written, and the process is killed in the middle of the next. -/
def killedActions : List (SnapshotAction ℤ) :=
  let granted : Grants := ⟨true, true, true, true⟩
  [.change (cachedRouter (lit "1")) none, .timer granted, .work 0 true, .work 0 true, .work 0 true,
    .work 0 true, .afterWork 0 granted, .change (cachedRouter (lit "2")) none, .timer granted,
    .work 1 true, .work 1 true, .work 1 true]

def plainReads : ReadEnv := ⟨true, fun _ => ⟨none, true⟩, true⟩

theorem lvcInv_cachedRouter (payload : Bytes) : LvcInv (cachedRouter payload) := by
  have hcaching : LvcInv cachingRouter := lvcInv_init.of_entries rfl rfl rfl rfl
  exact hcaching.store _ _ _

theorem killed_server_starts_again : ∃ (disk : Disk) (s : SnapshotServer ℤ),
    disk.tmp.isSome = true ∧ boot plainReads ⟨cachingRouter, none⟩ disk = some s ∧
      s.router.lvc = [⟨lit "a", lit "1"⟩] := by
  have hfresh : (⟨cachingRouter, none⟩ : Setup ℤ).Fresh :=
    ⟨⟨rfl, rfl, rfl, rfl, rfl, rfl⟩, fun p hp => by cases hp⟩
  have hreads : plainReads.Succeeds := ⟨rfl, fun _ => ⟨rfl, rfl⟩, rfl⟩
  have hbrings : ∀ a ∈ killedActions, a.Brings (Sound (N := ℤ)) := by
    simp [killedActions, SnapshotAction.Brings, Sound, lvcInv_cachedRouter]
  have hrun : (collect SnapshotServer.step killedActions
      (.start cachingRouter none true ⟨none, none⟩)).map (fun x => (x.2.disk.tmp.isSome,
        x.2.disk.file == snapshotBuild (cachedRouter (lit "1")) (none : Option (Program ℤ)))) =
      some (true, true) := by decide +kernel
  obtain ⟨⟨c, s⟩, hrun, hdisk⟩ := Option.map_eq_some_iff.mp hrun
  simp only [Prod.mk.injEq, beq_iff_eq] at hdisk
  have hleft : Disks (Sound (N := ℤ)) s.disk :=
    .life (.first ⟨none, none⟩ fun _ h => by cases h) hfresh (E := plainReads) rfl hbrings hrun
  obtain ⟨s', hboot, -, hlvc, -⟩ := killed_servers_start_again hleft hfresh hreads
  obtain ⟨bs, hbs⟩ : ∃ bs, snapshotBuild (cachedRouter (lit "1")) (none : Option (Program ℤ)) = some bs :=
    Option.isSome_iff_exists.mp (by decide +kernel)
  refine ⟨s.disk, s', hdisk.1, hboot, ?_⟩
  rw [hlvc _ none bs ⟨lvcInv_cachedRouter _, fun q hq => by cases hq⟩ hbs (hdisk.2.trans hbs)]
  decide +kernel

end Monoblok.Snapshot
