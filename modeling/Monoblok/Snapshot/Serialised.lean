import Monoblok.Patchbay.Whole
import Monoblok.Snapshot.Jobs

/-!
# Snapshot writes are serialised

The job of the server is the only one in the pool. The main thread begins its last
write when there is none, so nobody else touches the files from then on.
-/

namespace Monoblok.Snapshot

open LittleEndian Patchbay Trace

variable {N : Type} [Number N]

/-! ## The invariant -/

/-- The job of the server against the pool. -/
structure OneJob (s : SnapshotServer N) : Prop where
  pool : s.pool.map SnapshotJob.id = s.snapshotJob.toList
  pending : s.snapshotWritePending = s.snapshotJob.isSome
  path : s.snapshotJob.isSome = true → s.snapshotPath = true

/-- How far the last write has come. -/
def LastWrite (s : SnapshotServer N) : Prop :=
  match s.phase with
  | .finishing => s.snapshotJob = none
  | .writing snapshot stage =>
    s.snapshotJob = none ∧ snapshotBuild s.router s.program = some snapshot ∧
      match stage with
      | .filled => s.disk.tmp = some snapshot
      | .done _ => False
      | _ => True
  | .closed written =>
    s.snapshotJob = none ∧
      (written = some true → ∃ bytes, snapshotBuild s.router s.program = some bytes ∧
        s.disk.file = some bytes)
  | _ => True

structure JobsInv (s : SnapshotServer N) : Prop where
  jobs : OneJob s
  last : LastWrite s

omit [Number N] in
theorem OneJob.pool_eq_nil_iff {s : SnapshotServer N} (h : OneJob s) :
    s.pool = [] ↔ s.snapshotJob = none := by
  rw [← List.map_eq_nil_iff (f := SnapshotJob.id), h.pool, Option.toList_eq_nil_iff]

omit [Number N] in
theorem OneJob.length_pool {s : SnapshotServer N} (h : OneJob s) : s.pool.length ≤ 1 := by
  rw [← List.length_map (f := SnapshotJob.id), h.pool]
  exact Option.length_toList_le

/-- In the loop the last write has not begun. -/
theorem lastWrite_of_inLoop {s : SnapshotServer N} (h : s.phase.inLoop = true) : LastWrite s := by
  unfold LastWrite
  cases hphase : s.phase with
  | running => trivial
  | draining => trivial
  | looping => trivial
  | checking => trivial
  | finishing => rw [hphase] at h; cases h
  | writing snapshot stage => rw [hphase] at h; cases h
  | closed written => rw [hphase] at h; cases h

/-! ## Callbacks of the loop -/

/-- What a timer callback does. -/
inductive TimerStep (s : SnapshotServer N) (g : Grants) :
    List (SnapshotEvent N) → SnapshotServer N → Prop
  | off (off : s.closing = true ∨ s.snapshotPath = false) : TimerStep s g [] s
  | deferred (isOpen : s.closing = false) (path : s.snapshotPath = true)
      (busy : s.snapshotWritePending = true) :
      TimerStep s g [.deferred] { s with snapshotWriteAgain := true }
  | failed (isOpen : s.closing = false) (path : s.snapshotPath = true)
      (free : s.snapshotWritePending = false) (refused : g.start s.router s.program = none) :
      TimerStep s g [.attempted s.router s.program none] s
  | unqueued (isOpen : s.closing = false) (path : s.snapshotPath = true)
      (free : s.snapshotWritePending = false) (refused : g.start s.router s.program = none) :
      TimerStep s g [.attempted s.router s.program none]
        { s with snapshotWritePending := false, snapshotJob := none, nextId := s.nextId + 1 }
  | started (bytes : Bytes) (isOpen : s.closing = false) (path : s.snapshotPath = true)
      (free : s.snapshotWritePending = false) (built : g.start s.router s.program = some bytes) :
      TimerStep s g [.attempted s.router s.program (some bytes)]
        { s with
          snapshotWritePending := true
          snapshotJob := some s.nextId
          pool := s.pool ++ [⟨s.nextId, bytes, .queued⟩]
          nextId := s.nextId + 1 }

theorem timerStep (s : SnapshotServer N) (g : Grants) :
    TimerStep s g (s.onSnapshotTimer g).1 (s.onSnapshotTimer g).2 := by
  unfold SnapshotServer.onSnapshotTimer
  by_cases hoff : (s.closing || !s.snapshotPath) = true
  · rw [if_pos hoff]
    exact .off (by simpa using hoff)
  rw [if_neg hoff]
  simp only [Bool.or_eq_true, Bool.not_eq_true', not_or, Bool.not_eq_true, Bool.not_eq_false] at hoff
  obtain ⟨hopen, hpath⟩ := hoff
  by_cases hpending : s.snapshotWritePending = true
  · rw [if_pos hpending]
    exact .deferred hopen hpath hpending
  rw [if_neg hpending]
  have hfree : s.snapshotWritePending = false := Bool.eq_false_iff.mpr hpending
  have hfailed := @TimerStep.failed N _ s g hopen hpath hfree
  by_cases hjob : g.job = false
  · rw [hjob, Bool.not_false, if_pos rfl]
    exact hfailed (by simp [Grants.start, hjob])
  by_cases hpathMem : g.path = false
  · rw [hpathMem, Bool.not_false, if_pos rfl, ite_self]
    exact hfailed (by simp [Grants.start, hpathMem])
  by_cases hsnapshot : g.snapshot = false
  · rw [hsnapshot, if_neg Bool.false_ne_true, ite_self, ite_self]
    exact hfailed (by simp [Grants.start, hsnapshot])
  have hjob := Bool.eq_true_of_not_eq_false hjob
  have hpathMem := Bool.eq_true_of_not_eq_false hpathMem
  have hsnapshot := Bool.eq_true_of_not_eq_false hsnapshot
  rw [hjob, hpathMem, hsnapshot, Bool.not_true, if_neg Bool.false_ne_true, if_neg Bool.false_ne_true, if_pos rfl]
  cases hbuild : snapshotBuild s.router s.program with
  | none => exact hfailed (by simp [Grants.start, hbuild])
  | some bytes =>
    by_cases hqueue : g.queue = false
    · rw [hqueue, Bool.not_false]
      exact .unqueued hopen hpath hfree (by simp [Grants.start, hqueue])
    · have hqueue := Bool.eq_true_of_not_eq_false hqueue
      rw [hqueue, Bool.not_true]
      exact .started bytes hopen hpath hfree
        (by simp [Grants.start, hjob, hpathMem, hsnapshot, hqueue, hbuild])

theorem oneJob_onSnapshotTimer {s : SnapshotServer N} (g : Grants) (h : OneJob s) :
    OneJob (s.onSnapshotTimer g).2 := by
  have hnone : s.snapshotWritePending = false → s.snapshotJob = none := by
    intro hfree
    rw [h.pending] at hfree
    simpa using hfree
  have hstep := timerStep s g
  generalize (s.onSnapshotTimer g).1 = d at hstep
  generalize (s.onSnapshotTimer g).2 = s' at hstep ⊢
  cases hstep with
  | off _ => exact h
  | deferred _ _ _ => exact ⟨h.pool, h.pending, h.path⟩
  | failed _ _ _ _ => exact h
  | unqueued _ _ hfree _ =>
    refine ⟨?_, rfl, fun hsome => by cases hsome⟩
    dsimp only
    rw [h.pool, hnone hfree]
  | started bytes _ hpath hfree _ =>
    refine ⟨?_, rfl, fun _ => hpath⟩
    dsimp only
    rw [List.map_append, h.pool, hnone hfree]
    rfl

omit [Number N] in
/-- The job that has come to its end leaves the pool. -/
theorem oneJob_clearJob {s : SnapshotServer N} {id : ℕ} {job : SnapshotJob} (h : OneJob s)
    (hfind : s.pool.find? (fun job => job.id = id) = some job) :
    OneJob (s.clearJob id) ∧ (s.clearJob id).pool = [] := by
  have hid : job.id = id := by simpa using List.find?_some hfind
  have hmem : job ∈ s.pool := List.mem_of_find?_eq_some hfind
  have hjob : s.snapshotJob = some id := by
    have hmem : id ∈ s.pool.map SnapshotJob.id := List.mem_map.mpr ⟨job, hmem, hid⟩
    rw [h.pool, Option.mem_toList] at hmem
    exact hmem
  have hempty : (s.clearJob id).pool = [] := by
    apply List.filter_eq_nil_iff.mpr
    intro other hother
    have hother : other.id ∈ s.pool.map SnapshotJob.id := List.mem_map_of_mem hother
    rw [h.pool, hjob] at hother
    simpa using hother
  refine ⟨⟨?_, rfl, fun hsome => by cases hsome⟩, hempty⟩
  rw [hempty]
  rfl

theorem oneJob_snapshotAfterWork {s : SnapshotServer N} {id : ℕ} {job : SnapshotJob} (g : Grants)
    (h : OneJob s) (hfind : s.pool.find? (fun job => job.id = id) = some job) :
    OneJob (s.snapshotAfterWork id g).2 := by
  have hcleared := (oneJob_clearJob h hfind).1
  unfold SnapshotServer.snapshotAfterWork
  dsimp only
  split_ifs
  · apply oneJob_onSnapshotTimer
    exact ⟨hcleared.pool, hcleared.pending, hcleared.path⟩
  · exact hcleared

theorem phase_onSnapshotTimer (s : SnapshotServer N) (g : Grants) :
    (s.onSnapshotTimer g).2.phase = s.phase := by
  have hstep := timerStep s g
  generalize (s.onSnapshotTimer g).1 = d at hstep
  generalize (s.onSnapshotTimer g).2 = s' at hstep ⊢
  cases hstep <;> rfl

theorem phase_snapshotAfterWork (s : SnapshotServer N) (id : ℕ) (g : Grants) :
    (s.snapshotAfterWork id g).2.phase = s.phase := by
  unfold SnapshotServer.snapshotAfterWork
  dsimp only
  split_ifs
  · exact phase_onSnapshotTimer _ g
  · rfl

/-! ## The pool -/

theorem id_work (ok : Bool) (job : SnapshotJob) (disk : Disk) : (job.work ok disk).1.id = job.id := by
  unfold SnapshotJob.work
  cases job.stage <;> rfl

theorem id_cancel (job : SnapshotJob) : job.cancel.id = job.id := by
  unfold SnapshotJob.cancel
  cases job.stage <;> rfl

theorem map_id_update {pool : List SnapshotJob} {id : ℕ} {f : SnapshotJob → SnapshotJob}
    (hf : ∀ job ∈ pool, job.id = id → (f job).id = id) :
    (pool.map fun job => if job.id = id then f job else job).map SnapshotJob.id =
      pool.map SnapshotJob.id := by
  rw [List.map_map]
  apply List.map_congr_left
  intro job hmem
  dsimp only [Function.comp]
  split_ifs with hid
  · exact (hf job hmem hid).trans hid.symm
  · rfl

/-! ## The last write -/

theorem lastWrite_finalWrite {s : SnapshotServer N} {snapshot : Bytes} {stage : WriteStage}
    (ok : Bool) (h : LastWrite s) (hphase : s.phase = .writing snapshot stage) :
    LastWrite (s.finalWrite ok snapshot stage) := by
  unfold LastWrite at h
  rw [hphase] at h
  obtain ⟨hnone, hbuild, hstage⟩ := h
  unfold SnapshotServer.finalWrite
  cases stage with
  | ready =>
    cases ok with
    | true => exact ⟨hnone, hbuild, trivial⟩
    | false => exact ⟨hnone, fun h => by cases h⟩
  | opened =>
    cases ok with
    | true => exact ⟨hnone, hbuild, rfl⟩
    | false => exact ⟨hnone, fun h => by cases h⟩
  | filled =>
    unfold writeStep
    cases ok with
    | true =>
      simp only [hstage]
      exact ⟨hnone, fun _ => ⟨snapshot, hbuild, rfl⟩⟩
    | false => exact ⟨hnone, fun h => by cases h⟩
  | done result => exact hstage.elim

theorem lastWrite_finalBuild {s : SnapshotServer N} (memory : Bool) (hnone : s.snapshotJob = none) :
    LastWrite (s.finalBuild memory) := by
  unfold SnapshotServer.finalBuild
  split_ifs with hpath hmemory
  · exact ⟨hnone, fun h => by cases h⟩
  · cases hbuild : snapshotBuild s.router s.program with
    | none => exact ⟨hnone, fun h => by cases h⟩
    | some bytes => exact ⟨hnone, hbuild, trivial⟩
  · exact ⟨hnone, fun h => by cases h⟩

/-! ## Any step -/

/-- A step that touches neither the job nor the phase. -/
theorem LastWrite.early {s s' : SnapshotServer N} (hjob : s.snapshotJob ≠ none) (h : LastWrite s)
    (hphase : s'.phase = s.phase) : LastWrite s' := by
  unfold LastWrite at h ⊢
  rw [hphase]
  cases hp : s.phase with
  | running => trivial
  | draining => trivial
  | checking => trivial
  | looping => trivial
  | finishing =>
    rw [hp] at h
    exact absurd h hjob
  | writing snapshot stage =>
    rw [hp] at h
    exact absurd h.1 hjob
  | closed written =>
    rw [hp] at h
    exact absurd h.1 hjob

theorem jobsInv_step {s s' : SnapshotServer N} {a : SnapshotAction N} {d : List (SnapshotEvent N)}
    (hs : JobsInv s) (hstep : SnapshotServer.step a s = some (d, s')) : JobsInv s' := by
  obtain ⟨hjobs, hlast⟩ := hs
  unfold SnapshotServer.step at hstep
  cases a with
  | change router program =>
    dsimp only at hstep
    split_ifs at hstep with hloop
    cases hstep
    exact ⟨⟨hjobs.pool, hjobs.pending, hjobs.path⟩, lastWrite_of_inLoop hloop⟩
  | timer g =>
    dsimp only at hstep
    split_ifs at hstep with hloop
    have hnext := oneJob_onSnapshotTimer g hjobs
    have hphase := phase_onSnapshotTimer s g
    rw [Option.some.inj hstep] at hnext hphase
    exact ⟨hnext, lastWrite_of_inLoop (hphase ▸ hloop)⟩
  | work id ok =>
    dsimp only at hstep
    split at hstep
    · cases hstep
    · rename_i job hfind
      cases hstep
      have hid : job.id = id := by simpa using List.find?_some hfind
      have hbusy : s.snapshotJob ≠ none := by
        intro hnone
        rw [hjobs.pool_eq_nil_iff.mpr hnone] at hfind
        cases hfind
      refine ⟨⟨?_, hjobs.pending, hjobs.path⟩, hlast.early hbusy rfl⟩
      dsimp only
      rw [map_id_update (fun _ _ _ => (id_work ok job s.disk).trans hid)]
      exact hjobs.pool
  | afterWork id g =>
    dsimp only at hstep
    split at hstep
    · cases hstep
    · rename_i job hfind
      split_ifs at hstep with hready
      have hloop : s.phase.inLoop = true := (Bool.and_eq_true_iff.mp hready).1
      have hnext := oneJob_snapshotAfterWork g hjobs hfind
      have hphase := phase_snapshotAfterWork s id g
      rw [Option.some.inj hstep] at hnext hphase
      exact ⟨hnext, lastWrite_of_inLoop (hphase ▸ hloop)⟩
  | signal =>
    dsimp only at hstep
    split_ifs at hstep with hloop
    cases hstep
    exact ⟨⟨hjobs.pool, hjobs.pending, hjobs.path⟩, lastWrite_of_inLoop hloop⟩
  | close =>
    dsimp only at hstep
    split at hstep
    · cases hstep
      refine ⟨⟨?_, hjobs.pending, hjobs.path⟩, trivial⟩
      unfold SnapshotServer.beginClose
      cases hjob : s.snapshotJob with
      | none =>
        dsimp only
        rw [hjobs.pool, hjob]
      | some id =>
        dsimp only
        rw [map_id_update (fun job _ hid => (id_cancel job).trans hid), hjobs.pool, hjob]
    · cases hstep
  | runReturns alive =>
    dsimp only at hstep
    split at hstep
    · cases hstep
    rename_i hwait
    split at hstep
    · cases hstep
      exact ⟨⟨hjobs.pool, hjobs.pending, hjobs.path⟩, trivial⟩
    · split_ifs at hstep with halive
      · cases hstep
        exact ⟨⟨hjobs.pool, hjobs.pending, hjobs.path⟩, trivial⟩
      · cases hstep
        refine ⟨⟨hjobs.pool, hjobs.pending, hjobs.path⟩, ?_⟩
        -- the loop has run out of requests
        have hempty : s.pool = [] := by
          by_contra hne
          have hsome : s.pool.isEmpty = false := by simpa using hne
          simp only [hsome, Bool.not_false, Bool.and_true, Bool.or_true, Bool.not_eq_true'] at hwait halive
          exact halive (by simpa using hwait)
        exact hjobs.pool_eq_nil_iff.mp hempty
    · cases hstep
  | check =>
    dsimp only at hstep
    split at hstep
    · cases hstep
      refine ⟨⟨hjobs.pool, hjobs.pending, hjobs.path⟩, ?_⟩
      cases hjob : s.snapshotJob with
      | none =>
        rw [Option.isSome_none, if_neg Bool.false_ne_true]
        rfl
      | some id => trivial
    · cases hstep
  | finalBuild memory =>
    dsimp only at hstep
    split at hstep
    · rename_i hphase
      have hnone : s.snapshotJob = none := by
        unfold LastWrite at hlast
        rw [hphase] at hlast
        exact hlast
      have hnext := lastWrite_finalBuild memory hnone
      have hkept : OneJob (s.finalBuild memory) := by
        unfold SnapshotServer.finalBuild
        split_ifs
        · exact ⟨hjobs.pool, hjobs.pending, hjobs.path⟩
        · split <;> exact ⟨hjobs.pool, hjobs.pending, hjobs.path⟩
        · exact ⟨hjobs.pool, hjobs.pending, hjobs.path⟩
      have heq : s.finalBuild memory = s' := congrArg Prod.snd (Option.some.inj hstep)
      rw [← heq]
      exact ⟨hkept, hnext⟩
    · cases hstep
  | finalWrite ok =>
    dsimp only at hstep
    split at hstep
    · rename_i snapshot stage hphase
      have hnext := lastWrite_finalWrite ok hlast hphase
      have hkept : OneJob (s.finalWrite ok snapshot stage) := ⟨hjobs.pool, hjobs.pending, hjobs.path⟩
      have heq : s.finalWrite ok snapshot stage = s' := congrArg Prod.snd (Option.some.inj hstep)
      rw [← heq]
      exact ⟨hkept, hnext⟩
    · cases hstep

theorem jobsInv_start (router : Router) (program : Option (Program N)) (snapshotPath : Bool)
    (disk : Disk) : JobsInv (.start router program snapshotPath disk) :=
  ⟨⟨rfl, rfl, fun h => by cases h⟩, trivial⟩

/-! ## A deferred snapshot -/

/-- Another snapshot is due, unless the server shuts down. -/
def Due (s : SnapshotServer N) : Prop := s.snapshotWriteAgain = true ∨ s.closing = true

def SnapshotAction.isAfterWork : SnapshotAction N → Bool
  | .afterWork _ _ => true
  | _ => false

theorem due_onSnapshotTimer {s : SnapshotServer N} (g : Grants) (h : Due s) :
    Due (s.onSnapshotTimer g).2 := by
  have hstep := timerStep s g
  generalize (s.onSnapshotTimer g).1 = d at hstep
  generalize (s.onSnapshotTimer g).2 = s' at hstep ⊢
  cases hstep with
  | off _ => exact h
  | deferred _ _ _ => exact .inl rfl
  | failed _ _ _ _ => exact h
  | unqueued _ _ _ _ => exact h
  | started _ _ _ _ _ => exact h

/-- Only the end of the job forgets that a snapshot is due. -/
theorem due_step {s s' : SnapshotServer N} {a : SnapshotAction N} {d : List (SnapshotEvent N)}
    (ha : a.isAfterWork = false) (hs : Due s ∧ s.snapshotPath = true)
    (hstep : SnapshotServer.step a s = some (d, s')) : Due s' ∧ s'.snapshotPath = true := by
  obtain ⟨hdue, hpath⟩ := hs
  unfold SnapshotServer.step at hstep
  cases a with
  | change router program =>
    dsimp only at hstep
    split_ifs at hstep
    cases hstep
    exact ⟨hdue, hpath⟩
  | timer g =>
    dsimp only at hstep
    split_ifs at hstep
    have hnext := due_onSnapshotTimer g hdue
    have hkept := timerStep s g
    rw [Option.some.inj hstep] at hnext hkept
    refine ⟨hnext, ?_⟩
    dsimp only at hkept
    cases hkept <;> exact hpath
  | work id ok =>
    dsimp only at hstep
    split at hstep
    · cases hstep
    · cases hstep
      exact ⟨hdue, hpath⟩
  | afterWork id g => cases ha
  | signal =>
    dsimp only at hstep
    split_ifs at hstep
    cases hstep
    exact ⟨.inr rfl, hpath⟩
  | close =>
    dsimp only at hstep
    split at hstep
    · cases hstep
      exact ⟨.inr rfl, hpath⟩
    · cases hstep
  | runReturns alive =>
    dsimp only at hstep
    split at hstep
    · cases hstep
    split at hstep
    · cases hstep
      exact ⟨hdue, hpath⟩
    · split_ifs at hstep
      · cases hstep
        exact ⟨hdue, hpath⟩
      · cases hstep
        exact ⟨hdue, hpath⟩
    · cases hstep
  | check =>
    dsimp only at hstep
    split at hstep
    · cases hstep
      exact ⟨hdue, hpath⟩
    · cases hstep
  | finalBuild memory =>
    dsimp only at hstep
    split at hstep
    · have hkept : Due (s.finalBuild memory) ∧ (s.finalBuild memory).snapshotPath = true := by
        unfold SnapshotServer.finalBuild
        split_ifs
        · exact ⟨hdue, hpath⟩
        · split <;> exact ⟨hdue, hpath⟩
        · exact ⟨hdue, hpath⟩
      have heq : s.finalBuild memory = s' := congrArg Prod.snd (Option.some.inj hstep)
      rw [← heq]
      exact hkept
    · cases hstep
  | finalWrite ok =>
    dsimp only at hstep
    split at hstep
    · cases hstep
      exact ⟨hdue, hpath⟩
    · cases hstep

/-- A job comes to its end with a snapshot due. -/
theorem attempted_of_due {s s' : SnapshotServer N} {id : ℕ} {g : Grants}
    {d : List (SnapshotEvent N)} (hs : OneJob s) (hdue : Due s) (hpath : s.snapshotPath = true)
    (hopen : s.closing = false) (hstep : SnapshotServer.step (.afterWork id g) s = some (d, s')) :
    d = [.completed id, .attempted s.router s.program (g.start s.router s.program)] ∧
      s'.pool.map SnapshotJob.snapshot = (g.start s.router s.program).toList := by
  have hagain : s.snapshotWriteAgain = true := by
    rcases hdue with hdue | hdue
    · exact hdue
    · rw [hopen] at hdue
      cases hdue
  unfold SnapshotServer.step at hstep
  dsimp only at hstep
  split at hstep
  · cases hstep
  · rename_i job hfind
    split_ifs at hstep
    have hempty := (oneJob_clearJob hs hfind).2
    have hnext := timerStep { s.clearJob id with snapshotWriteAgain := false } g
    have hwork : s.snapshotAfterWork id g =
        (.completed id :: ({ s.clearJob id with snapshotWriteAgain := false }.onSnapshotTimer g).1,
          ({ s.clearJob id with snapshotWriteAgain := false }.onSnapshotTimer g).2) := by
      unfold SnapshotServer.snapshotAfterWork SnapshotServer.clearJob
      dsimp only
      rw [hopen, hagain]
      rfl
    rw [hwork] at hstep
    generalize ({ s.clearJob id with snapshotWriteAgain := false }.onSnapshotTimer g).1 = d' at hnext hstep
    generalize ({ s.clearJob id with snapshotWriteAgain := false }.onSnapshotTimer g).2 = s₁ at hnext hstep
    cases hstep
    cases hnext with
    | off hoff =>
      rcases hoff with hoff | hoff
      · exact absurd (hopen.symm.trans hoff) Bool.noConfusion
      · exact absurd (hpath.symm.trans hoff) Bool.noConfusion
    | deferred _ _ hbusy => exact absurd hbusy Bool.noConfusion
    | failed _ _ _ hrefused =>
      change g.start s.router s.program = none at hrefused
      rw [hrefused]
      exact ⟨rfl, by rw [hempty]; rfl⟩
    | unqueued _ _ _ hrefused =>
      change g.start s.router s.program = none at hrefused
      rw [hrefused]
      refine ⟨rfl, ?_⟩
      dsimp only
      rw [hempty]
      rfl
    | started bytes _ _ _ hbuilt =>
      change g.start s.router s.program = some bytes at hbuilt
      rw [hbuilt]
      refine ⟨rfl, ?_⟩
      dsimp only
      rw [hempty]
      rfl

/-! ## The claims of the design -/

/-- What holds of a server that writes its snapshots one after the other. -/
structure Serialised (s : SnapshotServer N) : Prop where
  one : s.pool.length ≤ 1
  /-- A timer callback finds a job; when that job ends, and the server is still open,
  a snapshot is built from the state there is then. -/
  again : ∀ g d s₁, SnapshotServer.step (.timer g) s = some (d, s₁) → s.pool ≠ [] →
    s.closing = false → ∀ waiting c s₂, (∀ a ∈ waiting, SnapshotAction.isAfterWork a = false) →
      collect SnapshotServer.step waiting s₁ = some (c, s₂) → s₂.closing = false →
        ∀ id g' d' s₃, SnapshotServer.step (.afterWork id g') s₂ = some (d', s₃) →
          d' = [.completed id, .attempted s₂.router s₂.program (g'.start s₂.router s₂.program)] ∧
            s₃.pool.map SnapshotJob.snapshot = (g'.start s₂.router s₂.program).toList
  last : s.phase = .closed (some true) →
    ∃ bytes, snapshotBuild s.router s.program = some bytes ∧ s.disk.file = some bytes

/-- Every run, with any failures. -/
theorem snapshot_writes_serialised (router : Router) (program : Option (Program N))
    (snapshotPath : Bool) (disk : Disk) (actions : List (SnapshotAction N))
    (c : List (SnapshotEvent N)) (s : SnapshotServer N)
    (hrun : collect SnapshotServer.step actions (.start router program snapshotPath disk) =
      some (c, s)) : Serialised s := by
  have hkept : ∀ (c : List (SnapshotEvent N)) (s : SnapshotServer N) a d s', JobsInv s →
      SnapshotServer.step a s = some (d, s') → JobsInv s' := fun _ _ _ _ _ => jobsInv_step
  have hstart := jobsInv_start router program snapshotPath disk
  have hinv : JobsInv s :=
    @collect_invariant _ _ _ _ (fun _ => JobsInv) hkept actions _ _ [] c hstart hrun
  constructor
  · exact hinv.jobs.length_pool
  · intro g d s₁ htimer hbusy hopen waiting c₂ s₂ hwaiting hrun₂ hopen₂ id g' d' s₃ hafter
    have hsome : s.snapshotJob.isSome = true := by
      rw [Option.isSome_iff_ne_none]
      exact fun hnone => hbusy (hinv.jobs.pool_eq_nil_iff.mpr hnone)
    have hdue : Due s₁ ∧ s₁.snapshotPath = true := by
      unfold SnapshotServer.step at htimer
      dsimp only at htimer
      split_ifs at htimer
      have hnext := timerStep s g
      rw [Option.some.inj htimer] at hnext
      dsimp only at hnext
      have hpending := hinv.jobs.pending.trans hsome
      cases hnext with
      | off hoff =>
        rcases hoff with hoff | hoff
        · exact absurd (hopen.symm.trans hoff) Bool.noConfusion
        · exact absurd ((hinv.jobs.path hsome).symm.trans hoff) Bool.noConfusion
      | deferred _ hpath _ => exact ⟨.inl rfl, hpath⟩
      | failed _ _ hfree _ => exact absurd (hpending.symm.trans hfree) Bool.noConfusion
      | unqueued _ _ hfree _ => exact absurd (hpending.symm.trans hfree) Bool.noConfusion
      | started _ _ _ hfree _ => exact absurd (hpending.symm.trans hfree) Bool.noConfusion
    have hinv₁ : JobsInv s₁ := jobsInv_step hinv htimer
    have hrest : JobsInv s₂ ∧ Due s₂ ∧ s₂.snapshotPath = true := by
      clear hafter hopen₂ htimer
      induction waiting generalizing s₁ c₂ with
      | nil =>
        cases hrun₂
        exact ⟨hinv₁, hdue⟩
      | cons a waiting ih =>
        cases collected_of_collect hrun₂ with
        | mk hfirst hrest =>
          exact ih _ _ (fun a ha => hwaiting a (List.mem_cons_of_mem _ ha)) hrest
            (due_step (hwaiting a List.mem_cons_self) hdue hfirst) (jobsInv_step hinv₁ hfirst)
    exact attempted_of_due hrest.1.jobs hrest.2.1 hrest.2.2 hopen₂ hafter
  · intro hclosed
    have hlast := hinv.last
    unfold LastWrite at hlast
    rw [hclosed] at hlast
    exact hlast.2 rfl

/-- A job is under way when the timer fires again and the server is told to shut
down. -/
def lateShutdown : List (SnapshotAction ℤ) :=
  let granted : Grants := ⟨true, true, true, true⟩
  [.timer granted, .work 0 true, .work 0 true, .timer granted, .work 0 true, .work 0 true,
    .afterWork 0 granted,
    .change { routerInit with lvc := [⟨lit "a", lit "1"⟩], lvcPayloadCaps := [1024] } none,
    .work 1 true, .signal, .close, .work 1 true,
    .runReturns true, .check, .work 1 true, .work 1 true, .afterWork 1 granted, .runReturns false,
    .finalBuild true, .finalWrite true, .finalWrite true, .finalWrite true]

theorem lateShutdown_serialised : ∃ c s,
    collect SnapshotServer.step lateShutdown (.start routerInit none true ⟨none, none⟩) = some (c, s) ∧
      s.disk.file = some (header ++ 1 :: (encode 4 1 ++ lit "a" ++ encode 4 1 ++ lit "1")) ∧
        Serialised s := by
  have hrun : (collect SnapshotServer.step lateShutdown
      (.start routerInit none true ⟨none, none⟩)).map (fun x => x.2.disk.file) =
      some (some (header ++ 1 :: (encode 4 1 ++ lit "a" ++ encode 4 1 ++ lit "1"))) := by
    decide +kernel
  obtain ⟨⟨c, s⟩, hrun, hfile⟩ := Option.map_eq_some_iff.mp hrun
  exact ⟨c, s, hrun, hfile,
    snapshot_writes_serialised routerInit none true ⟨none, none⟩ lateShutdown c s hrun⟩

end Monoblok.Snapshot
