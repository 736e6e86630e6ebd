import Monoblok.Patchbay.Positions
import Monoblok.Snapshot.Format

/-!
# Reachable machines

The states a program comes to by messages, ticks and catching up at any times,
and by loads of snapshots, whatever these hold. A property of single slots that
forms and ticks keep, and that restored slots have, holds in all of them.
-/

namespace Monoblok.Snapshot

open Patchbay Relational Number

variable {N W : Type} [Number N]

/-! ## Reachable machines -/

/-- Every request for memory is met. -/
def AllMemory (A : EvalAlloc → Bool) : Prop := ∀ site, A site = true

/-- The machines reached from a freshly loaded program, in surroundings that have
memory. -/
inductive Reachable (rules : List (RuleSource N)) (usesClock : Bool) : Machine N W → Prop
  | load (world : W) : Reachable rules usesClock ⟨loadProgram rules usesClock, world⟩
  | world {m : Machine N W} (world : W) (h : Reachable rules usesClock m) :
      Reachable rules usesClock { m with world := world }
  | publish {m m' : Machine N W} (env : Env N W) (memory : AllMemory env.alloc)
      (t : Moment) (subject payload : Bytes) {ok : Bool} (h : Reachable rules usesClock m)
      (run : evalPublish env t subject payload m = some (ok, m')) : Reachable rules usesClock m'
  | tick {m m' : Machine N W} (env : Env N W) (memory : AllMemory env.alloc)
      (t : Moment) {ok : Bool} (h : Reachable rules usesClock m)
      (run : tick env t m = some (ok, m')) : Reachable rules usesClock m'
  | tickUntil {m m' : Machine N W} (env : Env N W) (memory : AllMemory env.alloc)
      (t : Moment) {ok : Bool} (h : Reachable rules usesClock m)
      (run : tickUntil env t m = some (ok, m')) : Reachable rules usesClock m'
  | snapshot {m : Machine N W} {bytes : Bytes} {r : Router} {l : Loading N} {p : Program N}
      (h : Reachable rules usesClock m)
      (load : snapshotLoad bytes r (some m.program) = some l) (program : l.program = some p) :
      Reachable rules usesClock { m with program := p }

/-! ## Properties of slots -/

/-- A property of slots that fresh ones have, and that forms and ticks keep. -/
structure SlotInvariant (A : EvalAlloc → Bool) (P : StateEntry N → Prop) : Prop where
  fresh : ∀ k, P (freshEntry k)
  form : ∀ (now : UInt64) {α : Type} {op : Bytes} {f : StateEntry N → SlotStep N α},
    SlotForm A now op f → ∀ e, e.op = op → P e → P (f e).entry
  clock : ∀ now e, P e → P (tickClock A now e).entry
  window : ∀ now e, P e → P (tickWindow now e).entry

variable {P : StateEntry N → Prop}

/-- The same machine, each of its slots with a property. -/
abbrev WithSlots (P : StateEntry N → Prop) : Machine N W → Machine N W → Prop :=
  Linked (fun p p' => p = p') (fun _ st st' => st = st' ∧ AllSlots P st) fun w w' => w = w'

omit [Number N] in
theorem withSlots_self {m : Machine N W} (h : ∀ j, AllSlots P (m.ruleState j)) : WithSlots P m m :=
  ⟨rfl, fun j => ⟨rfl, h j⟩, rfl⟩

theorem compatible_withSlots {env : Env N W} (h : SlotInvariant env.alloc P) :
    Compatible env (WithSlots (N := N) (W := W) P) := by
  have hlink : LinkOk env (fun _ _ _ => True) (fun p p' => p = p')
      (fun _ st st' => st = st' ∧ AllSlots P st) fun w w' => w = w' := by
    refine ⟨?_, ?_, ?_⟩
    · rintro p _ rfl j -
      exact Iff.rfl
    · rintro j s now - α op f hform st _ ⟨rfl, hst⟩
      exact ⟨rfl, rfl, hst.slotStep env.alloc _ (h.fresh _) (h.form now hform)⟩
    · rintro subject payload w _ rfl
      exact ⟨rfl, rfl⟩
  refine hlink.compatible ?_ And.left
  refine ⟨?_, ?_, ?_, ?_⟩
  · rintro j i now st _ ⟨rfl, hst⟩
    exact ⟨rfl, rfl, hst.stepAt (h.clock now) i⟩
  · rintro j i now st _ ⟨rfl, hst⟩
    exact ⟨rfl, rfl, hst.stepAt (h.window now) i⟩
  · rintro j st _ ⟨rfl, -⟩
    rfl
  · rintro j st _ ⟨rfl, -⟩
    rfl

/-! ## Restored slots -/

/-- What a reader makes of a slot record: a count ring has room for its samples. -/
def Saved.Loaded : Saved N → Prop
  | .countRing cap len _ values => len ≤ cap ∧ values.length = len
  | _ => True

theorem length_readValues {n : ℕ} :
    ∀ {bs : Bytes} {xs : List N}, readValues n bs = some xs → xs.length = n := by
  induction n with
  | zero =>
    intro bs xs h
    cases h
    rfl
  | succ n ih =>
    intro bs xs h
    obtain ⟨⟨x, bs₁⟩, -, h⟩ := Option.bind_eq_some_iff.mp h
    obtain ⟨ys, hys, h⟩ := Option.bind_eq_some_iff.mp h
    cases h
    rw [List.length_cons, ih hys]

theorem loaded_loadCountRing {bs rest : Bytes} {s : Saved N}
    (h : loadCountRing bs = some (s, rest)) : s.Loaded := by
  obtain ⟨⟨cap, bs₁⟩, -, h⟩ := Option.bind_eq_some_iff.mp h
  obtain ⟨⟨len, bs₂⟩, -, h⟩ := Option.bind_eq_some_iff.mp h
  obtain ⟨⟨sum, bs₃⟩, -, h⟩ := Option.bind_eq_some_iff.mp h
  obtain ⟨capBytes, -, h⟩ := Option.bind_eq_some_iff.mp h
  dsimp only at h
  split_ifs at h with hlen
  obtain ⟨bs₄, -, h⟩ := Option.bind_eq_some_iff.mp h
  obtain ⟨⟨maxLen, bs₅⟩, -, h⟩ := Option.bind_eq_some_iff.mp h
  obtain ⟨bs₆, -, h⟩ := Option.bind_eq_some_iff.mp h
  obtain ⟨⟨minLen, bs₇⟩, -, h⟩ := Option.bind_eq_some_iff.mp h
  obtain ⟨bs₈, -, h⟩ := Option.bind_eq_some_iff.mp h
  obtain ⟨xs, hxs, h⟩ := Option.bind_eq_some_iff.mp h
  cases h
  exact ⟨not_lt.mp hlen, length_readValues hxs⟩

theorem loaded_loadVariant {variant : UInt8} {bs rest : Bytes} {s : Saved N}
    (h : loadVariant variant bs = some (s, rest)) : s.Loaded := by
  unfold loadVariant at h
  split_ifs at h
  · cases h
    trivial
  · obtain ⟨x, -, hx⟩ := Option.map_eq_some_iff.mp h
    cases hx
    trivial
  · obtain ⟨x, -, hx⟩ := Option.map_eq_some_iff.mp h
    cases hx
    trivial
  · exact loaded_loadCountRing h
  · unfold loadBar at h
    simp only [Option.bind_eq_bind, Option.bind_eq_some_iff] at h
    obtain ⟨_, -, _, -, _, -, _, -, _, -, _, -, _, -, _, -, heq⟩ := h
    cases heq
    trivial
  · unfold loadTimeRing at h
    simp only [Option.bind_eq_bind, Option.bind_eq_some_iff] at h
    obtain ⟨_, -, _, -, _, -, _, -, heq⟩ := h
    cases heq
    trivial

/-! ## What a load does -/

/-- The slot of a record has gone into its rule. -/
def SlotAdded (p p' : Program N) : Prop :=
  ∃ (idx : ℕ) (filter key : Bytes) (s : Saved N), s.Loaded ∧ appendState p idx filter key s = some p'

theorem slotsAdded_loadRecord {l l' : Loading N} {bs rest : Bytes}
    (h : loadRecord l bs = some (l', rest)) {p' : Program N} (program : l'.program = some p') :
    ∃ p, l.program = some p ∧ Relation.ReflTransGen SlotAdded p p' := by
  unfold loadRecord at h
  obtain ⟨⟨kind, bs₁⟩, -, h⟩ := Option.bind_eq_some_iff.mp h
  dsimp only at h
  split_ifs at h
  · unfold loadLvc at h
    obtain ⟨⟨subject, bs₂⟩, -, h⟩ := Option.bind_eq_some_iff.mp h
    obtain ⟨⟨payload, bs₃⟩, -, h⟩ := Option.bind_eq_some_iff.mp h
    dsimp only at h
    split at h
    · cases h
    · cases h
      exact ⟨p', program, .refl⟩
  · split at h
    · obtain ⟨bs₂, -, heq⟩ := Option.map_eq_some_iff.mp h
      cases heq
      exact ⟨p', program, .refl⟩
    · rename_i p hp
      unfold loadRuleState at h
      obtain ⟨⟨⟨idx, filter, key, variant⟩, bs₂⟩, -, h⟩ := Option.bind_eq_some_iff.mp h
      obtain ⟨⟨saved, bs₃⟩, hsaved, h⟩ := Option.bind_eq_some_iff.mp h
      dsimp only at h
      split at h
      · cases h
        exact ⟨p', program, .refl⟩
      · rename_i q hq
        cases h
        obtain rfl : q = p' := Option.some.inj program
        exact ⟨p, hp, .single ⟨idx, filter, key, saved, loaded_loadVariant hsaved, hq⟩⟩

theorem slotsAdded_loadRecords {fuel : ℕ} {l l' : Loading N} {bs : Bytes}
    (h : loadRecords fuel l bs = some l') {p' : Program N} (program : l'.program = some p') :
    ∃ p, l.program = some p ∧ Relation.ReflTransGen SlotAdded p p' := by
  induction fuel generalizing l bs with
  | zero =>
    cases bs with
    | nil =>
      cases h
      exact ⟨p', program, .refl⟩
    | cons b bs => cases h
  | succ fuel ih =>
    cases bs with
    | nil =>
      cases h
      exact ⟨p', program, .refl⟩
    | cons b bs =>
      obtain ⟨⟨l₁, rest⟩, hrecord, hrest⟩ := Option.bind_eq_some_iff.mp h
      obtain ⟨p₁, hp₁, hafter⟩ := ih hrest
      obtain ⟨p, hp, hbefore⟩ := slotsAdded_loadRecord hrecord hp₁
      exact ⟨p, hp, hbefore.trans hafter⟩

/-- A load only adds slots to the rules. -/
theorem slotsAdded_snapshotLoad {bytes : Bytes} {r : Router} {p p' : Program N} {l : Loading N}
    (load : snapshotLoad bytes r (some p) = some l) (program : l.program = some p') :
    Relation.ReflTransGen SlotAdded p p' := by
  unfold snapshotLoad at load
  dsimp only at load
  split_ifs at load
  · obtain ⟨p₁, hp₁, hadded⟩ := slotsAdded_loadRecords load program
    cases hp₁
    exact hadded
  · cases load
    cases program
    exact .refl

/-- Every slot of a program has a property. -/
def ProgramHas (P : StateEntry N → Prop) (p : Program N) : Prop :=
  ∀ r ∈ p.rules, AllSlots P r.state

theorem programHas_appendState (hrestore : ∀ k s, s.Loaded → P (restore (freshEntry k) s)) {p p' : Program N}
    {idx : ℕ} {filter key : Bytes} {s : Saved N} (hs : s.Loaded) (hp : ProgramHas P p)
    (h : appendState p idx filter key s = some p') : ProgramHas P p' := by
  unfold appendState at h
  split at h
  · rename_i rule op subject hrule hsplit
    split_ifs at h
    obtain ⟨st, hst, rfl⟩ := Option.map_eq_some_iff.mp h
    obtain ⟨cap, -, rfl⟩ := Option.map_eq_some_iff.mp hst
    intro r hr
    rcases List.mem_or_eq_of_mem_set hr with hr | rfl
    · exact hp r hr
    · intro e he
      rcases List.mem_append.mp he with he | he
      · exact hp rule (List.mem_of_getElem? hrule) e he
      · rw [List.mem_singleton.mp he]
        exact hrestore _ s hs
  · cases h

omit [Number N] in
theorem programHas_iff {m : Machine N W} :
    ProgramHas P m.program ↔ ∀ j, AllSlots P (m.ruleState j) := by
  constructor
  · intro h j
    rw [Machine.ruleState]
    cases hj : m.program.rules[j]? with
    | none => exact fun e he => by cases he
    | some r => exact h r (List.mem_of_getElem? hj)
  · intro h r hr
    obtain ⟨j, hj⟩ := List.mem_iff_getElem?.mp hr
    have hstate : m.ruleState j = r.state := by
      rw [Machine.ruleState, hj]
      rfl
    rw [← hstate]
    exact h j

theorem programHas_snapshotLoad (hrestore : ∀ k s, s.Loaded → P (restore (freshEntry k) s)) {bytes : Bytes}
    {r : Router} {p p' : Program N} {l : Loading N} (hp : ProgramHas P p)
    (load : snapshotLoad bytes r (some p) = some l) (program : l.program = some p') :
    ProgramHas P p' := by
  have hadded := slotsAdded_snapshotLoad load program
  clear load program
  induction hadded with
  | refl => exact hp
  | tail _ hstep ih =>
    obtain ⟨idx, filter, key, s, hs, happend⟩ := hstep
    exact programHas_appendState hrestore hs ih happend

/-! ## Loads and the source of a program -/

theorem source_appendState {p p' : Program N} {idx : ℕ} {filter key : Bytes} {s : Saved N}
    (h : appendState p idx filter key s = some p') : p'.source = p.source := by
  unfold appendState at h
  split at h
  · rename_i rule op subject hrule hsplit
    split_ifs at h
    obtain ⟨st, hst, rfl⟩ := Option.map_eq_some_iff.mp h
    obtain ⟨hlt, hget⟩ := List.getElem?_eq_some_iff.mp hrule
    have hset : ∀ (f : Rule N → Rule N) (x : Rule N), f x = f rule →
        (p.rules.set idx x).map f = p.rules.map f := by
      intro f x hx
      rw [List.map_set, hx, ← List.map_set, ← hget, List.set_getElem_self]
    simp only [Program.source]
    congr 1
    exact hset _ _ rfl
  · cases h

theorem source_snapshotLoad {bytes : Bytes} {r : Router} {p p' : Program N} {l : Loading N}
    (load : snapshotLoad bytes r (some p) = some l) (program : l.program = some p') :
    p'.source = p.source := by
  have hadded := slotsAdded_snapshotLoad load program
  clear load program
  induction hadded with
  | refl => rfl
  | tail _ hstep ih =>
    obtain ⟨idx, filter, key, s, -, happend⟩ := hstep
    exact (source_appendState happend).trans ih

/-- Every slot of a reachable machine has the property. -/
theorem Reachable.allSlots {rules : List (RuleSource N)} {usesClock : Bool} {m : Machine N W}
    (h : Reachable rules usesClock m) (hkept : ∀ A, AllMemory A → SlotInvariant A P)
    (hrestore : ∀ k s, s.Loaded → P (restore (freshEntry k) s)) (j : ℕ) : AllSlots P (m.ruleState j) := by
  induction h generalizing j with
  | load world =>
    have hload : ProgramHas P (loadProgram rules usesClock) := by
      intro r hr
      obtain ⟨src, -, rfl⟩ := List.mem_map.mp hr
      exact fun e he => by cases he
    exact (@programHas_iff _ _ P ⟨loadProgram rules usesClock, world⟩).mp hload j
  | world world _ ih => exact ih j
  | publish env memory t subject payload _ run ih =>
    have hrespects :=
      respects_evalPublish (compatible_withSlots (hkept env.alloc memory)) t subject payload
    exact ((hrespects.self (withSlots_self ih) run).states j).2
  | tick env memory t _ run ih =>
    have hrespects := respects_tick (compatible_withSlots (hkept env.alloc memory)) t
    exact ((hrespects.self (withSlots_self ih) run).states j).2
  | tickUntil env memory t _ run ih =>
    have hrespects := respects_tickUntil (compatible_withSlots (hkept env.alloc memory)) t
    exact ((hrespects.self (withSlots_self ih) run).states j).2
  | @snapshot m bytes r l p _ load program ih =>
    exact (@programHas_iff _ _ P { m with program := p }).mp
      (programHas_snapshotLoad hrestore (programHas_iff.mpr ih) load program) j

end Monoblok.Snapshot
