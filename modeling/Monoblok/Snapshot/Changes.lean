import Monoblok.Patchbay.Throttles
import Monoblok.Snapshot.Records

/-!
# What `squelch` and `changed?` take for a change

The slot holds the last value as a number or as its text. Two values that are no
numbers are told apart by their texts only, before a snapshot and after it.
-/

namespace Monoblok.Snapshot

open Patchbay Number

variable {N : Type} [Number N]

/-! ## Histories -/

/-- The values a rule tells apart: a number, or what has a text. -/
def Presentable : Value N → Prop
  | .nil | .bool _ | .number _ | .string _ => True
  | _ => False

/-- Values of two kinds with one text. -/
def spelledAlike : Value N → Value N → Bool
  | .nil, .string t => t == []
  | .string t, .nil => t == []
  | .bool b, .string t => t == lit (if b then "true" else "false")
  | .string t, .bool b => t == lit (if b then "true" else "false")
  | _, _ => false

/-- What the slot does not tell apart. -/
def sameState (u v : Value N) : Bool := valueEq u v || spelledAlike u v

/-- The slot of a record that has been written and read back; where it cannot be, the
slot stays as it is. -/
def readBack (k : StateKey) (e : StateEntry N) : StateEntry N :=
  match (savedOf e).bind appendSaved with
  | some (variant :: body) =>
    match loadVariant variant body with
    | some (s, _) => restore (freshEntry k) s
    | none => e
  | _ => e

/-- What happens to the slot: a value is presented, with the allocations that succeed,
or a snapshot is saved and loaded. -/
inductive ChangeEvent (N : Type) where
  | value (A : EvalAlloc → Bool) (v : Value N)
  | reload

/-- The slot, and the last value that was taken. -/
structure ChangeRun (N : Type) where
  entry : StateEntry N
  last : Option (Value N)

namespace ChangeRun

def step (k : StateKey) (boolMode : Bool) (r : ChangeRun N) : ChangeEvent N → ChangeRun N
  | .value A v =>
    let s := statefulChanged A v boolMode r.entry
    ⟨s.entry, if s.result.isOk then some v else r.last⟩
  | .reload => ⟨readBack k r.entry, r.last⟩

def run (k : StateKey) (boolMode : Bool) (r : ChangeRun N) (events : List (ChangeEvent N)) :
    ChangeRun N :=
  events.foldl (step k boolMode) r

def fresh (k : StateKey) : ChangeRun N := ⟨freshEntry k, none⟩

end ChangeRun

/-- The bytes of a number are those of the same number. -/
def Rereads : Value N → Prop
  | .number n => reread n = n
  | _ => True

/-! ## What the slot remembers -/

/-- The slot holds the last value: a number as itself, another value as its text. -/
def Remembers (e : StateEntry N) : Option (Value N) → Prop
  | none => e.kind = .empty
  | some (.number n) => e.kind = .number ∧ e.number = n
  | some v => e.kind = .bytes ∧ v.asString = some e.bytes ∧ Presentable v

omit [Number N] in
theorem number_or (v : Value N) : (∃ n, v = .number n) ∨ ∀ n, v ≠ .number n := by
  cases v <;> simp

omit [Number N] in
theorem asString_of_presentable {v : Value N} (hv : Presentable v) (hn : ∀ n, v ≠ .number n) :
    ∃ text, v.asString = some text := by
  cases v with
  | nil => exact ⟨_, rfl⟩
  | bool b => cases b <;> exact ⟨_, rfl⟩
  | number n => exact absurd rfl (hn n)
  | string t => exact ⟨_, rfl⟩
  | _ => cases hv

theorem encodeStateValue_text (A : EvalAlloc → Bool) {v : Value N} (hn : ∀ n, v ≠ .number n) :
    encodeStateValue A v = v.asString := by
  cases v with
  | number n => exact absurd rfl (hn n)
  | _ => rfl

omit [Number N] in
theorem remembers_text {e : StateEntry N} {v : Value N} (hn : ∀ n, v ≠ .number n) :
    Remembers e (some v) ↔ e.kind = .bytes ∧ v.asString = some e.bytes ∧ Presentable v := by
  cases v with
  | number n => exact absurd rfl (hn n)
  | _ => rfl

theorem sameState_number {u : Value N} (n : N) (hu : ∀ m, u ≠ .number m) :
    sameState u (.number n) = false := by
  cases u with
  | number m => exact absurd rfl (hu m)
  | _ => rfl

theorem sameState_text {u v : Value N} (hpu : Presentable u) (hpv : Presentable v)
    (hu : ∀ n, u ≠ .number n) (hv : ∀ n, v ≠ .number n) :
    sameState u v = (u.asString == v.asString) := by
  cases u with
  | number n => exact absurd rfl (hu n)
  | symbol t | keyword t | list l | vector l => cases hpu
  | nil =>
    cases v with
    | number n => exact absurd rfl (hv n)
    | symbol t | keyword t | list l | vector l => cases hpv
    | nil => rfl
    | bool b => cases b <;> rfl
    | string t => simp [sameState, valueEq, spelledAlike, Value.asString]
  | bool a =>
    cases v with
    | number n => exact absurd rfl (hv n)
    | symbol t | keyword t | list l | vector l => cases hpv
    | nil => cases a <;> rfl
    | bool b => cases a <;> cases b <;> rfl
    | string t =>
      cases a <;> simp [sameState, valueEq, spelledAlike, Value.asString, eq_comm]
  | string s =>
    cases v with
    | number n => exact absurd rfl (hv n)
    | symbol t | keyword t | list l | vector l => cases hpv
    | nil => simp [sameState, valueEq, spelledAlike, Value.asString]
    | bool b => cases b <;> simp [sameState, valueEq, spelledAlike, Value.asString]
    | string t => simp [sameState, valueEq, spelledAlike, Value.asString]

/-- The slot before a value that is no number tells whether its text is the last. -/
theorem bytes_differ {e : StateEntry N} {last : Option (Value N)} (h : Remembers e last)
    {v : Value N} (hpv : Presentable v) (hv : ∀ n, v ≠ .number n) {text : Bytes} (htext : v.asString = some text) :
    (e.kind != .bytes || e.bytes != text) = true ↔ ∀ u, last = some u → sameState u v = false := by
  cases last with
  | none =>
    have hkind : e.kind = .empty := h
    simp [hkind]
  | some u =>
    rcases number_or u with ⟨n, rfl⟩ | hu
    · have hkind : e.kind = .number := h.1
      have hother : sameState (.number n) v = false := by
        cases v with
        | number m => exact absurd rfl (hv m)
        | _ => rfl
      simp [hkind, hother]
    · obtain ⟨hkind, hbytes, hpu⟩ := (remembers_text hu).mp h
      simp [hkind, sameState_text hpu hpv hu hv, hbytes, htext]

/-- The slot before a number tells whether it is the last. -/
theorem number_differs {e : StateEntry N} {last : Option (Value N)} (h : Remembers e last) (n : N) :
    (e.kind != .number || !feq e.number n) = true ↔
      ∀ u, last = some u → sameState u (.number n) = false := by
  cases last with
  | none =>
    have hkind : e.kind = .empty := h
    simp [hkind]
  | some u =>
    rcases number_or u with ⟨m, rfl⟩ | hu
    · obtain ⟨hkind, hnumber⟩ : e.kind = .number ∧ e.number = m := h
      simp [hkind, hnumber, sameState, valueEq, spelledAlike]
    · obtain ⟨hkind, -⟩ := (remembers_text hu).mp h
      simp [hkind, sameState_number n hu]

/-- What one evaluation does. -/
structure ChangeStep (A : EvalAlloc → Bool) (boolMode : Bool) (r : ChangeRun N) (v : Value N)
    (s : SlotStep N (Value N)) : Prop where
  served : (∀ site, A site = true) → s.result.isOk = true
  result : s.result.isOk = true → s.result = .ok (changedResult boolMode s.passes v)
  passes : s.result.isOk = true →
    (s.passes = true ↔ ∀ u, r.last = some u → sameState u v = false)

theorem changeStep_number {r : ChangeRun N} (h : Remembers r.entry r.last) (k : StateKey)
    (boolMode : Bool) (A : EvalAlloc → Bool) (n : N) :
    ChangeStep A boolMode r (.number n) (statefulChanged A (.number n) boolMode r.entry) ∧
      Remembers (r.step k boolMode (.value A (.number n))).entry
        (r.step k boolMode (.value A (.number n))).last := by
  have hdiffer := number_differs h n
  constructor
  · refine ⟨fun _ => rfl, fun _ => ?_, fun _ => ?_⟩
    · simp [statefulChanged, SlotStep.passes, Except.isOk, Except.toBool]
    · rw [← hdiffer]
      simp [statefulChanged, SlotStep.passes, Except.isOk, Except.toBool]
  · exact ⟨rfl, rfl⟩

section TextChange

variable {A : EvalAlloc → Bool} {v : Value N} {text : Bytes} (e : StateEntry N) (boolMode : Bool)

theorem statefulChanged_stored (hn : ∀ n, v ≠ .number n) (htext : encodeStateValue A v = some text)
    (hchanged : (e.kind != .bytes || e.bytes != text) = true) (hA : A .bytes = true) :
    statefulChanged A v boolMode e =
      .done { e with kind := .bytes, bytes := text } (changedResult boolMode true v) := by
  cases v with
  | number n => exact absurd rfl (hn n)
  | _ => simp [statefulChanged, htext, hchanged, StateEntry.setBytes, hA]

theorem statefulChanged_failed (hn : ∀ n, v ≠ .number n) (htext : encodeStateValue A v = some text)
    (hchanged : (e.kind != .bytes || e.bytes != text) = true) (hA : ¬ A .bytes = true) :
    statefulChanged A v boolMode e = .fail e .oom := by
  cases v with
  | number n => exact absurd rfl (hn n)
  | _ => simp [statefulChanged, htext, hchanged, StateEntry.setBytes, hA]

theorem statefulChanged_suppressed (hn : ∀ n, v ≠ .number n)
    (htext : encodeStateValue A v = some text)
    (hchanged : ¬ (e.kind != .bytes || e.bytes != text) = true) :
    statefulChanged A v boolMode e = .suppress e (changedResult boolMode false v) := by
  cases v with
  | number n => exact absurd rfl (hn n)
  | _ => simp [statefulChanged, htext, hchanged]

end TextChange

theorem changeStep_text {r : ChangeRun N} (h : Remembers r.entry r.last) (k : StateKey)
    (boolMode : Bool) (A : EvalAlloc → Bool) {v : Value N} (hv : Presentable v)
    (hn : ∀ n, v ≠ .number n) :
    ChangeStep A boolMode r v (statefulChanged A v boolMode r.entry) ∧
      Remembers (r.step k boolMode (.value A v)).entry (r.step k boolMode (.value A v)).last := by
  obtain ⟨text, htext⟩ := asString_of_presentable hv hn
  have hencode := (encodeStateValue_text A hn).trans htext
  have hdiffer := bytes_differ h hv hn htext
  have hkept : ∀ s, statefulChanged A v boolMode r.entry = s →
      Remembers s.entry (if s.result.isOk then some v else r.last) →
        Remembers (r.step k boolMode (.value A v)).entry (r.step k boolMode (.value A v)).last := by
    rintro s rfl hs
    exact hs
  by_cases hchanged : (r.entry.kind != .bytes || r.entry.bytes != text) = true
  · by_cases hA : A .bytes = true
    · have hstep := statefulChanged_stored r.entry boolMode hn hencode hchanged hA
      constructor
      · rw [hstep]
        exact ⟨fun _ => rfl, fun _ => rfl, fun _ => ⟨fun _ => hdiffer.mp hchanged, fun _ => rfl⟩⟩
      · apply hkept _ hstep
        exact (remembers_text hn).mpr ⟨rfl, htext, hv⟩
    · have hstep := statefulChanged_failed r.entry boolMode hn hencode hchanged hA
      constructor
      · rw [hstep]
        refine ⟨fun hall => absurd (hall .bytes) hA, fun hok => ?_, fun hok => ?_⟩
        all_goals cases hok
      · apply hkept _ hstep
        exact h
  · have hstep := statefulChanged_suppressed r.entry boolMode hn hencode hchanged
    constructor
    · rw [hstep]
      refine ⟨fun _ => rfl, fun _ => rfl, fun _ => ⟨fun hpass => ?_, fun hall => ?_⟩⟩
      · cases hpass
      · exact absurd (hdiffer.mpr hall) hchanged
    · apply hkept _ hstep
      refine (remembers_text hn).mpr ?_
      simp only [Bool.or_eq_true, bne_iff_ne, ne_eq, not_or, not_not] at hchanged
      exact ⟨hchanged.1, by rw [htext, ← hchanged.2]; rfl, hv⟩

/-- A snapshot brings back what the slot held. -/
theorem remembers_readBack {e : StateEntry N} {last : Option (Value N)} (h : Remembers e last)
    (hlast : ∀ u, last = some u → Rereads u) (k : StateKey) : Remembers (readBack k e) last := by
  unfold readBack
  cases hwritten : (savedOf e).bind appendSaved with
  | none => exact h
  | some bytes =>
    obtain ⟨s, hs, hbytes⟩ := Option.bind_eq_some_iff.mp hwritten
    obtain ⟨variant, body, rfl, hload⟩ := loadVariant_appendSaved (written_savedOf hs) hbytes
    have hread := hload []
    rw [List.append_nil] at hread
    simp only [hread]
    cases last with
    | none =>
      have hkind : e.kind = .empty := h
      simp only [savedOf, hkind, Option.some.injEq] at hs
      subst hs
      rfl
    | some u =>
      rcases number_or u with ⟨n, rfl⟩ | hu
      · obtain ⟨hkind, hnumber⟩ : e.kind = .number ∧ e.number = n := h
        simp only [savedOf, hkind, Option.some.injEq] at hs
        subst hs
        have hsame : reread n = n := hlast _ rfl
        exact ⟨rfl, by rw [← hsame, ← hnumber]; rfl⟩
      · obtain ⟨hkind, htext, hpu⟩ := (remembers_text hu).mp h
        simp only [savedOf, hkind, Option.some.injEq] at hs
        subst hs
        exact (remembers_text hu).mpr ⟨rfl, htext, hpu⟩

/-- The last value presented. -/
def lastValue (last : Option (Value N)) (events : List (ChangeEvent N)) : Option (Value N) :=
  events.foldl (fun last event =>
    match event with
    | .value _ v => some v
    | .reload => last) last

/-- The slot holds the last value taken, which with memory is the last one presented. -/
theorem remembers_run (k : StateKey) (boolMode : Bool) {r : ChangeRun N}
    (h : Remembers r.entry r.last) (hlast : ∀ u, r.last = some u → Rereads u)
    {events : List (ChangeEvent N)}
    (hevents : ∀ A v, ChangeEvent.value A v ∈ events → Presentable v ∧ Rereads v) :
    Remembers (r.run k boolMode events).entry (r.run k boolMode events).last ∧
      ((∀ A v, ChangeEvent.value A v ∈ events → ∀ site, A site = true) →
        (r.run k boolMode events).last = lastValue r.last events) := by
  induction events generalizing r with
  | nil => exact ⟨h, fun _ => rfl⟩
  | cons event events ih =>
    have hrest : ∀ A v, ChangeEvent.value A v ∈ events → Presentable v ∧ Rereads v :=
      fun A v hmem => hevents A v (List.mem_cons_of_mem _ hmem)
    cases event with
    | value A v =>
      obtain ⟨hv, hreads⟩ := hevents A v List.mem_cons_self
      obtain ⟨hstep, hremembers⟩ : ChangeStep A boolMode r v (statefulChanged A v boolMode r.entry) ∧
          Remembers (r.step k boolMode (.value A v)).entry
            (r.step k boolMode (.value A v)).last := by
        rcases number_or v with ⟨n, rfl⟩ | hn
        · exact changeStep_number h k boolMode A n
        · exact changeStep_text h k boolMode A hv hn
      have htaken : (r.step k boolMode (.value A v)).last =
          if (statefulChanged A v boolMode r.entry).result.isOk then some v else r.last := rfl
      have hlast' : ∀ u, (r.step k boolMode (.value A v)).last = some u → Rereads u := by
        intro u hu
        rw [htaken] at hu
        split_ifs at hu
        · cases hu
          exact hreads
        · exact hlast u hu
      obtain ⟨hrun, hmemory⟩ := ih hremembers hlast' hrest
      refine ⟨hrun, fun hA => ?_⟩
      have hserved := hstep.served (hA A v List.mem_cons_self)
      refine (hmemory fun A' v' hmem => hA A' v' (List.mem_cons_of_mem _ hmem)).trans ?_
      rw [htaken, if_pos hserved]
      rfl
    | reload =>
      obtain ⟨hrun, hmemory⟩ := ih (r := r.step k boolMode .reload) (remembers_readBack h hlast k)
        hlast hrest
      exact ⟨hrun, fun hA => hmemory fun A' v' hmem => hA A' v' (List.mem_cons_of_mem _ hmem)⟩

/-- `squelch` and `changed?` let a value pass exactly when it is the first, or differs from
the last one taken: under the equality of the language, and in its text where the kinds
differ. An evaluation with memory is taken, so that with memory the last one taken is the
one before. -/
theorem squelch_passes_changes (k : StateKey) (boolMode : Bool) (events : List (ChangeEvent N))
    (hevents : ∀ A v, ChangeEvent.value A v ∈ events → Presentable v ∧ Rereads v) :
    let r := (ChangeRun.fresh k).run k boolMode events
    ((∀ A v, ChangeEvent.value A v ∈ events → ∀ site, A site = true) →
      r.last = lastValue none events) ∧
    ∀ A v, Presentable v → ChangeStep A boolMode r v (statefulChanged A v boolMode r.entry) := by
  obtain ⟨hremembers, hmemory⟩ := remembers_run k boolMode (r := ChangeRun.fresh k) rfl
    (fun u hu => by cases hu) hevents
  refine ⟨hmemory, fun A v hv => ?_⟩
  rcases number_or v with ⟨n, rfl⟩ | hn
  · exact (changeStep_number hremembers k boolMode A n).1
  · exact (changeStep_text hremembers k boolMode A hv hn).1

/-- A number after a reload, and then its text. -/
theorem squelch_passes_text :
    (statefulChanged (fun _ => true) (.string (lit "3")) false
      ((ChangeRun.fresh ⟨0, lit "squelch", lit "a"⟩).run ⟨0, lit "squelch", lit "a"⟩ false
        [.value (fun _ => true) (.number (3 : ℚ)), .reload]).entry).passes = true := by
  obtain ⟨hlast, hstep⟩ := squelch_passes_changes ⟨0, lit "squelch", lit "a"⟩ false
    [.value (fun _ => true) (.number (3 : ℚ)), .reload] (by
      intro A v hv
      simp only [List.mem_cons, ChangeEvent.value.injEq, List.not_mem_nil, or_false,
        reduceCtorEq] at hv
      have hreads : reread (3 : ℚ) = 3 := by decide +kernel
      rw [hv.2]
      exact ⟨trivial, hreads⟩)
  have hstep := hstep (fun _ => true) (.string (lit "3")) trivial
  apply (hstep.passes (hstep.served fun _ => rfl)).mpr
  intro u hu
  rw [hlast (by
    intro A v hv
    simp only [List.mem_cons, ChangeEvent.value.injEq, List.not_mem_nil, or_false,
      reduceCtorEq] at hv
    rw [hv.1]
    exact fun _ => rfl)] at hu
  cases hu
  rfl

/-- The empty text after `nil` differs from it, and does not pass. -/
theorem squelch_keeps_empty_text :
    ¬ ∀ (k : StateKey) (boolMode : Bool) (events : List (ChangeEvent ℚ)) (v : Value ℚ),
      (∀ A u, ChangeEvent.value A u ∈ events → Presentable u ∧ Rereads u ∧ ∀ site, A site = true) →
      Presentable v →
        ((statefulChanged (fun _ => true) v boolMode
            ((ChangeRun.fresh k).run k boolMode events).entry).passes = true ↔
          ∀ u, lastValue none events = some u → valueEq u v = false) := by
  intro hclaim
  have hpass := (hclaim ⟨0, lit "squelch", lit "a"⟩ false [.value (fun _ => true) .nil]
    (.string []) (by
      intro A u hu
      simp only [List.mem_singleton, ChangeEvent.value.injEq] at hu
      rw [hu.1, hu.2]
      exact ⟨trivial, trivial, fun _ => rfl⟩) trivial).mpr (by
      intro u hu
      cases hu
      rfl)
  exact absurd hpass (by decide +kernel)

end Monoblok.Snapshot
