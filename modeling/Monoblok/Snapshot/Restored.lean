import Monoblok.Patchbay.BarSizes
import Monoblok.Patchbay.Resumed
import Monoblok.Patchbay.Sizes
import Monoblok.Snapshot.Reachable

/-!
# Restored slots in use

What becomes of the slots of a freshly loaded program after a load, when its rules
are evaluated: on a clock that has nothing to do with the one the snapshot was
taken on, and under the sizes of the rules that are loaded.
-/

namespace Monoblok.Snapshot

open Patchbay Number LittleEndian

variable {N : Type} [Number N]

/-- The slots of a freshly loaded program after a load. -/
def restoredSlots (bytes : Bytes) (r : Router) (rules : List (RuleSource N)) (usesClock : Bool) :
    List (StateEntry N) :=
  match (snapshotLoad bytes r (some (loadProgram rules usesClock))).bind Loading.program with
  | some p => p.rules.flatMap fun rule => rule.state.items
  | none => []

/-- Each of them comes from a record. -/
theorem exists_restore {bytes : Bytes} {r : Router} {rules : List (RuleSource N)} {usesClock : Bool}
    {e : StateEntry N} (he : e ∈ restoredSlots bytes r rules usesClock) :
    ∃ (k : StateKey) (s : Saved N), s.Loaded ∧ e = restore (freshEntry k) s := by
  unfold restoredSlots at he
  split at he
  · rename_i p hp
    obtain ⟨l, load, program⟩ := Option.bind_eq_some_iff.mp hp
    obtain ⟨rule, hrule, he⟩ := List.mem_flatMap.mp he
    have hfresh : ProgramHas (fun e : StateEntry N =>
        ∃ (k : StateKey) (s : Saved N), s.Loaded ∧ e = restore (freshEntry k) s)
        (loadProgram rules usesClock) := by
      intro rule hrule e he
      obtain ⟨src, -, rfl⟩ := List.mem_map.mp hrule
      cases he
    exact programHas_snapshotLoad (fun k s hs => ⟨k, s, hs, rfl⟩) hfresh load program rule hrule e he
  · cases he

theorem restore_ne_clock (k : StateKey) (s : Saved N) :
    (restore (freshEntry k) s).kind ≠ .clock := by
  cases s <;> simp [restore]

theorem inRing_restore (k : StateKey) {s : Saved N} (hs : s.Loaded) :
    InRing (restore (freshEntry k) s) := by
  cases s with
  | countRing cap len sum values => exact ⟨hs.1, fun hcap => Nat.pos_of_ne_zero hcap⟩
  | timeRing windowMs samples => exact ⟨le_rfl, fun hcap => Nat.pos_of_ne_zero hcap⟩
  | _ => exact ⟨le_rfl, fun hcap => absurd rfl hcap⟩

/-! ## After a restart -/

/-- `(on "a" (hold-off 100 payload))` -/
def holdOffRule : RuleSource ℚ :=
  ⟨lit "a", .list [.symbol (lit "hold-off"), .number 100, .symbol (lit "payload")], false⟩

/-- The snapshot of a hold-off that let a message pass five seconds after the boot. -/
def heldSnapshot : Bytes :=
  header ++ (appendEntry 0 (lit "a")
    ((freshEntry ⟨0, lit "hold-off", lit "a"⟩ : StateEntry ℚ).setNumber 5000)).getD []

theorem heldSnapshot_slot :
    ∃ e ∈ restoredSlots heldSnapshot routerInit [holdOffRule] false,
      e.kind = .number ∧ e.number = 5000 := by
  have hany : ((restoredSlots heldSnapshot routerInit [holdOffRule] false).any fun e =>
      decide (e.kind = .number ∧ e.number = 5000)) = true := by
    decide +kernel
  obtain ⟨e, he, hslot⟩ := List.any_eq_true.mp hany
  exact ⟨e, he, of_decide_eq_true hslot⟩

/-- A load goes by the number and the filter of a rule, so that the restored slot can
be of another size than the forms in the body of the rule: they follow their own
exactly where the two agree. -/
theorem restored_follows {bytes : Bytes} {r : Router} {rules : List (RuleSource N)}
    {usesClock : Bool} {e : StateEntry N} (he : e ∈ restoredSlots bytes r rules usesClock) :
    (∀ f : WindowForm N, f.Checked →
      (f.Follows e ↔ e.kind = .empty ∨
        e.kind = .ring ∧ e.ringTimeWindow = f.window.timeWindow ∧ f.SizeAgrees e)) ∧
    ∀ f : BarForm, f.Checked → (f.Follows e ↔ f.Agrees e) := by
  obtain ⟨k, s, hs, rfl⟩ := exists_restore he
  constructor
  · intro f hf
    apply follows_iff hf (inRing_restore k hs)
    intro hempty
    cases s with
    | empty => rfl
    | _ => cases hempty
  · intro f hf
    apply bar_follows_iff hf
    intro hkind htime
    cases s with
    | bar op high low count cap windowMs windowStartMs lastClose =>
      have hne : (windowMs != 0) = true := htime
      exact bne_iff_ne.mp hne
    | _ => cases hkind

/-- `(on "a" (moving-sum n payload))` -/
def sumRule (n : ℚ) : RuleSource ℚ :=
  ⟨lit "a", .list [.symbol (lit "moving-sum"), .number n, .symbol (lit "payload")], false⟩

/-- The snapshot of a sum over the last three samples, which were 1, 2 and 3. -/
def sumSnapshot : Bytes :=
  header ++ (appendEntry 0 (lit "a")
    (restore (freshEntry ⟨0, windowOp "moving-sum" ⟨false, 3, 0⟩, lit "a"⟩ : StateEntry ℚ)
      (.countRing 3 3 6 [1, 2, 3]))).getD []

theorem sumSnapshot_slot {n : ℚ} (hn : n ∈ [(2 : ℚ), 3]) :
    ∃ e ∈ restoredSlots sumSnapshot routerInit [sumRule n] false,
      e.op = windowOp "moving-sum" ⟨false, n.floor.toNat, 0⟩ ∧ e.kind = .ring ∧
        e.ringTimeWindow = false ∧ e.ringCap = 3 := by
  have hall : ([(2 : ℚ), 3].all fun n =>
      (restoredSlots sumSnapshot routerInit [sumRule n] false).any fun e =>
        decide (e.op = windowOp "moving-sum" ⟨false, n.floor.toNat, 0⟩ ∧ e.kind = .ring ∧
          e.ringTimeWindow = false ∧ e.ringCap = 3)) = true := by
    decide +kernel
  obtain ⟨e, he, hslot⟩ := List.any_eq_true.mp (List.all_eq_true.mp hall n hn)
  exact ⟨e, he, of_decide_eq_true hslot⟩

/-- The sum over two samples finds the slot, which goes on with three. -/
theorem sum_keeps_three :
    ∃ e ∈ restoredSlots sumSnapshot routerInit [sumRule 2] false,
      e.op = windowOp "moving-sum" ⟨false, 2, 0⟩ ∧
        ¬ (WindowForm.stat ⟨false, 2, 0⟩).Follows e := by
  obtain ⟨e, he, hop, hkind, htime, hcap⟩ := sumSnapshot_slot (n := 2) (by decide)
  refine ⟨e, he, hop, fun h => ?_⟩
  have hfresh := exists_restore he
  have hin : InRing e := by
    obtain ⟨k, s, hs, rfl⟩ := hfresh
    exact inRing_restore k hs
  have hchecked : (WindowForm.stat ⟨false, 2, 0⟩ : WindowForm ℚ).Checked := fun _ => by decide
  have hagrees := (follows_iff hchecked hin (by rw [hkind]; intro h; cases h)).mp h
  rcases hagrees with hempty | ⟨-, -, hsize⟩
  · rw [hkind] at hempty
    cases hempty
  · change e.ringCap = 2 ∨ e.ringCap = 0 at hsize
    omega

theorem restored_follows_sum :
    ∃ e ∈ restoredSlots sumSnapshot routerInit [sumRule 3] false,
      (WindowForm.stat ⟨false, 3, 0⟩).Follows e := by
  obtain ⟨e, he, -, hkind, htime, hcap⟩ := sumSnapshot_slot (n := 3) (by decide)
  refine ⟨e, he, ?_⟩
  apply ((restored_follows he).1 (.stat ⟨false, 3, 0⟩) (fun _ => by decide)).mpr
  exact .inr ⟨hkind, htime, .inl hcap⟩

end Monoblok.Snapshot
