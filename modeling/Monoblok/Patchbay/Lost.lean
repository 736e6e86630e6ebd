import Monoblok.Lib.Total
import Monoblok.Patchbay.Evaluated
import Monoblok.Patchbay.Positions

/-!
# Lost dropouts

A message evaluates the stored form of a dropout at most as often as a tick has
found one lost: evaluations never make a slot lost, and each of these takes one
back. This bounds the only forms an evaluation reads out of a slot.
-/

namespace Monoblok.Patchbay

open Fuel

variable {N W : Type}

/-! ## Lost slots of a state -/

def lostCount (st : EvalState N) : ℕ := st.items.countP fun e => e.dropoutLost

section Steps

variable [Number N] {α : Type} {f : StateEntry N → SlotStep N α} {st : EvalState N}

omit [Number N] in
theorem lostCount_setSlot {i : ℕ} {e e' : StateEntry N} (hslot : st.items[i]? = some e)
    (hlost : e'.dropoutLost = true → e.dropoutLost = true) :
    lostCount (setSlot st i e') ≤ lostCount st ∧
      (e.dropoutLost = true → e'.dropoutLost = false →
        lostCount (setSlot st i e') < lostCount st) := by
  obtain ⟨hlt, hget⟩ := List.getElem?_eq_some_iff.mp hslot
  have hpos : e.dropoutLost = true → 0 < lostCount st := fun he =>
    List.countP_pos_iff.mpr ⟨e, List.mem_of_getElem? hslot, he⟩
  have hset : lostCount (setSlot st i e') =
      lostCount st - (if e.dropoutLost then 1 else 0) + if e'.dropoutLost then 1 else 0 := by
    rw [lostCount, setSlot, List.countP_set hlt, hget]
    rfl
  cases he : e.dropoutLost with
  | false =>
    have he' : e'.dropoutLost = false := by
      cases he' : e'.dropoutLost with
      | false => rfl
      | true => exact absurd (hlost he') (by simp [he])
    simp [hset, he, he']
  | true =>
    have hpos := hpos he
    cases he' : e'.dropoutLost with
    | false =>
      simp only [he, he', if_true] at hset
      simp at hset
      omega
    | true =>
      simp only [he, he', if_true] at hset
      simp
      omega

/-- What a form does to its state, as far as lost slots go. -/
theorem lostCount_slotStep (hlost : ∀ e, (f e).entry.dropoutLost = true → e.dropoutLost = true)
    (A : EvalAlloc → Bool) (k : StateKey) :
    lostCount (slotStep A k f st).2 ≤ lostCount st ∧
      ∀ a, (slotStep A k f st).1 = .ok a → ∃ e, (f e).result = .ok a ∧
        (e.dropoutLost = true → (f e).entry.dropoutLost = false →
          lostCount (slotStep A k f st).2 < lostCount st) := by
  have hlocated := located_stateSlotIn A st k
  unfold Patchbay.slotStep
  generalize stateSlotIn A st k = r at hlocated ⊢
  cases hlocated with
  | failed hitems =>
    refine ⟨by rw [lostCount, lostCount, hitems], ?_⟩
    intro a h
    cases h
  | @old st' i e hitems hslot hkey =>
    have hslot' : st'.items[i]? = some e := hitems ▸ hslot
    have hcount : lostCount st' = lostCount st := by rw [lostCount, lostCount, hitems]
    obtain ⟨hle, hlt⟩ := lostCount_setSlot hslot' (hlost e)
    dsimp only [stepAt]
    rw [slotAt_of_getElem? hslot', ← hcount]
    exact ⟨hle, fun a h => ⟨e, h, hlt⟩⟩
  | @new st' hitems =>
    have hslot : st'.items[st.items.length]? = some (freshEntry k) := by
      rw [hitems]
      simp
    have hcount : lostCount st' = lostCount st := by
      rw [lostCount, lostCount, hitems, List.countP_append]
      simp [freshEntry]
    obtain ⟨hle, hlt⟩ := lostCount_setSlot hslot (hlost (freshEntry k))
    dsimp only [stepAt]
    rw [slotAt_of_getElem? hslot, ← hcount]
    exact ⟨hle, fun a h => ⟨_, h, hlt⟩⟩

end Steps

/-! ## Lost slots of a machine -/

/-- No rule has more lost slots afterwards. -/
def Fewer (m m' : Machine N W) : Prop :=
  ∀ j, lostCount (m'.ruleState j) ≤ lostCount (m.ruleState j)

instance : Std.Refl (Fewer (N := N) (W := W)) := ⟨fun _ _ => le_rfl⟩

instance : IsTrans (Machine N W) Fewer := ⟨fun _ _ _ h h' j => (h' j).trans (h j)⟩

theorem fewer_of_states {m m' : Machine N W} (h : ∀ j, m'.ruleState j = m.ruleState j) :
    Fewer m m' := fun j => by rw [h j]

section Forms

variable [Number N]

/-- A form on a slot comes to an end; a stored form costs a lost slot. -/
theorem totalRun_onSlot {ctx : Ctx N W} {op : Bytes} {α : Type} {f : StateEntry N → SlotStep N α}
    (hform : SlotForm ctx.alloc ctx.nowMs op f) (m : Machine N W) :
    TotalRun Fewer (fun _ => onSlot ctx op f) m fun a m' => ∃ e, (f e).result = .ok a ∧
      (e.dropoutLost = true → (f e).entry.dropoutLost = false →
        lostCount (m'.ruleState ctx.ruleId) < lostCount (m.ruleState ctx.ruleId)) := by
  have hlost := fun e => (hform.held e).2
  obtain ⟨⟨r, m'⟩, hrun, -, -, hresult, hstates⟩ := run_onSlot_spec ctx op f m
  obtain ⟨hle, hok⟩ := @lostCount_slotStep _ _ _ _ (m.ruleState ctx.ruleId) hlost ctx.alloc
    ⟨ctx.ruleId, op, ctx.subject⟩
  dsimp only at hresult hstates
  refine Total.of_eq hrun ⟨?_, ?_⟩
  · intro j
    rw [hstates]
    split_ifs with hj
    · rw [← hj.1]
      exact hle
    · rfl
  · intro a ha
    by_cases hin : ctx.ruleId < m.program.rules.length
    · rw [hstates, if_pos ⟨rfl, hin⟩]
      rw [hresult, if_pos hin] at ha
      exact hok a ha
    · -- the rule is not there: the form sees a fresh slot
      rw [hresult, if_neg hin, missingResult] at ha
      have hempty := located_stateSlotIn ctx.alloc (stateInit (N := N)) ⟨ctx.ruleId, op, ctx.subject⟩
      generalize stateSlotIn ctx.alloc (stateInit (N := N)) ⟨ctx.ruleId, op, ctx.subject⟩ = x at ha hempty
      obtain ⟨st, o⟩ := x
      cases o with
      | none => cases ha
      | some i =>
        refine ⟨_, ha, ?_⟩
        intro h
        cases h

omit [Number N] in
theorem totalRun_noteSuppressed (ruleId : ℕ) (m : Machine N W) :
    TotalRun Fewer (fun _ => noteSuppressed ruleId) m fun _ _ => True := by
  refine Total.of_eq (a := .ok ()) rfl ⟨fewer_of_states ?_, fun _ _ => trivial⟩
  intro j
  exact ruleState_modifyRule m ruleId j fun _ => rfl

end Forms

end Monoblok.Patchbay
