import Monoblok.Patchbay.Lookup

/-!
# Properties of slots

A property of single slots that steps keep, of every slot of a state or of the
one at a position: slots are added at the end and never go. Lookups need no
order in the index for this, so it holds of restored states as well.
-/

namespace Monoblok.Patchbay

open OpenAddressing

variable {N : Type} [Number N]

/-! ## Slots of a state -/

/-- What a lookup comes to, also where the index is not in order: the slot at a
position has the key. -/
inductive Located (st : EvalState N) (k : StateKey) : EvalState N × Option ℕ → Prop
  | failed {st' : EvalState N} (items : st'.items = st.items) : Located st k (st', none)
  | old {st' : EvalState N} {i : ℕ} {e : StateEntry N} (items : st'.items = st.items)
      (slot : st.items[i]? = some e) (key : e.key = k) : Located st k (st', some i)
  | new {st' : EvalState N} (items : st'.items = st.items ++ [freshEntry k]) :
      Located st k (st', some st.items.length)

theorem indexFind_sound {α : Type} [DecidableEq α] {hash : α → UInt64} {index : Index}
    {keys : List α} {key : α} {i : ℕ} (h : indexFind hash index keys key = some i) :
    keys[i]? = some key := by
  unfold indexFind at h
  split_ifs at h
  · obtain ⟨hlt, hkey, -⟩ := List.findIdx?_eq_some_iff_getElem.mp h
    rw [List.getElem?_eq_getElem hlt]
    exact congrArg some (beq_iff_eq.mp hkey)
  · simpa using findFrom_sound h

omit [Number N] in
theorem items_stateIndexPrepare (A : EvalAlloc → Bool) (st : EvalState N) :
    (stateIndexPrepare A st).items = st.items := by
  unfold stateIndexPrepare
  split_ifs
  · unfold stateIndexRebuild
    cases indexEnsure stateKeyHash (A .index) st.index st.keys st.items.length with
    | none => rfl
    | some index => rfl
  · rfl

theorem located_stateAppend (A : EvalAlloc → Bool) (st : EvalState N) (k : StateKey) :
    Located st k (stateAppend A st k) := by
  unfold stateAppend
  dsimp only
  split
  · exact .failed rfl
  · rename_i st₁ hready
    have hitems : st₁.items = st.items := by
      split_ifs at hready
      · obtain ⟨index, -, rfl⟩ := Option.map_eq_some_iff.mp hready
        rfl
      · cases hready
        rfl
    split
    · exact .failed hitems
    · rename_i st₂ hreserve
      obtain ⟨cap, -, rfl⟩ := Option.map_eq_some_iff.mp hreserve
      split_ifs
      · exact .failed hitems
      · rw [hitems]
        exact .new rfl
      · rw [hitems]
        exact .new rfl

theorem located_stateSlotIn (A : EvalAlloc → Bool) (st : EvalState N) (k : StateKey) :
    Located st k (stateSlotIn A st k) := by
  have hitems := items_stateIndexPrepare A st
  unfold stateSlotIn
  dsimp only
  split
  · rename_i i hfind
    have hkey := indexFind_sound hfind
    rw [EvalState.keys, hitems, List.getElem?_map, Option.map_eq_some_iff] at hkey
    obtain ⟨e, hslot, hkey⟩ := hkey
    exact .old hitems hslot hkey
  · have happend := located_stateAppend A (stateIndexPrepare A st) k
    generalize stateAppend A (stateIndexPrepare A st) k = r at happend ⊢
    cases happend with
    | failed hitems' => exact .failed (hitems'.trans hitems)
    | old hitems' hslot hkey =>
      rw [hitems] at hslot
      exact .old (hitems'.trans hitems) hslot hkey
    | new hitems' =>
      rw [hitems] at hitems' ⊢
      exact .new hitems'

/-- Every slot of a state has a property, which may depend on its position. -/
def SlotsAt (P : ℕ → StateEntry N → Prop) (st : EvalState N) : Prop :=
  ∀ i e, st.items[i]? = some e → P i e

/-- Every slot of a state has a property. -/
def AllSlots (P : StateEntry N → Prop) (st : EvalState N) : Prop := ∀ e ∈ st.items, P e

omit [Number N] in
theorem allSlots_iff {P : StateEntry N → Prop} {st : EvalState N} :
    AllSlots P st ↔ SlotsAt (fun _ => P) st := by
  constructor
  · exact fun h i e hslot => h e (List.mem_of_getElem? hslot)
  · intro h e he
    obtain ⟨i, hslot⟩ := List.mem_iff_getElem?.mp he
    exact h i e hslot

/-- The slot at a position has a property. -/
def SlotHas (P : StateEntry N → Prop) (i : ℕ) (st : EvalState N) : Prop :=
  ∃ e, st.items[i]? = some e ∧ P e

section Steps

variable {P : StateEntry N → Prop} {α : Type} {f : StateEntry N → SlotStep N α} {st : EvalState N}

section Every

variable {P : ℕ → StateEntry N → Prop}

omit [Number N] in
theorem SlotsAt.setSlot (h : SlotsAt P st) {i : ℕ} {e : StateEntry N}
    (he : i < st.items.length → P i e) : SlotsAt P (setSlot st i e) := by
  intro j x hx
  change (st.items.set i e)[j]? = some x at hx
  rw [List.getElem?_set] at hx
  split_ifs at hx with hij hlt
  · cases hx
    exact hij ▸ he hlt
  · exact h j x hx

theorem SlotsAt.stepAt (h : SlotsAt P st) (i : ℕ) (hstep : ∀ e, P i e → P i (f e).entry) :
    SlotsAt P (stepAt f i st).2 := by
  apply h.setSlot
  intro hlt
  have hslot := List.getElem?_eq_getElem hlt
  rw [slotAt_of_getElem? hslot]
  exact hstep _ (h i _ hslot)

theorem SlotsAt.slotStep (h : SlotsAt P st) (A : EvalAlloc → Bool) (k : StateKey)
    (hfresh : ∀ i, P i (freshEntry k)) (hstep : ∀ i e, e.op = k.op → P i e → P i (f e).entry) :
    SlotsAt P (slotStep A k f st).2 := by
  have hlocated := located_stateSlotIn A st k
  unfold Patchbay.slotStep
  generalize stateSlotIn A st k = r at hlocated ⊢
  cases hlocated with
  | failed hitems =>
    intro i x hx
    exact h i x (hitems ▸ hx)
  | @old st' i e hitems hslot hkey =>
    have hall : SlotsAt P st' := fun i x hx => h i x (hitems ▸ hx)
    apply hall.setSlot
    intro _
    rw [slotAt_of_getElem? (hitems ▸ hslot)]
    exact hstep i e (congrArg StateKey.op hkey) (h i e hslot)
  | @new st' hitems =>
    have hall : SlotsAt P st' := by
      intro i x hx
      rw [hitems] at hx
      by_cases hlt : i < st.items.length
      · rw [List.getElem?_append_left hlt] at hx
        exact h i x hx
      · rw [List.getElem?_append_right (Nat.le_of_not_lt hlt)] at hx
        rw [List.mem_singleton.mp (List.mem_of_getElem? hx)]
        exact hfresh i
    have hslot : st'.items[st.items.length]? = some (freshEntry k) := by
      rw [hitems]
      simp
    apply hall.setSlot
    intro _
    rw [slotAt_of_getElem? hslot]
    exact hstep _ _ rfl (hfresh _)

end Every

theorem AllSlots.stepAt (h : AllSlots P st) (hstep : ∀ e, P e → P (f e).entry) (i : ℕ) :
    AllSlots P (stepAt f i st).2 :=
  allSlots_iff.mpr ((allSlots_iff.mp h).stepAt i hstep)

theorem AllSlots.slotStep (h : AllSlots P st) (A : EvalAlloc → Bool) (k : StateKey)
    (hfresh : P (freshEntry k)) (hstep : ∀ e, e.op = k.op → P e → P (f e).entry) :
    AllSlots P (slotStep A k f st).2 :=
  allSlots_iff.mpr ((allSlots_iff.mp h).slotStep A k (fun _ => hfresh) fun _ => hstep)

/-- A form that goes through has gone through on a slot with the property. -/
theorem AllSlots.slotStep_result (h : AllSlots P st) (A : EvalAlloc → Bool) {k : StateKey}
    (hfresh : P (freshEntry k)) {a : α} (hok : (Patchbay.slotStep A k f st).1 = .ok a) :
    ∃ e, P e ∧ (f e).result = .ok a := by
  have hlocated := located_stateSlotIn A st k
  unfold Patchbay.slotStep at hok
  generalize stateSlotIn A st k = r at hlocated hok
  cases hlocated with
  | failed hitems => cases hok
  | @old st' i e hitems hslot hkey =>
    refine ⟨e, h e (List.mem_of_getElem? hslot), ?_⟩
    dsimp only [Patchbay.stepAt] at hok
    rw [slotAt_of_getElem? (hitems ▸ hslot)] at hok
    exact hok
  | @new st' hitems =>
    have hslot : st'.items[st.items.length]? = some (freshEntry k) := by simp [hitems]
    refine ⟨freshEntry k, hfresh, ?_⟩
    dsimp only [Patchbay.stepAt] at hok
    rw [slotAt_of_getElem? hslot] at hok
    exact hok

omit [Number N] in
theorem SlotHas.setSlot {i : ℕ} (h : SlotHas P i st) {j : ℕ} {e : StateEntry N}
    (he : i = j → P e) : SlotHas P i (setSlot st j e) := by
  obtain ⟨x, hx, hP⟩ := h
  have hlt := (List.getElem?_eq_some_iff.mp hx).1
  by_cases hij : i = j
  · refine ⟨e, ?_, he hij⟩
    rw [Patchbay.setSlot, ← hij]
    exact List.getElem?_set_self hlt
  · refine ⟨x, ?_, hP⟩
    rw [Patchbay.setSlot]
    exact (List.getElem?_set_ne (Ne.symm hij)).trans hx

theorem SlotHas.slotStep {i : ℕ} (h : SlotHas P i st) (A : EvalAlloc → Bool) (k : StateKey)
    (hstep : ∀ e, e.op = k.op → P e → P (f e).entry) : SlotHas P i (slotStep A k f st).2 := by
  have hlocated := located_stateSlotIn A st k
  unfold Patchbay.slotStep
  generalize stateSlotIn A st k = r at hlocated ⊢
  cases hlocated with
  | failed hitems =>
    rw [SlotHas, hitems]
    exact h
  | @old st' j e hitems hslot hkey =>
    have hhas : SlotHas P i st' := by
      rw [SlotHas, hitems]
      exact h
    apply hhas.setSlot
    rintro rfl
    rw [slotAt_of_getElem? (hitems ▸ hslot)]
    obtain ⟨x, hx, hP⟩ := h
    rw [hslot, Option.some.injEq] at hx
    exact hstep e (congrArg StateKey.op hkey) (hx ▸ hP)
  | @new st' hitems =>
    obtain ⟨x, hx, hP⟩ := h
    have hlt := (List.getElem?_eq_some_iff.mp hx).1
    have hhas : SlotHas P i st' := by
      refine ⟨x, ?_, hP⟩
      rw [hitems, List.getElem?_append_left hlt]
      exact hx
    apply hhas.setSlot
    intro heq
    omega

end Steps

end Monoblok.Patchbay
