import Monoblok.Patchbay.ProgramText

/-!
# Expressions whose lists are calls

The evaluator takes the text of the first item of a list as the name of a form. In the
expressions it is given the first item of every list is a symbol.
-/

namespace Monoblok.Patchbay

variable {N W : Type}

/-- A list that is a call: it begins with a symbol. -/
def IsCall (items : List (Value N)) : Prop := ∃ head args, items = .symbol head :: args

/-- Every list in an expression is a call. -/
def Value.Shaped (v : Value N) : Prop := ∀ items, PartOf (.list items) v → IsCall items

def AllShaped (vs : List (Value N)) : Prop := ∀ v ∈ vs, v.Shaped

theorem partOf_list {w : Value N} {items : List (Value N)} :
    PartOf w (.list items) ↔ w = .list items ∨ ∃ v ∈ items, PartOf w v := by
  constructor
  · intro h
    cases h with
    | self => exact .inl rfl
    | list hv h => exact .inr ⟨_, hv, h⟩
  · rintro (rfl | ⟨v, hv, h⟩)
    · exact .self _
    · exact .list hv h

theorem partOf_vector {w : Value N} {items : List (Value N)} :
    PartOf w (.vector items) ↔ w = .vector items ∨ ∃ v ∈ items, PartOf w v := by
  constructor
  · intro h
    cases h with
    | self => exact .inl rfl
    | vector hv h => exact .inr ⟨_, hv, h⟩
  · rintro (rfl | ⟨v, hv, h⟩)
    · exact .self _
    · exact .vector hv h

@[simp] theorem shaped_list {items : List (Value N)} :
    (Value.list items).Shaped ↔ IsCall items ∧ ∀ v ∈ items, v.Shaped := by
  constructor
  · intro h
    exact ⟨h items (.self _), fun v hv items' hpart => h items' (.list hv hpart)⟩
  · rintro ⟨hcall, hitems⟩ items' hpart
    rcases partOf_list.mp hpart with heq | ⟨v, hv, hpart⟩
    · cases heq
      exact hcall
    · exact hitems v hv items' hpart

@[simp] theorem shaped_vector {items : List (Value N)} :
    (Value.vector items).Shaped ↔ ∀ v ∈ items, v.Shaped := by
  constructor
  · exact fun h v hv items' hpart => h items' (.vector hv hpart)
  · intro h items' hpart
    rcases partOf_vector.mp hpart with heq | ⟨v, hv, hpart⟩
    · cases heq
    · exact h v hv items' hpart

@[simp] theorem shaped_nil : (Value.nil : Value N).Shaped := by
  intro items h
  cases h

@[simp] theorem shaped_bool (b : Bool) : (Value.bool b : Value N).Shaped := by
  intro items h
  cases h

@[simp] theorem shaped_number (n : N) : (Value.number n).Shaped := by
  intro items h
  cases h

@[simp] theorem shaped_symbol (text : Bytes) : (Value.symbol text : Value N).Shaped := by
  intro items h
  cases h

@[simp] theorem shaped_keyword (text : Bytes) : (Value.keyword text : Value N).Shaped := by
  intro items h
  cases h

@[simp] theorem shaped_string (text : Bytes) : (Value.string text : Value N).Shaped := by
  intro items h
  cases h

theorem shaped_call {head : Bytes} {args : List (Value N)} :
    (Value.list (.symbol head :: args)).Shaped ↔ ∀ v ∈ args, v.Shaped := by
  rw [shaped_list, List.forall_mem_cons]
  exact ⟨fun h => h.2.2, fun h => ⟨⟨head, args, rfl⟩, shaped_symbol head, h⟩⟩

/-! ## While a program runs -/

/-- No list is left in the value of an expression. -/
theorem Value.Evaluated.shaped {v : Value N} (h : v.Evaluated) : v.Shaped := by
  intro items hpart
  generalize hlist : Value.list items = w at hpart
  induction hpart with
  | self =>
    subst hlist
    exact absurd h not_evaluated_list
  | list hv _ _ => exact absurd h not_evaluated_list
  | vector hv _ ih =>
    have hle := weight_le_of_mem hv
    exact ih (Nat.eq_zero_of_le_zero (hle.trans_eq h))

theorem discipline_shaped :
    Discipline (N := N) (fun forms => ∀ v ∈ forms, v.Shaped) Value.Shaped where
  deferred h := h
  evaluated h := h.shaped
  items h := shaped_vector.mp h
  args h v hv := (shaped_list.mp h).2 v (List.mem_cons_of_mem _ hv)
  onSilence h _ _ v hv := by
    apply (shaped_list.mp h).2 v
    simp only [List.mem_cons] at hv ⊢
    tauto
  dropout h _ _ v hv := by
    apply (shaped_list.mp h).2 v
    simp only [List.mem_cons, List.not_mem_nil, or_false] at hv ⊢
    tauto
  symbolStep _ _ _ _ _ hx := shaped_call.mpr (by simpa using hx.shaped)
  listStep h _ name args hmem x hx := by
    have hstep : (Value.list (.symbol name :: args)).Shaped :=
      (shaped_list.mp h).2 _ (by simp [hmem])
    apply shaped_call.mpr
    intro v hv
    rcases List.mem_append.mp hv with hv | hv
    · exact shaped_call.mp hstep v hv
    · rw [List.mem_singleton.mp hv]
      exact hx.shaped

end Monoblok.Patchbay
