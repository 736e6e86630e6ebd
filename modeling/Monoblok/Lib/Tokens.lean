import Mathlib.Data.List.TakeWhile
import Mathlib.Data.List.DropRight
import Mathlib.Tactic

/-!
# Splitting a list on a separator

A scanner that walks to the next separator sees the list one token at a time.
The lemmas here relate such a scan to `List.splitOn`.
-/

namespace Monoblok.Tokens

variable {α : Type*} [BEq α] [LawfulBEq α] {a : α} {l t r : List α}

/-- The part before the first separator. -/
def first (a : α) (l : List α) : List α := l.takeWhile (· != a)

/-- What a scan that stopped at the first separator still has to read, the
separator included. -/
def rest (a : α) (l : List α) : List α := l.dropWhile (· != a)

omit [LawfulBEq α] in
theorem first_append_rest (a : α) (l : List α) : first a l ++ rest a l = l :=
  List.takeWhile_append_dropWhile

theorem not_mem_first (a : α) (l : List α) : a ∉ first a l := by
  intro h
  have := List.mem_takeWhile_imp h
  simp at this

theorem first_eq_self (h : a ∉ l) : first a l = l := by
  refine List.takeWhile_eq_self_iff.mpr fun b hb => ?_
  simpa using fun e : b = a => h (e ▸ hb)

omit [LawfulBEq α] in
theorem rest_eq_drop (a : α) (l : List α) : rest a l = l.drop (first a l).length := by
  have h := congrArg (List.drop (first a l).length) (first_append_rest a l)
  rwa [List.drop_left] at h

theorem rest_eq_cons (h : rest a l = t) : t = [] ∨ ∃ r, t = a :: r := by
  subst h
  cases hr : rest a l with
  | nil => exact Or.inl rfl
  | cons b r =>
    have hpos : 0 < (l.dropWhile (· != a)).length := by
      simp only [rest] at hr
      simp [hr]
    have hb := List.dropWhile_get_zero_not (p := (· != a)) l hpos
    simp only [rest] at hr
    simp only [List.get_eq_getElem, hr, List.getElem_cons_zero, bne_iff_ne, ne_eq,
      not_not] at hb
    exact Or.inr ⟨r, by rw [hb]⟩

theorem splitOn_of_rest_nil (h : rest a l = []) : l.splitOn a = [first a l] := by
  have hl : first a l = l := by simpa [h] using first_append_rest a l
  rw [List.splitOn_eq_singleton (by rw [← hl]; exact not_mem_first a l), hl]

theorem splitOn_of_rest_cons (h : rest a l = a :: r) :
    l.splitOn a = first a l :: r.splitOn a := by
  conv_lhs => rw [← first_append_rest a l, h]
  exact List.splitOn_append_cons_self_of_not_mem (not_mem_first a l) r

theorem exists_splitOn_eq_cons (a : α) (l : List α) : ∃ ts, l.splitOn a = first a l :: ts := by
  rcases rest_eq_cons (rfl : rest a l = rest a l) with h | ⟨r, h⟩
  · exact ⟨[], splitOn_of_rest_nil h⟩
  · exact ⟨r.splitOn a, splitOn_of_rest_cons h⟩

theorem first_append_of_not_mem (h : a ∉ t) : first a (t ++ a :: r) = t := by
  induction t with
  | nil => simp [first]
  | cons b t ih =>
    simp only [List.mem_cons, not_or] at h
    have hb : (b != a) = true := by simpa using fun e => h.1 e.symm
    simpa [first, List.takeWhile_cons, hb] using ih h.2

/-- Once the separator has been seen, more input does not change the first
token. -/
theorem first_append {l r : List α}
    (h : (first a l).length ≠ l.length) : first a (l ++ r) = first a l := by
  rcases rest_eq_cons (rfl : rest a l = _) with hr | ⟨t, hr⟩
  · have hl := congrArg List.length (first_append_rest a l)
    rw [hr, List.length_append, List.length_nil] at hl
    exact absurd hl h
  · have hl := first_append_rest a l
    rw [hr] at hl
    conv_lhs => rw [← hl, List.append_assoc, List.cons_append]
    exact first_append_of_not_mem (not_mem_first a l)

omit [LawfulBEq α] in
theorem mem_of_mem_splitOn {t : List α} {c : α} (ht : t ∈ l.splitOn a) (hc : c ∈ t) : c ∈ l := by
  induction l generalizing t with
  | nil =>
    rw [List.splitOn_nil, List.mem_singleton] at ht
    rw [ht] at hc
    exact hc
  | cons x xs ih =>
    rw [List.splitOn_cons_eq_if_modifyHead] at ht
    split_ifs at ht
    · rcases List.mem_cons.mp ht with rfl | ht
      · cases hc
      · exact List.mem_cons_of_mem x (ih ht hc)
    · obtain ⟨u, us, hu⟩ := List.exists_cons_of_ne_nil (List.splitOn_ne_nil a xs)
      rw [hu, List.modifyHead_cons] at ht
      rw [hu] at ih
      rcases List.mem_cons.mp ht with rfl | ht
      · rcases List.mem_cons.mp hc with rfl | hc
        · exact List.mem_cons_self
        · exact List.mem_cons_of_mem x (ih List.mem_cons_self hc)
      · exact List.mem_cons_of_mem x (ih (List.mem_cons_of_mem u ht) hc)

theorem not_mem_of_mem_splitOn {t : List α} (ht : t ∈ l.splitOn a) : a ∉ t := by
  induction l generalizing t with
  | nil =>
    rw [List.splitOn_nil, List.mem_singleton] at ht
    simp [ht]
  | cons x xs ih =>
    rw [List.splitOn_cons_eq_if_modifyHead] at ht
    split_ifs at ht with hx
    · rcases List.mem_cons.mp ht with rfl | ht
      · exact List.not_mem_nil
      · exact ih ht
    · obtain ⟨u, us, hu⟩ := List.exists_cons_of_ne_nil (List.splitOn_ne_nil a xs)
      rw [hu, List.modifyHead_cons] at ht
      rw [hu] at ih
      rcases List.mem_cons.mp ht with rfl | ht
      · have hne : a ≠ x := fun heq => hx (by simp [heq])
        simpa [hne] using ih List.mem_cons_self
      · exact ih (List.mem_cons_of_mem u ht)

end Monoblok.Tokens
