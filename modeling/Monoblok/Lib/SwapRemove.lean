import Mathlib.Data.List.Perm.Basic
import Mathlib.Tactic

/-!
# Sweeping an array with swap-removal

A loop walks an array, keeps or updates an element and moves on, or removes it
by putting the last element in its place and looks at the same position again.
The order changes, the elements do not: `sweep_perm`.
-/

namespace Monoblok.SwapRemove

variable {α β : Type*}

/-- The part of the array from the current position on. Every round takes one
element off it. -/
def sweepLoop (f : α → Option α) : ℕ → List α → List α
  | 0, l => l
  | _ + 1, [] => []
  | fuel + 1, x :: xs =>
    match f x with
    | some y => y :: sweepLoop f fuel xs
    | none =>
      match xs.getLast? with
      | none => []
      | some last => sweepLoop f fuel (last :: xs.dropLast)

def sweep (f : α → Option α) (l : List α) : List α := sweepLoop f l.length l

/-- What follows a removed element: the last one comes first. -/
def lastFirst (xs : List α) : List α := xs.getLast?.toList ++ xs.dropLast

theorem lastFirst_perm (xs : List α) : (lastFirst xs).Perm xs := by
  rcases List.eq_nil_or_concat xs with rfl | ⟨init, last, rfl⟩
  · exact .refl _
  · simp only [lastFirst, List.concat_eq_append, List.getLast?_concat, List.dropLast_concat,
      Option.toList_some]
    exact (List.perm_append_singleton last init).symm

theorem sweep_cons_some {f : α → Option α} {x y : α} (h : f x = some y) (xs : List α) :
    sweep f (x :: xs) = y :: sweep f xs := by
  rw [sweep, List.length_cons, sweepLoop, h]
  rfl

theorem sweep_cons_none {f : α → Option α} {x : α} (h : f x = none) (xs : List α) :
    sweep f (x :: xs) = sweep f (lastFirst xs) := by
  have hlen := (lastFirst_perm xs).length_eq
  rw [sweep, sweep, hlen, List.length_cons, sweepLoop, h]
  rcases List.eq_nil_or_concat xs with rfl | ⟨init, last, rfl⟩
  · rfl
  · simp [lastFirst]

theorem sweepLoop_perm (f : α → Option α) {fuel : ℕ} {l : List α} (h : l.length ≤ fuel) :
    (sweepLoop f fuel l).Perm (l.filterMap f) := by
  induction fuel generalizing l with
  | zero =>
    have : l = [] := List.length_eq_zero_iff.mp (by omega)
    subst this
    exact .refl _
  | succ fuel ih =>
    cases l with
    | nil => exact .refl _
    | cons x xs =>
      rw [List.length_cons] at h
      cases hx : f x with
      | some y =>
        rw [sweepLoop, hx, List.filterMap_cons_some hx]
        exact (ih (by omega)).cons y
      | none =>
        rw [sweepLoop, hx, List.filterMap_cons_none hx]
        rcases List.eq_nil_or_concat xs with rfl | ⟨init, last, rfl⟩
        · exact .refl _
        · rw [List.concat_eq_append] at h ⊢
          rw [List.length_append, List.length_singleton] at h
          rw [List.getLast?_concat, List.dropLast_concat]
          refine (ih (by rw [List.length_cons]; omega)).trans ?_
          exact (List.perm_append_singleton last init).symm.filterMap f

/-- The sweep keeps what `f` keeps, in some order. -/
theorem sweep_perm (f : α → Option α) (l : List α) : (sweep f l).Perm (l.filterMap f) :=
  sweepLoop_perm f le_rfl

theorem sweepLoop_of_forall {f : α → Option α} {l : List α} (h : ∀ x ∈ l, (f x).isSome = true) :
    sweepLoop f l.length l = l.filterMap f := by
  induction l with
  | nil => rfl
  | cons x xs ih =>
    obtain ⟨y, hy⟩ := Option.isSome_iff_exists.mp (h x List.mem_cons_self)
    rw [List.length_cons, sweepLoop, hy, List.filterMap_cons_some hy]
    simp only
    rw [ih fun z hz => h z (List.mem_cons_of_mem x hz)]

/-- A sweep that removes nothing keeps the order. -/
theorem sweep_of_length {f : α → Option α} {l : List α} (h : l.length ≤ (sweep f l).length) :
    sweep f l = l.filterMap f := by
  refine sweepLoop_of_forall (List.filterMap_length_eq_length.mp ?_)
  have hle := List.length_filterMap_le f l
  have hlen := (sweep_perm f l).length_eq
  omega

theorem mem_sweep {f : α → Option α} {l : List α} {y : α} :
    y ∈ sweep f l ↔ ∃ x ∈ l, f x = some y := by
  rw [(sweep_perm f l).mem_iff, List.mem_filterMap]

end Monoblok.SwapRemove
