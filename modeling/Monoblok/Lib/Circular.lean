import Mathlib.Data.List.Basic
import Mathlib.Data.Nat.ModEq
import Mathlib.Logic.Function.Basic

/-!
# Windows of a circular array

The places of an array of `cap` elements from `head` on, around its end. As long
as there are no more than `cap` of them they are all different, so a write behind
the window leaves its elements alone.
-/

namespace Monoblok.Circular

variable {α : Type*} {f : ℕ → α} {cap head len : ℕ}

/-- The place of the element at distance `i` from the first. -/
def place (cap head i : ℕ) : ℕ := (head + i) % cap

/-- The elements in a window, first to last. -/
def window (f : ℕ → α) (cap head len : ℕ) : List α :=
  (List.range len).map fun i => f (place cap head i)

theorem length_window : (window f cap head len).length = len := by
  simp [window]

theorem place_zero (h : head < cap) : place cap head 0 = head := Nat.mod_eq_of_lt h

theorem place_lt (h : 0 < cap) (i : ℕ) : place cap head i < cap := Nat.mod_lt _ h

theorem place_succ (i : ℕ) : place cap (place cap head 1) i = place cap head (i + 1) := by
  unfold place
  rw [Nat.mod_add_mod, Nat.add_assoc, Nat.add_comm 1 i]

theorem place_injective {i j : ℕ} (hi : i < cap) (hj : j < cap)
    (h : place cap head i = place cap head j) : i = j := by
  have hmod : i ≡ j [MOD cap] := Nat.ModEq.add_left_cancel' head h
  rwa [Nat.ModEq, Nat.mod_eq_of_lt hi, Nat.mod_eq_of_lt hj] at hmod

theorem window_congr {g : ℕ → α} (h : ∀ i, i < len → f (place cap head i) = g (place cap head i)) :
    window f cap head len = window g cap head len := by
  apply List.map_congr_left
  intro i hi
  exact h i (List.mem_range.mp hi)

theorem window_push (x : α) (h : len < cap) :
    window (Function.update f (place cap head len) x) cap head (len + 1) =
      window f cap head len ++ [x] := by
  have hold : window (Function.update f (place cap head len) x) cap head len =
      window f cap head len := by
    apply window_congr
    intro i hi
    apply Function.update_of_ne
    intro hplace
    exact absurd (place_injective (hi.trans h) h hplace) hi.ne
  rw [← hold]
  simp [window, List.range_succ]

theorem window_pop :
    window f cap head (len + 1) = f (place cap head 0) :: window f cap (place cap head 1) len := by
  unfold window
  rw [List.range_succ_eq_map, List.map_cons, List.map_map]
  congr 1
  apply List.map_congr_left
  intro i _
  exact congrArg f (place_succ i).symm

/-- Larger arrays that start with the elements of the window hold the same window. -/
theorem window_front {cap' : ℕ} (h : len ≤ cap') :
    window (fun i => f (place cap head i)) cap' 0 len = window f cap head len := by
  apply List.map_congr_left
  intro i hi
  have hlt : i < cap' := lt_of_lt_of_le (List.mem_range.mp hi) h
  have hplace : place cap' 0 i = i := by
    rw [place, Nat.zero_add, Nat.mod_eq_of_lt hlt]
  exact congrArg (fun i => f (place cap head i)) hplace

/-- A full window moves on by one place when its first element is written over. -/
theorem window_rotate (x : α) (h : head < cap) :
    window (Function.update f head x) cap (place cap head 1) cap =
      (window f cap head cap).tail ++ [x] := by
  obtain ⟨n, rfl⟩ : ∃ n, cap = n + 1 := ⟨cap - 1, by omega⟩
  have hlast : place (n + 1) (place (n + 1) head 1) n = head := by
    rw [place_succ, place, Nat.add_mod_right, Nat.mod_eq_of_lt h]
  have hpush := @window_push _ f _ (place (n + 1) head 1) _ x (Nat.lt_succ_self n)
  rw [hlast] at hpush
  rw [hpush, window_pop, List.tail_cons]

end Monoblok.Circular
