import Mathlib.Data.List.Basic
import Mathlib.Tactic

/-!
# Areas of memory

An allocated area as the list of its cells. Reading and writing outside of it
are undefined. A resized area keeps its cells as far as they fit.
-/

namespace Monoblok.Area

variable {β : Type*}

def load (m : List β) (off n : ℕ) : Option (List β) :=
  if off + n ≤ m.length then some ((m.drop off).take n) else none

def store (m : List β) (off : ℕ) (src : List β) : Option (List β) :=
  if off + src.length ≤ m.length then some (m.take off ++ src ++ m.drop (off + src.length))
  else none

/-- `fill` gives the cells that were not there before. -/
def resize (m : List β) (n : ℕ) (fill : ℕ → β) : List β :=
  m.take n ++ (List.range (n - m.length)).map fill

theorem load_of_le {m : List β} {off n : ℕ} (h : off + n ≤ m.length) :
    load m off n = some ((m.drop off).take n) := by
  simp [load, h]

theorem length_resize (m : List β) (n : ℕ) (fill : ℕ → β) : (resize m n fill).length = n := by
  simp only [resize, List.length_append, List.length_take, List.length_map, List.length_range]
  omega

theorem take_resize {m : List β} {n k : ℕ} (hkn : k ≤ n) (hk : k ≤ m.length) (fill : ℕ → β) :
    (resize m n fill).take k = m.take k := by
  have hshort : k ≤ (m.take n).length := by
    simp only [List.length_take]
    omega
  rw [resize, List.take_append_of_le_length hshort, List.take_take, Nat.min_eq_left hkn]

/-- What is written follows what was in front of it. -/
theorem store_spec {m src : List β} {off : ℕ} (h : off + src.length ≤ m.length) :
    ∃ m', store m off src = some m' ∧ m'.length = m.length ∧
      m'.take (off + src.length) = m.take off ++ src := by
  have hfront : (m.take off ++ src).length = off + src.length := by
    simp only [List.length_append, List.length_take]
    omega
  refine ⟨m.take off ++ src ++ m.drop (off + src.length), by simp [store, h], ?_, ?_⟩
  · simp only [List.length_append, List.length_take, List.length_drop]
    omega
  · rw [← hfront, List.take_left]

end Monoblok.Area
