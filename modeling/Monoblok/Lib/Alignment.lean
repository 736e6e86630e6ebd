import Mathlib.Data.Nat.Bitwise
import Mathlib.Tactic

/-!
# Aligned addresses

A power of two is recognised by its bits, and clearing the low bits of a word of
`w` bits rounds it down. Rounding up to an alignment adds its mask first.
-/

namespace Monoblok.Alignment

def isPowerOfTwo (n : ℕ) : Bool := n != 0 && n &&& (n - 1) == 0

/-- The bitwise complement of a word. -/
def complement (w n : ℕ) : ℕ := (2 ^ w - 1) ^^^ n

theorem exists_pow_of_isPowerOfTwo {n : ℕ} (h : isPowerOfTwo n = true) : ∃ k, n = 2 ^ k := by
  simp only [isPowerOfTwo, Bool.and_eq_true, bne_iff_ne, ne_eq, beq_iff_eq] at h
  exact (Nat.and_sub_one_eq_zero_iff_isPowerOfTwo h.1).mp h.2

/-- Clearing the low bits. -/
theorem and_complement {w k x : ℕ} (hk : k ≤ w) (hx : x < 2 ^ w) :
    x &&& complement w (2 ^ k - 1) = x / 2 ^ k * 2 ^ k := by
  apply Nat.eq_of_testBit_eq
  intro i
  rw [complement, Nat.testBit_and, Nat.testBit_xor, Nat.testBit_two_pow_sub_one,
    Nat.testBit_two_pow_sub_one, Nat.testBit_mul_two_pow]
  by_cases hik : k ≤ i
  · have hlow : ¬i < k := by omega
    rw [Nat.testBit_div_two_pow, Nat.sub_add_cancel hik]
    by_cases hiw : i < w
    · simp [hik, hlow, hiw]
    · have hzero : x.testBit i = false := by
        apply Nat.testBit_lt_two_pow
        exact hx.trans_le (Nat.pow_le_pow_right (by omega) (by omega))
      simp [hzero]
  · have hiw : i < w := by omega
    have hlow : i < k := by omega
    simp [hik, hiw, hlow]

/-- An address rounded up is aligned, not lower, and not a whole alignment higher. -/
theorem round_up {w k x : ℕ} (hk : k ≤ w) (hx : x + (2 ^ k - 1) < 2 ^ w) :
    2 ^ k ∣ (x + (2 ^ k - 1)) &&& complement w (2 ^ k - 1) ∧
      x ≤ (x + (2 ^ k - 1)) &&& complement w (2 ^ k - 1) ∧
      (x + (2 ^ k - 1)) &&& complement w (2 ^ k - 1) ≤ x + (2 ^ k - 1) := by
  have hpos := Nat.two_pow_pos k
  have hmod := Nat.mod_lt (x + (2 ^ k - 1)) hpos
  have hdiv := Nat.div_add_mod' (x + (2 ^ k - 1)) (2 ^ k)
  rw [and_complement hk hx]
  refine ⟨Nat.dvd_mul_left _ _, ?_, Nat.div_mul_le_self _ _⟩
  omega

end Monoblok.Alignment
