import Mathlib.Algebra.Order.Floor.Ring
import Mathlib.Data.Rat.Floor
import Monoblok.Patchbay.Whole

/-!
# Exact arithmetic

Numbers whose operators are those of an ordered field, and the rationals as an
instance of them. What a field has no value for, such as a square root, is left
to the instance.
-/

namespace Monoblok.Patchbay

open Number

/-- The operators, comparisons and casts of `K` compute without rounding. -/
structure ExactArithmetic (K : Type) [Field K] [LinearOrder K] [FloorRing K] [Number K] : Prop where
  ofNat : ∀ n : ℕ, (ofNat n : K) = n
  half : (half : K) = 1 / 2
  fadd : ∀ a b : K, fadd a b = a + b
  fsub : ∀ a b : K, fsub a b = a - b
  fmul : ∀ a b : K, fmul a b = a * b
  fdiv : ∀ a b : K, fdiv a b = a / b
  flt : ∀ a b : K, flt a b = decide (a < b)
  fle : ∀ a b : K, fle a b = decide (a ≤ b)
  feq : ∀ a b : K, feq a b = decide (a = b)
  ffloor : ∀ a : K, ffloor a = ⌊a⌋
  /-- The cast of a whole number that has room. -/
  toU64 : ∀ n : ℕ, n < 2 ^ 64 → (toU64 (n : K)).toNat = n

/-- Whole numbers up to a bound are added, subtracted and compared without rounding. -/
structure CountsUpTo (N : Type) [Number N] (n : ℕ) : Prop where
  add : ∀ a b : ℕ, a + b ≤ n → fadd (ofNat a : N) (ofNat b) = ofNat (a + b)
  sub : ∀ a b : ℕ, a + b ≤ n → fsub (ofNat (a + b) : N) (ofNat b) = ofNat a
  lt : ∀ a b : ℕ, a ≤ n → b < 2 ^ 64 → flt (ofNat a : N) (ofNat b) = decide (a < b)

theorem countsUpTo_of_exact {K : Type} [Field K] [LinearOrder K] [IsStrictOrderedRing K]
    [FloorRing K] [Number K] (hexact : ExactArithmetic K) (n : ℕ) : CountsUpTo K n where
  add := by
    intro a b _
    simp [hexact.ofNat, hexact.fadd]
  sub := by
    intro a b _
    simp [hexact.ofNat, hexact.fsub]
  lt := by
    intro a b _ _
    simp [hexact.ofNat, hexact.flt]

/-- Texts of rationals are whole numbers or fractions, and only whole numbers are
read; a square root is that of numerator and denominator, rounded down. -/
instance : Number ℚ where
  ofNat n := n
  half := 1 / 2
  fadd a b := a + b
  fsub a b := a - b
  fmul a b := a * b
  fdiv a b := a / b
  fneg a := -a
  flt a b := decide (a < b)
  fle a b := decide (a ≤ b)
  feq a b := decide (a = b)
  ffloor a := ⌊a⌋
  fround a := if 0 ≤ a then ⌊a + 1 / 2⌋ else -⌊1 / 2 - a⌋
  fsqrt a := mkRat a.num.sqrt a.den.sqrt
  fabs a := |a|
  fpow a b := a ^ ⌊b⌋₊
  toU64 a := UInt64.ofNat (min ⌊a⌋₊ (2 ^ 64 - 1))
  strtod text := let (n, used, err) := wholeStrtod text; (n, used, err)
  fmtG _ a := if a.den = 1 then wholeText a.num else wholeText a.num ++ lit "/" ++ wholeText a.den
  fmtF p a :=
    let digits := wholeText ⌊a⌋
    if p = 0 then digits else digits ++ lit "." ++ List.replicate p 0x30
  bits a := wholeBits ⌊a⌋
  ofBits b := wholeOfBits b

theorem exactArithmetic_rat : ExactArithmetic ℚ where
  ofNat _ := rfl
  half := rfl
  fadd _ _ := rfl
  fsub _ _ := rfl
  fmul _ _ := rfl
  fdiv _ _ := rfl
  flt _ _ := rfl
  fle _ _ := rfl
  feq _ _ := rfl
  ffloor _ := rfl
  toU64 := by
    intro n hn
    change (UInt64.ofNat (min ⌊(n : ℚ)⌋₊ (2 ^ 64 - 1))).toNat = n
    rw [Nat.floor_natCast, min_eq_left (by omega), UInt64.toNat_ofNat', Nat.mod_eq_of_lt hn]

end Monoblok.Patchbay
