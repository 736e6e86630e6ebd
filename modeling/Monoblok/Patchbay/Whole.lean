import Monoblok.Patchbay.Value

/-!
# Whole numbers

A `Number` to run concrete programs with: the integers, with exact arithmetic.
Texts are decimal, casts saturate, and the stored bits are those of the double
for every magnitude below `2 ^ 53`.
-/

namespace Monoblok.Patchbay

def isDigit (b : UInt8) : Bool := decide (0x30 ≤ b ∧ b ≤ 0x39)

def digitsValue (ds : Bytes) : ℕ := ds.foldl (fun n b => n * 10 + (b.toNat - 0x30)) 0

/-- A decimal integer at the front of a text. -/
def wholeStrtod (text : Bytes) : ℤ × ℕ × Bool :=
  let negative := text.head? == some 0x2d
  let digits := (if negative then text.tail else text).takeWhile isDigit
  if digits.isEmpty then (0, 0, false)
  else if negative then (-(digitsValue digits : ℤ), digits.length + 1, false)
  else (digitsValue digits, digits.length, false)

def wholeText (n : ℤ) : Bytes := lit (toString n)

/-- The double of an integer: sign, biased exponent and fraction. -/
def wholeBits (n : ℤ) : UInt64 :=
  let m := n.natAbs
  let e := m.log2
  let sign := if n < 0 then 2 ^ 63 else 0
  if m = 0 then 0 else UInt64.ofNat (sign + (e + 1023) * 2 ^ 52 + (m - 2 ^ e) * 2 ^ 52 / 2 ^ e)

/-- The integer part of a double. -/
def wholeOfBits (b : UInt64) : ℤ :=
  let e := b.toNat / 2 ^ 52 % 2048
  let m : ℕ := if e < 1023 then 0 else (2 ^ 52 + b.toNat % 2 ^ 52) * 2 ^ (e - 1023) / 2 ^ 52
  if b.toNat < 2 ^ 63 then (m : ℤ) else -(m : ℤ)

instance : Number ℤ where
  ofNat n := n
  half := 0
  fadd a b := a + b
  fsub a b := a - b
  fmul a b := a * b
  fdiv a b := a.tdiv b
  fneg a := -a
  flt a b := decide (a < b)
  fle a b := decide (a ≤ b)
  feq a b := decide (a = b)
  ffloor a := a
  fround a := a
  fsqrt a := a.sqrt
  fabs a := a.natAbs
  fpow a b := a ^ b.toNat
  toU64 a := UInt64.ofNat (min a.toNat (2 ^ 64 - 1))
  strtod := wholeStrtod
  fmtG _ a := wholeText a
  fmtF p a := if p = 0 then wholeText a else wholeText a ++ lit "." ++ List.replicate p 0x30
  bits := wholeBits
  ofBits := wholeOfBits

example : wholeBits 3 = 0x4008000000000000 ∧ wholeOfBits 0x4008000000000000 = 3 := by decide

example : wholeStrtod (lit "-12x") = (-12, 3, false) := by decide

end Monoblok.Patchbay
