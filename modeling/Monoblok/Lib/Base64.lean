import Mathlib.Data.List.Basic

/-!
# Base64

The encoding of bytes by digits of six bits, with the padding as an option.
-/

namespace Base64

/-- The digit for a number below 64. -/
def digit (n : ℕ) : UInt8 :=
  if n < 26 then UInt8.ofNat (0x41 + n)
  else if n < 52 then UInt8.ofNat (0x61 + (n - 26))
  else if n < 62 then UInt8.ofNat (0x30 + (n - 52))
  else if n = 62 then 0x2b
  else 0x2f

def pad : UInt8 := 0x3d

/-- Three bytes are four digits; a rest of one or two bytes is filled with zero bits. -/
def encode (padded : Bool) : List UInt8 → List UInt8
  | [] => []
  | [a] =>
    digit (a.toNat / 4) :: digit (a.toNat % 4 * 16) :: if padded then [pad, pad] else []
  | [a, b] =>
    digit (a.toNat / 4) :: digit (a.toNat % 4 * 16 + b.toNat / 16) ::
      digit (b.toNat % 16 * 4) :: if padded then [pad] else []
  | a :: b :: c :: rest =>
    digit (a.toNat / 4) :: digit (a.toNat % 4 * 16 + b.toNat / 16) ::
      digit (b.toNat % 16 * 4 + c.toNat / 64) :: digit (c.toNat % 64) :: encode padded rest

/-- What a byte of an encoding can be. -/
def IsDigit (c : UInt8) : Prop := c = pad ∨ ∃ n < 64, c = digit n

theorem isDigit_pad : IsDigit pad := .inl rfl

theorem isDigit_digit {n : ℕ} (h : n < 64) : IsDigit (digit n) := .inr ⟨n, h, rfl⟩

theorem isDigit_of_mem {padded : Bool} {bs : List UInt8} :
    ∀ c ∈ encode padded bs, IsDigit c := by
  fun_induction encode padded bs with
  | case1 => simp
  | case2 a =>
    have ha := a.toNat_lt
    have h₁ : IsDigit (digit (a.toNat / 4)) := isDigit_digit (by omega)
    have h₂ : IsDigit (digit (a.toNat % 4 * 16)) := isDigit_digit (by omega)
    cases padded <;> simp [h₁, h₂, isDigit_pad]
  | case3 a b =>
    have ha := a.toNat_lt
    have hb := b.toNat_lt
    have h₁ : IsDigit (digit (a.toNat / 4)) := isDigit_digit (by omega)
    have h₂ : IsDigit (digit (a.toNat % 4 * 16 + b.toNat / 16)) := isDigit_digit (by omega)
    have h₃ : IsDigit (digit (b.toNat % 16 * 4)) := isDigit_digit (by omega)
    cases padded <;> simp [h₁, h₂, h₃, isDigit_pad]
  | case4 a b c rest ih =>
    have ha := a.toNat_lt
    have hb := b.toNat_lt
    have hc := c.toNat_lt
    have h₁ : IsDigit (digit (a.toNat / 4)) := isDigit_digit (by omega)
    have h₂ : IsDigit (digit (a.toNat % 4 * 16 + b.toNat / 16)) := isDigit_digit (by omega)
    have h₃ : IsDigit (digit (b.toNat % 16 * 4 + c.toNat / 64)) := isDigit_digit (by omega)
    have h₄ : IsDigit (digit (c.toNat % 64)) := isDigit_digit (by omega)
    simpa [h₁, h₂, h₃, h₄] using ih

theorem encode_eq_nil {padded : Bool} {bs : List UInt8} : encode padded bs = [] ↔ bs = [] := by
  fun_induction encode padded bs with
  | case1 => simp
  | case2 | case3 | case4 => simp

end Base64
