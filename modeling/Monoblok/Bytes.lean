import Mathlib.Data.List.Basic
import Mathlib.Data.UInt
import Mathlib.Tactic

/-!
# Byte strings and slices

The server works on borrowed slices of bytes. A slice is modelled by its
contents, so the equality, prefix and hash helpers of `slice.c` become total
functions on lists of bytes. Lengths are natural numbers; where the code
compares against `SIZE_MAX` the comparison is kept.
-/

namespace Monoblok

abbrev Bytes := List UInt8

/-- The bytes of an ASCII literal of the source. -/
def lit (s : String) : Bytes := s.toList.map fun c => UInt8.ofNat c.toNat

/-- `SIZE_MAX` of the 64-bit targets. -/
def sizeMax : ℕ := 2 ^ 64 - 1

def dot : UInt8 := 0x2e
def star : UInt8 := 0x2a
def gt : UInt8 := 0x3e
def space : UInt8 := 0x20
def tab : UInt8 := 0x09
def cr : UInt8 := 0x0d
def lf : UInt8 := 0x0a

def sliceEq (a b : Bytes) : Bool := a == b

def sliceHasPrefix (s pre : Bytes) : Bool :=
  decide (pre.length ≤ s.length) && s.take pre.length == pre

/-- FNV-1a over the slice, with the offset basis and prime of `slice.c`. -/
def sliceHash (s : Bytes) : UInt64 :=
  s.foldl (fun h b => (h ^^^ b.toUInt64) * 1099511628211) 1469598103934665603

@[simp] theorem sliceEq_iff {a b : Bytes} : sliceEq a b = true ↔ a = b := by
  simp [sliceEq]

@[simp] theorem sliceEq_self (a : Bytes) : sliceEq a a = true := by
  simp

theorem sliceHasPrefix_iff {s pre : Bytes} : sliceHasPrefix s pre = true ↔ pre <+: s := by
  rw [List.prefix_iff_eq_take]
  constructor
  · intro h
    simp only [sliceHasPrefix, Bool.and_eq_true, decide_eq_true_eq, beq_iff_eq] at h
    exact h.2.symm
  · intro h
    have hlen : pre.length ≤ s.length := by
      rw [h, List.length_take]
      omega
    simp [sliceHasPrefix, hlen, ← h]

end Monoblok
