import Monoblok.Patchbay.Aggregates

/-!
# Numbers with infinities and NaN

Any arithmetic extended by two infinities and an absorbing NaN, with the texts
`strtod` accepts for them. A sum or a difference is finite if and only if both
arguments are.
-/

namespace Monoblok.Patchbay

open Number

inductive Extended (K : Type) where
  | nan
  | inf (negative : Bool)
  | fin (x : K)
  deriving DecidableEq

namespace Extended

variable {K : Type}

def isFinite : Extended K → Bool
  | fin _ => true
  | _ => false

theorem isFinite_iff {x : Extended K} : x.isFinite = true ↔ ∃ y, x = fin y := by
  cases x with
  | nan => exact ⟨fun h => (by cases h), fun ⟨_, h⟩ => (by cases h)⟩
  | inf negative => exact ⟨fun h => (by cases h), fun ⟨_, h⟩ => (by cases h)⟩
  | fin y => exact ⟨fun _ => ⟨y, rfl⟩, fun _ => rfl⟩

variable [Number K]

def negative (x : K) : Bool := flt x (ofNat 0)

def isZero (x : K) : Bool := feq x (ofNat 0)

def add : Extended K → Extended K → Extended K
  | fin a, fin b => fin (fadd a b)
  | nan, _ | _, nan => nan
  | inf s, inf t => if s = t then inf s else nan
  | inf s, fin _ | fin _, inf s => inf s

def neg : Extended K → Extended K
  | nan => nan
  | inf s => inf !s
  | fin a => fin (fneg a)

def sub : Extended K → Extended K → Extended K
  | fin a, fin b => fin (fsub a b)
  | a, b => add a (neg b)

def mul : Extended K → Extended K → Extended K
  | fin a, fin b => fin (fmul a b)
  | nan, _ | _, nan => nan
  | inf s, inf t => inf (s != t)
  | inf s, fin x | fin x, inf s => if isZero x then nan else inf (s != negative x)

/-- The sign of a zero is not kept. -/
def div : Extended K → Extended K → Extended K
  | fin a, fin b =>
    if isZero b then if isZero a then nan else inf (negative a) else fin (fdiv a b)
  | nan, _ | _, nan => nan
  | inf _, inf _ => nan
  | inf s, fin x => inf (s != negative x)
  | fin _, inf _ => fin (ofNat 0)

def lt : Extended K → Extended K → Bool
  | fin a, fin b => flt a b
  | nan, _ | _, nan => false
  | inf s, inf t => s && !t
  | inf s, fin _ => s
  | fin _, inf s => !s

def eq : Extended K → Extended K → Bool
  | fin a, fin b => feq a b
  | inf s, inf t => s == t
  | _, _ => false

/-- A function of finite numbers that takes the rest to themselves. -/
def lift (f : K → K) : Extended K → Extended K
  | fin a => fin (f a)
  | x => x

def sqrt : Extended K → Extended K
  | fin a => if negative a then nan else fin (fsqrt a)
  | inf false => inf false
  | _ => nan

def abs : Extended K → Extended K
  | fin a => fin (fabs a)
  | inf _ => inf false
  | nan => nan

/-- Powers are kept to finite numbers. -/
def pow : Extended K → Extended K → Extended K
  | fin a, fin b => fin (fpow a b)
  | _, _ => nan

def lower (b : UInt8) : UInt8 := if 0x41 ≤ b ∧ b ≤ 0x5a then b + 0x20 else b

/-- The names that `strtod` knows, the longer one first. -/
def names : List (Bytes × Extended K) :=
  [(lit "infinity", inf false), (lit "inf", inf false), (lit "nan", nan)]

def strtod (text : Bytes) : Extended K × ℕ × Bool :=
  let minus := text.head? == some 0x2d
  let rest := (if minus then text.tail else text).map lower
  match names.find? fun name : Bytes × Extended K => name.1.isPrefixOf rest with
  | some (name, x) => (if minus then neg x else x, name.length + (if minus then 1 else 0), false)
  | none => let (x, used, err) := Number.strtod text; (fin x, used, err)

/-- The text of a number that is not finite. -/
def text (f : K → Bytes) : Extended K → Bytes
  | nan => lit "nan"
  | inf s => if s then lit "-inf" else lit "inf"
  | fin a => f a

def bits : Extended K → UInt64
  | nan => 0x7ff8000000000000
  | inf s => if s then 0xfff0000000000000 else 0x7ff0000000000000
  | fin a => Number.bits a

def ofBits (b : UInt64) : Extended K :=
  if b = 0x7ff0000000000000 then inf false
  else if b = 0xfff0000000000000 then inf true
  else if b.toNat / 2 ^ 52 % 2048 = 2047 then nan
  else fin (Number.ofBits b)

end Extended

open Extended in
instance {K : Type} [Number K] : Number (Extended K) where
  ofNat n := fin (ofNat n)
  half := fin half
  fadd := add
  fsub := sub
  fmul := mul
  fdiv := div
  fneg := neg
  flt := lt
  fle a b := lt a b || eq a b
  feq := eq
  ffloor := lift ffloor
  fround := lift fround
  fsqrt := sqrt
  fabs := abs
  fpow := pow
  toU64
    | fin a => toU64 a
    | _ => 0
  strtod := strtod
  fmtG p := text (fmtG p)
  fmtF p := text (fmtF p)
  bits := bits
  ofBits := ofBits

namespace Extended

variable {K : Type} [Number K]

theorem isFinite_add (x y : Extended K) : (add x y).isFinite = (x.isFinite && y.isFinite) := by
  cases x <;> cases y <;> simp only [add, isFinite, Bool.and_false, Bool.and_true]
  split_ifs <;> rfl

theorem isFinite_sub (x y : Extended K) : (sub x y).isFinite = (x.isFinite && y.isFinite) := by
  cases x with
  | fin a =>
    cases y with
    | fin b => rfl
    | nan => rfl
    | inf t => exact isFinite_add (fin a) (neg (inf t))
  | nan => cases y <;> rfl
  | inf s => cases y with
    | fin b => rfl
    | nan => rfl
    | inf t => exact isFinite_add (inf s) (neg (inf t))

end Extended

example : asNumber (.string (lit "nan") : Value (Extended ℚ)) = some .nan := by decide +kernel

example : asNumber (.string (lit "-Infinity") : Value (Extended ℚ)) = some (.inf true) := by
  decide +kernel

end Monoblok.Patchbay
