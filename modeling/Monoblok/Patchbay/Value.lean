import Monoblok.Router.Match

/-!
# Patchbay values

The values of `pb_sexpr.h` and the conversions of `pb_eval.c`. A double is an
element of any type with the operations of `Number`; what is known about the
arithmetic is a hypothesis of the results that need it.
-/

namespace Monoblok.Patchbay

/-- What the evaluator asks of a `double`: the operators and casts of C, the
functions of `math.h`, `strtod`, the conversions of `printf` and the eight bytes
a snapshot stores. -/
class Number (N : Type) where
  /-- The cast of an unsigned integer. -/
  ofNat : ℕ → N
  half : N
  fadd : N → N → N
  fsub : N → N → N
  fmul : N → N → N
  fdiv : N → N → N
  fneg : N → N
  flt : N → N → Bool
  fle : N → N → Bool
  feq : N → N → Bool
  ffloor : N → N
  fround : N → N
  fsqrt : N → N
  fabs : N → N
  fpow : N → N → N
  /-- The cast to `uint64_t` or `size_t`. -/
  toU64 : N → UInt64
  /-- The number read, the bytes consumed and whether `errno` was set. -/
  strtod : Bytes → N × ℕ × Bool
  /-- `%.*g` -/
  fmtG : ℕ → N → Bytes
  /-- `%.*f` -/
  fmtF : ℕ → N → Bytes
  bits : N → UInt64
  ofBits : UInt64 → N

inductive Value (N : Type) where
  | nil
  | bool (b : Bool)
  | number (n : N)
  | symbol (text : Bytes)
  | keyword (text : Bytes)
  | string (text : Bytes)
  | list (items : List (Value N))
  | vector (items : List (Value N))

inductive EvalError where
  | oom
  | unknownSymbol
  | type
  | arity
  | invalidSubject
  | publishFailed
  deriving DecidableEq, Repr

/-- A document as the JSON reader returns it. -/
inductive Json (N : Type) where
  | null
  | bool (b : Bool)
  | num (n : N)
  | str (s : Bytes)
  | arr (items : List (Json N))
  | obj (members : List (Bytes × Json N))

/-- The places where the evaluator asks for memory. -/
inductive EvalAlloc where
  | arena
  | index
  | items
  | op
  | subject
  | bytes
  | emitSubject
  | ringValues
  | ringTimes
  deriving DecidableEq, Repr

variable {N : Type}

namespace Value

def truthy : Value N → Bool
  | nil => false
  | bool b => b
  | _ => true

/-- The text member of the union. -/
def text : Value N → Bytes
  | symbol t | keyword t | string t => t
  | _ => []

def isNil : Value N → Bool
  | nil => true
  | _ => false

def isKeyword : Value N → Bool
  | keyword _ => true
  | _ => false

def isText : Value N → Bool
  | string _ | symbol _ => true
  | _ => false

def keywordEq (v : Value N) (name : String) : Bool := v.isKeyword && v.text == lit name

def asString : Value N → Option Bytes
  | string t | symbol t => some t
  | bool true => some (lit "true")
  | bool false => some (lit "false")
  | nil => some []
  | _ => none

end Value

section Conversions

variable [Number N]

open Number

/-- `strtod` on a copy that ends at the first NUL; the whole text must be read. -/
def parseNumber (text : Bytes) : Option N :=
  if 128 ≤ text.length then none
  else
    let (n, used, err) := strtod (text.takeWhile (· != 0))
    if err || used != text.length then none else some n

def asNumber : Value N → Option N
  | .number n => some n
  | .string t | .symbol t => parseNumber t
  | _ => none

def roundTrips (n : N) (text : Bytes) : Bool :=
  let (m, used, err) := strtod text
  !err && used == text.length && feq m n

/-- The shortest of the given precisions that reads back as the same number, or
the last one; the buffer has 32 bytes. -/
def shortestText (n : N) : List ℕ → Option Bytes
  | [] => none
  | [p] => if 32 ≤ (fmtG p n).length then none else some (fmtG p n)
  | p :: ps =>
    if 32 ≤ (fmtG p n).length then none
    else if roundTrips n (fmtG p n) then some (fmtG p n)
    else shortestText n ps

def coercePayload (A : EvalAlloc → Bool) (v : Value N) : Option Bytes :=
  match v.asString with
  | some t => some t
  | none =>
    match v with
    | .number n => if A .arena then shortestText n [15, 16, 17] else none
    | _ => none

def valueEq : Value N → Value N → Bool
  | .nil, .nil => true
  | .bool a, .bool b => a == b
  | .number a, .number b => feq a b
  | .symbol a, .symbol b => a == b
  | .keyword a, .keyword b => a == b
  | .string a, .string b => a == b
  | _, _ => false

/-- The guard of every `:ms` argument. -/
def wholeFromOne (n : N) : Bool := !flt n (ofNat 1) && feq (ffloor n) n

end Conversions

def publishSubjectValid (subject : Bytes) : Bool :=
  subjectValid subject false && !subjectHasLvcPrefix subject && !subjectHasStatsPrefix subject

end Monoblok.Patchbay
