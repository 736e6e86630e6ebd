import Monoblok.Lib.LittleEndian
import Monoblok.Patchbay.Value
import Monoblok.Router.State

/-!
# Rule state

The long-lived slots of `pb_eval.h`, their hash index, and the operations of
`pb_form_windows.c` and `pb_form_bar.c` on one slot. An array of a slot is its
contents as a function of the index; the indices below the capacity are the ones
that mean something.
-/

namespace Monoblok.Patchbay

open OpenAddressing Number

inductive StateKind where
  | empty
  | number
  | bytes
  | ring
  | bar
  | clock
  deriving DecidableEq, Repr

inductive ClockKind where
  | none
  | onSilence
  | dropout
  | debounce
  | sample
  | aggregate
  deriving DecidableEq, Repr

inductive MetricKind where
  | none
  | avg
  | sum
  | min
  | max
  | count
  | rate
  deriving DecidableEq, Repr

structure StateEntry (N : Type) where
  ruleId : ℕ
  op : Bytes
  subject : Bytes
  kind : StateKind
  number : N
  bytes : Bytes
  ringValues : ℕ → N
  ringTimes : ℕ → UInt64
  ringCap : ℕ
  ringLen : ℕ
  ringStart : ℕ
  ringSum : N
  ringWindowMs : UInt64
  ringTimeWindow : Bool
  barOpen : N
  barHigh : N
  barLow : N
  barLastClose : N
  barCount : UInt32
  barCap : UInt32
  barWindowMs : UInt64
  barWindowStartMs : UInt64
  barTimeWindow : Bool
  clockKind : ClockKind
  metricKind : MetricKind
  clockIntervalMs : UInt64
  clockDeadlineMs : UInt64
  clockArmed : Bool
  dropoutLost : Bool
  lostForm : Value N
  foundForm : Value N
  clockBody : List (Value N)
  emitSubject : Bytes

/-- What a slot is looked up by. -/
structure StateKey where
  ruleId : ℕ
  op : Bytes
  subject : Bytes
  deriving DecidableEq, Repr

/-- The buffers of a slot that a tick hands out. -/
inductive SlotBuffer where
  | bytes
  | emitSubject
  deriving DecidableEq, Repr

/-- A slice of the buffer of a slot: its text, and all that was in the buffer when it
was handed out. -/
structure Loan where
  key : StateKey
  buffer : SlotBuffer
  within : Bytes
  text : Bytes
  deriving DecidableEq, Repr

/-- A text the program is given: one that stays, or one in the buffer of a slot, which
an evaluation may write again before it is read. -/
inductive Slice where
  | held (text : Bytes)
  | lent (loan : Loan)
  deriving DecidableEq, Repr

/-- Where a text comes from that is published. Values are not copied on the way, so what
comes from the subject or the payload of an evaluation lies where they lie. -/
inductive TextOrigin where
  | subject
  | payload
  | own
  deriving DecidableEq, Repr

/-- The text a slice was made of. -/
def Slice.text : Slice → Bytes
  | .held text => text
  | .lent loan => loan.text

variable {N : Type}

def StateEntry.key (e : StateEntry N) : StateKey := ⟨e.ruleId, e.op, e.subject⟩

def StateEntry.buffer (e : StateEntry N) : SlotBuffer → Bytes
  | .bytes => e.bytes
  | .emitSubject => e.emitSubject

/-- `state_key_hash`: FNV-1a over the eight bytes of the rule, the operation, a
separator and the subject. -/
def stateKeyHash (k : StateKey) : UInt64 :=
  sliceHash (LittleEndian.encode 8 k.ruleId ++ k.op ++ 0xff :: k.subject)

structure EvalState (N : Type) where
  items : List (StateEntry N)
  index : Index
  cap : ℕ

def EvalState.keys (st : EvalState N) : List StateKey := st.items.map StateEntry.key

def stateInit : EvalState N := ⟨[], [], 0⟩

/-- `sizeof (pb_eval_state_entry)` on the 64-bit targets. -/
def stateEntrySize : ℕ := 328

/-- The capacity for one more slot. -/
def stateReserve (ok : Bool) (st : EvalState N) : Option (EvalState N) :=
  (arrayReserve ok st.cap (st.items.length + 1) stateEntrySize 8).map fun cap =>
    { st with cap := cap }

section Slots

variable [Number N]

/-- A zeroed slot under its key. -/
def freshEntry (k : StateKey) : StateEntry N where
  ruleId := k.ruleId
  op := k.op
  subject := k.subject
  kind := .empty
  number := ofNat 0
  bytes := []
  ringValues := fun _ => ofNat 0
  ringTimes := fun _ => 0
  ringCap := 0
  ringLen := 0
  ringStart := 0
  ringSum := ofNat 0
  ringWindowMs := 0
  ringTimeWindow := false
  barOpen := ofNat 0
  barHigh := ofNat 0
  barLow := ofNat 0
  barLastClose := ofNat 0
  barCount := 0
  barCap := 0
  barWindowMs := 0
  barWindowStartMs := 0
  barTimeWindow := false
  clockKind := .none
  metricKind := .none
  clockIntervalMs := 0
  clockDeadlineMs := 0
  clockArmed := false
  dropoutLost := false
  lostForm := .nil
  foundForm := .nil
  clockBody := []
  emitSubject := []

def stateIndexRebuild (ok : Bool) (st : EvalState N) (needed : ℕ) : Option (EvalState N) :=
  (indexEnsure stateKeyHash ok st.index st.keys needed).map fun index => { st with index := index }

/-- A state of eight slots gets its index before the next lookup; it does without
when there is no memory. -/
def stateIndexPrepare (A : EvalAlloc → Bool) (st : EvalState N) : EvalState N :=
  if st.index.length = 0 ∧ 8 ≤ st.items.length then
    (stateIndexRebuild (A .index) st st.items.length).getD st
  else st

def stateAppend (A : EvalAlloc → Bool) (st : EvalState N) (k : StateKey) :
    EvalState N × Option ℕ :=
  let ready :=
    if st.index.length ≠ 0 ∨ 8 ≤ st.items.length then
      stateIndexRebuild (A .index) st (st.items.length + 1)
    else some st
  match ready with
  | none => (st, none)
  | some st =>
    match stateReserve (A .items) st with
    | none => (st, none)
    | some st =>
      if !A .op || !A .subject then (st, none)
      else
        let index :=
          if st.index.length ≠ 0 then insert st.index (stateKeyHash k) st.items.length
          else st.index
        (⟨st.items ++ [freshEntry k], index, st.cap⟩, some st.items.length)

/-- `state_slot`: the position of the slot of a key, new if need be. -/
def stateSlotIn (A : EvalAlloc → Bool) (st : EvalState N) (k : StateKey) :
    EvalState N × Option ℕ :=
  let st := stateIndexPrepare A st
  match indexFind stateKeyHash st.index st.keys k with
  | some i => (st, some i)
  | none => stateAppend A st k

end Slots

namespace StateEntry

def setBytes (A : EvalAlloc → Bool) (e : StateEntry N) (bytes : Bytes) : Option (StateEntry N) :=
  if A .bytes then some { e with bytes := bytes, kind := .bytes } else none

def setEmitSubject (A : EvalAlloc → Bool) (e : StateEntry N) (bytes : Bytes) :
    Option (StateEntry N) :=
  if A .emitSubject then some { e with emitSubject := bytes } else none

/-! ## Rings -/

def ringIdx (e : StateEntry N) (i : ℕ) : ℕ := if e.ringCap = 0 then 0 else (e.ringStart + i) % e.ringCap

def ringValueAt (e : StateEntry N) (i : ℕ) : N := e.ringValues (e.ringIdx i)

def ringTimeAt (e : StateEntry N) (i : ℕ) : UInt64 := e.ringTimes (e.ringIdx i)

/-- Moves the samples to the front of larger arrays. -/
def ringReserve (A : EvalAlloc → Bool) (e : StateEntry N) (cap : ℕ) (withTimes : Bool) :
    Option (StateEntry N) :=
  if cap ≤ e.ringCap then some e
  else if !A .ringValues || (withTimes && !A .ringTimes) then none
  else some { e with
    ringValues := e.ringValueAt
    ringTimes := if withTimes then e.ringTimeAt else fun _ => 0
    ringCap := cap
    ringStart := 0 }

variable [Number N]

def ringPushCount (e : StateEntry N) (x : N) : StateEntry N :=
  if e.ringLen < e.ringCap then
    { e with
      ringValues := Function.update e.ringValues ((e.ringStart + e.ringLen) % e.ringCap) x
      ringLen := e.ringLen + 1
      ringSum := fadd e.ringSum x }
  else
    { e with
      ringValues := Function.update e.ringValues e.ringStart x
      ringSum := fadd (fsub e.ringSum (e.ringValues e.ringStart)) x
      ringStart := (e.ringStart + 1) % e.ringCap }

def ringEvictLoop (cutoff : UInt64) : ℕ → StateEntry N → StateEntry N
  | 0, e => e
  | n + 1, e =>
    if e.ringLen = 0 ∨ cutoff ≤ e.ringTimes e.ringStart then e
    else
      ringEvictLoop cutoff n
        { e with
          ringSum := fsub e.ringSum (e.ringValues e.ringStart)
          ringStart := (e.ringStart + 1) % e.ringCap
          ringLen := e.ringLen - 1 }

/-- Drops the samples from before the cutoff, one in each round. -/
def ringEvictTime (e : StateEntry N) (cutoff : UInt64) : StateEntry N :=
  ringEvictLoop cutoff e.ringLen e

def ringPushTime (A : EvalAlloc → Bool) (e : StateEntry N) (x : N) (t : UInt64) :
    Option (StateEntry N) :=
  let room :=
    if e.ringLen = e.ringCap then
      e.ringReserve A (if e.ringCap = 0 then 16 else e.ringCap * 2) true
    else some e
  room.map fun e =>
    let idx := (e.ringStart + e.ringLen) % e.ringCap
    { e with
      ringValues := Function.update e.ringValues idx x
      ringTimes := Function.update e.ringTimes idx t
      ringLen := e.ringLen + 1
      ringSum := fadd e.ringSum x }

/-- The start of a window that ends now. -/
def cutoff (now ms : UInt64) : UInt64 := if ms < now then now - ms else 0

/-- A push that finds no memory leaves the old samples dropped. -/
def windowPush (A : EvalAlloc → Bool) (e : StateEntry N) (timeWindow : Bool) (count : ℕ)
    (ms now : UInt64) (x : N) : StateEntry N × Bool :=
  if timeWindow then
    let configured := if e.ringWindowMs = 0 then ms else e.ringWindowMs
    let e := e.ringEvictTime (cutoff now configured)
    match e.ringPushTime A x now with
    | none => (e, false)
    | some e => (e, true)
  else
    match if e.ringCap = 0 then e.ringReserve A count false else some e with
    | none => (e, false)
    | some e => (e.ringPushCount x, true)

inductive WindowCalc where
  | sum
  | avg
  | min
  | max
  | variance
  | stddev
  deriving DecidableEq, Repr

/-- The samples, oldest first. -/
def ringList (e : StateEntry N) : List N := (List.range e.ringLen).map e.ringValueAt

def ringMean (e : StateEntry N) : N := fdiv e.ringSum (ofNat e.ringLen)

/-- The mean of the squared distances from the mean. -/
def ringVariance (e : StateEntry N) : N :=
  fdiv
    (e.ringList.foldl
      (fun acc x => fadd acc (fmul (fsub x e.ringMean) (fsub x e.ringMean))) (ofNat 0))
    (ofNat e.ringLen)

def calcRing (e : StateEntry N) (what : WindowCalc) : Value N :=
  if e.ringLen = 0 then .nil
  else
    match what with
    | .sum => .number e.ringSum
    | .avg => .number e.ringMean
    | .min =>
      .number (e.ringList.tail.foldl (fun acc x => if flt x acc then x else acc) (e.ringValueAt 0))
    | .max =>
      .number (e.ringList.tail.foldl (fun acc x => if flt acc x then x else acc) (e.ringValueAt 0))
    | .variance => .number e.ringVariance
    | .stddev => .number (fsqrt e.ringVariance)

/-! ## Bars -/

structure BarClose (N : Type) where
  «open» : N
  high : N
  low : N
  close : N

def barOpenAt (e : StateEntry N) (x : N) : StateEntry N :=
  { e with barOpen := x, barHigh := x, barLow := x, barCount := 1 }

def barExtend (e : StateEntry N) (x : N) : StateEntry N :=
  { e with
    barHigh := if flt e.barHigh x then x else e.barHigh
    barLow := if flt x e.barLow then x else e.barLow
    barCount := e.barCount + 1 }

def barTickUpdate (e : StateEntry N) (x : N) : StateEntry N × Option (BarClose N) :=
  let e := if e.barCount = 0 then e.barOpenAt x else e.barExtend x
  if e.barCount < e.barCap then (e, none)
  else ({ e with barCount := 0 }, some ⟨e.barOpen, e.barHigh, e.barLow, x⟩)

/-- The bar that ends with the last sample seen. -/
def barClosed (e : StateEntry N) : BarClose N := ⟨e.barOpen, e.barHigh, e.barLow, e.barLastClose⟩

def barTimeUpdate (e : StateEntry N) (now : UInt64) (x : N) :
    StateEntry N × Option (BarClose N) :=
  let aligned := now / e.barWindowMs * e.barWindowMs
  if e.barCount = 0 then
    ({ e.barOpenAt x with barWindowStartMs := aligned, barLastClose := x }, none)
  else if e.barWindowStartMs ≠ aligned then
    ({ e.barOpenAt x with barWindowStartMs := aligned, barLastClose := x }, some e.barClosed)
  else ({ e.barExtend x with barLastClose := x }, none)

def barTimeTick (e : StateEntry N) (now : UInt64) : StateEntry N × Option (BarClose N) :=
  if e.kind ≠ .bar ∨ e.barTimeWindow = false ∨ e.barCount = 0 then (e, none)
  else if now - e.barWindowStartMs < e.barWindowMs then (e, none)
  else ({ e with barCount := 0, barWindowStartMs := 0 }, some e.barClosed)

end StateEntry

end Monoblok.Patchbay
