import Monoblok.Patchbay.Forms
import Monoblok.Patchbay.State

/-!
# Forms on a slot

What each stateful form of `pb_form_state.c`, `pb_form_windows.c`,
`pb_form_bar.c` and `pb_form_clocks.c` does to its slot. A step returns the slot
as it is left behind, also when it fails.
-/

namespace Monoblok.Patchbay

open Number

variable {N : Type}

structure SlotStep (N α : Type) where
  entry : StateEntry N
  suppressed : Bool
  result : Except EvalError α

namespace SlotStep

variable {α : Type}

def done (e : StateEntry N) (a : α) : SlotStep N α := ⟨e, false, .ok a⟩

def suppress (e : StateEntry N) (a : α) : SlotStep N α := ⟨e, true, .ok a⟩

def fail (e : StateEntry N) (err : EvalError) : SlotStep N α := ⟨e, false, .error err⟩

end SlotStep

variable [Number N]

/-! ## Numbers and bytes -/

def StateEntry.setNumber (e : StateEntry N) (n : N) : StateEntry N :=
  { e with kind := .number, number := n }

def encodeStateValue (A : EvalAlloc → Bool) : Value N → Option Bytes
  | .number n => coercePayload A (.number n)
  | v => v.asString

/-- The value that passes, or whether it passes. -/
def changedResult (boolMode changed : Bool) (v : Value N) : Value N :=
  if boolMode then .bool changed else if changed then v else .nil

def statefulChanged (A : EvalAlloc → Bool) (v : Value N) (boolMode : Bool) (e : StateEntry N) :
    SlotStep N (Value N) :=
  match v with
  | .number n =>
    let changed := e.kind != .number || !feq e.number n
    ⟨e.setNumber n, !changed, .ok (changedResult boolMode changed v)⟩
  | _ =>
    match encodeStateValue A v with
    | none => .fail e .type
    | some bytes =>
      if e.kind != .bytes || e.bytes != bytes then
        match e.setBytes A bytes with
        | none => .fail e .oom
        | some e => .done e (changedResult boolMode true v)
      else .suppress e (changedResult boolMode false v)

def holdOff (now : UInt64) (windowMs : N) (v : Value N) (e : StateEntry N) :
    SlotStep N (Value N) :=
  let nowMs : N := ofNat now.toNat
  match e.kind with
  | .empty => .done (e.setNumber nowMs) v
  | .number =>
    if flt nowMs e.number || flt (fsub nowMs e.number) windowMs then .suppress e .nil
    else .done (e.setNumber nowMs) v
  | _ => .fail e .type

def levelNumber (cur : Bool) : N := if cur then ofNat 1 else ofNat 0

/-- `transition` and the two edges: the level before and after, once there is a
level before. -/
def levelChange (cur : Bool) (e : StateEntry N) : SlotStep N (Option (Bool × Bool)) :=
  match e.kind with
  | .empty => .suppress (e.setNumber (levelNumber cur)) none
  | .number =>
    let prev := !feq e.number (ofNat 0)
    ⟨e.setNumber (levelNumber cur), prev == cur, .ok (some (prev, cur))⟩
  | _ => .fail e .type

def edge (rising cur : Bool) (e : StateEntry N) : SlotStep N (Value N) :=
  match e.kind with
  | .empty => .suppress (e.setNumber (levelNumber cur)) .nil
  | .number =>
    let prev := !feq e.number (ofNat 0)
    let fire := if rising then !prev && cur else prev && !cur
    ⟨e.setNumber (levelNumber cur), !fire, .ok (if fire then .bool true else .nil)⟩
  | _ => .fail e .type

def deadband (threshold x : N) (e : StateEntry N) : SlotStep N (Value N) :=
  if e.kind != .number || fle threshold (fabs (fsub x e.number)) then
    .done (e.setNumber x) (.number x)
  else .suppress e .nil

def delta (x : N) (e : StateEntry N) : SlotStep N (Value N) :=
  let prev := if e.kind = .number then e.number else x
  .done (e.setNumber x) (.number (fsub x prev))

def countNext (e : StateEntry N) : SlotStep N N :=
  let next := fadd (if e.kind = .number then e.number else ofNat 0) (ofNat 1)
  .done (e.setNumber next) next

/-! ## Windows -/

structure Window where
  timeWindow : Bool
  count : ℕ
  ms : UInt64

/-- The window at the head of the arguments and the arguments after it. -/
def parseWindow : List (Value N) → Option (Window × List (Value N))
  | [] => none
  | v :: vs =>
    if v.keywordEq "ms" && !vs.isEmpty then
      match vs with
      | [] => none
      | w :: rest =>
        match asNumber w with
        | none => none
        | some n => if wholeFromOne n then some (⟨true, 0, toU64 n⟩, rest) else none
    else
      match asNumber v with
      | none => none
      | some n => if wholeFromOne n then some (⟨false, (toU64 n).toNat, 0⟩, vs) else none

def windowOp (name : String) (w : Window) : Bytes :=
  lit name ++ lit (if w.timeWindow then "/m" else "/t")

/-- `window_slot` once the slot is there: an empty one becomes a ring. -/
def windowSlot (A : EvalAlloc → Bool) (w : Window) (e : StateEntry N) : StateEntry N × Bool :=
  if e.kind = .empty then
    let e := { e with kind := .ring, ringTimeWindow := w.timeWindow, ringWindowMs := w.ms }
    if w.timeWindow then (e, true)
    else
      match e.ringReserve A w.count false with
      | none => (e, false)
      | some e => (e, true)
  else (e, decide (e.kind = .ring) && e.ringTimeWindow == w.timeWindow)

/-- The slot of a window after one more sample; a slot of another kind and a lack
of memory are reported alike. -/
def windowSample (A : EvalAlloc → Bool) (w : Window) (now : UInt64) (x : N)
    (e : StateEntry N) : StateEntry N × Bool :=
  match windowSlot A w e with
  | (e, false) => (e, false)
  | (e, true) => e.windowPush A w.timeWindow w.count w.ms now x

def windowStep (A : EvalAlloc → Bool) (w : Window) (now : UInt64) (x : N)
    (f : StateEntry N → Except EvalError (Value N)) (e : StateEntry N) : SlotStep N (Value N) :=
  match windowSample A w now x e with
  | (e, false) => .fail e .oom
  | (e, true) => ⟨e, false, f e⟩

/-- The element of the sorted samples at a quantile. -/
def quantile (p : N) (e : StateEntry N) : N :=
  let sorted := e.ringList.mergeSort fun a b => !flt b a
  let idx :=
    if e.ringLen = 1 then 0
    else (toU64 (ffloor (fmul p (ofNat (e.ringLen - 1))))).toNat
  sorted.getD idx (ofNat 0)

def percentileResult (A : EvalAlloc → Bool) (p : N) (e : StateEntry N) :
    Except EvalError (Value N) :=
  if A .arena then .ok (.number (quantile p e)) else .error .oom

def rateResult (ms : N) (e : StateEntry N) : Except EvalError (Value N) :=
  .ok (.number (fdiv (fmul (ofNat e.ringLen) (ofNat 1000)) ms))

/-- The time form counts the passes in the window, the tick form keeps one or
zero for each of the last evaluations. -/
def throttle (A : EvalAlloc → Bool) (w : Window) (now : UInt64) (max : N) (v : Value N)
    (e : StateEntry N) : SlotStep N (Value N) :=
  match windowSlot A w e with
  | (e, false) => .fail e .oom
  | (e, true) =>
    if w.timeWindow then
      let e := e.ringEvictTime (StateEntry.cutoff now w.ms)
      if (toU64 max).toNat ≤ e.ringLen then .suppress e .nil
      else
        match e.ringPushTime A (ofNat 1) now with
        | none => .fail e .oom
        | some e => .done e v
    else
      let pass := flt e.ringSum (ofNat (toU64 max).toNat)
      ⟨e.ringPushCount (if pass then ofNat 1 else ofNat 0), !pass,
        .ok (if pass then v else .nil)⟩

/-! ## Bars -/

def barSample (timeWindow : Bool) (count : UInt32) (windowMs now : UInt64) (x : N)
    (e : StateEntry N) : SlotStep N (Option (StateEntry.BarClose N)) :=
  let e :=
    if e.kind = .empty then
      { e with kind := .bar, barTimeWindow := timeWindow, barCap := count, barWindowMs := windowMs }
    else e
  if e.kind ≠ .bar ∨ e.barTimeWindow ≠ timeWindow then .fail e .type
  else
    let (e, close) := if timeWindow then e.barTimeUpdate now x else e.barTickUpdate x
    ⟨e, close.isNone, .ok close⟩

/-! ## Clocks -/

/-- `retain_publish`: the message to publish when the clock fires. -/
def retainPublish (A : EvalAlloc → Bool) (kind : ClockKind) (ms now : UInt64)
    (subject payload : Bytes) (resetDeadline : Bool) (e : StateEntry N) : SlotStep N (Value N) :=
  let e := { e with
    clockKind := kind
    clockIntervalMs := ms
    clockArmed := true
    clockDeadlineMs :=
      if resetDeadline || e.clockDeadlineMs == 0 then now + ms else e.clockDeadlineMs }
  match e.setEmitSubject A subject with
  | none => .fail e .oom
  | some e =>
    match e.setBytes A payload with
    | none => .fail e .oom
    | some e => .done { e with kind := .clock } .nil

def aggregateSample (A : EvalAlloc → Bool) (metric : MetricKind) (ms now : UInt64)
    (subject : Bytes) (x : N) (e : StateEntry N) : SlotStep N (Value N) :=
  let e :=
    if e.kind = .empty then
      { e with
        clockKind := .aggregate
        clockIntervalMs := ms
        clockDeadlineMs := now + ms
        clockArmed := true }
    else e
  let e := { e with metricKind := metric }
  match e.setEmitSubject A subject with
  | none => .fail e .oom
  | some e =>
    match e.ringPushTime A x now with
    | none => .fail e .oom
    | some e => .done { e with kind := .clock } .nil

def onSilenceArm (A : EvalAlloc → Bool) (ms now : UInt64) (payload : Bytes)
    (body : List (Value N)) (e : StateEntry N) : SlotStep N (Value N) :=
  if e.kind ≠ .empty ∧ (e.kind ≠ .clock ∨ e.clockKind ≠ .onSilence) then .fail e .type
  else
    let e := if e.kind = .empty then { e with clockKind := .onSilence, clockBody := body } else e
    let e := { e with clockIntervalMs := ms, clockArmed := true, clockDeadlineMs := now + ms }
    match e.setBytes A payload with
    | none => .fail e .oom
    | some e => .done { e with kind := .clock } .nil

/-- A message for a dropout slot; the form to evaluate when the silence ends. -/
def dropoutArm (ms now : UInt64) (lost found : Value N) (e : StateEntry N) :
    SlotStep N (Option (Value N)) :=
  if e.kind ≠ .empty ∧ (e.kind ≠ .clock ∨ e.clockKind ≠ .dropout) then .fail e .type
  else
    let e :=
      if e.kind = .empty then
        { e with
          kind := .clock
          clockKind := .dropout
          clockIntervalMs := ms
          lostForm := lost
          foundForm := found }
      else e
    let e := { e with clockArmed := true, clockDeadlineMs := now + ms }
    if e.dropoutLost then .done { e with dropoutLost := false } (some e.foundForm)
    else .done e none

/-- What is left to do when a clock has fired. -/
inductive Fired (N : Type) where
  | nothing
  | body (payload : Bytes) (forms : List (Value N))
  | form (f : Value N)
  | publish (subject payload : Bytes)

def metricValue (e : StateEntry N) : Option (Value N) :=
  match e.metricKind with
  | .avg => some (e.calcRing .avg)
  | .sum => some (e.calcRing .sum)
  | .min => some (e.calcRing .min)
  | .max => some (e.calcRing .max)
  | .count => some (.number (ofNat e.ringLen))
  | .rate =>
    some (.number
      (fdiv (fmul (ofNat e.ringLen) (ofNat 1000)) (ofNat e.clockIntervalMs.toNat)))
  | .none => none

def nextDeadline (e : StateEntry N) : StateEntry N :=
  { e with clockDeadlineMs := e.clockDeadlineMs + e.clockIntervalMs }

def tickAggregate (A : EvalAlloc → Bool) (e : StateEntry N) : SlotStep N (Fired N) :=
  if e.ringLen = 0 then .done (nextDeadline e) .nothing
  else
    match metricValue e with
    | none => .fail e .type
    | some v =>
      match (coercePayload A v).bind (e.setBytes A) with
      | none => .fail e .oom
      | some e =>
        let e := nextDeadline
          { e with kind := .clock, ringLen := 0, ringStart := 0, ringSum := ofNat 0 }
        .done e (.publish e.emitSubject e.bytes)

/-- `tick_clock_state_entry` up to the evaluation or the publish it ends with. -/
def tickClock (A : EvalAlloc → Bool) (now : UInt64) (e : StateEntry N) : SlotStep N (Fired N) :=
  if !e.clockArmed || now < e.clockDeadlineMs then .done e .nothing
  else
    match e.clockKind with
    | .onSilence => .done { e with clockArmed := false } (.body e.bytes e.clockBody)
    | .dropout => .done { e with dropoutLost := true, clockArmed := false } (.form e.lostForm)
    | .debounce => .done { e with clockArmed := false } (.publish e.emitSubject e.bytes)
    | .sample => .done (nextDeadline e) (.publish e.emitSubject e.bytes)
    | .aggregate => tickAggregate A e
    | .none => .done e .nothing

/-- The rest of `pb_eval_tick_state_entry`: old samples go, and a time bar whose
window has passed closes. -/
def tickWindow (now : UInt64) (e : StateEntry N) :
    SlotStep N (Option (StateEntry.BarClose N)) :=
  let e :=
    if e.kind = .ring ∧ e.ringTimeWindow = true ∧ 0 < e.ringLen then
      e.ringEvictTime (StateEntry.cutoff now e.ringWindowMs)
    else e
  let (e, close) := e.barTimeTick now
  .done e close

end Monoblok.Patchbay
