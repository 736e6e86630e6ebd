import Monoblok.Patchbay.Slots

/-!
# The evaluator

`pb_eval`, its special forms, the table of forms and the tick of one slot.

An evaluation may fail and leaves the machine as it is at that point. It may
publish, and publishing may evaluate further rules, so the state of an
evaluation is the whole machine. `pb_eval` recurses on expressions that the
thread form builds while it runs; the model counts the depth down and gives
`none` when the count is too small.

A tick hands out slices of the buffers of a slot, and a rule that is evaluated for
what the tick publishes may arm the slot again. So the subject and the payload of an
evaluation are read anew wherever the source reads them. A value that is text is its
bytes from then on; where it is published, it may still lie in the message.
-/

namespace Monoblok.Patchbay

open Number

structure Rule (N : Type) where
  filter : Bytes
  body : Value N
  reentrant : Bool
  publishesEmitted : UInt64
  publishesSuppressed : UInt64
  state : EvalState N

/-- The rules whose filter starts with one literal token. -/
structure RuleBucket where
  key : Bytes
  rules : List ℕ
  deriving DecidableEq, Repr

structure Program (N : Type) where
  rules : List (Rule N)
  ruleBuckets : List RuleBucket
  ruleGlobal : List ℕ
  usesClockTimer : Bool

/-- A program together with the router it publishes to. -/
structure Machine (N W : Type) where
  program : Program N
  world : W

abbrev MachineM (N W : Type) := StateT (Machine N W) Option

abbrev EvalM (N W : Type) := ExceptT EvalError (MachineM N W)

/-- The bindings of an evaluation and its effect hook. -/
structure Ctx (N W : Type) extends Bindings N where
  publish : Slice → Slice → MachineM N W Bool

variable {N W : Type}

/-! ## Access to the machine -/

def Machine.modifyRule (m : Machine N W) (i : ℕ) (f : Rule N → Rule N) : Machine N W :=
  { m with program.rules := m.program.rules.modify i f }

def Machine.ruleState (m : Machine N W) (i : ℕ) : EvalState N :=
  (m.program.rules[i]?.map Rule.state).getD stateInit

def Machine.setState (m : Machine N W) (i : ℕ) (st : EvalState N) : Machine N W :=
  m.modifyRule i fun r => { r with state := st }

def Machine.slotOf (m : Machine N W) (k : StateKey) : Option (StateEntry N) :=
  (m.ruleState k.ruleId).items.find? fun e => e.key = k

/-- What is in the buffer that a slice lies in. -/
def Machine.lender (m : Machine N W) : Slice → Option Bytes
  | .held _ => none
  | .lent loan => (m.slotOf loan.key).map fun e => e.buffer loan.buffer

/-- What a slice reads. Once its slot has written the buffer again this is up to the
memory behind it: the new text over the old one, or freed memory where the buffer had
to grow. -/
def Slice.readFrom (rewritten : Bytes → Bytes → Bytes) : Slice → Option Bytes → Bytes
  | .held text, _ => text
  | .lent loan, none => loan.text
  | .lent loan, some now => if now = loan.within then loan.text else rewritten loan.text now

def Machine.read (m : Machine N W) (rewritten : Bytes → Bytes → Bytes) (s : Slice) : Bytes :=
  s.readFrom rewritten (m.lender s)

/-- A text that lies in a slice. -/
def Machine.part (m : Machine N W) (text : Bytes) : Slice → Slice
  | .held _ => .held text
  | .lent loan =>
    .lent ⟨loan.key, loan.buffer, (m.lender (.lent loan)).getD loan.within, text⟩

/-- A text to publish. -/
def Machine.handOn (m : Machine N W) (b : Bindings N) (text : Bytes) : TextOrigin → Slice
  | .subject => m.part text b.subjectAt
  | .payload => m.part text b.payloadAt
  | .own => .held text

def Machine.reread (m : Machine N W) (b : Bindings N) : Bindings N :=
  { b with
    subject := m.read b.rewritten b.subjectAt
    payload := m.read b.rewritten b.payloadAt }

/-- Goes on with what the slices of a context read at this point. -/
def afresh {α : Type} (ctx : Ctx N W) (f : Ctx N W → EvalM N W α) : EvalM N W α := do
  let m ← get
  f ⟨m.reread ctx.toBindings, ctx.publish⟩

theorem run_afresh {α : Type} (ctx : Ctx N W) (f : Ctx N W → EvalM N W α) (m : Machine N W) :
    (afresh ctx f).run m = (f ⟨m.reread ctx.toBindings, ctx.publish⟩).run m := rfl

section Evaluator

variable [Number N]

def slotAt (st : EvalState N) (i : ℕ) : StateEntry N := st.items[i]?.getD (freshEntry ⟨0, [], []⟩)

def setSlot (st : EvalState N) (i : ℕ) (e : StateEntry N) : EvalState N :=
  { st with items := st.items.set i e }

def liftResult {α : Type} : Except EvalError α → EvalM N W α
  | .ok a => pure a
  | .error e => throw e

def noteSuppressed (ruleId : ℕ) : EvalM N W Unit :=
  modify fun m =>
    m.modifyRule ruleId fun r => { r with publishesSuppressed := r.publishesSuppressed + 1 }

def stateSlot (ctx : Ctx N W) (op : Bytes) : EvalM N W ℕ := do
  let m ← get
  match stateSlotIn ctx.alloc (m.ruleState ctx.ruleId) ⟨ctx.ruleId, op, ctx.subject⟩ with
  | (st, none) =>
    set (m.setState ctx.ruleId st)
    throw .oom
  | (st, some i) =>
    set (m.setState ctx.ruleId st)
    pure i

/-- One step on the slot at a position. -/
def atSlot {α : Type} (ruleId i : ℕ) (f : StateEntry N → SlotStep N α) : EvalM N W α := do
  let m ← get
  let st := m.ruleState ruleId
  let r := f (slotAt st i)
  set (m.setState ruleId (setSlot st i r.entry))
  if r.suppressed then noteSuppressed ruleId
  liftResult r.result

def onSlot {α : Type} (ctx : Ctx N W) (op : Bytes) (f : StateEntry N → SlotStep N α) :
    EvalM N W α := do
  let i ← stateSlot ctx op
  atSlot ctx.ruleId i f

/-- What a request leads to; `rest` are the requests after it. -/
def publishRequested (ctx : Ctx N W) (rest : EvalM N W (Value N)) : Request → EvalM N W (Value N)
  | .error e => throw e
  | .ok none => rest
  | .ok (some (subject, payload)) => do
    let m ← get
    let origins := ctx.drawn subject payload
    if ← ctx.publish (m.handOn ctx.toBindings subject origins.1)
        (m.handOn ctx.toBindings payload origins.2) then rest
    else throw .publishFailed

omit [Number N] in
theorem run_publishRequested (ctx : Ctx N W) (rest : EvalM N W (Value N)) (subject payload : Bytes)
    (m : Machine N W) :
    (publishRequested ctx rest (.ok (some (subject, payload)))).run m =
      (ctx.publish (m.handOn ctx.toBindings subject (ctx.drawn subject payload).1)
        (m.handOn ctx.toBindings payload (ctx.drawn subject payload).2) m).bind fun x =>
          if x.1 then rest.run x.2 else some (.error .publishFailed, x.2) := by
  have hget : ∀ f : Machine N W → EvalM N W (Value N), (get >>= f).run m = (f m).run m :=
    fun _ => rfl
  have hlift : ∀ (c : MachineM N W Bool) (k : Bool → EvalM N W (Value N)),
      ((liftM c : EvalM N W Bool) >>= k).run m = (c m).bind fun x => (k x.1).run x.2 := by
    intro c k
    change ((c m).bind fun x => some (Except.ok x.1, x.2)).bind _ = _
    cases c m with
    | none => rfl
    | some x => rfl
  rw [publishRequested, hget, hlift]
  apply congrArg
  funext x
  split_ifs
  · rfl
  · rfl

/-- Publishes the requests in turn, up to the first that fails. -/
def publishEach (ctx : Ctx N W) : List (LateRequest N) → EvalM N W (Value N)
  | [] => pure .nil
  | r :: rs => afresh ctx fun ctx' => publishRequested ctx' (publishEach ctx rs) (r ctx'.toBindings)

/-! ## Stateful forms -/

def callChanged (ctx : Ctx N W) (op : String) (boolMode : Bool) : List (Value N) → EvalM N W (Value N)
  | [v] => onSlot ctx (lit op) (statefulChanged ctx.alloc v boolMode)
  | _ => throw .arity

def callHoldOff (ctx : Ctx N W) : List (Value N) → EvalM N W (Value N)
  | [w, v] =>
    match asNumber w with
    | none => throw .type
    | some windowMs =>
      if flt windowMs (ofNat 0) || !feq (ffloor windowMs) windowMs then throw .type
      else onSlot ctx (lit "hold-off") (holdOff ctx.nowMs windowMs v)
  | _ => throw .arity

def callEdge (ctx : Ctx N W) (rising : Bool) : List (Value N) → EvalM N W (Value N)
  | [v] => onSlot ctx (lit (if rising then "rising-edge" else "falling-edge")) (edge rising v.truthy)
  | _ => throw .arity

def callDeadband (ctx : Ctx N W) : List (Value N) → EvalM N W (Value N)
  | [t, v] =>
    match asNumber t, asNumber v with
    | some threshold, some x =>
      if flt threshold (ofNat 0) then throw .type
      else onSlot ctx (lit "deadband") (deadband threshold x)
    | _, _ => throw .type
  | _ => throw .arity

def callDelta (ctx : Ctx N W) : List (Value N) → EvalM N W (Value N)
  | [v] =>
    match asNumber v with
    | some x => onSlot ctx (lit "delta") (delta x)
    | none => throw .type
  | _ => throw .arity

/-- The condition and the subject of `count!`, in either order. -/
def countArgs : List (Value N) → Except EvalError (Option (Value N) × Option Bytes)
  | [] => .ok (none, none)
  | [c] => if c.keywordEq "subject" then .error .arity else .ok (some c, none)
  | [k, s] =>
    match s.asString with
    | some subject => if k.keywordEq "subject" then .ok (none, some subject) else .error .type
    | none => .error .type
  | [a, b, c] =>
    if a.keywordEq "subject" then
      match b.asString with
      | some subject => .ok (some c, some subject)
      | none => .error .type
    else if b.keywordEq "subject" then
      match c.asString with
      | some subject => .ok (some a, some subject)
      | none => .error .type
    else .error .type
  | _ => .error .arity

def callCount (ctx : Ctx N W) (args : List (Value N)) : EvalM N W (Value N) := do
  let (cond, subject) ← liftResult (countArgs args)
  if !(cond.map Value.truthy).getD true then
    noteSuppressed ctx.ruleId
    pure .nil
  else if subject.isNone && !ctx.alloc .arena then throw .oom
  else
    let subject := subject.getD (ctx.subject ++ lit ".count")
    if !publishSubjectValid subject then throw .invalidSubject
    else
      let next ← onSlot ctx (lit "count") countNext
      let text := fmtF 0 next
      if 32 ≤ text.length then throw .type
      else if !ctx.alloc .arena then throw .oom
      else publishEach ctx [fun _ => .ok (some (subject, text))]

def callWindowCalc (ctx : Ctx N W) (op : String) (what : StateEntry.WindowCalc)
    (args : List (Value N)) : EvalM N W (Value N) :=
  match parseWindow args with
  | some (w, [v]) =>
    match asNumber v with
    | none => throw .type
    | some x =>
      onSlot ctx (windowOp op w)
        (windowStep ctx.alloc w ctx.nowMs x fun e => .ok (e.calcRing what))
  | _ => throw .arity

/-- The quantile argument of `percentile`, and the arguments after it. -/
def percentileArg (median : Bool) (args : List (Value N)) :
    Except EvalError (N × List (Value N)) :=
  if median then .ok (half, args)
  else
    match args with
    | [] => .error .type
    | v :: rest =>
      match asNumber v with
      | none => .error .type
      | some p => if flt p (ofNat 0) || flt (ofNat 1) p then .error .type else .ok (p, rest)

def callPercentile (ctx : Ctx N W) (median : Bool) (args : List (Value N)) :
    EvalM N W (Value N) :=
  match parseWindow args with
  | none => throw .arity
  | some (w, rest) => do
    let (p, rest) ← liftResult (percentileArg median rest)
    match rest with
    | [v] =>
      match asNumber v with
      | none => throw .type
      | some x =>
        onSlot ctx (windowOp (if median then "median" else "percentile") w)
          (windowStep ctx.alloc w ctx.nowMs x (percentileResult ctx.alloc p))
    | _ => throw .arity

def callRate (ctx : Ctx N W) : List (Value N) → EvalM N W (Value N)
  | [k, m, _] =>
    if !k.keywordEq "ms" then throw .arity
    else
      match asNumber m with
      | none => throw .type
      | some ms =>
        if !wholeFromOne ms then throw .type
        else
          let w : Window := ⟨true, 0, toU64 ms⟩
          onSlot ctx (windowOp "rate" w)
            (windowStep ctx.alloc w ctx.nowMs (ofNat 1) (rateResult ms))
  | _ => throw .arity

def callThrottle (ctx : Ctx N W) (args : List (Value N)) : EvalM N W (Value N) :=
  match parseWindow args with
  | some (w, [m, v]) =>
    match asNumber m with
    | none => throw .type
    | some max =>
      if !wholeFromOne max then throw .type
      else onSlot ctx (windowOp "throttle" w) (throttle ctx.alloc w ctx.nowMs max v)
  | _ => throw .arity

def barFieldRequest (name : String) (value : N) (ctx : Bindings N) : Request :=
  if !ctx.alloc .arena || decide (32 ≤ (fmtG 17 value).length) then .error .publishFailed
  else .ok (some (ctx.subject ++ lit ".bar." ++ lit name, fmtG 17 value))

def emitBarFields (ctx : Ctx N W) (c : StateEntry.BarClose N) : EvalM N W (Value N) :=
  publishEach ctx
    [barFieldRequest "open" c.open, barFieldRequest "high" c.high,
      barFieldRequest "low" c.low, barFieldRequest "close" c.close]

def emitBar (ctx : Ctx N W) : Option (StateEntry.BarClose N) → EvalM N W (Value N)
  | none => pure .nil
  | some c => emitBarFields ctx c

/-- The window of a bar and its input. -/
def barArgs : List (Value N) → Except EvalError (Bool × UInt32 × UInt64 × Value N)
  | [n, v] =>
    match asNumber n with
    | none => .error .type
    | some n =>
      if !wholeFromOne n || flt (ofNat (2 ^ 32 - 1)) n then .error .type
      else .ok (false, (toU64 n).toUInt32, 0, v)
  | [k, m, v] =>
    if !k.keywordEq "ms" then .error .arity
    else
      match asNumber m with
      | none => .error .type
      | some ms => if !wholeFromOne ms then .error .type else .ok (true, 0, toU64 ms, v)
  | _ => .error .arity

def callBar (ctx : Ctx N W) (args : List (Value N)) : EvalM N W (Value N) := do
  let (timeWindow, count, windowMs, input) ← liftResult (barArgs args)
  match asNumber input with
  | none => throw .type
  | some x =>
    let close ← onSlot ctx (lit (if timeWindow then "bar/m" else "bar/t"))
      (barSample timeWindow count windowMs ctx.nowMs x)
    emitBar ctx close

theorem callBar_of_args {ctx : Ctx N W} {args : List (Value N)} {timeWindow : Bool}
    {count : UInt32} {windowMs : UInt64} {input : Value N}
    (h : barArgs args = .ok (timeWindow, count, windowMs, input)) :
    (callBar ctx args).run = match asNumber input with
      | none => (throw .type : EvalM N W (Value N)).run
      | some x => (do
          let close ← onSlot ctx (lit (if timeWindow then "bar/m" else "bar/t"))
            (barSample timeWindow count windowMs ctx.nowMs x)
          emitBar ctx close : EvalM N W (Value N)).run := by
  have hbind : ∀ (a : Bool × UInt32 × UInt64 × Value N)
      (f : Bool × UInt32 × UInt64 × Value N → EvalM N W (Value N)),
      liftResult (.ok a) >>= f = f a := fun _ _ => rfl
  rw [callBar, h, hbind]
  dsimp only
  cases asNumber input with
  | none => rfl
  | some x => rfl

/-- `debounce!` and `sample!`. -/
def callRetain (ctx : Ctx N W) (op : String) (kind : ClockKind) (resetDeadline : Bool) :
    List (Value N) → EvalM N W (Value N)
  | [k, m, s, v] =>
    if !k.keywordEq "ms" then throw .arity
    else
      match asNumber m with
      | none => throw .type
      | some ms =>
        if !wholeFromOne ms then throw .type
        else
          match s.asString, coercePayload ctx.alloc v with
          | some subject, some payload =>
            onSlot ctx (lit op)
              (retainPublish ctx.alloc kind (toU64 ms) ctx.nowMs subject payload resetDeadline)
          | _, _ => throw .type
  | _ => throw .arity

def metricOf (name : Bytes) : MetricKind :=
  if name = lit "avg" then .avg
  else if name = lit "sum" then .sum
  else if name = lit "min" then .min
  else if name = lit "max" then .max
  else if name = lit "count" then .count
  else if name = lit "rate" then .rate
  else .none

def callAggregate (ctx : Ctx N W) : List (Value N) → EvalM N W (Value N)
  | [k, m, s, metric, v] =>
    if !k.keywordEq "ms" || !metric.isKeyword then throw .arity
    else
      match asNumber m, asNumber v with
      | some ms, some x =>
        if !wholeFromOne ms then throw .type
        else if metricOf metric.text = .none then throw .unknownSymbol
        else
          match s.asString with
          | none => throw .type
          | some subject =>
            onSlot ctx (lit "aggregate")
              (aggregateSample ctx.alloc (metricOf metric.text) (toU64 ms) ctx.nowMs subject x)
      | _, _ => throw .type
  | _ => throw .arity

/-! ## The table of forms -/

inductive Form where
  | doForm | ifForm | when | and | or | thread | transition | onSilence | dropout
  | now | not | eq | gt | lt | ge | le | add | sub | mul | div
  | round | quantize | clamp | min | max | abs | sign
  | strConcat | contains | startsWith | endsWith
  | subjectAppend | subjectToken | subjectWith | print | publish
  | jsonGet | jsonDemux
  | squelch | deadband | changed | holdOff | risingEdge | fallingEdge | delta | count
  | movingAvg | movingSum | movingMax | movingMin | median | percentile | stddev | variance
  | rate | throttle
  | debounce | sample | aggregate
  | bar
  deriving DecidableEq, Repr

def forms : List (String × Form) :=
  [("do", .doForm), ("if", .ifForm), ("when", .when), ("and", .and), ("or", .or), ("->", .thread),
    ("transition", .transition), ("on-silence", .onSilence), ("dropout", .dropout),
    ("now", .now), ("not", .not), ("=", .eq), (">", .gt), ("<", .lt), (">=", .ge), ("<=", .le),
    ("+", .add), ("-", .sub), ("*", .mul), ("/", .div),
    ("round", .round), ("quantize", .quantize), ("clamp", .clamp), ("min", .min), ("max", .max),
    ("abs", .abs), ("sign", .sign),
    ("str-concat", .strConcat), ("contains?", .contains), ("starts-with?", .startsWith),
    ("ends-with?", .endsWith), ("subject-append", .subjectAppend),
    ("subject-token", .subjectToken), ("subject-with", .subjectWith), ("print!", .print),
    ("publish!", .publish), ("publish", .publish), ("publish-to!", .publish),
    ("publish-to", .publish),
    ("json-get", .jsonGet), ("json-demux!", .jsonDemux), ("json-demux", .jsonDemux),
    ("squelch", .squelch), ("deadband", .deadband), ("changed?", .changed),
    ("hold-off", .holdOff), ("rising-edge", .risingEdge), ("falling-edge", .fallingEdge),
    ("delta", .delta), ("count!", .count), ("count", .count),
    ("moving-avg", .movingAvg), ("moving-sum", .movingSum), ("moving-max", .movingMax),
    ("moving-min", .movingMin), ("median", .median), ("percentile", .percentile),
    ("stddev", .stddev), ("variance", .variance), ("rate", .rate), ("throttle", .throttle),
    ("debounce!", .debounce), ("sample!", .sample), ("aggregate!", .aggregate),
    ("bar!", .bar), ("bar", .bar)]

def findForm (name : Bytes) : Option Form :=
  (forms.find? fun entry => name == lit entry.1).map Prod.snd

/-- `pb_eval_call_form`; the special forms do not get here. -/
def callForm (ctx : Ctx N W) (form : Form) (args : List (Value N)) : EvalM N W (Value N) :=
  match form with
  | .now => liftResult (callNow ctx.toBindings args)
  | .not => liftResult (callNot args)
  | .eq => liftResult (callEq args)
  | .gt => liftResult (callCmp (fun a b => flt b a) args)
  | .lt => liftResult (callCmp flt args)
  | .ge => liftResult (callCmp (fun a b => fle b a) args)
  | .le => liftResult (callCmp fle args)
  | .add => liftResult (callFold fadd id args)
  | .sub => liftResult (callFold fsub fneg args)
  | .mul => liftResult (callFold fmul id args)
  | .div => liftResult (callFold fdiv (fdiv (ofNat 1)) args)
  | .round => liftResult (callRound args)
  | .quantize => liftResult (callQuantize args)
  | .clamp => liftResult (callClamp args)
  | .min => liftResult (callFold (fun acc x => if flt x acc then x else acc) id args)
  | .max => liftResult (callFold (fun acc x => if flt acc x then x else acc) id args)
  | .abs => liftResult (callNumber fabs args)
  | .sign => liftResult (callNumber sign args)
  | .strConcat => liftResult (callStrConcat ctx.toBindings args)
  | .contains => liftResult (callContains args)
  | .startsWith => liftResult (callAffix (fun s n => s.take n) args)
  | .endsWith => liftResult (callAffix takeEnd args)
  | .subjectAppend => liftResult (callSubjectAppend ctx.toBindings args)
  | .subjectToken => liftResult (callSubjectToken ctx.toBindings args)
  | .subjectWith => liftResult (callSubjectWith ctx.toBindings args)
  | .print => liftResult (callPrint args)
  | .publish => publishEach ctx [fun ctx => callPublish ctx args]
  | .jsonGet => liftResult (callJsonGet ctx.toBindings args)
  | .jsonDemux => publishEach ctx (callJsonDemux ctx.toBindings args)
  | .squelch => callChanged ctx "squelch" false args
  | .deadband => callDeadband ctx args
  | .changed => callChanged ctx "changed?" true args
  | .holdOff => callHoldOff ctx args
  | .risingEdge => callEdge ctx true args
  | .fallingEdge => callEdge ctx false args
  | .delta => callDelta ctx args
  | .count => callCount ctx args
  | .movingAvg => callWindowCalc ctx "moving-avg" .avg args
  | .movingSum => callWindowCalc ctx "moving-sum" .sum args
  | .movingMax => callWindowCalc ctx "moving-max" .max args
  | .movingMin => callWindowCalc ctx "moving-min" .min args
  | .median => callPercentile ctx true args
  | .percentile => callPercentile ctx false args
  | .stddev => callWindowCalc ctx "stddev" .stddev args
  | .variance => callWindowCalc ctx "variance" .variance args
  | .rate => callRate ctx args
  | .throttle => callThrottle ctx args
  | .debounce => callRetain ctx "debounce" .debounce true args
  | .sample => callRetain ctx "sample" .sample false args
  | .aggregate => callAggregate ctx args
  | .bar => callBar ctx args
  | .doForm | .ifForm | .when | .and | .or | .thread | .transition | .onSilence | .dropout =>
    throw .unknownSymbol

/-! ## Special forms -/

section Recursion

-- the evaluator one level further down
variable (rec : Ctx N W → Value N → EvalM N W (Value N)) (ctx : Ctx N W)

def evalEach : List (Value N) → EvalM N W (List (Value N))
  | [] => pure []
  | v :: vs => do
    let a ← rec ctx v
    let as ← evalEach vs
    pure (a :: as)

/-- The results are collected in an array of the scratch arena. -/
def evalArgs (raw : List (Value N)) : EvalM N W (List (Value N)) :=
  if !ctx.alloc .arena && !raw.isEmpty then throw .oom else evalEach rec ctx raw

def evalDoFrom : Value N → List (Value N) → EvalM N W (Value N)
  | last, [] => pure last
  | _, v :: vs => do
    let a ← rec ctx v
    evalDoFrom a vs

def evalDo (args : List (Value N)) : EvalM N W (Value N) := evalDoFrom rec ctx .nil args

def evalIf : List (Value N) → EvalM N W (Value N)
  | [c, t] => do
    let a ← rec ctx c
    if a.truthy then rec ctx t else pure .nil
  | [c, t, f] => do
    let a ← rec ctx c
    if a.truthy then rec ctx t else rec ctx f
  | _ => throw .arity

def evalWhen : List (Value N) → EvalM N W (Value N)
  | [] => throw .arity
  | c :: body => do
    let a ← rec ctx c
    if a.truthy then evalDo rec ctx body else pure .nil

def evalAndFrom : Value N → List (Value N) → EvalM N W (Value N)
  | last, [] => pure last
  | _, v :: vs => do
    let a ← rec ctx v
    if a.truthy then evalAndFrom a vs else pure a

def evalOr : List (Value N) → EvalM N W (Value N)
  | [] => pure .nil
  | v :: vs => do
    let a ← rec ctx v
    if a.truthy then pure a else evalOr vs

def evalCallWithThreaded (form threaded : Value N) : EvalM N W (Value N) :=
  match form with
  | .symbol name => rec ctx (.list [.symbol name, threaded])
  | .list (.symbol name :: args) =>
    if ctx.alloc .arena then rec ctx (.list (.symbol name :: args ++ [threaded])) else throw .oom
  | _ => throw .type

def evalThreadFrom : Value N → List (Value N) → EvalM N W (Value N)
  | cur, [] => pure cur
  | cur, form :: fs =>
    if cur.isNil then pure cur
    else do
      let a ← evalCallWithThreaded rec ctx form cur
      evalThreadFrom a fs

def evalThread : List (Value N) → EvalM N W (Value N)
  | [] => throw .arity
  | v :: fs => do
    let a ← rec ctx v
    evalThreadFrom rec ctx a fs

def evalTransition : List (Value N) → EvalM N W (Value N)
  | [c, up, down] => do
    let a ← rec ctx c
    match ← afresh ctx fun ctx => onSlot ctx (lit "transition") (levelChange a.truthy) with
    | some (false, true) => rec ctx up
    | some (true, false) => rec ctx down
    | _ => pure .nil
  | _ => throw .arity

/-- The `:ms` argument of a clock form; whatever is wrong with it is a type
error. -/
def evalMs (v : Value N) : EvalM N W N := do
  match ← ExceptT.lift (rec ctx v).run with
  | .error _ => throw .type
  | .ok a =>
    match asNumber a with
    | none => throw .type
    | some ms => if wholeFromOne ms then pure ms else throw .type

def callOnSilence : List (Value N) → EvalM N W (Value N)
  | k :: m :: b :: body =>
    if !k.keywordEq "ms" then throw .arity
    else do
      let ms ← evalMs rec ctx m
      afresh ctx fun ctx => onSlot ctx (lit "on-silence")
        (onSilenceArm ctx.alloc (toU64 ms) ctx.nowMs ctx.payload (b :: body))
  | _ => throw .arity

def callDropout : List (Value N) → EvalM N W (Value N)
  | [k, m, kl, lost, kf, found] =>
    if !k.keywordEq "ms" || !kl.keywordEq "lost" || !kf.keywordEq "found" then throw .arity
    else do
      let ms ← evalMs rec ctx m
      match ← afresh ctx fun ctx =>
          onSlot ctx (lit "dropout") (dropoutArm (toU64 ms) ctx.nowMs lost found) with
      | some form => rec ctx form
      | none => pure .nil
  | _ => throw .arity

/-- `eval_list`; the readers give every list a symbol at its head. -/
def evalList : List (Value N) → EvalM N W (Value N)
  | [] => throw .unknownSymbol
  | head :: raw =>
    match findForm head.text with
    | none => throw .unknownSymbol
    | some .doForm => evalDo rec ctx raw
    | some .ifForm => evalIf rec ctx raw
    | some .when => evalWhen rec ctx raw
    | some .and => evalAndFrom rec ctx (.bool true) raw
    | some .or => evalOr rec ctx raw
    | some .thread => evalThread rec ctx raw
    | some .transition => evalTransition rec ctx raw
    | some .onSilence => callOnSilence rec ctx raw
    | some .dropout => callDropout rec ctx raw
    | some form => do
      let args ← evalArgs rec ctx raw
      afresh ctx fun ctx => callForm ctx form args

def evalSymbol (name : Bytes) : EvalM N W (Value N) :=
  if name = lit "subject" then pure (.string ctx.subject)
  else if name = lit "payload" then pure (.string ctx.payload)
  else if name = lit "replaying?" then pure (.bool ctx.replaying)
  else if name = lit "payload-float" ∨ name = lit "payload-int" then
    match asNumber (.string ctx.payload) with
    | none => throw .type
    | some n =>
      if name = lit "payload-int" ∧ feq (ffloor n) n = false then throw .type
      else pure (.number n)
  else throw .unknownSymbol

def evalStep (expr : Value N) : EvalM N W (Value N) :=
  match expr with
  | .symbol name => evalSymbol ctx name
  | .vector items => do
    let vs ← evalArgs rec ctx items
    pure (.vector vs)
  | .list call => evalList rec ctx call
  | v => pure v

end Recursion

/-- `pb_eval` down to a depth. -/
def eval : ℕ → Ctx N W → Value N → EvalM N W (Value N)
  | 0 => fun _ _ => ExceptT.mk fun _ => none
  | depth + 1 => fun ctx expr => afresh ctx fun ctx => evalStep (eval depth) ctx expr

/-! ## Ticks -/

/-- What a fired clock does after its slot has been updated: the texts lie in the
buffers of the slot and are handed on there. -/
def runFired (depth : ℕ) (ctx : Ctx N W) (slot : StateKey) : Fired N → EvalM N W (Value N)
  | .nothing => pure .nil
  | .body payload forms =>
    evalDo (eval depth) { ctx with payloadAt := .lent ⟨slot, .bytes, payload, payload⟩ } forms
  | .form f => eval depth ctx f
  | .publish subject payload => do
    if ← ctx.publish (.lent ⟨slot, .emitSubject, subject, subject⟩)
        (.lent ⟨slot, .bytes, payload, payload⟩) then
      pure .nil
    else throw .publishFailed

def tickStateEntry (depth : ℕ) (ctx : Ctx N W) (i : ℕ) : EvalM N W (Value N) := do
  let m ← get
  let e := slotAt (m.ruleState ctx.ruleId) i
  if e.kind = .clock then
    let fired ← atSlot ctx.ruleId i (tickClock ctx.alloc ctx.nowMs)
    runFired depth ctx e.key fired
  else
    let close ← atSlot ctx.ruleId i (tickWindow ctx.nowMs)
    emitBar ctx close

end Evaluator

end Monoblok.Patchbay
