import Monoblok.Lib.Relational
import Monoblok.Patchbay.Program

/-!
# Evaluations of related machines

The evaluator touches a machine through a few operations only: a form steps on
its slot, a clock or a window ticks, a counter moves, a message goes to the
router, and a rule is looked up. A relation between machines that these respect
is respected by the evaluation of a message, by ticks and by catching up.
-/

namespace Monoblok.Patchbay

open Relational Number

variable {N W : Type} [Number N]

/-! ## The operations on a machine -/

def windowCalcOps : List String :=
  ["moving-avg", "moving-sum", "moving-max", "moving-min", "stddev", "variance"]

/-- The steps the forms take on a slot at a time, with the operation it is looked
up by. -/
inductive SlotForm (A : EvalAlloc → Bool) (now : UInt64) :
    {α : Type} → Bytes → (StateEntry N → SlotStep N α) → Prop
  | squelch (v : Value N) : SlotForm A now (lit "squelch") (statefulChanged A v false)
  | changed (v : Value N) : SlotForm A now (lit "changed?") (statefulChanged A v true)
  | holdOff (windowMs : N) (v : Value N) :
      SlotForm A now (lit "hold-off") (holdOff now windowMs v)
  | risingEdge (cur : Bool) : SlotForm A now (lit "rising-edge") (edge true cur)
  | fallingEdge (cur : Bool) : SlotForm A now (lit "falling-edge") (edge false cur)
  | transition (cur : Bool) : SlotForm A now (lit "transition") (levelChange cur)
  | deadband (threshold x : N) : SlotForm A now (lit "deadband") (deadband threshold x)
  | delta (x : N) : SlotForm A now (lit "delta") (delta x)
  | count : SlotForm A now (lit "count") countNext
  | windowCalc {op : String} (hop : op ∈ windowCalcOps) {args rest : List (Value N)} {w : Window}
      (hw : parseWindow args = some (w, rest)) (x : N) (what : StateEntry.WindowCalc) :
      SlotForm A now (windowOp op w) (windowStep A w now x fun e => .ok (e.calcRing what))
  | percentile {op : String} (hop : op ∈ ["median", "percentile"]) {args rest : List (Value N)}
      {w : Window} (hw : parseWindow args = some (w, rest)) (x p : N) :
      SlotForm A now (windowOp op w) (windowStep A w now x (percentileResult A p))
  | rate {ms : N} (hms : wholeFromOne ms = true) :
      SlotForm A now (windowOp "rate" ⟨true, 0, toU64 ms⟩)
        (windowStep A ⟨true, 0, toU64 ms⟩ now (ofNat 1) (rateResult ms))
  | throttle {args rest : List (Value N)} {w : Window} (hw : parseWindow args = some (w, rest))
      (max : N) (v : Value N) :
      SlotForm A now (windowOp "throttle" w) (throttle A w now max v)
  | bar {args : List (Value N)} {timeWindow : Bool} {count : UInt32} {windowMs : UInt64}
      {input : Value N} (h : barArgs args = .ok (timeWindow, count, windowMs, input)) (x : N) :
      SlotForm A now (lit (if timeWindow then "bar/m" else "bar/t"))
        (barSample timeWindow count windowMs now x)
  | debounce {ms : N} (hms : wholeFromOne ms = true) (subject payload : Bytes) :
      SlotForm A now (lit "debounce")
        (retainPublish A .debounce (toU64 ms) now subject payload true)
  | sample {ms : N} (hms : wholeFromOne ms = true) (subject payload : Bytes) :
      SlotForm A now (lit "sample")
        (retainPublish A .sample (toU64 ms) now subject payload false)
  | aggregate {metric : MetricKind} (hmetric : metric ≠ .none) {ms : N}
      (hms : wholeFromOne ms = true) (subject : Bytes) (x : N) :
      SlotForm A now (lit "aggregate") (aggregateSample A metric (toU64 ms) now subject x)
  | onSilence {ms : N} (hms : wholeFromOne ms = true) (payload : Bytes) (body : List (Value N)) :
      SlotForm A now (lit "on-silence") (onSilenceArm A (toU64 ms) now payload body)
  | dropout {ms : N} (hms : wholeFromOne ms = true) (lost found : Value N) :
      SlotForm A now (lit "dropout") (dropoutArm (toU64 ms) now lost found)

/-- The part of a program that comes from its source. -/
structure SameSource (p q : Program N) : Prop where
  rules : (p.rules.map fun r => (r.filter, r.body, r.reentrant)) =
    q.rules.map fun r => (r.filter, r.body, r.reentrant)
  buckets : p.ruleBuckets = q.ruleBuckets
  global : p.ruleGlobal = q.ruleGlobal
  clock : p.usesClockTimer = q.usesClockTimer

/-- What an evaluation in one of the contexts in scope does to a machine respects
a relation. A context is in scope by its rule, its subject and its time. -/
structure EvalCompatible (env : Env N W) (scope : ℕ → Bytes → UInt64 → Prop)
    (R : Machine N W → Machine N W → Prop) : Prop where
  onSlot : ∀ {α : Type} {ctx : Ctx N W} {op : Bytes} {f : StateEntry N → SlotStep N α},
    ctx.alloc = env.alloc → scope ctx.ruleId ctx.subject ctx.nowMs →
      SlotForm env.alloc ctx.nowMs op f → Respects R (onSlot ctx op f).run
  suppressed : ∀ ruleId : ℕ, Respects R (noteSuppressed ruleId).run
  emitted : ∀ (ruleId : ℕ) {m m' : Machine N W}, R m m' →
    R (m.modifyRule ruleId fun r => { r with publishesEmitted := r.publishesEmitted + 1 })
      (m'.modifyRule ruleId fun r => { r with publishesEmitted := r.publishesEmitted + 1 })
  route : ∀ (subject payload : Bytes) {m m' : Machine N W}, R m m' →
    (env.route m.world subject payload).2 = (env.route m'.world subject payload).2 ∧
      R { m with world := (env.route m.world subject payload).1 }
        { m' with world := (env.route m'.world subject payload).1 }

/-- A slice whose buffer holds the same in related machines. -/
def LiesAlike (R : Machine N W → Machine N W → Prop) (s : Slice) : Prop :=
  ∀ {m m' : Machine N W}, R m m' → m.lender s = m'.lender s

/-- The buffers of the slot of a key hold the same in related machines. -/
def Lends (R : Machine N W → Machine N W → Prop) (k : StateKey) : Prop :=
  ∀ buffer within text, LiesAlike R (.lent ⟨k, buffer, within, text⟩)

/-- Related machines run the same program. -/
def KeepsSource (R : Machine N W → Machine N W → Prop) : Prop :=
  ∀ {m m' : Machine N W}, R m m' → SameSource m.program m'.program

/-- The operations respect a relation, and what is read of a machine is the same
in related ones. -/
structure Compatible (env : Env N W) (R : Machine N W → Machine N W → Prop) : Prop extends
    EvalCompatible env (fun _ _ _ => True) R where
  tickClock : ∀ (ruleId i : ℕ) (now : UInt64),
    Respects R (atSlot ruleId i (tickClock env.alloc now)).run
  tickWindow : ∀ (ruleId i : ℕ) (now : UInt64), Respects R (atSlot ruleId i (tickWindow now)).run
  source : KeepsSource R
  slots : ∀ (ruleId : ℕ) {m m' : Machine N W}, R m m' →
    ((m.ruleState ruleId).items.map fun e => (e.kind, e.key)) =
      (m'.ruleState ruleId).items.map fun e => (e.kind, e.key)
  lends : ∀ (ruleId i : ℕ) {m m' : Machine N W}, R m m' →
    (slotAt (m.ruleState ruleId) i).kind = .clock →
      Lends R (slotAt (m.ruleState ruleId) i).key
  deadline : ∀ {m m' : Machine N W}, R m m' →
    nextClockDeadline m.program = nextClockDeadline m'.program

/-- The operations at a given time respect a relation. -/
structure CompatibleAt (env : Env N W) (now : UInt64) (R : Machine N W → Machine N W → Prop) :
    Prop extends EvalCompatible env (fun _ _ t => t = now) R where
  tickClock : ∀ ruleId i : ℕ, Respects R (atSlot ruleId i (tickClock env.alloc now)).run
  tickWindow : ∀ ruleId i : ℕ, Respects R (atSlot ruleId i (tickWindow now)).run
  source : KeepsSource R
  slots : ∀ (ruleId : ℕ) {m m' : Machine N W}, R m m' →
    ((m.ruleState ruleId).items.map fun e => (e.kind, e.key)) =
      (m'.ruleState ruleId).items.map fun e => (e.kind, e.key)
  lends : ∀ (ruleId i : ℕ) {m m' : Machine N W}, R m m' →
    (slotAt (m.ruleState ruleId) i).kind = .clock →
      Lends R (slotAt (m.ruleState ruleId) i).key

theorem Compatible.at {env : Env N W} {R : Machine N W → Machine N W → Prop}
    (h : Compatible env R) (now : UInt64) : CompatibleAt env now R where
  onSlot halloc _ hform := h.onSlot halloc trivial hform
  suppressed := h.suppressed
  emitted := h.emitted
  route := h.route
  tickClock ruleId i := h.tickClock ruleId i now
  tickWindow ruleId i := h.tickWindow ruleId i now
  source := h.source
  slots := h.slots
  lends := h.lends

/-! ## Slices -/

section Slices

variable {N W : Type} {R : Machine N W → Machine N W → Prop} {m m' : Machine N W}

theorem liesAlike_held (text : Bytes) : LiesAlike R (.held text) := fun _ => rfl

/-- So what it reads is the same in them. -/
theorem LiesAlike.read {s : Slice} (h : LiesAlike R s) (hm : R m m')
    (rewritten : Bytes → Bytes → Bytes) : m.read rewritten s = m'.read rewritten s := by
  rw [Machine.read, Machine.read, h hm]

/-- Machines whose rules are in the same states lend out the same. -/
theorem lender_of_states (h : ∀ j, m.ruleState j = m'.ruleState j) (s : Slice) :
    m.lender s = m'.lender s := by
  cases s with
  | held => rfl
  | lent loan => simp only [Machine.lender, Machine.slotOf, h]

theorem lends_of_states
    (h : ∀ {m m' : Machine N W}, R m m' → ∀ j, m.ruleState j = m'.ruleState j) (k : StateKey) :
    Lends R k :=
  fun _ _ _ _ _ hm => lender_of_states (h hm) _

/-- The slices that an evaluation hands on: texts of their own, and texts that lie where
its subject or its payload lies. -/
def Bindings.Hands (b : Bindings N) : Slice → Prop
  | .held _ => True
  | .lent loan => ∃ lent : Loan, (b.subjectAt = .lent lent ∨ b.payloadAt = .lent lent) ∧
      loan.key = lent.key ∧ loan.buffer = lent.buffer

theorem hands_handOn (m : Machine N W) (b : Bindings N) (text : Bytes) (origin : TextOrigin) :
    b.Hands (m.handOn b text origin) := by
  cases origin with
  | own => trivial
  | subject =>
    unfold Machine.handOn
    cases hs : b.subjectAt with
    | held => trivial
    | lent loan => exact ⟨loan, .inl hs, rfl, rfl⟩
  | payload =>
    unfold Machine.handOn
    cases hs : b.payloadAt with
    | held => trivial
    | lent loan => exact ⟨loan, .inr hs, rfl, rfl⟩

theorem Bindings.Hands.liesAlike {b : Bindings N} {s : Slice} (h : b.Hands s)
    (hsubject : LiesAlike R b.subjectAt) (hpayload : LiesAlike R b.payloadAt) : LiesAlike R s := by
  cases s with
  | held text => exact liesAlike_held text
  | lent loan =>
    obtain ⟨lent, hlent, hkey, hbuffer⟩ := h
    intro m m' hm
    have hsame : m.lender (.lent lent) = m'.lender (.lent lent) := by
      rcases hlent with hs | hs
      · exact hs ▸ hsubject hm
      · exact hs ▸ hpayload hm
    dsimp only [Machine.lender] at hsame ⊢
    rwa [hkey, hbuffer]

/-- Nothing is handed on from a buffer by an evaluation whose message stays. -/
theorem Bindings.Hands.held {b : Bindings N} {s : Slice} (h : b.Hands s) {subject payload : Bytes}
    (hsubject : b.subjectAt = .held subject) (hpayload : b.payloadAt = .held payload) :
    ∃ text, s = .held text := by
  cases s with
  | held text => exact ⟨text, rfl⟩
  | lent loan =>
    obtain ⟨lent, hs | hs, -⟩ := h
    · cases hsubject.symm.trans hs
    · cases hpayload.symm.trans hs

theorem part_eq {s : Slice} (h : m.lender s = m'.lender s) (text : Bytes) :
    m.part text s = m'.part text s := by
  cases s with
  | held => rfl
  | lent loan =>
    dsimp only [Machine.part]
    rw [h]

theorem handOn_eq {b : Bindings N} (hsubject : m.lender b.subjectAt = m'.lender b.subjectAt)
    (hpayload : m.lender b.payloadAt = m'.lender b.payloadAt) (text : Bytes) (origin : TextOrigin) :
    m.handOn b text origin = m'.handOn b text origin := by
  cases origin with
  | own => rfl
  | subject => exact part_eq hsubject text
  | payload => exact part_eq hpayload text

/-- A text that lies in a slice reads as it is. -/
theorem read_part (m : Machine N W) (rewritten : Bytes → Bytes → Bytes) (text : Bytes) (s : Slice) :
    m.read rewritten (m.part text s) = text := by
  cases s with
  | held => rfl
  | lent loan =>
    unfold Machine.part Machine.read Machine.lender
    dsimp only
    cases m.slotOf loan.key with
    | none => rfl
    | some e => exact if_pos rfl

theorem read_handOn (m : Machine N W) (rewritten : Bytes → Bytes → Bytes) (b : Bindings N)
    (text : Bytes) (origin : TextOrigin) : m.read rewritten (m.handOn b text origin) = text := by
  cases origin with
  | own => rfl
  | subject => exact read_part m rewritten text _
  | payload => exact read_part m rewritten text _

end Slices

/-! ## Forms -/

section Hooks

variable {N W : Type} {env : Env N W} {scope : ℕ → Bytes → UInt64 → Prop}
  {R : Machine N W → Machine N W → Prop} {ctx : Ctx N W}

/-- Hooks that do the same to related machines with a message that lies alike in them. -/
def HooksOk (R : Machine N W → Machine N W → Prop)
    (publish publish' : Slice → Slice → MachineM N W Bool) : Prop :=
  ∀ subject payload, LiesAlike R subject → LiesAlike R payload →
    Relates R (publish subject payload) (publish' subject payload)

/-- The surroundings of bindings that stay in scope and read the same in related
machines. -/
structure BindingsOk (env : Env N W) (scope : ℕ → Bytes → UInt64 → Prop)
    (R : Machine N W → Machine N W → Prop) (b : Bindings N) : Prop where
  alloc : b.alloc = env.alloc
  rewritten : b.rewritten = env.rewritten
  inScope : scope b.ruleId b.subject b.nowMs
  rereads : ∀ {m m' : Machine N W}, R m m' →
    scope b.ruleId (m.read env.rewritten b.subjectAt) b.nowMs
  subjectAt : LiesAlike R b.subjectAt
  payloadAt : LiesAlike R b.payloadAt

/-- A context in scope whose publish hook respects the relation. -/
structure CtxOk (env : Env N W) (scope : ℕ → Bytes → UInt64 → Prop)
    (R : Machine N W → Machine N W → Prop) (ctx : Ctx N W) : Prop extends
    BindingsOk env scope R ctx.toBindings where
  publish : HooksOk R ctx.publish ctx.publish

theorem respects_liftResult {α : Type} (r : Except EvalError α) :
    Respects R (liftResult r : EvalM N W α).run := by
  cases r with
  | ok a => exact .run_pure a
  | error e => exact .run_throw e

/-- Two contexts in scope with the same bindings, whose publish hooks do the same
to related machines with the messages that the evaluation hands on. -/
structure CtxsOk (env : Env N W) (scope : ℕ → Bytes → UInt64 → Prop)
    (R : Machine N W → Machine N W → Prop) (b : Bindings N)
    (publish publish' : Slice → Slice → MachineM N W Bool) : Prop extends
    BindingsOk env scope R b where
  publish : ∀ subject payload, b.Hands subject → b.Hands payload →
    Relates R (publish subject payload) (publish' subject payload)

theorem CtxOk.both (h : CtxOk env scope R ctx) :
    CtxsOk env scope R ctx.toBindings ctx.publish ctx.publish :=
  ⟨h.toBindingsOk, fun subject payload hs hpl => h.publish subject payload
    (hs.liesAlike h.subjectAt h.payloadAt) (hpl.liesAlike h.subjectAt h.payloadAt)⟩

variable {b : Bindings N} {publish publish' : Slice → Slice → MachineM N W Bool}

/-- The same context without a router behind it. -/
theorem CtxsOk.quiet (h : CtxsOk env scope R b publish publish') :
    CtxOk env scope R ⟨b, fun _ _ => pure false⟩ :=
  ⟨h.toBindingsOk, fun _ _ _ _ => .pure false⟩

theorem BindingsOk.reread (h : BindingsOk env scope R b) {m m' : Machine N W} (hm : R m m') :
    BindingsOk env scope R (m.reread b) := by
  refine ⟨h.alloc, h.rewritten, ?_, h.rereads, h.subjectAt, h.payloadAt⟩
  change scope b.ruleId (m.read b.rewritten b.subjectAt) b.nowMs
  rw [h.rewritten]
  exact h.rereads hm

theorem BindingsOk.reread_eq (h : BindingsOk env scope R b) {m m' : Machine N W} (hm : R m m') :
    m.reread b = m'.reread b := by
  simp only [Machine.reread, LiesAlike.read h.subjectAt hm, LiesAlike.read h.payloadAt hm]

/-- What is done with what the slices read. -/
theorem relates_afresh {α : Type} (hctx : CtxsOk env scope R b publish publish')
    {f f' : Ctx N W → EvalM N W α}
    (hf : ∀ b', CtxsOk env scope R b' publish publish' →
      Relates R (f ⟨b', publish⟩).run (f' ⟨b', publish'⟩).run) :
    Relates R (afresh ⟨b, publish⟩ f).run (afresh ⟨b, publish'⟩ f').run := by
  intro m m' hm
  change Agree R ((f ⟨m.reread b, publish⟩).run m) ((f' ⟨m'.reread b, publish'⟩).run m')
  rw [← hctx.reread_eq hm]
  exact hf _ ⟨hctx.toBindingsOk.reread hm, hctx.publish⟩ m m' hm

/-- One message that is published. -/
theorem relates_published {c c' : MachineM N W Bool} (h : Relates R c c')
    {rest rest' : EvalM N W (Value N)} (hrest : Relates R rest.run rest'.run) :
    Relates R (do if ← c then rest else throw .publishFailed : EvalM N W (Value N)).run
      (do if ← c' then rest' else throw .publishFailed : EvalM N W (Value N)).run := by
  apply Relates.run_bind (.run_lift h)
  intro ok
  cases ok with
  | false => exact .run_throw _
  | true => exact hrest

theorem relates_publishRequested (hctx : CtxsOk env scope R b publish publish')
    {rest rest' : EvalM N W (Value N)} (hrest : Relates R rest.run rest'.run) (r : Request) :
    Relates R (publishRequested ⟨b, publish⟩ rest r).run (publishRequested ⟨b, publish'⟩ rest' r).run := by
  cases r with
  | error e => exact .run_throw e
  | ok message =>
    cases message with
    | none => exact hrest
    | some message =>
      obtain ⟨subject, payload⟩ := message
      intro m m' hm
      have hpublish := hctx.publish _ _ (hands_handOn m b subject (b.drawn subject payload).1)
        (hands_handOn m b payload (b.drawn subject payload).2)
      rw [run_publishRequested, run_publishRequested, ← handOn_eq (hctx.subjectAt hm) (hctx.payloadAt hm),
        ← handOn_eq (hctx.subjectAt hm) (hctx.payloadAt hm)]
      have hrun := hpublish m m' hm
      dsimp only
      generalize publish _ _ m = x at hrun ⊢
      generalize publish' _ _ m' = y at hrun ⊢
      cases hrun with
      | none => exact .none
      | some ok hnext =>
        cases ok with
        | false => exact .some _ hnext
        | true => exact hrest _ _ hnext

theorem relates_publishEach (hctx : CtxsOk env scope R b publish publish')
    (rs : List (LateRequest N)) :
    Relates R (publishEach ⟨b, publish⟩ rs).run (publishEach ⟨b, publish'⟩ rs).run := by
  induction rs with
  | nil => exact .run_pure _
  | cons r rs ih =>
    apply relates_afresh hctx
    intro b' hctx'
    exact relates_publishRequested hctx' ih (r b')

end Hooks

section Forms

variable {env : Env N W} {scope : ℕ → Bytes → UInt64 → Prop}
  {R : Machine N W → Machine N W → Prop} (hR : EvalCompatible env scope R) {ctx : Ctx N W}

include hR

theorem respects_callChanged (hctx : CtxOk env scope R ctx) {op : String} {boolMode : Bool}
    (hform : ∀ v : Value N,
      SlotForm env.alloc ctx.nowMs (lit op) (statefulChanged env.alloc v boolMode))
    (args : List (Value N)) : Respects R (callChanged ctx op boolMode args).run := by
  unfold callChanged
  split
  · rw [hctx.alloc]
    exact hR.onSlot hctx.alloc hctx.inScope (hform _)
  · exact .run_throw _

theorem respects_callHoldOff (hctx : CtxOk env scope R ctx) (args : List (Value N)) :
    Respects R (callHoldOff ctx args).run := by
  unfold callHoldOff
  split
  · split
    · exact .run_throw _
    · split
      · exact .run_throw _
      · exact hR.onSlot hctx.alloc hctx.inScope (.holdOff _ _)
  · exact .run_throw _

theorem respects_callEdge (hctx : CtxOk env scope R ctx) (rising : Bool) (args : List (Value N)) :
    Respects R (callEdge ctx rising args).run := by
  unfold callEdge
  split
  · cases rising with
    | true => exact hR.onSlot hctx.alloc hctx.inScope (.risingEdge _)
    | false => exact hR.onSlot hctx.alloc hctx.inScope (.fallingEdge _)
  · exact .run_throw _

theorem respects_callDeadband (hctx : CtxOk env scope R ctx) (args : List (Value N)) :
    Respects R (callDeadband ctx args).run := by
  unfold callDeadband
  split
  · split
    · split
      · exact .run_throw _
      · exact hR.onSlot hctx.alloc hctx.inScope (.deadband _ _)
    · exact .run_throw _
  · exact .run_throw _

theorem respects_callDelta (hctx : CtxOk env scope R ctx) (args : List (Value N)) :
    Respects R (callDelta ctx args).run := by
  unfold callDelta
  split
  · split
    · exact hR.onSlot hctx.alloc hctx.inScope (.delta _)
    · exact .run_throw _
  · exact .run_throw _

theorem respects_callWindowCalc (hctx : CtxOk env scope R ctx) {op : String}
    (hop : op ∈ windowCalcOps) (what : StateEntry.WindowCalc) (args : List (Value N)) :
    Respects R (callWindowCalc ctx op what args).run := by
  unfold callWindowCalc
  split
  · rename_i hw
    split
    · exact .run_throw _
    · rw [hctx.alloc]
      exact hR.onSlot hctx.alloc hctx.inScope (.windowCalc hop hw _ _)
  · exact .run_throw _

theorem respects_callPercentile (hctx : CtxOk env scope R ctx) (median : Bool) (args : List (Value N)) :
    Respects R (callPercentile ctx median args).run := by
  have hop : (if median then "median" else "percentile") ∈ ["median", "percentile"] := by
    cases median <;> decide
  unfold callPercentile
  split
  · exact .run_throw _
  · rename_i hw
    apply Respects.run_bind (respects_liftResult _)
    rintro ⟨p, rest⟩
    dsimp only
    split
    · split
      · exact .run_throw _
      · rw [hctx.alloc]
        exact hR.onSlot hctx.alloc hctx.inScope (.percentile hop hw _ _)
    · exact .run_throw _

theorem respects_callRate (hctx : CtxOk env scope R ctx) (args : List (Value N)) :
    Respects R (callRate ctx args).run := by
  unfold callRate
  split
  · split
    · exact .run_throw _
    · split
      · exact .run_throw _
      · split
        · exact .run_throw _
        · rename_i hms
          rw [hctx.alloc]
          exact hR.onSlot hctx.alloc hctx.inScope (.rate (by simpa using hms))
  · exact .run_throw _

theorem respects_callThrottle (hctx : CtxOk env scope R ctx) (args : List (Value N)) :
    Respects R (callThrottle ctx args).run := by
  unfold callThrottle
  split
  · rename_i hw
    split
    · exact .run_throw _
    · split
      · exact .run_throw _
      · rw [hctx.alloc]
        exact hR.onSlot hctx.alloc hctx.inScope (.throttle hw _ _)
  · exact .run_throw _

theorem respects_callRetain (hctx : CtxOk env scope R ctx) {op : String} {kind : ClockKind}
    {resetDeadline : Bool}
    (hform : ∀ {ms : N}, wholeFromOne ms = true → ∀ subject payload,
      SlotForm (N := N) env.alloc ctx.nowMs (lit op)
        (retainPublish env.alloc kind (toU64 ms) ctx.nowMs subject payload resetDeadline))
    (args : List (Value N)) : Respects R (callRetain ctx op kind resetDeadline args).run := by
  unfold callRetain
  split
  · split
    · exact .run_throw _
    · split
      · exact .run_throw _
      · split
        · exact .run_throw _
        · rename_i hms
          split
          · rw [hctx.alloc]
            exact hR.onSlot hctx.alloc hctx.inScope (hform (by simpa using hms) _ _)
          · exact .run_throw _
  · exact .run_throw _

theorem respects_callAggregate (hctx : CtxOk env scope R ctx) (args : List (Value N)) :
    Respects R (callAggregate ctx args).run := by
  unfold callAggregate
  split
  · split
    · exact .run_throw _
    · split
      · split
        · exact .run_throw _
        · rename_i hms
          split
          · exact .run_throw _
          · rename_i hmetric
            split
            · exact .run_throw _
            · rw [hctx.alloc]
              exact hR.onSlot hctx.alloc hctx.inScope
                (.aggregate hmetric (by simpa using hms) _ _)
      · exact .run_throw _
  · exact .run_throw _

/-! ### Forms that publish -/

variable {b : Bindings N} {publish publish' : Slice → Slice → MachineM N W Bool}

theorem relates_callCount (hctx : CtxsOk env scope R b publish publish') (args : List (Value N)) :
    Relates R (callCount ⟨b, publish⟩ args).run (callCount ⟨b, publish'⟩ args).run := by
  apply Relates.run_bind (respects_liftResult _)
  rintro ⟨cond, subject⟩
  dsimp only
  by_cases hcond : (!(cond.map Value.truthy).getD true) = true
  · simp only [if_pos hcond]
    exact .run_bind (hR.suppressed _) fun _ => .run_pure _
  by_cases hmemory : (subject.isNone && !b.alloc .arena) = true
  · simp only [if_neg hcond, if_pos hmemory]
    exact .run_throw _
  by_cases hvalid : (!publishSubjectValid (subject.getD (b.subject ++ lit ".count"))) = true
  · simp only [if_neg hcond, if_neg hmemory, if_pos hvalid]
    exact .run_throw _
  simp only [if_neg hcond, if_neg hmemory, if_neg hvalid]
  apply Relates.run_bind (@EvalCompatible.onSlot _ _ _ _ _ _ hR _ ⟨b, publish⟩ _ _ hctx.alloc hctx.inScope .count)
  intro next
  split_ifs
  · exact .run_throw _
  · exact .run_throw _
  · exact relates_publishEach hctx _

omit hR in
theorem relates_emitBar (hctx : CtxsOk env scope R b publish publish')
    (close : Option (StateEntry.BarClose N)) :
    Relates R (emitBar ⟨b, publish⟩ close).run (emitBar ⟨b, publish'⟩ close).run := by
  cases close with
  | none => exact .run_pure _
  | some c =>
    exact relates_publishEach hctx
      [barFieldRequest "open" c.open, barFieldRequest "high" c.high,
        barFieldRequest "low" c.low, barFieldRequest "close" c.close]

omit hR in
theorem respects_emitBar (hctx : CtxOk env scope R ctx) (close : Option (StateEntry.BarClose N)) :
    Respects R (emitBar ctx close).run :=
  relates_emitBar hctx.both close

theorem relates_callBar (hctx : CtxsOk env scope R b publish publish') (args : List (Value N)) :
    Relates R (callBar ⟨b, publish⟩ args).run (callBar ⟨b, publish'⟩ args).run := by
  cases h : barArgs args with
  | error e =>
    unfold callBar
    rw [h]
    exact .run_throw e
  | ok a =>
    obtain ⟨timeWindow, count, windowMs, input⟩ := a
    rw [callBar_of_args h, callBar_of_args h]
    cases asNumber input with
    | none => exact .run_throw _
    | some x =>
      apply Relates.run_bind
        (@EvalCompatible.onSlot _ _ _ _ _ _ hR _ ⟨b, publish⟩ _ _ hctx.alloc hctx.inScope
          (.bar h x))
      intro close
      exact relates_emitBar hctx close

theorem relates_callForm (hctx : CtxsOk env scope R b publish publish') (form : Form)
    (args : List (Value N)) :
    Relates R (callForm ⟨b, publish⟩ form args).run (callForm ⟨b, publish'⟩ form args).run := by
  cases form with
  | publish => exact relates_publishEach hctx [fun b => callPublish b args]
  | jsonDemux => exact relates_publishEach hctx (callJsonDemux b args)
  | count => exact relates_callCount hR hctx args
  | bar => exact relates_callBar hR hctx args
  | squelch => exact respects_callChanged hR hctx.quiet .squelch args
  | deadband => exact respects_callDeadband hR hctx.quiet args
  | changed => exact respects_callChanged hR hctx.quiet .changed args
  | holdOff => exact respects_callHoldOff hR hctx.quiet args
  | risingEdge => exact respects_callEdge hR hctx.quiet true args
  | fallingEdge => exact respects_callEdge hR hctx.quiet false args
  | delta => exact respects_callDelta hR hctx.quiet args
  | movingAvg => exact respects_callWindowCalc hR hctx.quiet (by decide) .avg args
  | movingSum => exact respects_callWindowCalc hR hctx.quiet (by decide) .sum args
  | movingMax => exact respects_callWindowCalc hR hctx.quiet (by decide) .max args
  | movingMin => exact respects_callWindowCalc hR hctx.quiet (by decide) .min args
  | median => exact respects_callPercentile hR hctx.quiet true args
  | percentile => exact respects_callPercentile hR hctx.quiet false args
  | stddev => exact respects_callWindowCalc hR hctx.quiet (by decide) .stddev args
  | variance => exact respects_callWindowCalc hR hctx.quiet (by decide) .variance args
  | rate => exact respects_callRate hR hctx.quiet args
  | throttle => exact respects_callThrottle hR hctx.quiet args
  | debounce => exact respects_callRetain hR hctx.quiet .debounce args
  | sample => exact respects_callRetain hR hctx.quiet .sample args
  | aggregate => exact respects_callAggregate hR hctx.quiet args
  | doForm | ifForm | when | and | or | thread | transition | onSilence | dropout =>
    exact .run_throw _
  | now | not | eq | gt | lt | ge | le | add | sub | mul | div | round | quantize | clamp | min
  | max | abs | sign | strConcat | contains | startsWith | endsWith | subjectAppend
  | subjectToken | subjectWith | print | jsonGet => exact respects_liftResult _

end Forms

/-! ## Expressions -/

section Control

variable {N W : Type} {env : Env N W} {scope : ℕ → Bytes → UInt64 → Prop}
  {R : Machine N W → Machine N W → Prop} {rec : Ctx N W → Value N → EvalM N W (Value N)}
  {b : Bindings N} {publish publish' : Slice → Slice → MachineM N W Bool}

/-- An evaluator that does the same in two contexts in scope that do the same. -/
def EvalOk (env : Env N W) (scope : ℕ → Bytes → UInt64 → Prop)
    (R : Machine N W → Machine N W → Prop) (rec : Ctx N W → Value N → EvalM N W (Value N)) : Prop :=
  ∀ b publish publish', CtxsOk env scope R b publish publish' →
    ∀ v, Relates R (rec ⟨b, publish⟩ v).run (rec ⟨b, publish'⟩ v).run

variable (hrec : EvalOk env scope R rec) (hctx : CtxsOk env scope R b publish publish')

include hrec hctx

theorem relates_evalEach (vs : List (Value N)) :
    Relates R (evalEach rec ⟨b, publish⟩ vs).run (evalEach rec ⟨b, publish'⟩ vs).run := by
  induction vs with
  | nil => exact .run_pure _
  | cons v vs ih =>
    apply Relates.run_bind (hrec b publish publish' hctx v)
    intro a
    exact .run_bind ih fun as => .run_pure _

theorem relates_evalArgs (raw : List (Value N)) :
    Relates R (evalArgs rec ⟨b, publish⟩ raw).run (evalArgs rec ⟨b, publish'⟩ raw).run := by
  unfold evalArgs
  dsimp only
  split_ifs
  · exact .run_throw _
  · exact relates_evalEach hrec hctx raw

theorem relates_evalDoFrom (last : Value N) (vs : List (Value N)) :
    Relates R (evalDoFrom rec ⟨b, publish⟩ last vs).run
      (evalDoFrom rec ⟨b, publish'⟩ last vs).run := by
  induction vs generalizing last with
  | nil => exact .run_pure _
  | cons v vs ih => exact .run_bind (hrec b publish publish' hctx v) ih

theorem relates_evalDo (args : List (Value N)) :
    Relates R (evalDo rec ⟨b, publish⟩ args).run (evalDo rec ⟨b, publish'⟩ args).run :=
  relates_evalDoFrom hrec hctx .nil args

theorem relates_evalIf (args : List (Value N)) :
    Relates R (evalIf rec ⟨b, publish⟩ args).run (evalIf rec ⟨b, publish'⟩ args).run := by
  match args with
  | [c, t] =>
    apply Relates.run_bind (hrec b publish publish' hctx c)
    intro a
    cases a.truthy with
    | true => exact hrec b publish publish' hctx t
    | false => exact .run_pure _
  | [c, t, f] =>
    apply Relates.run_bind (hrec b publish publish' hctx c)
    intro a
    cases a.truthy with
    | true => exact hrec b publish publish' hctx t
    | false => exact hrec b publish publish' hctx f
  | [] => exact .run_throw _
  | [_] => exact .run_throw _
  | _ :: _ :: _ :: _ :: _ => exact .run_throw _

theorem relates_evalWhen (args : List (Value N)) :
    Relates R (evalWhen rec ⟨b, publish⟩ args).run (evalWhen rec ⟨b, publish'⟩ args).run := by
  cases args with
  | nil => exact .run_throw _
  | cons c body =>
    apply Relates.run_bind (hrec b publish publish' hctx c)
    intro a
    cases a.truthy with
    | true => exact relates_evalDo hrec hctx body
    | false => exact .run_pure _

theorem relates_evalAndFrom (last : Value N) (vs : List (Value N)) :
    Relates R (evalAndFrom rec ⟨b, publish⟩ last vs).run
      (evalAndFrom rec ⟨b, publish'⟩ last vs).run := by
  induction vs generalizing last with
  | nil => exact .run_pure _
  | cons v vs ih =>
    apply Relates.run_bind (hrec b publish publish' hctx v)
    intro a
    cases a.truthy with
    | true => exact ih a
    | false => exact .run_pure _

theorem relates_evalOr (vs : List (Value N)) :
    Relates R (evalOr rec ⟨b, publish⟩ vs).run (evalOr rec ⟨b, publish'⟩ vs).run := by
  induction vs with
  | nil => exact .run_pure _
  | cons v vs ih =>
    apply Relates.run_bind (hrec b publish publish' hctx v)
    intro a
    cases a.truthy with
    | true => exact .run_pure _
    | false => exact ih

theorem relates_evalCallWithThreaded (form threaded : Value N) :
    Relates R (evalCallWithThreaded rec ⟨b, publish⟩ form threaded).run
      (evalCallWithThreaded rec ⟨b, publish'⟩ form threaded).run := by
  unfold evalCallWithThreaded
  split
  · exact hrec b publish publish' hctx _
  · dsimp only
    split_ifs
    · exact hrec b publish publish' hctx _
    · exact .run_throw _
  · exact .run_throw _

theorem relates_evalThreadFrom (cur : Value N) (fs : List (Value N)) :
    Relates R (evalThreadFrom rec ⟨b, publish⟩ cur fs).run
      (evalThreadFrom rec ⟨b, publish'⟩ cur fs).run := by
  induction fs generalizing cur with
  | nil => exact .run_pure _
  | cons form fs ih =>
    unfold evalThreadFrom
    split_ifs
    · exact .run_pure _
    · exact .run_bind (relates_evalCallWithThreaded hrec hctx form cur) ih

theorem relates_evalThread (args : List (Value N)) :
    Relates R (evalThread rec ⟨b, publish⟩ args).run (evalThread rec ⟨b, publish'⟩ args).run := by
  cases args with
  | nil => exact .run_throw _
  | cons v fs =>
    apply Relates.run_bind (hrec b publish publish' hctx v)
    intro a
    exact relates_evalThreadFrom hrec hctx a fs

end Control

section Expressions

variable {env : Env N W} {scope : ℕ → Bytes → UInt64 → Prop}
  {R : Machine N W → Machine N W → Prop} {rec : Ctx N W → Value N → EvalM N W (Value N)}
  {b : Bindings N} {publish publish' : Slice → Slice → MachineM N W Bool}

/-- What is done with an interval is done with a whole number from one on. -/
theorem relates_evalMs_bind {α : Type} (hrec : EvalOk env scope R rec)
    (hctx : CtxsOk env scope R b publish publish') (v : Value N) {k k' : N → EvalM N W α}
    (hk : ∀ ms, wholeFromOne ms = true → Relates R (k ms).run (k' ms).run) :
    Relates R (evalMs rec ⟨b, publish⟩ v >>= k).run (evalMs rec ⟨b, publish'⟩ v >>= k').run := by
  unfold evalMs
  rw [bind_assoc, bind_assoc]
  apply Relates.run_bind (.run_lift (hrec b publish publish' hctx v))
  intro r
  cases r with
  | error e => exact .run_throw _
  | ok a =>
    dsimp only
    cases asNumber a with
    | none => exact .run_throw _
    | some ms =>
      dsimp only
      split_ifs with hms
      · rw [pure_bind, pure_bind]
        exact hk ms hms
      · exact .run_throw _

theorem relates_evalTransition (hR : EvalCompatible env scope R) (hrec : EvalOk env scope R rec)
    (hctx : CtxsOk env scope R b publish publish') (args : List (Value N)) :
    Relates R (evalTransition rec ⟨b, publish⟩ args).run
      (evalTransition rec ⟨b, publish'⟩ args).run := by
  match args with
  | [c, up, down] =>
    apply Relates.run_bind (hrec b publish publish' hctx c)
    intro a
    have hslot : Relates R
        (afresh ⟨b, publish⟩ fun ctx => onSlot ctx (lit "transition") (levelChange a.truthy)).run
        (afresh ⟨b, publish'⟩ fun ctx => onSlot ctx (lit "transition") (levelChange a.truthy)).run := by
      apply relates_afresh hctx
      intro b' hctx'
      exact @EvalCompatible.onSlot _ _ _ _ _ _ hR _ ⟨b', publish⟩ _ _ hctx'.alloc hctx'.inScope
        (.transition _)
    apply Relates.run_bind hslot
    intro change
    match change with
    | some (false, true) => exact hrec b publish publish' hctx up
    | some (true, false) => exact hrec b publish publish' hctx down
    | some (false, false) => exact .run_pure _
    | some (true, true) => exact .run_pure _
    | none => exact .run_pure _
  | [] => exact .run_throw _
  | [_] => exact .run_throw _
  | [_, _] => exact .run_throw _
  | _ :: _ :: _ :: _ :: _ => exact .run_throw _

theorem relates_callOnSilence (hR : EvalCompatible env scope R) (hrec : EvalOk env scope R rec)
    (hctx : CtxsOk env scope R b publish publish') (args : List (Value N)) :
    Relates R (callOnSilence rec ⟨b, publish⟩ args).run
      (callOnSilence rec ⟨b, publish'⟩ args).run := by
  match args with
  | k :: v :: form :: body =>
    unfold callOnSilence
    dsimp only
    split_ifs
    · exact .run_throw _
    · apply relates_evalMs_bind hrec hctx
      intro ms hms
      apply relates_afresh hctx
      intro b' hctx'
      have hform : SlotForm env.alloc b'.nowMs (lit "on-silence")
          (onSilenceArm b'.alloc (toU64 ms) b'.nowMs b'.payload (form :: body)) := by
        rw [hctx'.alloc]
        exact .onSilence hms _ _
      exact @EvalCompatible.onSlot _ _ _ _ _ _ hR _ ⟨b', publish⟩ _ _ hctx'.alloc hctx'.inScope
        hform
  | [] => exact .run_throw _
  | [_] => exact .run_throw _
  | [_, _] => exact .run_throw _

theorem relates_callDropout (hR : EvalCompatible env scope R) (hrec : EvalOk env scope R rec)
    (hctx : CtxsOk env scope R b publish publish') (args : List (Value N)) :
    Relates R (callDropout rec ⟨b, publish⟩ args).run
      (callDropout rec ⟨b, publish'⟩ args).run := by
  match args with
  | [k, v, kl, lost, kf, found] =>
    unfold callDropout
    dsimp only
    split_ifs
    · exact .run_throw _
    · apply relates_evalMs_bind hrec hctx
      intro ms hms
      have hslot : Relates R
          (afresh ⟨b, publish⟩ fun ctx =>
            onSlot ctx (lit "dropout") (dropoutArm (toU64 ms) ctx.nowMs lost found)).run
          (afresh ⟨b, publish'⟩ fun ctx =>
            onSlot ctx (lit "dropout") (dropoutArm (toU64 ms) ctx.nowMs lost found)).run := by
        apply relates_afresh hctx
        intro b' hctx'
        exact @EvalCompatible.onSlot _ _ _ _ _ _ hR _ ⟨b', publish⟩ _ _ hctx'.alloc hctx'.inScope
          (.dropout hms lost found)
      apply Relates.run_bind hslot
      intro form
      cases form with
      | some form => exact hrec b publish publish' hctx form
      | none => exact .run_pure _
  | [] => exact .run_throw _
  | [_] => exact .run_throw _
  | [_, _] => exact .run_throw _
  | [_, _, _] => exact .run_throw _
  | [_, _, _, _] => exact .run_throw _
  | [_, _, _, _, _] => exact .run_throw _
  | _ :: _ :: _ :: _ :: _ :: _ :: _ :: _ => exact .run_throw _

theorem relates_evalList (hR : EvalCompatible env scope R) (hrec : EvalOk env scope R rec)
    (hctx : CtxsOk env scope R b publish publish') (call : List (Value N)) :
    Relates R (evalList rec ⟨b, publish⟩ call).run (evalList rec ⟨b, publish'⟩ call).run := by
  cases call with
  | nil => exact .run_throw _
  | cons head raw =>
    unfold evalList
    dsimp only
    have hcall : ∀ form, Relates R
        (evalArgs rec ⟨b, publish⟩ raw >>= fun args =>
          afresh ⟨b, publish⟩ fun ctx => callForm ctx form args).run
        (evalArgs rec ⟨b, publish'⟩ raw >>= fun args =>
          afresh ⟨b, publish'⟩ fun ctx => callForm ctx form args).run := by
      intro form
      apply Relates.run_bind (relates_evalArgs hrec hctx raw)
      intro args
      apply relates_afresh hctx
      intro b' hctx'
      exact relates_callForm hR hctx' form args
    cases findForm head.text with
    | none => exact .run_throw _
    | some form =>
      cases form with
      | doForm => exact relates_evalDo hrec hctx raw
      | ifForm => exact relates_evalIf hrec hctx raw
      | when => exact relates_evalWhen hrec hctx raw
      | and => exact relates_evalAndFrom hrec hctx _ raw
      | or => exact relates_evalOr hrec hctx raw
      | thread => exact relates_evalThread hrec hctx raw
      | transition => exact relates_evalTransition hR hrec hctx raw
      | onSilence => exact relates_callOnSilence hR hrec hctx raw
      | dropout => exact relates_callDropout hR hrec hctx raw
      | _ => exact hcall _

theorem respects_evalSymbol (ctx : Ctx N W) (name : Bytes) :
    Respects R (evalSymbol ctx name).run := by
  unfold evalSymbol
  split
  · exact .run_pure _
  · split
    · exact .run_pure _
    · split
      · exact .run_pure _
      · split
        · split
          · exact .run_throw _
          · split
            · exact .run_throw _
            · exact .run_pure _
        · exact .run_throw _

theorem relates_evalStep (hR : EvalCompatible env scope R) (hrec : EvalOk env scope R rec) :
    EvalOk env scope R (evalStep rec) := by
  intro b publish publish' hctx expr
  cases expr with
  | symbol name => exact respects_evalSymbol ⟨b, publish⟩ name
  | vector items =>
    apply Relates.run_bind (relates_evalArgs hrec hctx items)
    intro vs
    exact .run_pure _
  | list call => exact relates_evalList hR hrec hctx call
  | nil => exact .run_pure _
  | bool x => exact .run_pure _
  | number n => exact .run_pure _
  | keyword text => exact .run_pure _
  | string text => exact .run_pure _

/-- One level of the evaluator after another. -/
theorem relates_eval (hR : EvalCompatible env scope R) (depth : ℕ) :
    EvalOk env scope R (eval depth) := by
  induction depth with
  | zero => exact fun _ _ _ _ _ => .noResult
  | succ depth ih =>
    intro b publish publish' hctx expr
    have hstep : Relates R
        (afresh ⟨b, publish⟩ fun ctx => evalStep (eval depth) ctx expr).run
        (afresh ⟨b, publish'⟩ fun ctx => evalStep (eval depth) ctx expr).run := by
      apply relates_afresh hctx
      intro b' hctx'
      exact relates_evalStep hR ih b' publish publish' hctx' expr
    exact hstep

theorem respects_eval (hR : EvalCompatible env scope R) {ctx : Ctx N W}
    (hctx : CtxOk env scope R ctx) (depth : ℕ) (v : Value N) : Respects R (eval depth ctx v).run :=
  relates_eval hR depth ctx.toBindings ctx.publish ctx.publish hctx.both v

end Expressions

/-! ## Messages and ticks -/

section Programs

variable {env : Env N W} {scope : ℕ → Bytes → UInt64 → Prop}
  {R : Machine N W → Machine N W → Prop}

section Evaluation

variable (hR : EvalCompatible env scope R) (t : Moment)

/-- A continuation for published messages that respects the relation. -/
def AgainOk (R : Machine N W → Machine N W → Prop)
    (again : Slice → Slice → MachineM N W Bool) : Prop :=
  HooksOk R again again

include hR in
theorem respects_publishCb {again : Slice → Slice → MachineM N W Bool} (ruleIdx : ℕ)
    {reentrant : Bool} (ha : reentrant = true → AgainOk R again) :
    HooksOk R (publishCb env again ruleIdx reentrant)
      (publishCb env again ruleIdx reentrant) := by
  intro subject payload hsubject hpayload
  unfold publishCb
  apply Respects.get_bind
  intro m m' h
  rw [← LiesAlike.read hsubject h, ← LiesAlike.read hpayload h]
  generalize m.read env.rewritten subject = s
  generalize m.read env.rewritten payload = pl
  split
  · exact .some false h
  · obtain ⟨hok, hworld⟩ := hR.route s pl h
    generalize env.route m.world s pl = x at hok hworld ⊢
    generalize env.route m'.world s pl = y at hok hworld ⊢
    obtain ⟨w, ok⟩ := x
    obtain ⟨w', ok'⟩ := y
    obtain rfl : ok = ok' := hok
    -- from here on the two machines run the same computation
    have hrest : Respects R (if !ok then pure false
        else do
          modify fun m =>
            m.modifyRule ruleIdx fun r => { r with publishesEmitted := r.publishesEmitted + 1 }
          if reentrant then
            let _ ← again subject payload
            pure true
          else pure true : MachineM N W Bool) := by
      split
      · exact .pure _
      · apply Respects.bind (.modify fun _ _ h => hR.emitted ruleIdx h)
        intro _
        split
        · rename_i hreentrant
          exact .bind (ha hreentrant subject payload hsubject hpayload) fun _ => .pure _
        · exact .pure _
    exact hrest _ _ hworld

include hR in
theorem ctxOk_ruleCtx {again : Slice → Slice → MachineM N W Bool} {reentrant : Bool}
    (ha : reentrant = true → AgainOk R again) {ruleIdx : ℕ}
    (hs : ∀ s, scope ruleIdx s t.nowMs) {subject payload : Slice}
    (hsubject : LiesAlike R subject)
    (hpayload : LiesAlike R payload) :
    CtxOk env scope R (ruleCtx env t again ruleIdx reentrant subject payload) :=
  ⟨⟨rfl, rfl, hs _, fun _ => hs _, hsubject, hpayload⟩, respects_publishCb hR ruleIdx ha⟩

include hR in
/-- The context of a rule for a message that stays. -/
theorem ctxOk_held {again : Slice → Slice → MachineM N W Bool} {reentrant : Bool}
    (ha : reentrant = true → AgainOk R again) {ruleIdx : ℕ} {subject : Bytes}
    (hs : scope ruleIdx subject t.nowMs) (payload : Bytes) :
    CtxOk env scope R (ruleCtx env t again ruleIdx reentrant (.held subject) (.held payload)) :=
  ⟨⟨rfl, rfl, hs, fun _ => hs, liesAlike_held _, liesAlike_held _⟩,
    respects_publishCb hR ruleIdx ha⟩

omit [Number N] in
theorem respects_succeeds {α : Type} {m : EvalM N W α} (h : Respects R m.run) :
    Respects R (succeeds m) := by
  apply Respects.bind h
  intro r
  cases r with
  | ok a => exact .pure _
  | error e => exact .pure _

/-- The same rule of two programs from one source. -/
inductive SameRule : Option (Rule N) → Option (Rule N) → Prop
  | none : SameRule none none
  | some {r r' : Rule N} (filter : r.filter = r'.filter) (body : r.body = r'.body)
      (reentrant : r.reentrant = r'.reentrant) : SameRule (some r) (some r')

omit [Number N] in
theorem SameSource.getElem? {p q : Program N} (h : SameSource p q) (i : ℕ) :
    SameRule p.rules[i]? q.rules[i]? := by
  have hi := congrArg (fun l => l[i]?) h.rules
  simp only [List.getElem?_map] at hi
  cases hp : p.rules[i]? with
  | none =>
    cases hq : q.rules[i]? with
    | none => exact .none
    | some r => simp [hp, hq] at hi
  | some r =>
    cases hq : q.rules[i]? with
    | none => simp [hp, hq] at hi
    | some r' =>
      simp only [hp, hq, Option.map_some, Option.some.injEq, Prod.mk.injEq] at hi
      exact .some hi.1 hi.2.1 hi.2.2

include hR in
theorem respects_evalRuleForPublish (hsource : KeepsSource R)
    {again : Slice → Slice → MachineM N W Bool} (ha : AgainOk R again)
    {ruleIdx : ℕ} (hs : ∀ s, scope ruleIdx s t.nowMs) {subject payload : Slice}
    (hsubject : LiesAlike R subject)
    (hpayload : LiesAlike R payload) :
    Respects R (evalRuleForPublish env t again subject payload ruleIdx) := by
  apply Respects.get_bind
  intro m m' h
  rw [← LiesAlike.read hsubject h]
  generalize m.read env.rewritten subject = s
  have hrule := (hsource h).getElem? ruleIdx
  generalize m.program.rules[ruleIdx]? = x at hrule ⊢
  generalize m'.program.rules[ruleIdx]? = y at hrule ⊢
  cases hrule with
  | none => exact .some true h
  | @some r r' hfilter hbody hreentrant =>
    have hctx : CtxOk env scope R (ruleCtx env t again ruleIdx r.reentrant subject payload) :=
      ctxOk_ruleCtx hR t (fun _ => ha) hs hsubject hpayload
    have hrest : Respects R (if !subjectMatches r.filter s then pure true
        else succeeds
          (eval env.fuel (ruleCtx env t again ruleIdx r.reentrant subject payload) r.body)) := by
      split
      · exact .pure _
      · exact respects_succeeds (respects_eval hR hctx _ _)
    have heq := hrest m m' h
    dsimp only
    rw [← hfilter, ← hbody, ← hreentrant]
    exact heq

include hR in
theorem respects_evalRules (hsource : KeepsSource R) (hs : ∀ i s, scope i s t.nowMs)
    {again : Slice → Slice → MachineM N W Bool} (ha : AgainOk R again)
    {subject payload : Slice} (hsubject : LiesAlike R subject)
    (hpayload : LiesAlike R payload) (is : List ℕ) :
    Respects R (evalRules env t again subject payload is) := by
  induction is with
  | nil => exact .pure _
  | cons i is ih =>
    apply Respects.bind
      (respects_evalRuleForPublish hR t hsource ha (hs i) hsubject hpayload)
    intro a
    exact .bind ih fun b => .pure _

omit [Number N] in
theorem SameSource.ruleOrder {p q : Program N} (h : SameSource p q) (subject : Bytes) :
    ruleOrder p subject = ruleOrder q subject := by
  unfold Patchbay.ruleOrder ruleRefsForSubject
  rw [h.buckets, h.global]

include hR in
theorem respects_evalRulesFor (hsource : KeepsSource R) (hs : ∀ i s, scope i s t.nowMs)
    {again : Slice → Slice → MachineM N W Bool} (ha : AgainOk R again) :
    AgainOk R (evalRulesFor env t again) := by
  intro subject payload hsubject hpayload
  apply Respects.observe
    (fun m : Machine N W => ruleOrder m.program (m.read env.rewritten subject))
  · intro m m' h
    rw [LiesAlike.read hsubject h, (hsource h).ruleOrder]
  · exact respects_evalRules hR t hsource hs ha hsubject hpayload

include hR in
theorem respects_evalPublishSlices (hsource : KeepsSource R) (hs : ∀ i s, scope i s t.nowMs)
    (left : ℕ) : AgainOk R (evalPublishSlices env t left) := by
  induction left with
  | zero => exact respects_evalRulesFor hR t hsource hs fun _ _ _ _ => .pure true
  | succ left ih => exact respects_evalRulesFor hR t hsource hs ih

include hR in
theorem respects_runFired {ctx : Ctx N W} (hctx : CtxOk env scope R ctx) (depth : ℕ)
    {slot : StateKey} (hlends : Lends R slot) (fired : Fired N) :
    Respects R (runFired depth ctx slot fired).run := by
  cases fired with
  | nothing => exact .run_pure _
  | body payload forms =>
    have hctx' : CtxOk env scope R { ctx with payloadAt := .lent ⟨slot, .bytes, payload, payload⟩ } :=
      ⟨⟨hctx.alloc, hctx.rewritten, hctx.inScope, hctx.rereads, hctx.subjectAt, hlends _ _ _⟩,
        hctx.publish⟩
    exact relates_evalDo (relates_eval hR depth) hctx'.both forms
  | form f => exact respects_eval hR hctx depth f
  | publish subject payload =>
    exact relates_published (hctx.publish _ _ (hlends _ _ _) (hlends _ _ _)) (.run_pure _)

end Evaluation

section Ticks

variable {t : Moment}

omit [Number N] in
/-- States with slots of the same kinds and keys have them at each position. -/
theorem kind_slotAt_eq [Number N] {m m' : Machine N W} {ruleId : ℕ}
    (h : ((m.ruleState ruleId).items.map fun e => (e.kind, e.key)) =
      (m'.ruleState ruleId).items.map fun e => (e.kind, e.key)) (i : ℕ) :
    (slotAt (m.ruleState ruleId) i).kind = (slotAt (m'.ruleState ruleId) i).kind ∧
      (slotAt (m.ruleState ruleId) i).key = (slotAt (m'.ruleState ruleId) i).key := by
  have hi := congrArg (fun l => l[i]?) h
  simp only [List.getElem?_map] at hi
  unfold slotAt
  cases hm : (m.ruleState ruleId).items[i]? with
  | none =>
    cases hm' : (m'.ruleState ruleId).items[i]? with
    | none => exact ⟨rfl, rfl⟩
    | some e => simp [hm, hm'] at hi
  | some e =>
    cases hm' : (m'.ruleState ruleId).items[i]? with
    | none => simp [hm, hm'] at hi
    | some e' => simpa [hm, hm'] using hi

variable
  (hslots : ∀ (ruleId : ℕ) {m m' : Machine N W}, R m m' →
    ((m.ruleState ruleId).items.map fun e => (e.kind, e.key)) =
      (m'.ruleState ruleId).items.map fun e => (e.kind, e.key))
  (hentry : ∀ (ruleIdx : ℕ) (reentrant : Bool) (subject : Bytes) (i : ℕ),
    Respects R (tickStateEntry env.fuel (tickCtx env t ruleIdx reentrant subject) i).run)

include hslots hentry in
theorem respects_tickSlots (ruleIdx : ℕ) (reentrant : Bool) (fuel i : ℕ) :
    Respects R (tickSlots env t ruleIdx reentrant fuel i) := by
  induction fuel generalizing i with
  | zero => exact .noResult
  | succ fuel ih =>
    apply Respects.observe (fun m : Machine N W =>
        ((m.ruleState ruleIdx).items.length, (slotAt (m.ruleState ruleIdx) i).subject))
      (f := fun x => if i < x.1 then do
          let a ← succeeds (tickStateEntry env.fuel (tickCtx env t ruleIdx reentrant x.2) i)
          let b ← tickSlots env t ruleIdx reentrant fuel (i + 1)
          pure (a && b)
        else pure true)
    · intro m m' h
      have hlen := congrArg List.length (hslots ruleIdx h)
      simp only [List.length_map] at hlen
      have hkey := (kind_slotAt_eq (hslots ruleIdx h) i).2
      have hsubject : (slotAt (m.ruleState ruleIdx) i).subject =
          (slotAt (m'.ruleState ruleIdx) i).subject := congrArg StateKey.subject hkey
      rw [hlen, hsubject]
    · intro x
      split
      · apply Respects.bind (respects_succeeds (hentry ruleIdx reentrant x.2 i))
        intro a
        exact .bind (ih (i + 1)) fun b => .pure _
      · exact .pure _

include hslots hentry in
theorem respects_tickRules (rs : List (ℕ × Bool)) : Respects R (tickRules env t rs) := by
  induction rs with
  | nil => exact .pure _
  | cons r rs ih =>
    apply Respects.bind (respects_tickSlots hslots hentry r.1 r.2 env.fuel 0)
    intro a
    exact .bind ih fun b => .pure _

omit [Number N] in
theorem SameSource.reentrant {p q : Program N} (h : SameSource p q) :
    (p.rules.zipIdx.map fun r => (r.2, r.1.reentrant)) =
      q.rules.zipIdx.map fun r => (r.2, r.1.reentrant) := by
  have hmap := congrArg (fun l => (l.map fun x => x.2.2).zipIdx.map fun x => (x.2, x.1)) h.rules
  simpa [List.zipIdx_map, Function.comp_def] using hmap

include hslots hentry in
/-- A tick respects what the tick of each slot respects. -/
theorem respects_tick_of (hsource : KeepsSource R) : Respects R (tick env t) := by
  apply Respects.observe
    (fun m : Machine N W => m.program.rules.zipIdx.map fun r => (r.2, r.1.reentrant))
  · intro m m' h
    exact (hsource h).reentrant
  · exact respects_tickRules hslots hentry

end Ticks

section At

variable {t : Moment} (hR : CompatibleAt env t.nowMs R)

include hR in
theorem CompatibleAt.evalPublish (subject payload : Bytes) :
    Respects R (evalPublish env t subject payload) :=
  respects_evalPublishSlices hR.toEvalCompatible t hR.source (fun _ _ => rfl) maxReentryDepth
    (.held subject) (.held payload) (liesAlike_held _) (liesAlike_held _)

include hR in
theorem respects_tickStateEntry {ctx : Ctx N W}
    (hctx : CtxOk env (fun _ _ now => now = t.nowMs) R ctx) (depth i : ℕ) :
    Respects R (tickStateEntry depth ctx i).run := by
  intro m m' h
  obtain ⟨hkind, hkey⟩ := kind_slotAt_eq (hR.slots ctx.ruleId h) i
  have hlends := hR.lends ctx.ruleId i h
  change Agree R
    ((if (slotAt (m.ruleState ctx.ruleId) i).kind = .clock then
        atSlot ctx.ruleId i (tickClock ctx.alloc ctx.nowMs) >>=
          runFired depth ctx (slotAt (m.ruleState ctx.ruleId) i).key
      else atSlot ctx.ruleId i (tickWindow ctx.nowMs) >>= emitBar ctx : EvalM N W (Value N)).run m)
    ((if (slotAt (m'.ruleState ctx.ruleId) i).kind = .clock then
        atSlot ctx.ruleId i (tickClock ctx.alloc ctx.nowMs) >>=
          runFired depth ctx (slotAt (m'.ruleState ctx.ruleId) i).key
      else atSlot ctx.ruleId i (tickWindow ctx.nowMs) >>= emitBar ctx : EvalM N W (Value N)).run m')
  rw [← hkind, ← hkey, hctx.alloc, hctx.inScope]
  generalize (slotAt (m.ruleState ctx.ruleId) i).key = slot at hlends ⊢
  split_ifs with hclock
  · have hrest : Respects R (atSlot ctx.ruleId i (tickClock env.alloc t.nowMs) >>=
        runFired depth ctx slot : EvalM N W (Value N)).run :=
      .run_bind (hR.tickClock _ _) fun fired =>
        respects_runFired hR.toEvalCompatible hctx depth (hlends hclock) fired
    exact hrest m m' h
  · have hrest : Respects R (atSlot ctx.ruleId i (tickWindow t.nowMs) >>= emitBar ctx :
        EvalM N W (Value N)).run :=
      .run_bind (hR.tickWindow _ _) fun close => respects_emitBar hctx close
    exact hrest m m' h

include hR in
theorem CompatibleAt.tick : Respects R (tick env t) := by
  apply respects_tick_of hR.slots ?_ hR.source
  intro ruleIdx reentrant subject i
  have hctx : CtxOk env (fun _ _ now => now = t.nowMs) R (tickCtx env t ruleIdx reentrant subject) :=
    ctxOk_held hR.toEvalCompatible t (fun _ =>
      respects_evalPublishSlices hR.toEvalCompatible t hR.source (fun _ _ => rfl) _)
      rfl []
  exact respects_tickStateEntry hR hctx env.fuel i

end At

variable (hR : Compatible env R) (t : Moment)

include hR in
/-- The evaluation of a message. -/
theorem respects_evalPublish (subject payload : Bytes) :
    Respects R (evalPublish env t subject payload) :=
  (hR.at t.nowMs).evalPublish subject payload

include hR in
theorem respects_tick : Respects R (tick env t) := (hR.at t.nowMs).tick

/-- What the loop does with the next deadline; `rest` are its further rounds. -/
def tickUntilRound (env : Env N W) (t : Moment) (rest : MachineM N W Bool) :
    Option UInt64 → MachineM N W Bool
  | none => pure true
  | some deadline =>
    if deadline ≤ t.nowMs then do
      let a ← tick env (tickMoment t deadline)
      let b ← rest
      pure (a && b)
    else pure true

include hR in
theorem respects_tickUntilLoop (fuel : ℕ) : Respects R (tickUntilLoop env t fuel) := by
  induction fuel with
  | zero => exact .noResult
  | succ fuel ih =>
    apply Respects.observe (fun m : Machine N W => nextClockDeadline m.program)
      (fun _ _ h => hR.deadline h) (f := tickUntilRound env t (tickUntilLoop env t fuel))
    intro next
    unfold tickUntilRound
    split
    · exact .pure _
    · split
      · apply Respects.bind (respects_tick hR _)
        intro a
        exact .bind ih fun b => .pure _
      · exact .pure _

include hR in
/-- Catching up with the clock. -/
theorem respects_tickUntil : Respects R (tickUntil env t) := respects_tickUntilLoop hR t env.fuel

end Programs

/-! ## What no evaluation changes -/

section Kept

/-- Equal machines that run the given program. -/
def Running (p : Program N) (m m' : Machine N W) : Prop := m = m' ∧ SameSource m.program p

omit [Number N] in
theorem SameSource.modifyRule {m : Machine N W} {p : Program N} (h : SameSource m.program p)
    (i : ℕ) {f : Rule N → Rule N}
    (hf : ∀ r, (f r).filter = r.filter ∧ (f r).body = r.body ∧ (f r).reentrant = r.reentrant) :
    SameSource (m.modifyRule i f).program p := by
  refine ⟨?_, h.buckets, h.global, h.clock⟩
  rw [← h.rules, Machine.modifyRule]
  dsimp only
  apply List.ext_getElem?
  intro j
  rw [List.getElem?_map, List.getElem?_map, List.getElem?_modify]
  cases m.program.rules[j]? with
  | none => rfl
  | some r =>
    obtain ⟨hfilter, hbody, hreentrant⟩ := hf r
    by_cases hij : i = j
    · simp [hij, hfilter, hbody, hreentrant]
    · simp [hij]

section Operations

variable {p : Program N}

omit [Number N] in
theorem Running.modifyRule {m m' : Machine N W} (h : Running p m m') (i : ℕ)
    {f : Rule N → Rule N}
    (hf : ∀ r, (f r).filter = r.filter ∧ (f r).body = r.body ∧ (f r).reentrant = r.reentrant) :
    Running p (m.modifyRule i f) (m'.modifyRule i f) := by
  obtain ⟨rfl, h⟩ := h
  exact ⟨rfl, h.modifyRule i hf⟩

theorem respects_stateSlot_running (ctx : Ctx N W) (op : Bytes) :
    Respects (Running p) (stateSlot ctx op).run := by
  apply Respects.run_get_bind
  rintro m _ ⟨rfl, hm⟩
  have hset : ∀ st, Running p (m.setState ctx.ruleId st) (m.setState ctx.ruleId st) :=
    fun st => Running.modifyRule ⟨rfl, hm⟩ ctx.ruleId fun r => ⟨rfl, rfl, rfl⟩
  generalize stateSlotIn ctx.alloc (m.ruleState ctx.ruleId) ⟨ctx.ruleId, op, ctx.subject⟩ = x
  obtain ⟨st, i⟩ := x
  cases i with
  | none => exact .some (Except.error EvalError.oom) (hset st)
  | some i => exact .some (Except.ok i) (hset st)

omit [Number N] in
theorem respects_noteSuppressed_running (ruleId : ℕ) :
    Respects (Running p) (noteSuppressed ruleId : EvalM N W Unit).run := by
  intro m m' h
  exact .some (Except.ok ()) (h.modifyRule ruleId fun r => ⟨rfl, rfl, rfl⟩)

theorem respects_atSlot_running {α : Type} (ruleId i : ℕ) (f : StateEntry N → SlotStep N α) :
    Respects (Running p) (atSlot ruleId i f : EvalM N W α).run := by
  apply Respects.run_get_bind
  rintro m _ ⟨rfl, hm⟩
  have hrest : Respects (Running p) (do
      if (f (slotAt (m.ruleState ruleId) i)).suppressed then noteSuppressed ruleId
      liftResult (f (slotAt (m.ruleState ruleId) i)).result : EvalM N W α).run := by
    split
    · exact .run_bind (respects_noteSuppressed_running ruleId) fun _ => respects_liftResult _
    · exact respects_liftResult _
  exact hrest _ _ (Running.modifyRule ⟨rfl, hm⟩ ruleId fun r => ⟨rfl, rfl, rfl⟩)

/-- Nothing changes the source of a program. -/
theorem compatible_running (env : Env N W) (p : Program N) : Compatible env (Running p) where
  onSlot _ _ _ := .run_bind (respects_stateSlot_running _ _) fun _ => respects_atSlot_running _ _ _
  tickClock _ _ _ := respects_atSlot_running _ _ _
  tickWindow _ _ _ := respects_atSlot_running _ _ _
  suppressed ruleId := respects_noteSuppressed_running ruleId
  emitted ruleId := fun h => h.modifyRule ruleId fun r => ⟨rfl, rfl, rfl⟩
  route subject payload := by
    rintro m _ ⟨rfl, hm⟩
    exact ⟨rfl, rfl, hm⟩
  source := by
    rintro m _ ⟨rfl, -⟩
    exact ⟨rfl, rfl, rfl, rfl⟩
  slots ruleId := by
    rintro m _ ⟨rfl, -⟩
    rfl
  lends _ _ _ _ _ _ := lends_of_states (fun h => h.1 ▸ fun _ => rfl) _
  deadline := by
    rintro m _ ⟨rfl, -⟩
    rfl

end Operations

end Kept

end Monoblok.Patchbay
