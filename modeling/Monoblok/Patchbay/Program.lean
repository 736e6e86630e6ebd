import Monoblok.Patchbay.Eval

/-!
# Programs

The runtime half of `pb_program.c`: the index of the rules by first token, the
evaluation of a message, ticks and deadlines. A rule marked reentrant evaluates
what it publishes, down to a fixed depth.

The router is a parameter: `route` takes a message and says whether the router
accepted it. So is the memory behind a slice whose slot has written its buffer again:
`rewritten` gives what is read there, from the text that was lent and the text of the
slot. `fuel` bounds the depth of expressions, the slots of a tick and the
ticks of a catch-up; a run that needs more has no result.
-/

namespace Monoblok.Patchbay

/-- What a program asks of its surroundings. -/
structure Env (N W : Type) where
  alloc : EvalAlloc → Bool
  readJson : Bytes → Option (Json N)
  rewritten : Bytes → Bytes → Bytes
  /-- Where the texts of a message come from that a rule publishes. -/
  drawn : ℕ → Bytes → Bytes → TextOrigin × TextOrigin
  route : W → Bytes → Bytes → W × Bool
  fuel : ℕ

/-- What is read of a text whose buffer has room for the text that is written over it. -/
def writtenOver (lent now : Bytes) : Bytes := (now ++ lent.drop now.length).take lent.length

/-- The texts of `(publish! "b" payload)`. -/
def payloadDrawn (_ruleIdx : ℕ) (_subject _payload : Bytes) : TextOrigin × TextOrigin :=
  (.own, .payload)

/-- The clocks and the flag of one evaluation. -/
structure Moment where
  nowMs : UInt64
  wallMs : ℤ
  replaying : Bool

def maxReentryDepth : ℕ := 8

variable {N W : Type}

/-! ## The rule index -/

def firstSubjectToken (s : Bytes) : Option Bytes :=
  let tok := s.takeWhile (· != dot)
  if tok.isEmpty then none else some tok

def ruleBucketAppend (buckets : List RuleBucket) (key : Bytes) (i : ℕ) : List RuleBucket :=
  match buckets.findIdx? (fun b => b.key == key) with
  | some j => buckets.modify j fun b => { b with rules := b.rules ++ [i] }
  | none => buckets ++ [⟨key, [i]⟩]

def indexRule (index : List RuleBucket × List ℕ) (filter : Bytes) (i : ℕ) :
    List RuleBucket × List ℕ :=
  match firstSubjectToken filter with
  | none => (index.1, index.2 ++ [i])
  | some tok =>
    if isWildcardToken tok then (index.1, index.2 ++ [i])
    else (ruleBucketAppend index.1 tok i, index.2)

def buildRuleIndex (filters : List Bytes) : List RuleBucket × List ℕ :=
  filters.zipIdx.foldl (fun index x => indexRule index x.1 x.2) ([], [])

/-- A rule as it is written. -/
structure RuleSource (N : Type) where
  filter : Bytes
  body : Value N
  reentrant : Bool

def RuleSource.load (r : RuleSource N) : Rule N :=
  ⟨r.filter, r.body, r.reentrant, 0, 0, stateInit⟩

/-- A freshly loaded program. -/
def loadProgram (rules : List (RuleSource N)) (usesClockTimer : Bool) : Program N :=
  let index := buildRuleIndex (rules.map RuleSource.filter)
  ⟨rules.map RuleSource.load, index.1, index.2, usesClockTimer⟩

def ruleRefsForSubject (p : Program N) (subject : Bytes) : List ℕ :=
  match firstSubjectToken subject with
  | none => []
  | some tok => ((p.ruleBuckets.find? fun b => b.key == tok).map RuleBucket.rules).getD []

/-- The loop of `eval_publish_slices`: in each round the smaller of the two next
references. -/
def mergeRefs : ℕ → List ℕ → List ℕ → List ℕ
  | _, [], gs => gs
  | _, bs, [] => bs
  | 0, _, _ => []
  | n + 1, b :: bs, g :: gs =>
    if b < g then b :: mergeRefs n bs (g :: gs) else g :: mergeRefs n (b :: bs) gs

/-- The bucket of the subject and the global list, merged in source order. -/
def ruleOrder (p : Program N) (subject : Bytes) : List ℕ :=
  let refs := ruleRefsForSubject p subject
  mergeRefs (refs.length + p.ruleGlobal.length) refs p.ruleGlobal

/-! ## Deadlines -/

/-- When a tick has something to do for a slot. -/
def entryDeadline (e : StateEntry N) : Option UInt64 :=
  if e.kind = .ring ∧ e.ringTimeWindow = true ∧ 0 < e.ringLen then
    let t := e.ringTimes e.ringStart
    if t ≤ 0xffffffffffffffff - e.ringWindowMs then
      let deadline := t + e.ringWindowMs
      some (if deadline < 0xffffffffffffffff then deadline + 1 else deadline)
    else some 0xffffffffffffffff
  else if e.kind = .bar ∧ e.barTimeWindow = true ∧ e.barCount ≠ 0 then
    some (e.barWindowStartMs + e.barWindowMs)
  else if e.kind = .clock ∧ e.clockArmed = true then some e.clockDeadlineMs
  else none

def earlier (best : Option UInt64) (e : StateEntry N) : Option UInt64 :=
  match entryDeadline e, best with
  | none, best => best
  | some d, none => some d
  | some d, some b => some (if d < b then d else b)

def nextClockDeadline (p : Program N) : Option UInt64 :=
  if p.usesClockTimer then (p.rules.flatMap fun r => r.state.items).foldl earlier none else none

/-! ## Evaluation of a message -/

section Messages

variable [Number N] (env : Env N W) (t : Moment)

/-- `publish_cb`; `again` evaluates the published message. -/
def publishCb (again : Slice → Slice → MachineM N W Bool) (ruleIdx : ℕ) (reentrant : Bool)
    (subject payload : Slice) : MachineM N W Bool := do
  let m ← get
  if !publishSubjectValid (m.read env.rewritten subject) then pure false
  else
    let (w, ok) :=
      env.route m.world (m.read env.rewritten subject) (m.read env.rewritten payload)
    set { m with world := w }
    if !ok then pure false
    else
      modify fun m =>
        m.modifyRule ruleIdx fun r => { r with publishesEmitted := r.publishesEmitted + 1 }
      if reentrant then
        let _ ← again subject payload
        pure true
      else pure true

/-- The context of a rule; its slices are read when the evaluation starts. -/
def ruleCtx (again : Slice → Slice → MachineM N W Bool) (ruleIdx : ℕ) (reentrant : Bool)
    (subject payload : Slice) : Ctx N W where
  alloc := env.alloc
  readJson := env.readJson
  rewritten := env.rewritten
  drawn := env.drawn ruleIdx
  subjectAt := subject
  payloadAt := payload
  ruleId := ruleIdx
  nowMs := t.nowMs
  wallMs := t.wallMs
  replaying := t.replaying
  subject := subject.text
  payload := payload.text
  publish := publishCb env again ruleIdx reentrant

/-- Whether an evaluation went through; its value is dropped. -/
def succeeds {α : Type} (m : EvalM N W α) : MachineM N W Bool := do
  match ← m.run with
  | .ok _ => pure true
  | .error _ => pure false

def evalRuleForPublish (again : Slice → Slice → MachineM N W Bool) (subject payload : Slice)
    (ruleIdx : ℕ) : MachineM N W Bool := do
  let m ← get
  match m.program.rules[ruleIdx]? with
  | none => pure true
  | some rule =>
    if !subjectMatches rule.filter (m.read env.rewritten subject) then pure true
    else
      succeeds
        (eval env.fuel (ruleCtx env t again ruleIdx rule.reentrant subject payload) rule.body)

section OneRule

variable {env : Env N W} {t : Moment} {again : Slice → Slice → MachineM N W Bool}
variable {subject payload : Slice} {i : ℕ} {m : Machine N W}

theorem evalRuleForPublish_some {rule : Rule N} (h : m.program.rules[i]? = some rule) :
    evalRuleForPublish env t again subject payload i m =
      if subjectMatches rule.filter (m.read env.rewritten subject) then
        succeeds (eval env.fuel (ruleCtx env t again i rule.reentrant subject payload) rule.body) m
      else some (true, m) := by
  have hget : ∀ f : Machine N W → MachineM N W Bool, (get >>= f) m = f m m := fun _ => rfl
  rw [evalRuleForPublish, hget, h]
  dsimp only
  cases subjectMatches rule.filter (m.read env.rewritten subject) with
  | true => rfl
  | false => rfl

theorem evalRuleForPublish_none (h : m.program.rules[i]? = none) :
    evalRuleForPublish env t again subject payload i m = some (true, m) := by
  have hget : ∀ f : Machine N W → MachineM N W Bool, (get >>= f) m = f m m := fun _ => rfl
  rw [evalRuleForPublish, hget, h]
  rfl

end OneRule

/-- All rules run, also after one that fails. -/
def evalRules (again : Slice → Slice → MachineM N W Bool) (subject payload : Slice) :
    List ℕ → MachineM N W Bool
  | [] => pure true
  | i :: is => do
    let a ← evalRuleForPublish env t again subject payload i
    let b ← evalRules again subject payload is
    pure (a && b)

/-- The rules are chosen by the subject as it is read at the start. -/
def evalRulesFor (again : Slice → Slice → MachineM N W Bool) (subject payload : Slice) :
    MachineM N W Bool := do
  let m ← get
  evalRules env t again subject payload (ruleOrder m.program (m.read env.rewritten subject))

/-- `eval_publish_slices` with `left` levels of re-entry below it. -/
def evalPublishSlices : ℕ → Slice → Slice → MachineM N W Bool
  | 0 => evalRulesFor env t fun _ _ => pure true
  | left + 1 => evalRulesFor env t (evalPublishSlices left)

def evalPublish (subject payload : Bytes) : MachineM N W Bool :=
  evalPublishSlices env t maxReentryDepth (.held subject) (.held payload)

/-! ## Ticks -/

def tickCtx (ruleIdx : ℕ) (reentrant : Bool) (subject : Bytes) : Ctx N W :=
  ruleCtx env t (evalPublishSlices env t (maxReentryDepth - 1)) ruleIdx reentrant (.held subject)
    (.held [])

/-- The slots of a rule from position `i` on; a tick may add slots behind it. -/
def tickSlots (ruleIdx : ℕ) (reentrant : Bool) : ℕ → ℕ → MachineM N W Bool
  | 0, _ => fun _ => none
  | fuel + 1, i => do
    let m ← get
    if i < (m.ruleState ruleIdx).items.length then
      let subject := (slotAt (m.ruleState ruleIdx) i).subject
      let a ← succeeds (tickStateEntry env.fuel (tickCtx env t ruleIdx reentrant subject) i)
      let b ← tickSlots ruleIdx reentrant fuel (i + 1)
      pure (a && b)
    else pure true

def tickRules : List (ℕ × Bool) → MachineM N W Bool
  | [] => pure true
  | r :: rs => do
    let a ← tickSlots env t r.1 r.2 env.fuel 0
    let b ← tickRules rs
    pure (a && b)

def tick : MachineM N W Bool := do
  let m ← get
  tickRules env t (m.program.rules.zipIdx.map fun r => (r.2, r.1.reentrant))

end Messages

section CatchUp

variable [Number N] (env : Env N W)

/-- The wall clock of a tick that makes up for one at `deadline`. -/
def tickMoment (t : Moment) (deadline : UInt64) : Moment :=
  let delta := t.nowMs - deadline
  { t with
    nowMs := deadline
    wallMs := if delta.toNat < 2 ^ 63 then t.wallMs - delta.toNat else t.wallMs }

def tickUntilLoop (t : Moment) : ℕ → MachineM N W Bool
  | 0 => fun _ => none
  | fuel + 1 => do
    let m ← get
    match nextClockDeadline m.program with
    | none => pure true
    | some deadline =>
      if deadline ≤ t.nowMs then
        let a ← tick env (tickMoment t deadline)
        let b ← tickUntilLoop t fuel
        pure (a && b)
      else pure true

def tickUntil (t : Moment) : MachineM N W Bool := tickUntilLoop env t env.fuel

end CatchUp

end Monoblok.Patchbay
