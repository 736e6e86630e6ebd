import Monoblok.Patchbay.Related

/-!
# Machines linked rule by rule

A step on a slot is a step of the state of one rule: a lookup, which may make
the slot, and a form applied to what is found. So a relation between the states
of rules that these steps respect gives a relation between machines that every
evaluation respects. The counters of a rule take no part in it.
-/

namespace Monoblok.Patchbay

open Relational OpenAddressing Number

variable {N W : Type}

/-! ## The parts of a machine -/

/-- A program without what its rules remember. -/
def Program.source (p : Program N) : Program N :=
  { p with rules := p.rules.map fun r => ⟨r.filter, r.body, r.reentrant, 0, 0, stateInit⟩ }

theorem sameSource_iff {p q : Program N} : SameSource p q ↔ p.source = q.source := by
  have hrules : (p.rules.map fun r => (r.filter, r.body, r.reentrant)) =
        (q.rules.map fun r => (r.filter, r.body, r.reentrant)) ↔
      (p.rules.map fun r => (⟨r.filter, r.body, r.reentrant, 0, 0, stateInit⟩ : Rule N)) =
        q.rules.map fun r => ⟨r.filter, r.body, r.reentrant, 0, 0, stateInit⟩ := by
    constructor
    · intro h
      have := congrArg (List.map fun x => (⟨x.1, x.2.1, x.2.2, 0, 0, stateInit⟩ : Rule N)) h
      simpa [Function.comp_def] using this
    · intro h
      have := congrArg (List.map fun r : Rule N => (r.filter, r.body, r.reentrant)) h
      simpa [Function.comp_def] using this
  constructor
  · intro h
    rw [Program.source, Program.source, hrules.mp h.rules, h.buckets, h.global, h.clock]
  · intro h
    have hbuckets : p.source.ruleBuckets = q.source.ruleBuckets := by rw [h]
    have hglobal : p.source.ruleGlobal = q.source.ruleGlobal := by rw [h]
    have hclock : p.source.usesClockTimer = q.source.usesClockTimer := by rw [h]
    exact ⟨hrules.mpr (congrArg Program.rules h), hbuckets, hglobal, hclock⟩

/-- A change of a rule that leaves its source alone. -/
def KeepsRule (f : Rule N → Rule N) : Prop :=
  ∀ r, (f r).filter = r.filter ∧ (f r).body = r.body ∧ (f r).reentrant = r.reentrant

theorem source_modifyRule (m : Machine N W) (i : ℕ) {f : Rule N → Rule N} (hf : KeepsRule f) :
    (m.modifyRule i f).program.source = m.program.source :=
  sameSource_iff.mp (SameSource.modifyRule ⟨rfl, rfl, rfl, rfl⟩ i hf)

theorem length_source (p : Program N) : p.source.rules.length = p.rules.length :=
  List.length_map _

theorem ruleState_of_missing {m : Machine N W} {i : ℕ} (h : m.program.rules.length ≤ i) :
    m.ruleState i = stateInit := by
  rw [Machine.ruleState, List.getElem?_eq_none h]
  rfl

theorem ruleState_modifyRule (m : Machine N W) (i j : ℕ) {f : Rule N → Rule N}
    (hf : ∀ r, (f r).state = r.state) : (m.modifyRule i f).ruleState j = m.ruleState j := by
  unfold Machine.ruleState Machine.modifyRule
  dsimp only
  rw [List.getElem?_modify]
  cases m.program.rules[j]? with
  | none => rfl
  | some r =>
    by_cases hij : i = j
    · simp [hij, hf]
    · simp [hij]

theorem ruleState_setState (m : Machine N W) (i j : ℕ) (st : EvalState N) :
    (m.setState i st).ruleState j =
      if i = j ∧ i < m.program.rules.length then st else m.ruleState j := by
  unfold Machine.setState Machine.ruleState Machine.modifyRule
  dsimp only
  rw [List.getElem?_modify]
  by_cases hj : j < m.program.rules.length
  · rw [List.getElem?_eq_getElem hj]
    by_cases hij : i = j
    · simp [hij, hj]
    · simp [hij]
  · rw [List.getElem?_eq_none (by omega)]
    by_cases hij : i = j
    · simp [hij, hj]
    · simp [hij]

section Steps

variable [Number N]

/-! ## Steps on the state of a rule -/

/-- The slot at a position after a step on it, with its result. -/
def stepAt {α : Type} (f : StateEntry N → SlotStep N α) (i : ℕ) (st : EvalState N) :
    Except EvalError α × EvalState N :=
  ((f (slotAt st i)).result, setSlot st i (f (slotAt st i)).entry)

/-- A lookup and a step on what is found. -/
def slotStep {α : Type} (A : EvalAlloc → Bool) (k : StateKey) (f : StateEntry N → SlotStep N α)
    (st : EvalState N) : Except EvalError α × EvalState N :=
  match stateSlotIn A st k with
  | (st, none) => (.error .oom, st)
  | (st, some i) => stepAt f i st

/-- The machine after a change to the state of one rule, counted if the step was
a suppressed one. -/
def Machine.stepped (m : Machine N W) (i : ℕ) (st : EvalState N) (suppressed : Bool) :
    Machine N W :=
  if suppressed then
    (m.setState i st).modifyRule i fun r => { r with publishesSuppressed := r.publishesSuppressed + 1 }
  else m.setState i st

omit [Number N] in
theorem run_evalBind {α β : Type} (x : EvalM N W α) (g : α → EvalM N W β) (m : Machine N W) :
    (x >>= g).run m = (x.run m).bind fun y =>
      match y.1 with
      | .ok a => (g a).run y.2
      | .error e => some (.error e, y.2) := by
  change (x.run m).bind _ = _
  congr 1
  funext y
  obtain ⟨r, m'⟩ := y
  cases r with
  | ok a => rfl
  | error e => rfl

theorem run_atSlot {α : Type} (ruleId i : ℕ) (f : StateEntry N → SlotStep N α)
    (m : Machine N W) :
    (atSlot ruleId i f : EvalM N W α).run m =
      some ((stepAt f i (m.ruleState ruleId)).1,
        m.stepped ruleId (stepAt f i (m.ruleState ruleId)).2
          (f (slotAt (m.ruleState ruleId) i)).suppressed) := by
  have hunfold : (atSlot ruleId i f : EvalM N W α).run m =
      (do
        if (f (slotAt (m.ruleState ruleId) i)).suppressed then noteSuppressed ruleId
        liftResult (f (slotAt (m.ruleState ruleId) i)).result : EvalM N W α).run
        (m.setState ruleId (setSlot (m.ruleState ruleId) i (f (slotAt (m.ruleState ruleId) i)).entry)) :=
    rfl
  rw [hunfold, stepAt, Machine.stepped]
  generalize f (slotAt (m.ruleState ruleId) i) = r
  obtain ⟨e, suppressed, result⟩ := r
  cases suppressed with
  | false =>
    cases result with
    | ok a => rfl
    | error err => rfl
  | true =>
    cases result with
    | ok a => rfl
    | error err => rfl

theorem run_stateSlot (ctx : Ctx N W) (op : Bytes) (m : Machine N W) :
    (stateSlot ctx op).run m =
      match stateSlotIn ctx.alloc (m.ruleState ctx.ruleId) ⟨ctx.ruleId, op, ctx.subject⟩ with
      | (st, none) => some (.error .oom, m.setState ctx.ruleId st)
      | (st, some i) => some (.ok i, m.setState ctx.ruleId st) := by
  unfold stateSlot
  change (match stateSlotIn ctx.alloc (m.ruleState ctx.ruleId) ⟨ctx.ruleId, op, ctx.subject⟩ with
    | (st, none) => do
      set (m.setState ctx.ruleId st)
      throw .oom
    | (st, some i) => do
      set (m.setState ctx.ruleId st)
      pure i : EvalM N W ℕ).run m = _
  generalize stateSlotIn ctx.alloc (m.ruleState ctx.ruleId) ⟨ctx.ruleId, op, ctx.subject⟩ = x
  obtain ⟨st, o⟩ := x
  cases o with
  | none => rfl
  | some i => rfl

theorem run_onSlot {α : Type} (ctx : Ctx N W) (op : Bytes) (f : StateEntry N → SlotStep N α)
    (m : Machine N W) :
    (onSlot ctx op f).run m =
      match stateSlotIn ctx.alloc (m.ruleState ctx.ruleId) ⟨ctx.ruleId, op, ctx.subject⟩ with
      | (st, none) => some (.error .oom, m.setState ctx.ruleId st)
      | (st, some i) => (atSlot ctx.ruleId i f : EvalM N W α).run (m.setState ctx.ruleId st) := by
  rw [onSlot, run_evalBind, run_stateSlot]
  generalize stateSlotIn ctx.alloc (m.ruleState ctx.ruleId) ⟨ctx.ruleId, op, ctx.subject⟩ = x
  obtain ⟨st, o⟩ := x
  cases o with
  | none => rfl
  | some i => rfl

omit [Number N] in
theorem stepped_spec (m : Machine N W) (i : ℕ) (st : EvalState N) (suppressed : Bool) :
    (m.stepped i st suppressed).program.source = m.program.source ∧
      (m.stepped i st suppressed).world = m.world ∧
      ∀ j, (m.stepped i st suppressed).ruleState j =
        if i = j ∧ i < m.program.rules.length then st else m.ruleState j := by
  have hset : (m.setState i st).program.source = m.program.source :=
    source_modifyRule m i fun _ => ⟨rfl, rfl, rfl⟩
  unfold Machine.stepped
  split_ifs
  · have hkeeps : KeepsRule fun r : Rule N =>
        { r with publishesSuppressed := r.publishesSuppressed + 1 } := fun _ => ⟨rfl, rfl, rfl⟩
    refine ⟨(source_modifyRule _ i hkeeps).trans hset, rfl, fun j => ?_⟩
    rw [ruleState_modifyRule]
    · exact ruleState_setState m i j st
    · exact fun _ => rfl
  · exact ⟨hset, rfl, fun j => ruleState_setState m i j st⟩

/-- What a step on a slot of a rule that is not there gives. -/
def missingResult {α : Type} (A : EvalAlloc → Bool) (k : StateKey)
    (f : StateEntry N → SlotStep N α) : Except EvalError α :=
  match (stateSlotIn (N := N) A stateInit k).2 with
  | none => .error .oom
  | some i => (f (slotAt stateInit i)).result

/-- The effect of a form on its slot. -/
structure StepsSlot {α : Type} (ruleId : ℕ) (r : Except EvalError α × EvalState N)
    (missing : Except EvalError α) (m : Machine N W) (x : Except EvalError α × Machine N W) :
    Prop where
  source : x.2.program.source = m.program.source
  world : x.2.world = m.world
  result : x.1 = if ruleId < m.program.rules.length then r.1 else missing
  states : ∀ j, x.2.ruleState j =
    if ruleId = j ∧ ruleId < m.program.rules.length then r.2 else m.ruleState j

theorem run_atSlot_spec {α : Type} (ruleId i : ℕ) (f : StateEntry N → SlotStep N α)
    (m : Machine N W) :
    ∃ x, (atSlot ruleId i f : EvalM N W α).run m = some x ∧
      StepsSlot ruleId (stepAt f i (m.ruleState ruleId)) (f (slotAt stateInit i)).result m x := by
  obtain ⟨hsource, hworld, hstates⟩ := stepped_spec m ruleId (stepAt f i (m.ruleState ruleId)).2
    (f (slotAt (m.ruleState ruleId) i)).suppressed
  refine ⟨_, run_atSlot ruleId i f m, hsource, hworld, ?_, hstates⟩
  by_cases hlt : ruleId < m.program.rules.length
  · rw [if_pos hlt]
  · rw [if_neg hlt, ruleState_of_missing (by omega)]
    rfl

theorem run_onSlot_spec {α : Type} (ctx : Ctx N W) (op : Bytes) (f : StateEntry N → SlotStep N α)
    (m : Machine N W) :
    ∃ x, (onSlot ctx op f).run m = some x ∧
      StepsSlot ctx.ruleId
        (slotStep ctx.alloc ⟨ctx.ruleId, op, ctx.subject⟩ f (m.ruleState ctx.ruleId))
        (missingResult ctx.alloc ⟨ctx.ruleId, op, ctx.subject⟩ f) m x := by
  rw [run_onSlot, slotStep, missingResult]
  cases hlookup : stateSlotIn ctx.alloc (m.ruleState ctx.ruleId) ⟨ctx.ruleId, op, ctx.subject⟩ with
  | mk st o =>
    have hset : (m.setState ctx.ruleId st).program.source = m.program.source :=
      source_modifyRule m ctx.ruleId fun _ => ⟨rfl, rfl, rfl⟩
    have hlength : (m.setState ctx.ruleId st).program.rules.length = m.program.rules.length := by
      rw [← length_source, hset, length_source]
    have hmissing : ¬ctx.ruleId < m.program.rules.length →
        stateSlotIn ctx.alloc stateInit ⟨ctx.ruleId, op, ctx.subject⟩ = (st, o) := by
      intro hlt
      rw [ruleState_of_missing (by omega)] at hlookup
      exact hlookup
    cases o with
    | none =>
      refine ⟨_, rfl, hset, rfl, ?_, fun j => ruleState_setState m ctx.ruleId j st⟩
      by_cases hlt : ctx.ruleId < m.program.rules.length
      · rw [if_pos hlt]
      · rw [if_neg hlt, hmissing hlt]
    | some i =>
      obtain ⟨x, hrun, hsource, hworld, hresult, hstates⟩ :=
        run_atSlot_spec ctx.ruleId i f (m.setState ctx.ruleId st)
      refine ⟨x, hrun, hsource.trans hset, hworld, ?_, fun j => ?_⟩
      · rw [hresult, hlength]
        by_cases hlt : ctx.ruleId < m.program.rules.length
        · rw [if_pos hlt, if_pos hlt, ruleState_setState, if_pos ⟨rfl, hlt⟩]
        · rw [if_neg hlt, if_neg hlt, hmissing hlt]
      · rw [hstates j, hlength, ruleState_setState, ruleState_setState]
        by_cases hlt : ctx.ruleId = j ∧ ctx.ruleId < m.program.rules.length
        · rw [if_pos hlt, if_pos hlt, if_pos ⟨rfl, hlt.2⟩]
        · rw [if_neg hlt, if_neg hlt, if_neg hlt]

/-! ## The tick of a slot -/

/-- What a tick does to its slot, a clock or not. -/
def tickEntry (A : EvalAlloc → Bool) (now : UInt64) (e : StateEntry N) :
    SlotStep N (Fired N ⊕ Option (StateEntry.BarClose N)) :=
  if e.kind = .clock then
    let r := tickClock A now e
    ⟨r.entry, r.suppressed, r.result.map .inl⟩
  else
    let r := tickWindow now e
    ⟨r.entry, r.suppressed, r.result.map .inr⟩

/-- What is left to do after it. -/
def finishTick (depth : ℕ) (ctx : Ctx N W) (slot : StateKey) :
    Fired N ⊕ Option (StateEntry.BarClose N) → EvalM N W (Value N)
  | .inl fired => runFired depth ctx slot fired
  | .inr close => emitBar ctx close

/-- What a clock that publishes does with its message. -/
theorem run_finishTick_publish (depth : ℕ) (ctx : Ctx N W) (slot : StateKey)
    (subject payload : Bytes) (m : Machine N W) :
    (finishTick depth ctx slot (.inl (.publish subject payload))).run m =
      (ctx.publish (.lent ⟨slot, .emitSubject, subject, subject⟩) (.lent ⟨slot, .bytes, payload, payload⟩) m).bind
        fun x => if x.1 then some (.ok .nil, x.2) else some (.error .publishFailed, x.2) := by
  have hlift : ∀ (c : MachineM N W Bool) (k : Bool → EvalM N W (Value N)),
      (do if ← c then k true else k false : EvalM N W (Value N)).run m =
        (c m).bind fun x => if x.1 then (k true).run x.2 else (k false).run x.2 := by
    intro c k
    rw [run_evalBind]
    change ((c m).bind fun x => some (Except.ok x.1, x.2)).bind _ = _
    rw [Option.bind_assoc]
    congr 1
    funext x
    obtain ⟨ok, m'⟩ := x
    cases ok <;> rfl
  exact hlift _ fun ok => if ok then pure .nil else throw .publishFailed

theorem run_tickStateEntry (depth : ℕ) (ctx : Ctx N W) (i : ℕ) (m : Machine N W) :
    (tickStateEntry depth ctx i).run m =
      (atSlot ctx.ruleId i (tickEntry ctx.alloc ctx.nowMs) >>=
        finishTick depth ctx (slotAt (m.ruleState ctx.ruleId) i).key).run m := by
  have hunfold : (tickStateEntry depth ctx i).run m =
      (if (slotAt (m.ruleState ctx.ruleId) i).kind = .clock then
        atSlot ctx.ruleId i (tickClock ctx.alloc ctx.nowMs) >>=
          runFired depth ctx (slotAt (m.ruleState ctx.ruleId) i).key
      else atSlot ctx.ruleId i (tickWindow ctx.nowMs) >>= emitBar ctx : EvalM N W (Value N)).run m := rfl
  rw [hunfold, run_evalBind, run_atSlot, stepAt]
  split_ifs with hclock
  · rw [run_evalBind, run_atSlot, stepAt, tickEntry, if_pos hclock]
    dsimp only
    generalize (tickClock ctx.alloc ctx.nowMs (slotAt (m.ruleState ctx.ruleId) i)).result = r
    cases r with
    | ok a => rfl
    | error e => rfl
  · rw [run_evalBind, run_atSlot, stepAt, tickEntry, if_neg hclock]
    dsimp only
    generalize (tickWindow ctx.nowMs (slotAt (m.ruleState ctx.ruleId) i)).result = r
    cases r with
    | ok a => rfl
    | error e => rfl

/-! ## Linked machines -/

/-- The sources, the states of the rules and the worlds are related. -/
structure Linked (Q : Program N → Program N → Prop)
    (S : ℕ → EvalState N → EvalState N → Prop) (V : W → W → Prop) (m m' : Machine N W) : Prop where
  source : Q m.program.source m'.program.source
  states : ∀ j, S j (m.ruleState j) (m'.ruleState j)
  world : V m.world m'.world

/-- Two steps on the state of a rule with the same result in related states. -/
def SameStep {α : Type} (S : EvalState N → EvalState N → Prop)
    (r r' : Except EvalError α × EvalState N) : Prop :=
  r.1 = r'.1 ∧ S r.2 r'.2

section Linked

variable {Q : Program N → Program N → Prop} {S : ℕ → EvalState N → EvalState N → Prop}
  {V : W → W → Prop}

omit [Number N] in
theorem Linked.modifyRule {m m' : Machine N W} (h : Linked Q S V m m') (i : ℕ)
    {f : Rule N → Rule N} (hf : KeepsRule f) (hstate : ∀ r, (f r).state = r.state) :
    Linked Q S V (m.modifyRule i f) (m'.modifyRule i f) := by
  refine ⟨?_, fun j => ?_, h.world⟩
  · rw [source_modifyRule m i hf, source_modifyRule m' i hf]
    exact h.source
  · rw [ruleState_modifyRule m i j hstate, ruleState_modifyRule m' i j hstate]
    exact h.states j

omit [Number N] in
theorem Linked.step {α : Type} {m m' : Machine N W} (h : Linked Q S V m m') {ruleId : ℕ}
    (hrule : ruleId < m.program.rules.length ↔ ruleId < m'.program.rules.length)
    {r r' : Except EvalError α × EvalState N} {missing : Except EvalError α}
    (hstep : SameStep (S ruleId) r r') {x x' : Except EvalError α × Machine N W}
    (hx : StepsSlot ruleId r missing m x) (hx' : StepsSlot ruleId r' missing m' x') :
    x.1 = x'.1 ∧ Linked Q S V x.2 x'.2 := by
  refine ⟨?_, ?_, fun j => ?_, ?_⟩
  · rw [hx.result, hx'.result]
    simp only [hrule, hstep.1]
  · rw [hx.source, hx'.source]
    exact h.source
  · rw [hx.states, hx'.states]
    by_cases hj : ruleId = j ∧ ruleId < m.program.rules.length
    · rw [if_pos hj, if_pos ⟨hj.1, hrule.mp hj.2⟩, ← hj.1]
      exact hstep.2
    · rw [if_neg hj, if_neg fun hj' => hj ⟨hj'.1, hrule.mpr hj'.2⟩]
      exact h.states j
  · rw [hx.world, hx'.world]
    exact h.world

/-- Related programs have the same positions for the rules in scope. -/
def SamePlaces (Q : Program N → Program N → Prop) (inScope : ℕ → Prop) : Prop :=
  ∀ {p p' : Program N}, Q p p' → ∀ j, inScope j → (j < p.rules.length ↔ j < p'.rules.length)

omit [Number N] in
theorem Linked.place {m m' : Machine N W} (h : Linked Q S V m m') {inScope : ℕ → Prop}
    (hQ : SamePlaces Q inScope) {j : ℕ} (hj : inScope j) :
    j < m.program.rules.length ↔ j < m'.program.rules.length := by
  have := hQ h.source j hj
  rwa [length_source, length_source] at this

theorem respects_onSlot_linked {inScope : ℕ → Prop} (hQ : SamePlaces Q inScope) {α : Type}
    {ctx : Ctx N W} (hctx : inScope ctx.ruleId) {op : Bytes} {f : StateEntry N → SlotStep N α}
    (hstep : ∀ st st', S ctx.ruleId st st' →
      SameStep (S ctx.ruleId) (slotStep ctx.alloc ⟨ctx.ruleId, op, ctx.subject⟩ f st)
        (slotStep ctx.alloc ⟨ctx.ruleId, op, ctx.subject⟩ f st')) :
    Respects (Linked Q S V) (onSlot ctx op f).run := by
  intro m m' h
  obtain ⟨⟨r, m₁⟩, hrun, hx⟩ := run_onSlot_spec ctx op f m
  obtain ⟨⟨r', m₁'⟩, hrun', hx'⟩ := run_onSlot_spec ctx op f m'
  obtain ⟨hresult, hlinked⟩ := h.step (h.place hQ hctx) (hstep _ _ (h.states ctx.ruleId)) hx hx'
  dsimp only at hresult hlinked
  rw [hrun, hrun', hresult]
  exact .some r' hlinked

theorem respects_atSlot_linked {inScope : ℕ → Prop} (hQ : SamePlaces Q inScope) {α : Type}
    {ruleId i : ℕ} (hrule : inScope ruleId) {f : StateEntry N → SlotStep N α}
    (hstep : ∀ st st', S ruleId st st' → SameStep (S ruleId) (stepAt f i st) (stepAt f i st')) :
    Respects (Linked Q S V) (atSlot ruleId i f : EvalM N W α).run := by
  intro m m' h
  obtain ⟨⟨r, m₁⟩, hrun, hx⟩ := run_atSlot_spec ruleId i f m
  obtain ⟨⟨r', m₁'⟩, hrun', hx'⟩ := run_atSlot_spec ruleId i f m'
  obtain ⟨hresult, hlinked⟩ := h.step (h.place hQ hrule) (hstep _ _ (h.states ruleId)) hx hx'
  dsimp only at hresult hlinked
  rw [hrun, hrun', hresult]
  exact .some r' hlinked

/-- The conditions on the relation of states for the evaluations in scope. -/
structure LinkOk (env : Env N W) (scope : ℕ → Bytes → UInt64 → Prop)
    (Q : Program N → Program N → Prop) (S : ℕ → EvalState N → EvalState N → Prop)
    (V : W → W → Prop) : Prop where
  places : SamePlaces Q fun j => ∃ s now, scope j s now
  slots : ∀ {j : ℕ} {s : Bytes} {now : UInt64}, scope j s now → ∀ {α : Type} {op : Bytes}
    {f : StateEntry N → SlotStep N α}, SlotForm env.alloc now op f → ∀ st st', S j st st' →
      SameStep (S j) (slotStep env.alloc ⟨j, op, s⟩ f st) (slotStep env.alloc ⟨j, op, s⟩ f st')
  route : ∀ (subject payload : Bytes) {w w' : W}, V w w' →
    (env.route w subject payload).2 = (env.route w' subject payload).2 ∧
      V (env.route w subject payload).1 (env.route w' subject payload).1

variable {env : Env N W} {scope : ℕ → Bytes → UInt64 → Prop}

theorem LinkOk.evalCompatible (h : LinkOk env scope Q S V) :
    EvalCompatible env scope (Linked Q S V) where
  onSlot := by
    intro α ctx op f halloc hscope hform
    refine respects_onSlot_linked h.places ⟨ctx.subject, ctx.nowMs, hscope⟩ ?_
    rw [halloc]
    exact h.slots hscope hform
  suppressed ruleId := by
    intro m m' hm
    exact .some (Except.ok ()) (hm.modifyRule ruleId (fun _ => ⟨rfl, rfl, rfl⟩) fun _ => rfl)
  emitted ruleId := fun hm => hm.modifyRule ruleId (fun _ => ⟨rfl, rfl, rfl⟩) fun _ => rfl
  route subject payload := by
    intro m m' hm
    obtain ⟨hok, hworld⟩ := h.route subject payload hm.world
    exact ⟨hok, hm.source, hm.states, hworld⟩

/-! ## Ticks of linked machines -/

omit [Number N] in
theorem agree_succeeds {R : Machine N W → Machine N W → Prop} {α : Type} {c c' : EvalM N W α}
    {m m' : Machine N W} (h : Agree R (c.run m) (c'.run m')) :
    Agree R (succeeds c m) (succeeds c' m') := by
  change Agree R ((c.run m).bind fun x => _) ((c'.run m').bind fun x => _)
  generalize c.run m = x at h ⊢
  generalize c'.run m' = y at h ⊢
  cases h with
  | none => exact .none
  | some r h =>
    cases r with
    | ok a => exact .some true h
    | error e => exact .some false h

theorem respects_finishTick {R : Machine N W → Machine N W → Prop}
    (hR : EvalCompatible env scope R) {ctx : Ctx N W} (hctx : CtxOk env scope R ctx) (depth : ℕ)
    {slot : StateKey} (hlends : Lends R slot)
    (a : Fired N ⊕ Option (StateEntry.BarClose N)) :
    Respects R (finishTick depth ctx slot a).run := by
  cases a with
  | inl fired => exact respects_runFired hR hctx depth hlends fired
  | inr close => exact respects_emitBar hctx close

/-- Ticks of two slots that take the same step. -/
theorem Linked.tickSlot {m m' : Machine N W} (h : Linked Q S V m m') (ctx : Ctx N W)
    (hrule : ctx.ruleId < m.program.rules.length ↔ ctx.ruleId < m'.program.rules.length)
    {i i' depth : ℕ}
    (hstep : SameStep (S ctx.ruleId)
      (stepAt (tickEntry ctx.alloc ctx.nowMs) i (m.ruleState ctx.ruleId))
      (stepAt (tickEntry ctx.alloc ctx.nowMs) i' (m'.ruleState ctx.ruleId)))
    {slot : StateKey} (hkey : (slotAt (m.ruleState ctx.ruleId) i).key = slot)
    (hkey' : (slotAt (m'.ruleState ctx.ruleId) i').key = slot)
    (hfinish : ∀ a, Respects (Linked Q S V) (finishTick depth ctx slot a).run) :
    Agree (Linked Q S V) ((tickStateEntry depth ctx i).run m)
      ((tickStateEntry depth ctx i').run m') := by
  rw [run_tickStateEntry, run_tickStateEntry, hkey, hkey', run_evalBind, run_evalBind]
  obtain ⟨⟨r, m₁⟩, hrun, hx⟩ := run_atSlot_spec ctx.ruleId i (tickEntry ctx.alloc ctx.nowMs) m
  obtain ⟨⟨r', m₁'⟩, hrun', hx'⟩ := run_atSlot_spec ctx.ruleId i' (tickEntry ctx.alloc ctx.nowMs) m'
  obtain ⟨hresult, hlinked⟩ := h.step hrule hstep hx hx'
  dsimp only at hresult hlinked
  rw [hrun, hrun', hresult]
  cases r' with
  | ok a => exact hfinish a m₁ m₁' hlinked
  | error e => exact .some (Except.error e) hlinked

/-- What the tick of a slot leads to, from what it leads to for the slot alone. -/
theorem tickSlot_self_of {R : Machine N W → Machine N W → Prop} (ctx : Ctx N W) {i depth : ℕ}
    {m m₁ : Machine N W}
    (hstart : ∀ x, StepsSlot ctx.ruleId
      (stepAt (tickEntry ctx.alloc ctx.nowMs) i (m.ruleState ctx.ruleId))
      (tickEntry ctx.alloc ctx.nowMs (slotAt stateInit i)).result m x → R x.2 x.2)
    (hfinish : ∀ a,
      Respects R (finishTick depth ctx (slotAt (m.ruleState ctx.ruleId) i).key a).run) {ok : Bool}
    (hrun : succeeds (tickStateEntry depth ctx i) m = some (ok, m₁)) : R m₁ m₁ := by
  obtain ⟨⟨r, m₂⟩, hslot, hx⟩ := run_atSlot_spec ctx.ruleId i (tickEntry ctx.alloc ctx.nowMs) m
  have hm₂ : R m₂ m₂ := hstart _ hx
  have hagree : Agree R ((tickStateEntry depth ctx i).run m) ((tickStateEntry depth ctx i).run m) := by
    rw [run_tickStateEntry, run_evalBind, hslot]
    cases r with
    | ok a => exact hfinish a m₂ m₂ hm₂
    | error e => exact .some (Except.error e) hm₂
  exact (agree_succeeds hagree).ends hrun hrun

theorem Linked.tickSlot_self {m m₁ : Machine N W} (h : Linked Q S V m m) (ctx : Ctx N W)
    {i depth : ℕ}
    (hstep : SameStep (S ctx.ruleId)
      (stepAt (tickEntry ctx.alloc ctx.nowMs) i (m.ruleState ctx.ruleId))
      (stepAt (tickEntry ctx.alloc ctx.nowMs) i (m.ruleState ctx.ruleId)))
    (hfinish : ∀ a,
      Respects (Linked Q S V) (finishTick depth ctx (slotAt (m.ruleState ctx.ruleId) i).key a).run)
    {ok : Bool}
    (hrun : succeeds (tickStateEntry depth ctx i) m = some (ok, m₁)) : Linked Q S V m₁ m₁ :=
  tickSlot_self_of ctx (fun _ hx => (h.step Iff.rfl hstep hx hx).2) hfinish hrun

/-! ## Whole runs of linked machines -/

/-- The fold over the slots sees their deadlines only. -/
def earlierDeadline (best : Option UInt64) : Option UInt64 → Option UInt64
  | none => best
  | some d =>
    match best with
    | none => some d
    | some b => some (if d < b then d else b)

omit [Number N] in
theorem foldl_earlier (l : List (StateEntry N)) (best : Option UInt64) :
    l.foldl earlier best = (l.map entryDeadline).foldl earlierDeadline best := by
  have hstep : ∀ (best : Option UInt64) (e : StateEntry N),
      earlier best e = earlierDeadline best (entryDeadline e) := by
    intro best e
    unfold earlier earlierDeadline
    cases entryDeadline e with
    | none => rfl
    | some d => cases best <;> rfl
  rw [List.foldl_map]
  congr 1
  funext best e
  exact hstep best e

omit [Number N] in
/-- The slots of a program, rule by rule. -/
theorem slots_eq_ruleStates (m : Machine N W) :
    (m.program.rules.flatMap fun r => r.state.items) =
      (List.range m.program.rules.length).flatMap fun j => (m.ruleState j).items := by
  have hstates : (m.program.rules.map fun r => r.state.items) =
      (List.range m.program.rules.length).map fun j => (m.ruleState j).items := by
    apply List.ext_getElem
    · simp
    · intro j hj hj'
      have hlt : j < m.program.rules.length := by simpa using hj
      simp [Machine.ruleState, List.getElem?_eq_getElem hlt]
  rw [List.flatMap_def, List.flatMap_def, hstates]

/-- What a tick asks of the relation of states, beyond what a message does. -/
structure TickOk (env : Env N W) (S : ℕ → EvalState N → EvalState N → Prop) : Prop where
  clock : ∀ (j i : ℕ) (now : UInt64) {st st' : EvalState N}, S j st st' →
    SameStep (S j) (stepAt (tickClock env.alloc now) i st) (stepAt (tickClock env.alloc now) i st')
  window : ∀ (j i : ℕ) (now : UInt64) {st st' : EvalState N}, S j st st' →
    SameStep (S j) (stepAt (tickWindow now) i st) (stepAt (tickWindow now) i st')
  slots : ∀ (j : ℕ) {st st' : EvalState N}, S j st st' →
    (st.items.map fun e => (e.kind, e.key)) = st'.items.map fun e => (e.kind, e.key)
  deadlines : ∀ (j : ℕ) {st st' : EvalState N}, S j st st' →
    st.items.map entryDeadline = st'.items.map entryDeadline

/-- Linked machines are next due at the same time. -/
theorem TickOk.deadline (ht : TickOk env S) {m m' : Machine N W}
    (hm : Linked (fun p p' => p = p') S V m m') :
    nextClockDeadline m.program = nextClockDeadline m'.program := by
  have hsource := sameSource_iff.mpr hm.source
  have hlength : m.program.rules.length = m'.program.rules.length := by
    rw [← length_source, hm.source, length_source]
  unfold nextClockDeadline
  rw [foldl_earlier, foldl_earlier, hsource.clock, slots_eq_ruleStates, slots_eq_ruleStates, hlength,
    List.map_flatMap, List.map_flatMap]
  simp only [fun j => ht.deadlines j (hm.states j)]

theorem LinkOk.compatible (h : LinkOk env (fun _ _ _ => True) (fun p p' => p = p') S V)
    (ht : TickOk env S) (hsame : ∀ {j : ℕ} {st st' : EvalState N}, S j st st' → st = st') :
    Compatible env (Linked (fun p p' => p = p') S V) where
  toEvalCompatible := h.evalCompatible
  tickClock j i now := respects_atSlot_linked h.places ⟨[], 0, trivial⟩ fun _ _ => ht.clock j i now
  tickWindow j i now := respects_atSlot_linked h.places ⟨[], 0, trivial⟩ fun _ _ => ht.window j i now
  source hm := sameSource_iff.mpr hm.source
  slots j _ _ hm := ht.slots j (hm.states j)
  lends _ _ _ _ _ _ := lends_of_states (fun hm j => hsame (hm.states j)) _
  deadline := ht.deadline

end Linked

end Steps

end Monoblok.Patchbay
