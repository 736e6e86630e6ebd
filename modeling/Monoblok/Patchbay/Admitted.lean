import Monoblok.Patchbay.Disciplined
import Monoblok.Snapshot.Reachable

/-!
# Runs of a program under a discipline

A program run by another evaluator, and the machines a program reaches, whatever
memory there is. While the bodies of the rules may be evaluated, every reachable
machine keeps to the discipline.
-/

namespace Monoblok.Patchbay

open Number Coinciding

variable {N W : Type} [Number N]

/-! ## Runs by another evaluator -/

section With

variable (ev : Ctx N W → Value N → EvalM N W (Value N)) (env : Env N W) (t : Moment)

def ruleWith (again : Slice → Slice → MachineM N W Bool) (subject payload : Slice) (i : ℕ) :
    MachineM N W Bool := do
  let m ← get
  m.program.rules[i]?.elim (pure true) fun rule =>
    if !subjectMatches rule.filter (m.read env.rewritten subject) then pure true
    else succeeds (ev (ruleCtx env t again i rule.reentrant subject payload) rule.body)

def rulesWith (again : Slice → Slice → MachineM N W Bool) (subject payload : Slice) :
    List ℕ → MachineM N W Bool
  | [] => pure true
  | i :: is => do
    let a ← ruleWith ev env t again subject payload i
    let b ← rulesWith again subject payload is
    pure (a && b)

def rulesForWith (again : Slice → Slice → MachineM N W Bool) (subject payload : Slice) :
    MachineM N W Bool := do
  let m ← get
  rulesWith ev env t again subject payload (ruleOrder m.program (m.read env.rewritten subject))

def slicesWith : ℕ → Slice → Slice → MachineM N W Bool
  | 0 => rulesForWith ev env t fun _ _ => pure true
  | left + 1 => rulesForWith ev env t (slicesWith left)

def publishWith (subject payload : Bytes) : MachineM N W Bool :=
  slicesWith ev env t maxReentryDepth (.held subject) (.held payload)

def firedWith (ctx : Ctx N W) (slot : StateKey) : Fired N → EvalM N W (Value N)
  | .nothing => pure .nil
  | .body payload forms =>
    evalDo ev { ctx with payloadAt := .lent ⟨slot, .bytes, payload, payload⟩ } forms
  | .form f => ev ctx f
  | .publish subject payload => do
    if ← ctx.publish (.lent ⟨slot, .emitSubject, subject, subject⟩) (.lent ⟨slot, .bytes, payload, payload⟩) then
      pure .nil
    else throw .publishFailed

def tickEntryWith (ctx : Ctx N W) (i : ℕ) : EvalM N W (Value N) := do
  let m ← get
  let e := slotAt (m.ruleState ctx.ruleId) i
  if e.kind = .clock then
    let fired ← atSlot ctx.ruleId i (tickClock ctx.alloc ctx.nowMs)
    firedWith ev ctx e.key fired
  else
    let close ← atSlot ctx.ruleId i (tickWindow ctx.nowMs)
    emitBar ctx close

def tickCtxWith (i : ℕ) (reentrant : Bool) (subject : Bytes) : Ctx N W :=
  ruleCtx env t (slicesWith ev env t (maxReentryDepth - 1)) i reentrant (.held subject) (.held [])

def tickSlotsWith (ruleIdx : ℕ) (reentrant : Bool) : ℕ → ℕ → MachineM N W Bool
  | 0, _ => fun _ => none
  | fuel + 1, i => do
    let m ← get
    if i < (m.ruleState ruleIdx).items.length then
      let subject := (slotAt (m.ruleState ruleIdx) i).subject
      let a ← succeeds (tickEntryWith ev (tickCtxWith ev env t ruleIdx reentrant subject) i)
      let b ← tickSlotsWith ruleIdx reentrant fuel (i + 1)
      pure (a && b)
    else pure true

def tickRulesWith : List (ℕ × Bool) → MachineM N W Bool
  | [] => pure true
  | r :: rs => do
    let a ← tickSlotsWith ev env t r.1 r.2 env.fuel 0
    let b ← tickRulesWith rs
    pure (a && b)

def tickWith : MachineM N W Bool := do
  let m ← get
  tickRulesWith ev env t (m.program.rules.zipIdx.map fun r => (r.2, r.1.reentrant))

end With

def tickUntilLoopWith (ev : Ctx N W → Value N → EvalM N W (Value N)) (env : Env N W) (t : Moment) :
    ℕ → MachineM N W Bool
  | 0 => fun _ => none
  | fuel + 1 => do
    let m ← get
    (nextClockDeadline m.program).elim (pure true) fun deadline =>
      if deadline ≤ t.nowMs then do
        let a ← tickWith ev env (tickMoment t deadline)
        let b ← tickUntilLoopWith ev env t fuel
        pure (a && b)
      else pure true

def tickUntilWith (ev : Ctx N W → Value N → EvalM N W (Value N)) (env : Env N W) (t : Moment) :
    MachineM N W Bool :=
  tickUntilLoopWith ev env t env.fuel

/-! ## The evaluator itself -/

section Itself

variable (env : Env N W) (t : Moment)

theorem rulesWith_eval (again : Slice → Slice → MachineM N W Bool) (subject payload : Slice)
    (is : List ℕ) :
    rulesWith (eval env.fuel) env t again subject payload is =
      evalRules env t again subject payload is := by
  have hrule : ∀ i, ruleWith (eval env.fuel) env t again subject payload i =
      evalRuleForPublish env t again subject payload i := by
    intro i
    unfold ruleWith evalRuleForPublish
    congr 1
    funext m
    cases m.program.rules[i]? with
    | none => rfl
    | some rule => rfl
  induction is with
  | nil => rfl
  | cons i is ih => simp only [rulesWith, evalRules, hrule, ih]

theorem slicesWith_eval (left : ℕ) :
    slicesWith (eval env.fuel) env t left = evalPublishSlices env t left := by
  have hfor : ∀ again, rulesForWith (eval env.fuel) env t again = evalRulesFor env t again := by
    intro again
    funext subject payload
    simp only [rulesForWith, evalRulesFor, rulesWith_eval]
  induction left with
  | zero => simp only [slicesWith, evalPublishSlices, hfor]
  | succ left ih => simp only [slicesWith, evalPublishSlices, hfor, ih]

theorem publishWith_eval (subject payload : Bytes) :
    publishWith (eval env.fuel) env t subject payload = evalPublish env t subject payload := by
  rw [publishWith, slicesWith_eval, evalPublish]

theorem tickSlotsWith_eval (ruleIdx : ℕ) (reentrant : Bool) (fuel i : ℕ) :
    tickSlotsWith (eval env.fuel) env t ruleIdx reentrant fuel i =
      tickSlots env t ruleIdx reentrant fuel i := by
  have hfired : ∀ ctx slot,
      firedWith (N := N) (W := W) (eval env.fuel) ctx slot = runFired env.fuel ctx slot := by
    intro ctx slot
    funext fired
    cases fired <;> rfl
  have hentry : ∀ ctx i,
      tickEntryWith (N := N) (W := W) (eval env.fuel) ctx i = tickStateEntry env.fuel ctx i := by
    intro ctx i
    simp only [tickEntryWith, tickStateEntry, hfired]
  have hctx : ∀ subject, tickCtxWith (eval env.fuel) env t ruleIdx reentrant subject =
      tickCtx env t ruleIdx reentrant subject := by
    intro subject
    rw [tickCtxWith, slicesWith_eval, tickCtx]
  induction fuel generalizing i with
  | zero => rfl
  | succ fuel ih => simp only [tickSlotsWith, tickSlots, hentry, hctx, ih]

theorem tickWith_eval : tickWith (eval env.fuel) env t = tick env t := by
  have hrules : ∀ rs, tickRulesWith (eval env.fuel) env t rs = tickRules env t rs := by
    intro rs
    induction rs with
    | nil => rfl
    | cons r rs ih => simp only [tickRulesWith, tickRules, tickSlotsWith_eval, ih]
  simp only [tickWith, tick, hrules]

theorem tickUntilWith_eval : tickUntilWith (eval env.fuel) env t = tickUntil env t := by
  have hloop : ∀ fuel, tickUntilLoopWith (eval env.fuel) env t fuel = tickUntilLoop env t fuel := by
    intro fuel
    induction fuel with
    | zero => rfl
    | succ fuel ih =>
      unfold tickUntilLoopWith tickUntilLoop
      congr 1
      funext m
      cases nextClockDeadline m.program with
      | none => rfl
      | some deadline => simp only [Option.elim, tickWith_eval, ih]
  exact hloop env.fuel

end Itself

/-! ## Both evaluators do the same -/

section Same

variable {I : Machine N W → Prop} {D : List (Value N) → Prop} {T : Value N → Prop} {p : Program N}
  {env : Env N W} {ev ev' : Ctx N W → Value N → EvalM N W (Value N)}

/-- The bodies of the rules may be evaluated. -/
def Bodies (T : Value N → Prop) (p : Program N) : Prop := ∀ r ∈ p.rules, T r.body

/-- What a run asks of an invariant, besides the evaluations; `p` is the program at the
beginning, and of `D` is what the clocks fire. -/
structure SameSteps (I : Machine N W → Prop) (D : List (Value N) → Prop) (p : Program N) :
    Prop where
  source : ∀ {m}, I m → m.program.source = p.source
  world : ∀ {m : Machine N W} (w : W), I m → I { m with world := w }
  emitted : ∀ {m : Machine N W} (i : ℕ), I m →
    I (m.modifyRule i fun r => { r with publishesEmitted := r.publishesEmitted + 1 })
  tickClock : ∀ (A : EvalAlloc → Bool) (now : UInt64) (i j : ℕ),
    CoincideRun I (Fired.Within D) (atSlot i j (tickClock A now) : EvalM N W (Fired N))
      (atSlot i j (tickClock A now))
  tickWindow : ∀ (now : UInt64) (i j : ℕ),
    CoincideRun I (fun _ => True)
      (atSlot i j (tickWindow now) : EvalM N W (Option (StateEntry.BarClose N)))
      (atSlot i j (tickWindow now))

omit [Number N] in
theorem Bodies.of_source (h : Bodies T p) {m : Machine N W}
    (hm : m.program.source = p.source) {i : ℕ} {rule : Rule N}
    (hrule : m.program.rules[i]? = some rule) : T rule.body := by
  have hsame := (sameSource_iff.mpr hm).getElem? i
  rw [hrule] at hsame
  generalize hq : p.rules[i]? = q at hsame
  cases hsame with
  | some hfilter hbody hreentrant =>
    rw [hbody]
    exact h _ (List.mem_of_getElem? hq)

omit [Number N] in
theorem coincide_succeeds {α : Type} {P : α → Prop} {x x' : EvalM N W α}
    (h : CoincideRun I P x x') : Coincide I (fun _ => True) (succeeds x) (succeeds x') := by
  apply Coincide.bind h
  intro r _
  cases r with
  | ok a => exact .pure trivial
  | error e => exact .pure trivial

variable (hI : SameSteps I D p)

include hI

theorem sameHooks_publishCb (env : Env N W) {again again' : Slice → Slice → MachineM N W Bool}
    (ha : SameHooks I again again') (i : ℕ) (reentrant : Bool) :
    SameHooks I (publishCb env again i reentrant) (publishCb env again' i reentrant) := by
  intro subject payload
  unfold publishCb
  apply Coincide.get_bind
  intro m hm
  cases publishSubjectValid (m.read env.rewritten subject) with
  | false => exact Coincide.pure (P := fun _ => True) trivial m hm
  | true =>
    generalize env.route m.world (m.read env.rewritten subject) (m.read env.rewritten payload) = x
    obtain ⟨w, ok⟩ := x
    have hworld := hI.world w hm
    cases ok with
    | false => exact Coincide.pure (P := fun _ => True) trivial _ hworld
    | true =>
      have hrest : Coincide I (fun _ : Bool => True)
          (do
            modify fun m : Machine N W =>
              m.modifyRule i fun r => { r with publishesEmitted := r.publishesEmitted + 1 }
            if reentrant then
              let _ ← again subject payload
              pure true
            else pure true)
          (do
            modify fun m : Machine N W =>
              m.modifyRule i fun r => { r with publishesEmitted := r.publishesEmitted + 1 }
            if reentrant then
              let _ ← again' subject payload
              pure true
            else pure true) := by
        apply Coincide.bind (.modify fun s hs => hI.emitted i hs)
        intro _ _
        split
        · exact .bind (ha subject payload) fun _ _ => .pure trivial
        · exact .pure trivial
      exact hrest _ hworld

variable (hev : SameRecs I T ev ev') (hbodies : Bodies T p) (t : Moment)

include hev hbodies

theorem coincide_rule {again again' : Slice → Slice → MachineM N W Bool}
    (ha : SameHooks I again again') (subject payload : Slice) (i : ℕ) :
    Coincide I (fun _ => True) (ruleWith ev env t again subject payload i)
      (ruleWith ev' env t again' subject payload i) := by
  apply Coincide.get_bind
  intro m hm
  cases hrule : m.program.rules[i]? with
  | none => exact Coincide.pure (P := fun _ => True) trivial m hm
  | some rule =>
    dsimp only [Option.elim]
    cases subjectMatches rule.filter (m.read env.rewritten subject) with
    | false => exact Coincide.pure (P := fun _ => True) trivial m hm
    | true =>
      have hbody := hev (ruleCtx env t again i rule.reentrant subject payload).toBindings _ _
        (sameHooks_publishCb hI env ha i rule.reentrant) rule.body
        (hbodies.of_source (hI.source hm) hrule)
      exact coincide_succeeds hbody m hm

theorem coincide_rules {again again' : Slice → Slice → MachineM N W Bool}
    (ha : SameHooks I again again') (subject payload : Slice) (is : List ℕ) :
    Coincide I (fun _ => True) (rulesWith ev env t again subject payload is)
      (rulesWith ev' env t again' subject payload is) := by
  induction is with
  | nil => exact .pure trivial
  | cons i is ih =>
    apply (coincide_rule hI hev hbodies t ha subject payload i).bind
    intro a _
    exact .bind ih fun b _ => .pure trivial

theorem sameHooks_rulesFor {again again' : Slice → Slice → MachineM N W Bool}
    (ha : SameHooks I again again') :
    SameHooks I (rulesForWith ev env t again) (rulesForWith ev' env t again') := by
  intro subject payload
  apply Coincide.get_bind
  intro m hm
  exact coincide_rules hI hev hbodies t ha subject payload _ m hm

theorem sameHooks_slices (left : ℕ) :
    SameHooks I (slicesWith ev env t left) (slicesWith ev' env t left) := by
  induction left with
  | zero => exact sameHooks_rulesFor hI hev hbodies t fun _ _ => .pure trivial
  | succ left ih => exact sameHooks_rulesFor hI hev hbodies t ih

theorem coincide_publish (subject payload : Bytes) :
    Coincide I (fun _ => True) (publishWith ev env t subject payload)
      (publishWith ev' env t subject payload) :=
  sameHooks_slices hI hev hbodies t maxReentryDepth (.held subject) (.held payload)

omit [Number N] hI hbodies in
theorem sameEvals_fired (hD : Discipline D T) {b : Bindings N}
    {publish publish' : Slice → Slice → MachineM N W Bool}
    (hpub : SameHooks I publish publish') (slot : StateKey) {fired : Fired N}
    (hfired : fired.Within D) :
    SameEvals I (firedWith ev ⟨b, publish⟩ slot fired) (firedWith ev' ⟨b, publish'⟩ slot fired) := by
  cases fired with
  | nothing => exact sameEvals_pure rfl
  | body payload forms =>
    have hparts := hev { b with payloadAt := .lent ⟨slot, .bytes, payload, payload⟩ } publish publish' hpub
    exact sameEvals_evalDo hparts (hD.deferred hfired)
  | form f =>
    obtain ⟨l, hl, hmem⟩ := hfired
    exact hev b publish publish' hpub f (hD.deferred hl f hmem)
  | publish subject payload =>
    apply (CoincideRun.lift (hpub _ _)).bind
    intro ok _
    cases ok with
    | false => exact sameEvals_throw _
    | true => exact sameEvals_pure rfl

omit hbodies in
theorem sameEvals_tickEntry (hD : Discipline D T) {b : Bindings N}
    {publish publish' : Slice → Slice → MachineM N W Bool}
    (hpub : SameHooks I publish publish') (i : ℕ) :
    SameEvals I (tickEntryWith ev ⟨b, publish⟩ i) (tickEntryWith ev' ⟨b, publish'⟩ i) := by
  have hclock : ∀ slot, SameEvals I
      (atSlot b.ruleId i (tickClock b.alloc b.nowMs) >>= firedWith ev ⟨b, publish⟩ slot)
      (atSlot b.ruleId i (tickClock b.alloc b.nowMs) >>= firedWith ev' ⟨b, publish'⟩ slot) := by
    intro slot
    apply (hI.tickClock b.alloc b.nowMs b.ruleId i).bind
    exact fun fired hfired => sameEvals_fired hev hD hpub slot hfired
  have hwindow : SameEvals I
      (atSlot b.ruleId i (tickWindow b.nowMs) >>= emitBar ⟨b, publish⟩)
      (atSlot b.ruleId i (tickWindow b.nowMs) >>= emitBar ⟨b, publish'⟩) := by
    apply (hI.tickWindow b.nowMs b.ruleId i).bind
    exact fun close _ => sameEvals_emitBar hpub close
  apply CoincideRun.observe (fun m : Machine N W => slotAt (m.ruleState b.ruleId) i)
    (f := fun e =>
      if e.kind = .clock then
        atSlot b.ruleId i (tickClock b.alloc b.nowMs) >>= firedWith ev ⟨b, publish⟩ e.key
      else atSlot b.ruleId i (tickWindow b.nowMs) >>= emitBar ⟨b, publish⟩)
    (g := fun e =>
      if e.kind = .clock then
        atSlot b.ruleId i (tickClock b.alloc b.nowMs) >>= firedWith ev' ⟨b, publish'⟩ e.key
      else atSlot b.ruleId i (tickWindow b.nowMs) >>= emitBar ⟨b, publish'⟩)
  intro e
  split
  · exact hclock e.key
  · exact hwindow

theorem coincide_tickSlots (hD : Discipline D T) (ruleIdx : ℕ) (reentrant : Bool) (fuel i : ℕ) :
    Coincide I (fun _ => True) (tickSlotsWith ev env t ruleIdx reentrant fuel i)
      (tickSlotsWith ev' env t ruleIdx reentrant fuel i) := by
  induction fuel generalizing i with
  | zero => exact .noResult
  | succ fuel ih =>
    apply Coincide.get_bind
    intro m hm
    have hslot : Coincide I (fun _ : Bool => True)
        (do
          let a ← succeeds (tickEntryWith ev
            (tickCtxWith ev env t ruleIdx reentrant (slotAt (m.ruleState ruleIdx) i).subject) i)
          let b ← tickSlotsWith ev env t ruleIdx reentrant fuel (i + 1)
          pure (a && b))
        (do
          let a ← succeeds (tickEntryWith ev'
            (tickCtxWith ev' env t ruleIdx reentrant (slotAt (m.ruleState ruleIdx) i).subject) i)
          let b ← tickSlotsWith ev' env t ruleIdx reentrant fuel (i + 1)
          pure (a && b)) := by
      have hslices : SameHooks I (slicesWith ev env t (maxReentryDepth - 1))
          (slicesWith ev' env t (maxReentryDepth - 1)) := sameHooks_slices hI hev hbodies t _
      have hhooks := sameHooks_publishCb hI env hslices ruleIdx reentrant
      apply (coincide_succeeds (sameEvals_tickEntry hI hev hD hhooks i)).bind
      intro a _
      exact .bind (ih (i + 1)) fun b _ => .pure trivial
    by_cases hlt : i < (m.ruleState ruleIdx).items.length
    · simp only [if_pos hlt]
      exact hslot m hm
    · have hnone := Coincide.pure (I := I) (P := fun _ => True) (a := true) trivial m hm
      simpa only [if_neg hlt] using hnone

theorem coincide_tickRules (hD : Discipline D T) (rs : List (ℕ × Bool)) :
    Coincide I (fun _ => True) (tickRulesWith ev env t rs) (tickRulesWith ev' env t rs) := by
  induction rs with
  | nil => exact .pure trivial
  | cons r rs ih =>
    apply (coincide_tickSlots hI hev hbodies t hD r.1 r.2 env.fuel 0).bind
    intro a _
    exact .bind ih fun b _ => .pure trivial

theorem coincide_tick (hD : Discipline D T) :
    Coincide I (fun _ => True) (tickWith ev env t) (tickWith ev' env t) := by
  apply Coincide.observe
    (fun m : Machine N W => m.program.rules.zipIdx.map fun r => (r.2, r.1.reentrant))
    (f := tickRulesWith ev env t) (g := tickRulesWith ev' env t)
  exact fun rs => coincide_tickRules hI hev hbodies t hD rs

theorem coincide_tickUntil (hD : Discipline D T) :
    Coincide I (fun _ => True) (tickUntilWith ev env t) (tickUntilWith ev' env t) := by
  have hloop : ∀ fuel, Coincide I (fun _ => True) (tickUntilLoopWith ev env t fuel)
      (tickUntilLoopWith ev' env t fuel) := by
    intro fuel
    induction fuel with
    | zero => exact .noResult
    | succ fuel ih =>
      apply Coincide.get_bind
      intro m hm
      cases nextClockDeadline m.program with
      | none => exact Coincide.pure (P := fun _ => True) trivial m hm
      | some deadline =>
        have htick := @coincide_tick _ _ _ _ _ _ _ env _ _ hI hev hbodies (tickMoment t deadline) hD
        have hround := htick.bind (Q := fun _ => True) fun a _ =>
          ih.bind fun b _ => .pure (a := a && b) trivial
        dsimp only [Option.elim]
        split
        · exact hround m hm
        · exact Coincide.pure (P := fun _ => True) trivial m hm
  exact hloop env.fuel

end Same

/-! ## The machines that keep to a discipline -/

section Keeping

variable {D : List (Value N) → Prop} {p : Program N}

/-- The programs with the source of this one. -/
abbrev OfProgram (p : Program N) : Program N → Prop := fun q => q = p.source

theorem sameSteps_keeping : SameSteps (W := W) (Keeping D (OfProgram p)) D p where
  source hm := hm.source
  world _ hm := ⟨hm.source, hm.slots⟩
  emitted i hm :=
    holds_modifyRule (fun m => keeping_iff) hm i (fun _ => ⟨rfl, rfl, rfl⟩) fun _ => rfl
  tickClock _ now i j := by
    apply coincide_atSlot (fun m => keeping_iff) deferred_fresh
    · exact fun e he => he.keep (keepsForms_tickClock now e)
    · exact fun e he fired hfired => within_tickClock now he hfired
  tickWindow now i j := by
    apply coincide_atSlot (fun m => keeping_iff) deferred_fresh
    · exact fun e he => he.keep (keepsForms_tickWindow now e)
    · exact fun _ _ _ _ => trivial

end Keeping

/-! ## Reachable machines -/

/-- The machines reached from a freshly loaded program, whatever memory there is. -/
inductive Reached (rules : List (RuleSource N)) (usesClock : Bool) : Machine N W → Prop
  | load (world : W) : Reached rules usesClock ⟨loadProgram rules usesClock, world⟩
  | world {m : Machine N W} (world : W) (h : Reached rules usesClock m) :
      Reached rules usesClock { m with world := world }
  | publish {m m' : Machine N W} (env : Env N W) (t : Moment) (subject payload : Bytes) {ok : Bool}
      (h : Reached rules usesClock m) (run : evalPublish env t subject payload m = some (ok, m')) :
      Reached rules usesClock m'
  | tick {m m' : Machine N W} (env : Env N W) (t : Moment) {ok : Bool}
      (h : Reached rules usesClock m) (run : tick env t m = some (ok, m')) :
      Reached rules usesClock m'
  | tickUntil {m m' : Machine N W} (env : Env N W) (t : Moment) {ok : Bool}
      (h : Reached rules usesClock m) (run : tickUntil env t m = some (ok, m')) :
      Reached rules usesClock m'
  | snapshot {m : Machine N W} {bytes : Bytes} {r : Router} {l : Snapshot.Loading N} {p : Program N}
      (h : Reached rules usesClock m)
      (load : Snapshot.snapshotLoad bytes r (some m.program) = some l)
      (program : l.program = some p) : Reached rules usesClock { m with program := p }

section Reached

variable {D : List (Value N) → Prop} {T : Value N → Prop}
  {rules : List (RuleSource N)} {usesClock : Bool} {m : Machine N W}

omit [Number N] in
theorem bodies_loadProgram (h : ∀ r ∈ rules, T r.body) :
    Bodies T (loadProgram rules usesClock) := by
  intro r hr
  obtain ⟨src, hsrc, rfl⟩ := List.mem_map.mp hr
  exact h src hsrc

theorem Reached.keeping (h : Reached rules usesClock m) (hD : Discipline D T)
    (hbodies : ∀ r ∈ rules, T r.body) : Keeping D (OfProgram (loadProgram rules usesClock)) m := by
  have hbodies := @bodies_loadProgram _ _ _ usesClock hbodies
  have hsteps := @sameSteps_keeping N W _ D (loadProgram rules usesClock)
  -- the evaluator itself, beside one that lets every expression through
  have hev : ∀ depth, SameRecs (W := W) (Keeping D (OfProgram (loadProgram rules usesClock))) T
      (eval depth) (guardedEval (fun _ => true) depth) := fun depth =>
    sameRecs_guardedEval hD (fun _ _ => rfl) depth
  induction h with
  | load world =>
    constructor
    · rfl
    · have hload : Snapshot.ProgramHas (Deferred D) (loadProgram rules usesClock) := by
        intro r hr
        obtain ⟨src, -, rfl⟩ := List.mem_map.mp hr
        exact fun e he => by cases he
      exact (@Snapshot.programHas_iff _ _ _ ⟨loadProgram rules usesClock, world⟩).mp hload
  | world world _ ih => exact ⟨ih.source, ih.slots⟩
  | publish env t subject payload _ run ih =>
    rw [← publishWith_eval] at run
    exact ((coincide_publish hsteps (hev env.fuel) hbodies t subject payload).left ih run).1
  | tick env t _ run ih =>
    rw [← tickWith_eval] at run
    exact ((coincide_tick hsteps (hev env.fuel) hbodies t hD).left ih run).1
  | tickUntil env t _ run ih =>
    rw [← tickUntilWith_eval] at run
    exact ((coincide_tickUntil hsteps (hev env.fuel) hbodies t hD).left ih run).1
  | @snapshot m bytes r l p _ load program ih =>
    constructor
    · exact (Snapshot.source_snapshotLoad load program).trans ih.source
    · have hload : Snapshot.ProgramHas (Deferred D) p :=
        Snapshot.programHas_snapshotLoad (fun k s _ => deferred_restore k s)
          (Snapshot.programHas_iff.mpr ih.slots) load program
      exact (@Snapshot.programHas_iff _ _ _ { m with program := p }).mp hload

/-- A property of slots that forms and ticks keep, and that restored slots have, holds in
every slot of a program. -/
theorem Reached.allSlots {P : StateEntry N → Prop} (h : Reached rules usesClock m)
    (hkept : ∀ A, Snapshot.SlotInvariant A P)
    (hrestore : ∀ k (s : Snapshot.Saved N), s.Loaded → P (Snapshot.restore (freshEntry k) s))
    (j : ℕ) : AllSlots P (m.ruleState j) := by
  induction h generalizing j with
  | load world =>
    have hload : Snapshot.ProgramHas P (loadProgram rules usesClock) := by
      intro r hr
      obtain ⟨src, -, rfl⟩ := List.mem_map.mp hr
      exact fun e he => by cases he
    exact (@Snapshot.programHas_iff _ _ P ⟨loadProgram rules usesClock, world⟩).mp hload j
  | world world _ ih => exact ih j
  | publish env t subject payload _ run ih =>
    have hrespects :=
      respects_evalPublish (Snapshot.compatible_withSlots (hkept env.alloc)) t subject payload
    exact ((hrespects.self (Snapshot.withSlots_self ih) run).states j).2
  | tick env t _ run ih =>
    have hrespects := respects_tick (Snapshot.compatible_withSlots (hkept env.alloc)) t
    exact ((hrespects.self (Snapshot.withSlots_self ih) run).states j).2
  | tickUntil env t _ run ih =>
    have hrespects := respects_tickUntil (Snapshot.compatible_withSlots (hkept env.alloc)) t
    exact ((hrespects.self (Snapshot.withSlots_self ih) run).states j).2
  | @snapshot m bytes r l p _ load program ih =>
    exact (@Snapshot.programHas_iff _ _ P { m with program := p }).mp
      (Snapshot.programHas_snapshotLoad hrestore (Snapshot.programHas_iff.mpr ih) load program) j

end Reached

end Monoblok.Patchbay
