import Monoblok.Lib.Coincide
import Monoblok.Patchbay.Deferred
import Monoblok.Patchbay.Lost
import Monoblok.Patchbay.Totality

/-!
# What an evaluation evaluates

A discipline names the expressions an evaluation may come to, from the body of a
rule on, and the forms a slot may store. While all slots keep to it, evaluations
keep to it, and an evaluator that refuses every other expression does the same.
-/

namespace Monoblok.Patchbay

open Number Coinciding

variable {N W : Type}

/-- The bodies and pairs of forms that may be stored, and the expressions that may
be evaluated. -/
structure Discipline (D : List (Value N) → Prop) (T : Value N → Prop) : Prop where
  deferred : ∀ {l}, D l → ∀ v ∈ l, T v
  evaluated : ∀ {v : Value N}, v.Evaluated → T v
  items : ∀ {vs}, T (.vector vs) → ∀ v ∈ vs, T v
  args : ∀ {head args}, T (.list (head :: args)) → ∀ v ∈ args, T v
  onSilence : ∀ {head k m b body}, T (.list (head :: k :: m :: b :: body)) →
    findForm head.text = some .onSilence → k.keywordEq "ms" = true → D (b :: body)
  dropout : ∀ {head k m kl lost kf found}, T (.list [head, k, m, kl, lost, kf, found]) →
    findForm head.text = some .dropout →
      (k.keywordEq "ms" && kl.keywordEq "lost" && kf.keywordEq "found") = true → D [lost, found]
  /-- The calls that the thread form puts together. -/
  symbolStep : ∀ {head v fs}, T (.list (head :: v :: fs)) → findForm head.text = some .thread →
    ∀ {name}, .symbol name ∈ fs → ∀ {x : Value N}, x.Evaluated → T (.list [.symbol name, x])
  listStep : ∀ {head v fs}, T (.list (head :: v :: fs)) → findForm head.text = some .thread →
    ∀ {name args}, .list (.symbol name :: args) ∈ fs → ∀ {x : Value N}, x.Evaluated →
      T (.list (.symbol name :: args ++ [x]))

section Machines

variable [Number N]

/-- A machine of some programs whose slots have stored nothing else. -/
structure Keeping (D : List (Value N) → Prop) (S : Program N → Prop) (m : Machine N W) : Prop where
  source : S m.program.source
  slots : ∀ j, AllSlots (Deferred D) (m.ruleState j)

variable {D : List (Value N) → Prop} {T : Value N → Prop} {S : Program N → Prop}

omit [Number N] in
theorem keeping_iff {m : Machine N W} :
    Keeping D S m ↔ S m.program.source ∧ ∀ j, AllSlots (Deferred D) (m.ruleState j) :=
  ⟨fun h => ⟨h.source, h.slots⟩, fun h => ⟨h.1, h.2⟩⟩

/-! ## Operations on slots -/

section Slots

variable {I : Machine N W → Prop} {H : StateEntry N → Prop} {α : Type} {P : α → Prop}
  {f : StateEntry N → SlotStep N α}
  (hI : ∀ m, I m ↔ S m.program.source ∧ ∀ j, AllSlots H (m.ruleState j))

include hI

omit [Number N] in
theorem holds_of_stepsSlot {i : ℕ} {r : Except EvalError α × EvalState N}
    {missing : Except EvalError α} {m : Machine N W} {x : Except EvalError α × Machine N W}
    (hsteps : StepsSlot i r missing m x) (h : I m) (hr : AllSlots H r.2) : I x.2 := by
  obtain ⟨hsource, hslots⟩ := (hI m).mp h
  apply (hI x.2).mpr
  constructor
  · exact hsteps.source ▸ hsource
  · intro j
    rw [hsteps.states]
    split_ifs
    · exact hr
    · exact hslots j

/-- A step on a slot of the rule of the evaluation, where all slots have a property. -/
theorem coincide_onSlot {b : Bindings N} {publish publish' : Slice → Slice → MachineM N W Bool}
    {op : Bytes} (hfresh : ∀ k, H (freshEntry k)) (hkeep : ∀ e, H e → H (f e).entry)
    (hresult : ∀ e, H e → ∀ a, (f e).result = .ok a → P a) :
    CoincideRun I P (onSlot ⟨b, publish⟩ op f) (onSlot ⟨b, publish'⟩ op f) := by
  intro m hm
  refine ⟨rfl, ?_⟩
  intro r m' hrun
  obtain ⟨x, hx, hsteps⟩ := run_onSlot_spec (⟨b, publish⟩ : Ctx N W) op f m
  obtain rfl : x = (r, m') := Option.some.inj (hx.symm.trans hrun)
  have hslots := ((hI m).mp hm).2 b.ruleId
  have hstep := hslots.slotStep b.alloc ⟨b.ruleId, op, b.subject⟩ (hfresh _) fun e _ he => hkeep e he
  refine ⟨holds_of_stepsSlot hI hsteps hm hstep, ?_⟩
  intro a ha
  have hok := hsteps.result
  dsimp only at hok
  rw [ha] at hok
  split_ifs at hok
  · obtain ⟨e, he, hres⟩ := hslots.slotStep_result b.alloc (hfresh _) hok.symm
    exact hresult e he a hres
  · -- the rule is not there
    unfold missingResult at hok
    cases hslot : (stateSlotIn (N := N) b.alloc stateInit ⟨b.ruleId, op, b.subject⟩).2 with
    | none => simp [hslot] at hok
    | some i =>
      simp only [hslot] at hok
      exact hresult _ (hfresh ⟨0, [], []⟩) a hok.symm

theorem coincide_atSlot {i j : ℕ} (hfresh : ∀ k, H (freshEntry k))
    (hkeep : ∀ e, H e → H (f e).entry) (hresult : ∀ e, H e → ∀ a, (f e).result = .ok a → P a) :
    CoincideRun I P (atSlot i j f : EvalM N W α) (atSlot i j f) := by
  intro m hm
  refine ⟨rfl, ?_⟩
  intro r m' hrun
  obtain ⟨x, hx, hsteps⟩ := run_atSlot_spec (W := W) i j f m
  obtain rfl : x = (r, m') := Option.some.inj (hx.symm.trans hrun)
  have hslots := ((hI m).mp hm).2 i
  refine ⟨holds_of_stepsSlot hI hsteps hm (hslots.stepAt hkeep j), ?_⟩
  intro a ha
  have hok := hsteps.result
  dsimp only at hok
  rw [ha] at hok
  have hslot : H (slotAt (m.ruleState i) j) := by
    unfold slotAt
    cases hget : (m.ruleState i).items[j]? with
    | none => exact hfresh ⟨0, [], []⟩
    | some e => exact hslots e (List.mem_of_getElem? hget)
  split_ifs at hok
  · exact hresult _ hslot a hok.symm
  · exact hresult _ (hfresh ⟨0, [], []⟩) a hok.symm

omit [Number N] in
/-- A change to the counts of a rule. -/
theorem holds_modifyRule {m : Machine N W} (h : I m) (i : ℕ) {f : Rule N → Rule N}
    (hf : KeepsRule f) (hstate : ∀ r, (f r).state = r.state) : I (m.modifyRule i f) := by
  obtain ⟨hsource, hslots⟩ := (hI m).mp h
  apply (hI _).mpr
  constructor
  · exact (source_modifyRule m i hf) ▸ hsource
  · intro j
    rw [ruleState_modifyRule m i j hstate]
    exact hslots j

omit [Number N] in
theorem coincide_noteSuppressed (i : ℕ) :
    CoincideRun (ε := EvalError) I (fun _ : Unit => True)
      (noteSuppressed i : EvalM N W Unit) (noteSuppressed i) := by
  intro m hm
  refine ⟨rfl, ?_⟩
  intro r m' hrun
  cases hrun
  exact ⟨holds_modifyRule hI hm i (fun _ => ⟨rfl, rfl, rfl⟩) fun _ => rfl, fun _ _ => trivial⟩

end Slots

omit [Number N] in
theorem coincide_liftResult {I : Machine N W → Prop} {α : Type} {P : α → Prop}
    {r : Except EvalError α} (h : ∀ a, r = .ok a → P a) :
    CoincideRun I P (liftResult r : EvalM N W α) (liftResult r) := by
  cases r with
  | ok a => exact .pure (h a rfl)
  | error e => exact .throw e

end Machines

/-! ## Forms -/

/-- The operation that a call with a window looks its slot up by; `extra` arguments stand
behind the window. -/
def windowSlotOp [Number N] (op : String) (extra : ℕ) (args : List (Value N)) : Option Bytes :=
  match parseWindow args with
  | some (w, rest) => if rest.length = extra then some (windowOp op w) else none
  | none => none

/-- The operation that a call looks its slot up by, if it comes to a slot at all. -/
def slotOp [Number N] (form : Form) (args : List (Value N)) : Option Bytes :=
  match form with
  | .squelch => some (lit "squelch")
  | .deadband => some (lit "deadband")
  | .changed => some (lit "changed?")
  | .holdOff => some (lit "hold-off")
  | .risingEdge => some (lit "rising-edge")
  | .fallingEdge => some (lit "falling-edge")
  | .delta => some (lit "delta")
  | .count => some (lit "count")
  | .movingAvg => windowSlotOp "moving-avg" 1 args
  | .movingSum => windowSlotOp "moving-sum" 1 args
  | .movingMax => windowSlotOp "moving-max" 1 args
  | .movingMin => windowSlotOp "moving-min" 1 args
  | .stddev => windowSlotOp "stddev" 1 args
  | .variance => windowSlotOp "variance" 1 args
  | .median => windowSlotOp "median" 1 args
  | .percentile => windowSlotOp "percentile" 2 args
  | .throttle => windowSlotOp "throttle" 2 args
  | .rate =>
    match args with
    | [k, _, _] => if k.keywordEq "ms" then some (lit "rate/m") else none
    | _ => none
  | .bar =>
    match barArgs args with
    | .ok (timeWindow, _) => some (lit (if timeWindow then "bar/m" else "bar/t"))
    | .error _ => none
  | .debounce => if args.length = 4 then some (lit "debounce") else none
  | .sample => if args.length = 4 then some (lit "sample") else none
  | .aggregate => if args.length = 5 then some (lit "aggregate") else none
  | _ => none

theorem windowOp_rate (ms : UInt64) : windowOp "rate" ⟨true, 0, ms⟩ = lit "rate/m" := by
  simp only [windowOp, if_true]
  decide

theorem percentileArg_length [Number N] {median : Bool} {args : List (Value N)} {p : N}
    {v : Value N} (h : percentileArg median args = .ok (p, [v])) :
    args.length = if median then 1 else 2 := by
  cases median with
  | true =>
    cases h
    rfl
  | false =>
    unfold percentileArg at h
    cases args with
    | nil => cases h
    | cons a rest =>
      simp only [Bool.false_eq_true, if_false] at h ⊢
      split at h
      · cases h
      · split_ifs at h
        cases h
        rfl

section Forms

variable [Number N] {I : Machine N W → Prop} {D : List (Value N) → Prop} {O : Bytes → Prop}
  {b : Bindings N} {publish publish' : Slice → Slice → MachineM N W Bool}

/-- Two publish hooks do the same. -/
def SameHooks (I : Machine N W → Prop) (publish publish' : Slice → Slice → MachineM N W Bool) :
    Prop :=
  ∀ subject payload, Coincide I (fun _ => True) (publish subject payload) (publish' subject payload)

/-- Two evaluations do the same and give an evaluated value. -/
abbrev SameEvals (I : Machine N W → Prop) (x x' : EvalM N W (Value N)) : Prop :=
  CoincideRun I Value.Evaluated x x'

/-- With both hooks the forms do the same on their slots. Of `O` are the operations of the
forms that store nothing, of `D` what the others store. -/
structure SameSlots (I : Machine N W → Prop) (D : List (Value N) → Prop) (O : Bytes → Prop)
    (b : Bindings N) (publish publish' : Slice → Slice → MachineM N W Bool) : Prop where
  form : ∀ {op : Bytes} {α : Type} {f : StateEntry N → SlotStep N α} {P : α → Prop},
    SlotForm b.alloc b.nowMs op f → O op → (∀ e a, (f e).result = .ok a → P a) →
      CoincideRun I P (onSlot ⟨b, publish⟩ op f : EvalM N W α) (onSlot ⟨b, publish'⟩ op f)
  onSilence : ∀ {ms : N} {body : List (Value N)}, wholeFromOne ms = true → D body →
    SameEvals I
      (onSlot ⟨b, publish⟩ (lit "on-silence")
        (onSilenceArm b.alloc (toU64 ms) b.nowMs b.payload body))
      (onSlot ⟨b, publish'⟩ (lit "on-silence")
        (onSilenceArm b.alloc (toU64 ms) b.nowMs b.payload body))
  dropout : ∀ {ms : N} {lost found : Value N}, wholeFromOne ms = true → D [lost, found] →
    CoincideRun I (fun f : Option (Value N) => ∀ v, f = some v → ∃ l, D l ∧ v ∈ l)
      (onSlot ⟨b, publish⟩ (lit "dropout") (dropoutArm (toU64 ms) b.nowMs lost found) :
        EvalM N W (Option (Value N)))
      (onSlot ⟨b, publish'⟩ (lit "dropout") (dropoutArm (toU64 ms) b.nowMs lost found))
  suppressed : CoincideRun I (fun _ => True) (noteSuppressed b.ruleId : EvalM N W Unit)
    (noteSuppressed b.ruleId)

/-- The same whatever the subject and the payload read. -/
def SlotsAlike (I : Machine N W → Prop) (D : List (Value N) → Prop) (O : Bytes → Prop)
    (b : Bindings N) (publish publish' : Slice → Slice → MachineM N W Bool) : Prop :=
  ∀ s pl, SameSlots I D O { b with subject := s, payload := pl } publish publish'

omit [Number N] in
theorem sameEvals_throw (e : EvalError) :
    SameEvals I (throw e : EvalM N W (Value N)) (throw e) := .throw e

omit [Number N] in
theorem sameEvals_pure {v : Value N} (hv : v.Evaluated) :
    SameEvals I (pure v : EvalM N W (Value N)) (pure v) := .pure hv

omit [Number N] in
/-- What is done with what the slices read, whatever that is. -/
theorem coincide_afresh {α : Type} {P : α → Prop} {f f' : Ctx N W → EvalM N W α}
    (hf : ∀ s pl, CoincideRun I P (f ⟨{ b with subject := s, payload := pl }, publish⟩)
      (f' ⟨{ b with subject := s, payload := pl }, publish'⟩)) :
    CoincideRun I P (afresh ⟨b, publish⟩ f) (afresh ⟨b, publish'⟩ f') :=
  fun m hm => hf (m.read b.rewritten b.subjectAt) (m.read b.rewritten b.payloadAt) m hm

omit [Number N] in
theorem sameEvals_publishEach (hpub : SameHooks I publish publish') (rs : List (LateRequest N)) :
    SameEvals I (publishEach ⟨b, publish⟩ rs) (publishEach ⟨b, publish'⟩ rs) := by
  induction rs with
  | nil => exact sameEvals_pure rfl
  | cons r rs ih =>
    apply coincide_afresh
    intro s pl
    dsimp only
    cases r { b with subject := s, payload := pl } with
    | error e => exact sameEvals_throw e
    | ok message =>
      cases message with
      | none => exact ih
      | some message =>
        have hpublished : ∀ subject payload, SameEvals I
            (do if ← publish subject payload then publishEach ⟨b, publish⟩ rs else throw .publishFailed)
            (do if ← publish' subject payload then publishEach ⟨b, publish'⟩ rs
                else throw .publishFailed) := by
          intro subject payload
          apply (CoincideRun.lift (hpub subject payload)).bind
          intro ok _
          cases ok with
          | false => exact sameEvals_throw _
          | true => exact ih
        intro m hm
        exact hpublished (m.handOn _ message.1 (b.drawn message.1 message.2).1)
          (m.handOn _ message.2 (b.drawn message.1 message.2).2) m hm

theorem sameEvals_emitBar (hpub : SameHooks I publish publish')
    (close : Option (StateEntry.BarClose N)) :
    SameEvals I (emitBar ⟨b, publish⟩ close) (emitBar ⟨b, publish'⟩ close) := by
  cases close with
  | none => exact sameEvals_pure rfl
  | some c =>
    exact sameEvals_publishEach hpub
      [barFieldRequest "open" c.open, barFieldRequest "high" c.high,
        barFieldRequest "low" c.low, barFieldRequest "close" c.close]

section Calls

variable (hslots : SameSlots I D O b publish publish')

include hslots

theorem sameEvals_callChanged {op : String} {boolMode : Bool} (hop : O (lit op))
    (hform : ∀ v : Value N, SlotForm b.alloc b.nowMs (lit op) (statefulChanged b.alloc v boolMode))
    {args : List (Value N)} (hargs : ∀ a ∈ args, a.Evaluated) :
    SameEvals I (callChanged ⟨b, publish⟩ op boolMode args)
      (callChanged ⟨b, publish'⟩ op boolMode args) := by
  unfold callChanged
  split
  · exact hslots.form (hform _) hop (clean_statefulChanged b.alloc (hargs _ (by simp)) boolMode)
  · exact sameEvals_throw _

theorem sameEvals_callHoldOff (hop : O (lit "hold-off")) {args : List (Value N)}
    (hargs : ∀ a ∈ args, a.Evaluated) :
    SameEvals I (callHoldOff ⟨b, publish⟩ args) (callHoldOff ⟨b, publish'⟩ args) := by
  unfold callHoldOff
  split
  · split
    · exact sameEvals_throw _
    · split
      · exact sameEvals_throw _
      · exact hslots.form (.holdOff _ _) hop (clean_holdOff b.nowMs _ (hargs _ (by simp)))
  · exact sameEvals_throw _

theorem sameEvals_callEdge {rising : Bool}
    (hop : O (lit (if rising then "rising-edge" else "falling-edge"))) (args : List (Value N)) :
    SameEvals I (callEdge ⟨b, publish⟩ rising args) (callEdge ⟨b, publish'⟩ rising args) := by
  unfold callEdge
  split
  · cases rising with
    | true => exact hslots.form (.risingEdge _) hop (clean_edge true _)
    | false => exact hslots.form (.fallingEdge _) hop (clean_edge false _)
  · exact sameEvals_throw _

theorem sameEvals_callDeadband (hop : O (lit "deadband")) (args : List (Value N)) :
    SameEvals I (callDeadband ⟨b, publish⟩ args) (callDeadband ⟨b, publish'⟩ args) := by
  unfold callDeadband
  split
  · split
    · split
      · exact sameEvals_throw _
      · exact hslots.form (.deadband _ _) hop (clean_deadband _ _)
    · exact sameEvals_throw _
  · exact sameEvals_throw _

theorem sameEvals_callDelta (hop : O (lit "delta")) (args : List (Value N)) :
    SameEvals I (callDelta ⟨b, publish⟩ args) (callDelta ⟨b, publish'⟩ args) := by
  unfold callDelta
  split
  · split
    · exact hslots.form (.delta _) hop fun _ => clean_ok rfl
    · exact sameEvals_throw _
  · exact sameEvals_throw _

theorem sameEvals_callCount (hpub : SameHooks I publish publish') (hop : O (lit "count"))
    (args : List (Value N)) :
    SameEvals I (callCount ⟨b, publish⟩ args) (callCount ⟨b, publish'⟩ args) := by
  unfold callCount
  apply (coincide_liftResult (P := fun _ => True) fun _ _ => trivial).bind
  rintro ⟨cond, subject⟩ -
  dsimp only
  split_ifs
  · apply hslots.suppressed.bind
    exact fun _ _ => sameEvals_pure rfl
  · exact sameEvals_throw _
  · exact sameEvals_throw _
  all_goals
    apply (hslots.form (P := fun _ => True) .count hop fun _ _ _ => trivial).bind
    intro next _
    split
    · exact sameEvals_throw _
    · first
      | exact sameEvals_throw _
      | exact sameEvals_publishEach hpub _

theorem sameEvals_callWindowCalc {op : String} (hcalc : op ∈ windowCalcOps)
    (what : StateEntry.WindowCalc) {args : List (Value N)}
    (hop : ∀ o, windowSlotOp op 1 args = some o → O o) :
    SameEvals I (callWindowCalc ⟨b, publish⟩ op what args)
      (callWindowCalc ⟨b, publish'⟩ op what args) := by
  unfold callWindowCalc
  split
  · rename_i w v hw
    split
    · exact sameEvals_throw _
    · exact hslots.form (.windowCalc hcalc hw _ _) (hop _ (by simp [windowSlotOp, hw]))
        (clean_windowStep b.alloc _ b.nowMs _ fun e => clean_ok (evaluated_calcRing e what))
  · exact sameEvals_throw _

theorem sameEvals_callPercentile {median : Bool} {args : List (Value N)}
    (hop : ∀ o, windowSlotOp (if median then "median" else "percentile")
      (if median then 1 else 2) args = some o → O o) :
    SameEvals I (callPercentile ⟨b, publish⟩ median args)
      (callPercentile ⟨b, publish'⟩ median args) := by
  have hname : (if median then "median" else "percentile") ∈ ["median", "percentile"] := by
    cases median <;> decide
  unfold callPercentile
  split
  · exact sameEvals_throw _
  · rename_i w rest hw
    apply (coincide_liftResult fun a (ha : percentileArg median rest = .ok a) => ha).bind
    rintro ⟨q, rest'⟩ hrest
    dsimp only
    split
    · rename_i v
      have hlength : rest.length = if median then 1 else 2 := percentileArg_length hrest
      split
      · exact sameEvals_throw _
      · exact hslots.form (.percentile hname hw _ _) (hop _ (by simp [windowSlotOp, hw, hlength]))
          (clean_windowStep b.alloc _ b.nowMs _ (clean_percentileResult b.alloc _))
    · exact sameEvals_throw _

theorem sameEvals_callRate {args : List (Value N)}
    (hop : ∀ o, slotOp .rate args = some o → O o) :
    SameEvals I (callRate ⟨b, publish⟩ args) (callRate ⟨b, publish'⟩ args) := by
  unfold callRate
  split
  · split
    · exact sameEvals_throw _
    · rename_i hk
      split
      · exact sameEvals_throw _
      · split
        · exact sameEvals_throw _
        · rename_i hms
          have hop := hop (lit "rate/m") (by simpa [slotOp] using hk)
          rw [← windowOp_rate] at hop
          exact hslots.form (.rate (by simpa using hms)) hop
            (clean_windowStep b.alloc _ b.nowMs _ fun _ => clean_ok rfl)
  · exact sameEvals_throw _

theorem sameEvals_callThrottle {args : List (Value N)}
    (hop : ∀ o, windowSlotOp "throttle" 2 args = some o → O o) (hargs : ∀ a ∈ args, a.Evaluated) :
    SameEvals I (callThrottle ⟨b, publish⟩ args) (callThrottle ⟨b, publish'⟩ args) := by
  unfold callThrottle
  split
  · rename_i w m v hw
    split
    · exact sameEvals_throw _
    · split
      · exact sameEvals_throw _
      · have hv := hargs _ (mem_of_parseWindow hw (List.mem_cons_of_mem _ List.mem_cons_self))
        exact hslots.form (.throttle hw _ _) (hop _ (by simp [windowSlotOp, hw]))
          (clean_throttle b.alloc _ b.nowMs _ hv)
  · exact sameEvals_throw _

theorem sameEvals_callBar (hpub : SameHooks I publish publish') {args : List (Value N)}
    (hop : ∀ o, slotOp .bar args = some o → O o) :
    SameEvals I (callBar ⟨b, publish⟩ args) (callBar ⟨b, publish'⟩ args) := by
  unfold callBar
  apply (coincide_liftResult fun a (ha : barArgs args = .ok a) => ha).bind
  rintro ⟨timeWindow, count, windowMs, input⟩ h
  dsimp only
  split
  · exact sameEvals_throw _
  · apply (hslots.form (P := fun _ => True) (.bar h _) (hop _ (by simp [slotOp, h]))
      fun _ _ _ => trivial).bind
    exact fun close _ => sameEvals_emitBar hpub close

theorem sameEvals_callRetain {op : String} {kind : ClockKind} {resetDeadline : Bool}
    (hform : ∀ {ms : N}, wholeFromOne ms = true → ∀ subject payload,
      SlotForm (N := N) b.alloc b.nowMs (lit op)
        (retainPublish b.alloc kind (toU64 ms) b.nowMs subject payload resetDeadline))
    {args : List (Value N)} (hop : args.length = 4 → O (lit op)) :
    SameEvals I (callRetain ⟨b, publish⟩ op kind resetDeadline args)
      (callRetain ⟨b, publish'⟩ op kind resetDeadline args) := by
  unfold callRetain
  split
  · split
    · exact sameEvals_throw _
    · split
      · exact sameEvals_throw _
      · split
        · exact sameEvals_throw _
        · rename_i hms
          dsimp only
          split
          · exact hslots.form (hform (by simpa using hms) _ _) (hop rfl)
              (clean_retainPublish b.alloc kind _ b.nowMs _ _ resetDeadline)
          · exact sameEvals_throw _
  · exact sameEvals_throw _

theorem sameEvals_callAggregate {args : List (Value N)}
    (hop : args.length = 5 → O (lit "aggregate")) :
    SameEvals I (callAggregate ⟨b, publish⟩ args) (callAggregate ⟨b, publish'⟩ args) := by
  unfold callAggregate
  split
  · split
    · exact sameEvals_throw _
    · split
      · split
        · exact sameEvals_throw _
        · rename_i hms
          split
          · exact sameEvals_throw _
          · rename_i hmetric
            split
            · exact sameEvals_throw _
            · exact hslots.form (.aggregate hmetric (by simpa using hms) _ _) (hop rfl)
                (clean_aggregateSample b.alloc _ _ b.nowMs _ _)
      · exact sameEvals_throw _
  · exact sameEvals_throw _

omit [Number N] hslots in
theorem sameEvals_liftResult {r : FormResult N} (h : Clean r) :
    SameEvals I (liftResult r : EvalM N W (Value N)) (liftResult r) :=
  coincide_liftResult h

theorem sameEvals_callForm (hpub : SameHooks I publish publish') {form : Form}
    {args : List (Value N)} (hargs : ∀ a ∈ args, a.Evaluated)
    (hop : ∀ o, slotOp form args = some o → O o) :
    SameEvals I (callForm ⟨b, publish⟩ form args) (callForm ⟨b, publish'⟩ form args) := by
  cases form with
  | publish => exact sameEvals_publishEach hpub [fun b => callPublish b args]
  | jsonDemux => exact sameEvals_publishEach hpub (callJsonDemux b args)
  | squelch => exact sameEvals_callChanged hslots (hop _ rfl) .squelch hargs
  | deadband => exact sameEvals_callDeadband hslots (hop _ rfl) args
  | changed => exact sameEvals_callChanged hslots (hop _ rfl) .changed hargs
  | holdOff => exact sameEvals_callHoldOff hslots (hop _ rfl) hargs
  | risingEdge => exact sameEvals_callEdge hslots (hop _ rfl) args
  | fallingEdge => exact sameEvals_callEdge hslots (hop _ rfl) args
  | delta => exact sameEvals_callDelta hslots (hop _ rfl) args
  | count => exact sameEvals_callCount hslots hpub (hop _ rfl) args
  | movingAvg => exact sameEvals_callWindowCalc hslots (by decide) .avg hop
  | movingSum => exact sameEvals_callWindowCalc hslots (by decide) .sum hop
  | movingMax => exact sameEvals_callWindowCalc hslots (by decide) .max hop
  | movingMin => exact sameEvals_callWindowCalc hslots (by decide) .min hop
  | median => exact sameEvals_callPercentile hslots hop
  | percentile => exact sameEvals_callPercentile hslots hop
  | stddev => exact sameEvals_callWindowCalc hslots (by decide) .stddev hop
  | variance => exact sameEvals_callWindowCalc hslots (by decide) .variance hop
  | rate => exact sameEvals_callRate hslots hop
  | throttle => exact sameEvals_callThrottle hslots hop hargs
  | debounce =>
    exact sameEvals_callRetain hslots .debounce fun hlen => hop _ (by simp [slotOp, hlen])
  | sample => exact sameEvals_callRetain hslots .sample fun hlen => hop _ (by simp [slotOp, hlen])
  | aggregate => exact sameEvals_callAggregate hslots fun hlen => hop _ (by simp [slotOp, hlen])
  | bar => exact sameEvals_callBar hslots hpub hop
  | doForm | ifForm | when | and | or | thread | transition | onSilence | dropout =>
    exact sameEvals_throw _
  | now => exact sameEvals_liftResult (clean_callNow b args)
  | not => exact sameEvals_liftResult (clean_callNot args)
  | eq => exact sameEvals_liftResult (clean_callEq args)
  | gt | lt | ge | le => exact sameEvals_liftResult (clean_callCmp _ args)
  | add | sub | mul | div | min | max => exact sameEvals_liftResult (clean_callFold _ _ args)
  | round => exact sameEvals_liftResult (clean_callRound args)
  | quantize => exact sameEvals_liftResult (clean_callQuantize args)
  | clamp => exact sameEvals_liftResult (clean_callClamp args)
  | abs | sign => exact sameEvals_liftResult (clean_callNumber _ args)
  | strConcat => exact sameEvals_liftResult (clean_callStrConcat b args)
  | contains => exact sameEvals_liftResult (clean_callContains args)
  | startsWith | endsWith => exact sameEvals_liftResult (clean_callAffix _ args)
  | subjectAppend => exact sameEvals_liftResult (clean_callSubjectAppend b args)
  | subjectToken => exact sameEvals_liftResult (clean_callSubjectToken b args)
  | subjectWith => exact sameEvals_liftResult (clean_callSubjectWith b args)
  | print => exact sameEvals_liftResult (clean_callPrint hargs)
  | jsonGet => exact sameEvals_liftResult (clean_callJsonGet b args)

end Calls

end Forms

/-! ## Special forms -/

section Control

variable {I : Machine N W → Prop} {D : List (Value N) → Prop} {T : Value N → Prop}
  {O : Bytes → Prop} {b : Bindings N} {publish publish' : Slice → Slice → MachineM N W Bool}
  {rec rec' : Ctx N W → Value N → EvalM N W (Value N)}

/-- Two evaluators do the same on the expressions that may be evaluated. -/
def SameRecs (I : Machine N W → Prop) (T : Value N → Prop)
    (rec rec' : Ctx N W → Value N → EvalM N W (Value N)) : Prop :=
  ∀ b publish publish', SameHooks I publish publish' → ∀ v, T v →
    SameEvals I (rec ⟨b, publish⟩ v) (rec' ⟨b, publish'⟩ v)

/-- The same with the bindings and the hooks given. -/
def SameParts (I : Machine N W → Prop) (T : Value N → Prop) (b : Bindings N)
    (publish publish' : Slice → Slice → MachineM N W Bool)
    (rec rec' : Ctx N W → Value N → EvalM N W (Value N)) : Prop :=
  ∀ v, T v → SameEvals I (rec ⟨b, publish⟩ v) (rec' ⟨b, publish'⟩ v)

variable (hrec : SameParts I T b publish publish' rec rec') {vs : List (Value N)}
  (hvs : ∀ v ∈ vs, T v)

include hrec hvs

theorem coincide_evalEach :
    CoincideRun I (fun as => (∀ a ∈ as, a.Evaluated) ∧ as.length = vs.length)
      (evalEach rec ⟨b, publish⟩ vs) (evalEach rec' ⟨b, publish'⟩ vs) := by
  induction vs with
  | nil => exact .pure ⟨fun _ ha => absurd ha List.not_mem_nil, rfl⟩
  | cons v vs ih =>
    obtain ⟨hv, hvs⟩ := List.forall_mem_cons.mp hvs
    apply (hrec v hv).bind
    intro a ha
    apply (ih hvs).bind
    rintro as ⟨has, hlen⟩
    exact .pure ⟨List.forall_mem_cons.mpr ⟨ha, has⟩, congrArg (· + 1) hlen⟩

theorem coincide_evalArgs :
    CoincideRun I (fun as => (∀ a ∈ as, a.Evaluated) ∧ as.length = vs.length)
      (evalArgs rec ⟨b, publish⟩ vs) (evalArgs rec' ⟨b, publish'⟩ vs) := by
  unfold evalArgs
  dsimp only
  split
  · exact .throw _
  · exact coincide_evalEach hrec hvs

theorem sameEvals_evalDoFrom {last : Value N} (hlast : last.Evaluated) :
    SameEvals I (evalDoFrom rec ⟨b, publish⟩ last vs)
      (evalDoFrom rec' ⟨b, publish'⟩ last vs) := by
  induction vs generalizing last with
  | nil => exact sameEvals_pure hlast
  | cons v vs ih =>
    obtain ⟨hv, hvs⟩ := List.forall_mem_cons.mp hvs
    apply (hrec v hv).bind
    exact fun a ha => ih hvs ha

theorem sameEvals_evalDo :
    SameEvals I (evalDo rec ⟨b, publish⟩ vs) (evalDo rec' ⟨b, publish'⟩ vs) :=
  @sameEvals_evalDoFrom _ _ _ _ _ _ _ _ _ hrec _ hvs .nil rfl

theorem sameEvals_evalIf :
    SameEvals I (evalIf rec ⟨b, publish⟩ vs) (evalIf rec' ⟨b, publish'⟩ vs) := by
  unfold evalIf
  split
  · rename_i c t
    apply (hrec c (hvs c (by simp))).bind
    intro a _
    split
    · exact hrec t (hvs t (by simp))
    · exact sameEvals_pure rfl
  · rename_i c t f
    apply (hrec c (hvs c (by simp))).bind
    intro a _
    split
    · exact hrec t (hvs t (by simp))
    · exact hrec f (hvs f (by simp))
  · exact sameEvals_throw _

theorem sameEvals_evalWhen :
    SameEvals I (evalWhen rec ⟨b, publish⟩ vs) (evalWhen rec' ⟨b, publish'⟩ vs) := by
  cases vs with
  | nil => exact sameEvals_throw _
  | cons c body =>
    obtain ⟨hc, hbody⟩ := List.forall_mem_cons.mp hvs
    apply (hrec c hc).bind
    intro a _
    cases a.truthy with
    | true => exact sameEvals_evalDo hrec hbody
    | false => exact sameEvals_pure rfl

theorem sameEvals_evalAndFrom {last : Value N} (hlast : last.Evaluated) :
    SameEvals I (evalAndFrom rec ⟨b, publish⟩ last vs)
      (evalAndFrom rec' ⟨b, publish'⟩ last vs) := by
  induction vs generalizing last with
  | nil => exact sameEvals_pure hlast
  | cons v vs ih =>
    obtain ⟨hv, hvs⟩ := List.forall_mem_cons.mp hvs
    apply (hrec v hv).bind
    intro a ha
    cases a.truthy with
    | true => exact ih hvs ha
    | false => exact sameEvals_pure ha

theorem sameEvals_evalOr :
    SameEvals I (evalOr rec ⟨b, publish⟩ vs) (evalOr rec' ⟨b, publish'⟩ vs) := by
  induction vs with
  | nil => exact sameEvals_pure rfl
  | cons v vs ih =>
    obtain ⟨hv, hvs⟩ := List.forall_mem_cons.mp hvs
    apply (hrec v hv).bind
    intro a ha
    cases a.truthy with
    | true => exact sameEvals_pure ha
    | false => exact ih hvs

omit hvs in
theorem sameEvals_evalCallWithThreaded {form x : Value N}
    (hsymbol : ∀ {name}, form = .symbol name → T (.list [.symbol name, x]))
    (hlist : ∀ {name args}, form = .list (.symbol name :: args) →
      T (.list (.symbol name :: args ++ [x]))) :
    SameEvals I (evalCallWithThreaded rec ⟨b, publish⟩ form x)
      (evalCallWithThreaded rec' ⟨b, publish'⟩ form x) := by
  unfold evalCallWithThreaded
  split
  · exact hrec _ (hsymbol rfl)
  · dsimp only
    split
    · exact hrec _ (hlist rfl)
    · exact sameEvals_throw _
  · exact sameEvals_throw _

omit hvs in
theorem sameEvals_evalThreadFrom {cur : Value N} (hcur : cur.Evaluated) {fs : List (Value N)}
    (hsymbol : ∀ {name}, .symbol name ∈ fs → ∀ {x : Value N}, x.Evaluated →
      T (.list [.symbol name, x]))
    (hlist : ∀ {name args}, .list (.symbol name :: args) ∈ fs → ∀ {x : Value N}, x.Evaluated →
      T (.list (.symbol name :: args ++ [x]))) :
    SameEvals I (evalThreadFrom rec ⟨b, publish⟩ cur fs)
      (evalThreadFrom rec' ⟨b, publish'⟩ cur fs) := by
  induction fs generalizing cur with
  | nil => exact sameEvals_pure hcur
  | cons form fs ih =>
    unfold evalThreadFrom
    cases cur.isNil with
    | true => exact sameEvals_pure hcur
    | false =>
      have hcall : SameEvals I (evalCallWithThreaded rec ⟨b, publish⟩ form cur)
          (evalCallWithThreaded rec' ⟨b, publish'⟩ form cur) := by
        apply sameEvals_evalCallWithThreaded hrec
        · rintro name rfl
          exact hsymbol List.mem_cons_self hcur
        · rintro name args rfl
          exact hlist List.mem_cons_self hcur
      apply hcall.bind
      intro a ha
      apply ih ha
      · exact fun hmem => hsymbol (List.mem_cons_of_mem _ hmem)
      · exact fun hmem => hlist (List.mem_cons_of_mem _ hmem)

section Slots

variable [Number N]

theorem sameEvals_evalTransition (hslots : SlotsAlike I D O b publish publish')
    (hop : O (lit "transition")) :
    SameEvals I (evalTransition rec ⟨b, publish⟩ vs) (evalTransition rec' ⟨b, publish'⟩ vs) := by
  unfold evalTransition
  split
  · rename_i c up down
    apply (hrec c (hvs c (by simp))).bind
    intro a _
    apply (coincide_afresh fun s pl => (hslots s pl).form (P := fun _ => True)
      (.transition a.truthy) hop fun _ _ _ => trivial).bind
    intro change _
    split
    · exact hrec up (hvs up (by simp))
    · exact hrec down (hvs down (by simp))
    · exact sameEvals_pure rfl
  · exact sameEvals_throw _

omit hvs in
theorem coincide_evalMs {v : Value N} (hv : T v) :
    CoincideRun I (fun ms => wholeFromOne ms = true)
      (evalMs rec ⟨b, publish⟩ v) (evalMs rec' ⟨b, publish'⟩ v) := by
  unfold evalMs
  apply (CoincideRun.lift_run (hrec v hv)).bind
  intro r _
  split
  · exact .throw _
  · split
    · exact .throw _
    · split
      · rename_i hms
        exact .pure hms
      · exact .throw _

theorem sameEvals_callOnSilence (hslots : SlotsAlike I D O b publish publish')
    (hbody : ∀ {k m c body}, vs = k :: m :: c :: body → k.keywordEq "ms" = true →
      D (c :: body)) :
    SameEvals I (callOnSilence rec ⟨b, publish⟩ vs) (callOnSilence rec' ⟨b, publish'⟩ vs) := by
  unfold callOnSilence
  split
  · rename_i k m c body
    split
    · exact sameEvals_throw _
    · rename_i hk
      have hbody := hbody rfl (by simpa using hk)
      apply (coincide_evalMs hrec (hvs m (by simp))).bind
      exact fun ms hms => coincide_afresh fun s pl => (hslots s pl).onSilence hms hbody
  · exact sameEvals_throw _

theorem sameEvals_callDropout (hslots : SlotsAlike I D O b publish publish')
    (hdeferred : ∀ {l}, D l → ∀ v ∈ l, T v)
    (hforms : ∀ {k m kl lost kf found}, vs = [k, m, kl, lost, kf, found] →
      (k.keywordEq "ms" && kl.keywordEq "lost" && kf.keywordEq "found") = true →
        D [lost, found]) :
    SameEvals I (callDropout rec ⟨b, publish⟩ vs) (callDropout rec' ⟨b, publish'⟩ vs) := by
  unfold callDropout
  split
  · rename_i k m kl lost kf found
    split
    · exact sameEvals_throw _
    · rename_i hk
      have hforms := hforms rfl (by simpa [and_assoc] using hk)
      apply (coincide_evalMs hrec (hvs m (by simp))).bind
      intro ms hms
      apply (coincide_afresh fun s pl => (hslots s pl).dropout hms hforms).bind
      intro form hform
      cases form with
      | none => exact sameEvals_pure rfl
      | some v =>
        obtain ⟨l, hl, hmem⟩ := hform v rfl
        exact hrec v (hdeferred hl v hmem)
  · exact sameEvals_throw _

omit hvs hrec in
theorem sameEvals_evalSymbol (name : Bytes) :
    SameEvals I (evalSymbol (⟨b, publish⟩ : Ctx N W) name) (evalSymbol ⟨b, publish'⟩ name) := by
  unfold evalSymbol
  dsimp only
  split
  · exact sameEvals_pure rfl
  · split
    · exact sameEvals_pure rfl
    · split
      · exact sameEvals_pure rfl
      · split
        · split
          · exact sameEvals_throw _
          · split
            · exact sameEvals_throw _
            · exact sameEvals_pure rfl
        · exact sameEvals_throw _

end Slots

end Control

section Expressions

variable [Number N] {I : Machine N W → Prop} {D : List (Value N) → Prop} {T : Value N → Prop}
  {O : Bytes → Prop} {b : Bindings N} {publish publish' : Slice → Slice → MachineM N W Bool}
  {rec rec' : Ctx N W → Value N → EvalM N W (Value N)}

/-- What a call looks up is among the operations, whatever its arguments come to. -/
def CallsWithin (O : Bytes → Prop) (head : Value N) (raw : List (Value N)) : Prop :=
  ∀ form (args : List (Value N)), findForm head.text = some form → args.length = raw.length →
    ∀ o, slotOp form args = some o → O o

theorem sameEvals_evalList (hD : Discipline D T) (hpub : SameHooks I publish publish')
    (hslots : SlotsAlike I D O b publish publish') (htransition : O (lit "transition"))
    (hrec : SameParts I T b publish publish' rec rec') {call : List (Value N)}
    (hcall : T (.list call)) (hops : ∀ head raw, call = head :: raw → CallsWithin O head raw) :
    SameEvals I (evalList rec ⟨b, publish⟩ call) (evalList rec' ⟨b, publish'⟩ call) := by
  cases call with
  | nil => exact sameEvals_throw _
  | cons head raw =>
    have hraw := hD.args hcall
    unfold evalList
    dsimp only
    split
    · exact sameEvals_throw _
    · exact sameEvals_evalDo hrec hraw
    · exact sameEvals_evalIf hrec hraw
    · exact sameEvals_evalWhen hrec hraw
    · exact @sameEvals_evalAndFrom _ _ _ _ _ _ _ _ _ hrec _ hraw (.bool true) rfl
    · exact sameEvals_evalOr hrec hraw
    · rename_i hform
      cases raw with
      | nil => exact sameEvals_throw _
      | cons v fs =>
        apply (hrec v (hraw v List.mem_cons_self)).bind
        intro a ha
        exact sameEvals_evalThreadFrom hrec ha (hD.symbolStep hcall hform)
          (hD.listStep hcall hform)
    · exact sameEvals_evalTransition hrec hraw hslots htransition
    · rename_i hform
      apply sameEvals_callOnSilence hrec hraw hslots
      rintro k m c body rfl
      exact hD.onSilence hcall hform
    · rename_i hform
      apply sameEvals_callDropout hrec hraw hslots hD.deferred
      rintro k m kl lost kf found rfl
      exact hD.dropout hcall hform
    · rename_i form _ _ _ _ _ _ _ _ _ hform
      apply (coincide_evalArgs hrec hraw).bind
      rintro args ⟨hargs, hlen⟩
      exact coincide_afresh fun s pl =>
        sameEvals_callForm (hslots s pl) hpub hargs (hops head raw rfl _ args hform hlen)

theorem sameEvals_evalStep (hD : Discipline D T) (hpub : SameHooks I publish publish')
    (hslots : SlotsAlike I D O b publish publish') (htransition : O (lit "transition"))
    (hrec : SameParts I T b publish publish' rec rec') {v : Value N} (hv : T v)
    (hops : ∀ head raw, v = .list (head :: raw) → CallsWithin O head raw) :
    SameEvals I (evalStep rec ⟨b, publish⟩ v) (evalStep rec' ⟨b, publish'⟩ v) := by
  cases v with
  | symbol name => exact sameEvals_evalSymbol name
  | vector items =>
    apply (coincide_evalArgs hrec (hD.items hv)).bind
    exact fun as has => sameEvals_pure (v := .vector as) (weights_eq_zero has.1)
  | list call =>
    apply sameEvals_evalList hD hpub hslots htransition hrec hv
    rintro head raw rfl
    exact hops head raw rfl
  | nil => exact sameEvals_pure (v := .nil) rfl
  | bool x => exact sameEvals_pure (v := .bool x) rfl
  | number x => exact sameEvals_pure (v := .number x) rfl
  | keyword text => exact sameEvals_pure (v := .keyword text) rfl
  | string text => exact sameEvals_pure (v := .string text) rfl

/-- The evaluator that has no result for an expression the guard refuses. -/
def guardedEval (G : Value N → Bool) : ℕ → Ctx N W → Value N → EvalM N W (Value N)
  | 0 => fun _ _ => ExceptT.mk fun _ => none
  | depth + 1 => fun ctx v =>
    if G v then afresh ctx fun ctx => evalStep (guardedEval G depth) ctx v
    else ExceptT.mk fun _ => none

end Expressions

/-! ## Forms that are stored -/

section Stored

variable [Number N] {D : List (Value N) → Prop} {T : Value N → Prop} {S : Program N → Prop}

/-- The operations of the forms that store nothing. -/
def StoresNothing (op : Bytes) : Prop := op ≠ lit "on-silence" ∧ op ≠ lit "dropout"

instance (op : Bytes) : Decidable (StoresNothing op) := inferInstanceAs (Decidable (_ ∧ _))

theorem storesNothing_windowOp {op : String}
    (hop : op ∈ windowCalcOps ++ ["median", "percentile", "rate", "throttle"]) (w : Window) :
    StoresNothing (windowOp op w) := by
  have hop := windowOp_not_timed hop w
  constructor
  · intro h
    exact hop (h ▸ by decide)
  · intro h
    exact hop (h ▸ by decide)

theorem storesNothing_windowSlotOp {op : String}
    (hop : op ∈ windowCalcOps ++ ["median", "percentile", "rate", "throttle"]) {extra : ℕ}
    {args : List (Value N)} {o : Bytes} (h : windowSlotOp op extra args = some o) :
    StoresNothing o := by
  unfold windowSlotOp at h
  split at h
  · split_ifs at h
    cases h
    exact storesNothing_windowOp hop _
  · cases h

theorem storesNothing_slotOp {form : Form} {args : List (Value N)} {o : Bytes}
    (h : slotOp form args = some o) : StoresNothing o := by
  cases form with
  | movingAvg | movingSum | movingMax | movingMin | stddev | variance | median | percentile
  | throttle => exact storesNothing_windowSlotOp (by decide) h
  | rate =>
    simp only [slotOp] at h
    split at h
    · split_ifs at h
      cases h
      decide
    · cases h
  | bar =>
    simp only [slotOp] at h
    split at h
    · rename_i timeWindow _ _
      cases h
      cases timeWindow <;> decide
    · cases h
  | debounce | sample | aggregate =>
    simp only [slotOp] at h
    split_ifs at h
    cases h
    decide
  | _ =>
    cases h
    try decide

theorem sameSlots_keeping (b : Bindings N)
    (publish publish' : Slice → Slice → MachineM N W Bool) :
    SameSlots (Keeping D S) D StoresNothing b publish publish' where
  form hform hop hresult := by
    apply coincide_onSlot (fun m => keeping_iff) deferred_fresh
    · exact fun e he => he.keep (keepsForms_form hform hop.1 hop.2 e)
    · exact fun e _ => hresult e
  onSilence _ hbody := by
    apply coincide_onSlot (fun m => keeping_iff) deferred_fresh
    · exact fun e he => deferred_onSilenceArm hbody _ _ _ he
    · exact fun e _ => clean_onSilenceArm b.alloc _ b.nowMs _ _ e
  dropout _ hforms := by
    apply coincide_onSlot (fun m => keeping_iff) deferred_fresh
    · exact fun e he => (deferred_dropoutArm hforms _ _ he).1
    · exact fun e he form hform v hv => (deferred_dropoutArm hforms _ _ he).2 v (hv ▸ hform)
  suppressed := coincide_noteSuppressed (fun m => keeping_iff) b.ruleId

/-- A guard that lets through what may be evaluated makes no difference. -/
theorem sameRecs_guardedEval (hD : Discipline D T) {G : Value N → Bool} (hG : ∀ v, T v → G v = true)
    (depth : ℕ) : SameRecs (W := W) (Keeping D S) T (eval depth) (guardedEval G depth) := by
  induction depth with
  | zero => exact fun _ _ _ _ _ _ => Coincide.noResult
  | succ depth ih =>
    intro b publish publish' hpub v hv
    have hstep : SameEvals (Keeping (W := W) D S)
        (afresh ⟨b, publish⟩ fun ctx => evalStep (eval depth) ctx v)
        (afresh ⟨b, publish'⟩ fun ctx => evalStep (guardedEval G depth) ctx v) :=
      coincide_afresh fun _ _ =>
        sameEvals_evalStep hD hpub (fun _ _ => sameSlots_keeping _ publish publish') (by decide)
          (ih _ publish publish' hpub) hv fun _ _ _ _ _ _ _ _ h => storesNothing_slotOp h
    unfold guardedEval
    simp only [hG v hv, if_true]
    exact hstep

end Stored

end Monoblok.Patchbay
