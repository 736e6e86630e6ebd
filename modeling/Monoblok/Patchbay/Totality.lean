import Monoblok.Patchbay.Lost

/-!
# Evaluations come to an end

The evaluator recurses on parts of an expression, on calls the thread form puts
together from them and on forms read out of the slots of dropouts. Every step
makes the number of lost slots smaller, or keeps it and makes the weight of the
expression smaller, or keeps both and goes to a part.
-/

namespace Monoblok.Patchbay

open Number Fuel Filter

variable {N W : Type}

/-! ## Hooks and forms -/

/-- A publish hook that comes to an end. -/
def HookEnds (publish : ℕ → Slice → Slice → MachineM N W Bool) : Prop :=
  ∀ subject payload m, Total (fun n => publish n subject payload) m fun _ m' => Fewer m m'

/-- An evaluation that comes to an end with an evaluated value or an error. -/
abbrev Ends (c : ℕ → EvalM N W (Value N)) (m : Machine N W) : Prop :=
  TotalRun Fewer c m fun a _ => a.Evaluated

theorem ends_throw (e : EvalError) (m : Machine N W) : Ends (fun _ => throw e) m := .throw e

theorem ends_pure {v : Value N} (hv : v.Evaluated) (m : Machine N W) : Ends (fun _ => pure v) m :=
  .pure hv

theorem totalRun_liftResult {α : Type} (r : Except EvalError α) (m : Machine N W) :
    TotalRun Fewer (fun _ => liftResult r) m fun a _ => r = .ok a := by
  cases r with
  | ok a => exact .pure rfl
  | error e => exact .throw e

theorem ends_liftResult {r : FormResult N} (h : Clean r) (m : Machine N W) :
    Ends (fun _ => liftResult r) m :=
  (totalRun_liftResult r m).mono fun a _ _ ha => h a ha

section Forms

variable [Number N] {b : Bindings N} {publish : ℕ → Slice → Slice → MachineM N W Bool}

omit [Number N] in
/-- What is done with what the slices read. -/
theorem totalRun_afresh {α : Type} {f : ℕ → Ctx N W → EvalM N W α} {m : Machine N W}
    {Q : α → Machine N W → Prop}
    (h : TotalRun Fewer (fun n => f n ⟨m.reread b, publish n⟩) m Q) :
    TotalRun Fewer (fun n => afresh ⟨b, publish n⟩ (f n)) m Q := h

/-- A form on a slot, where its subject is read first. -/
theorem totalRun_onSlot_afresh {p : ℕ → Slice → Slice → MachineM N W Bool} {α : Type}
    {op : Bytes} {m : Machine N W} {f : Bindings N → StateEntry N → SlotStep N α}
    (hform : SlotForm b.alloc b.nowMs op (f (m.reread b))) :
    TotalRun Fewer (fun n => afresh ⟨b, p n⟩ fun ctx => onSlot ctx op (f ctx.toBindings)) m
      fun a m' => ∃ e, (f (m.reread b) e).result = .ok a ∧
        (e.dropoutLost = true → (f (m.reread b) e).entry.dropoutLost = false →
          lostCount (m'.ruleState b.ruleId) < lostCount (m.ruleState b.ruleId)) := by
  have hslot : TotalRun Fewer (fun n => onSlot ⟨m.reread b, p n⟩ op (f (m.reread b))) m _ :=
    @totalRun_onSlot _ _ _ ⟨m.reread b, p 0⟩ _ _ _ hform m
  exact @totalRun_afresh _ _ b p _ (fun _ ctx => onSlot ctx op (f ctx.toBindings)) m _ hslot

omit [Number N] in
theorem ends_published (hpub : HookEnds publish) (subject payload : Slice)
    {rest : ℕ → EvalM N W (Value N)} (hrest : ∀ m, Ends rest m) (m : Machine N W) :
    Ends (fun n => (do
      if ← publish n subject payload then rest n else throw .publishFailed :
        EvalM N W (Value N))) m := by
  have hhook : TotalRun Fewer (fun n => (ExceptT.lift (publish n subject payload) : EvalM N W Bool))
      m fun _ _ => True :=
    .lift ((hpub subject payload m).mono fun _ _ hfewer => ⟨hfewer, trivial⟩)
  apply hhook.bind
  intro ok m' _ _
  cases ok with
  | false => exact ends_throw _ m'
  | true => exact hrest m'

omit [Number N] in
theorem ends_publishEach (hpub : HookEnds publish) (rs : List (LateRequest N)) (m : Machine N W) :
    Ends (fun n => publishEach ⟨b, publish n⟩ rs) m := by
  induction rs generalizing m with
  | nil => exact ends_pure (v := .nil) rfl m
  | cons r rs ih =>
    apply totalRun_afresh
    dsimp only
    cases r (m.reread b) with
    | error e => exact ends_throw e m
    | ok message =>
      cases message with
      | none => exact ih m
      | some message =>
        exact ends_published hpub
          (m.handOn (m.reread b) message.1 ((m.reread b).drawn message.1 message.2).1)
          (m.handOn (m.reread b) message.2 ((m.reread b).drawn message.1 message.2).2) ih m

/-- A form on a slot whose results are evaluated values. -/
theorem ends_onSlot {op : Bytes} {f : StateEntry N → SlotStep N (Value N)}
    (hform : SlotForm b.alloc b.nowMs op f) (hclean : ∀ e, Clean (f e).result) (m : Machine N W) :
    Ends (fun n => onSlot ⟨b, publish n⟩ op f) m := by
  apply (@totalRun_onSlot _ _ _ ⟨b, publish 0⟩ _ _ _ hform m).mono
  rintro a m' - ⟨e, hresult, -⟩
  exact hclean e a hresult

theorem ends_callChanged {op : String} {boolMode : Bool}
    (hform : ∀ v : Value N, SlotForm b.alloc b.nowMs (lit op) (statefulChanged b.alloc v boolMode))
    {args : List (Value N)} (hargs : ∀ a ∈ args, a.Evaluated) (m : Machine N W) :
    Ends (fun n => callChanged ⟨b, publish n⟩ op boolMode args) m := by
  unfold callChanged
  split
  · exact ends_onSlot (hform _) (clean_statefulChanged b.alloc (hargs _ (by simp)) boolMode) m
  · exact ends_throw _ m

theorem ends_callHoldOff {args : List (Value N)} (hargs : ∀ a ∈ args, a.Evaluated)
    (m : Machine N W) : Ends (fun n => callHoldOff ⟨b, publish n⟩ args) m := by
  unfold callHoldOff
  split
  · split
    · exact ends_throw _ m
    · split
      · exact ends_throw _ m
      · exact ends_onSlot (.holdOff _ _) (clean_holdOff b.nowMs _ (hargs _ (by simp))) m
  · exact ends_throw _ m

theorem ends_callEdge (rising : Bool) (args : List (Value N)) (m : Machine N W) :
    Ends (fun n => callEdge ⟨b, publish n⟩ rising args) m := by
  unfold callEdge
  split
  · cases rising with
    | true => exact ends_onSlot (.risingEdge _) (clean_edge true _) m
    | false => exact ends_onSlot (.fallingEdge _) (clean_edge false _) m
  · exact ends_throw _ m

theorem ends_callDeadband (args : List (Value N)) (m : Machine N W) :
    Ends (fun n => callDeadband ⟨b, publish n⟩ args) m := by
  unfold callDeadband
  split
  · split
    · split
      · exact ends_throw _ m
      · exact ends_onSlot (.deadband _ _) (clean_deadband _ _) m
    · exact ends_throw _ m
  · exact ends_throw _ m

theorem ends_callDelta (args : List (Value N)) (m : Machine N W) :
    Ends (fun n => callDelta ⟨b, publish n⟩ args) m := by
  unfold callDelta
  split
  · split
    · exact ends_onSlot (.delta _) (fun _ => clean_ok rfl) m
    · exact ends_throw _ m
  · exact ends_throw _ m

theorem ends_callCount (hpub : HookEnds publish) (args : List (Value N)) (m : Machine N W) :
    Ends (fun n => callCount ⟨b, publish n⟩ args) m := by
  unfold callCount
  apply (totalRun_liftResult _ m).bind
  rintro ⟨cond, subject⟩ m' - -
  dsimp only
  by_cases hcond : (!(cond.map Value.truthy).getD true) = true
  · simp only [if_pos hcond]
    apply (totalRun_noteSuppressed b.ruleId m').bind
    intro _ m'' _ _
    exact ends_pure (v := .nil) rfl m''
  by_cases hmemory : (subject.isNone && !b.alloc .arena) = true
  · simp only [if_neg hcond, if_pos hmemory]
    exact ends_throw _ m'
  by_cases hvalid : (!publishSubjectValid (subject.getD (b.subject ++ lit ".count"))) = true
  · simp only [if_neg hcond, if_neg hmemory, if_pos hvalid]
    exact ends_throw _ m'
  simp only [if_neg hcond, if_neg hmemory, if_neg hvalid]
  apply (@totalRun_onSlot _ _ _ ⟨b, publish 0⟩ _ _ _ .count m').bind
  intro next m'' _ _
  by_cases hlong : 32 ≤ (fmtF 0 next).length
  · simp only [if_pos hlong]
    exact ends_throw _ m''
  by_cases harena : (!b.alloc .arena) = true
  · simp only [if_neg hlong, if_pos harena]
    exact ends_throw _ m''
  simp only [if_neg hlong, if_neg harena]
  exact ends_publishEach hpub _ m''

theorem ends_callWindowCalc {op : String} (hop : op ∈ windowCalcOps) (what : StateEntry.WindowCalc)
    (args : List (Value N)) (m : Machine N W) :
    Ends (fun n => callWindowCalc ⟨b, publish n⟩ op what args) m := by
  unfold callWindowCalc
  split
  · rename_i hw
    split
    · exact ends_throw _ m
    · apply ends_onSlot (.windowCalc hop hw _ _)
      exact clean_windowStep b.alloc _ b.nowMs _ fun e => clean_ok (evaluated_calcRing e what)
  · exact ends_throw _ m

theorem ends_callPercentile (median : Bool) (args : List (Value N)) (m : Machine N W) :
    Ends (fun n => callPercentile ⟨b, publish n⟩ median args) m := by
  have hop : (if median then "median" else "percentile") ∈ ["median", "percentile"] := by
    cases median <;> decide
  unfold callPercentile
  split
  · exact ends_throw _ m
  · rename_i hw
    apply (totalRun_liftResult _ m).bind
    rintro ⟨p, rest⟩ m' - -
    dsimp only
    split
    · split
      · exact ends_throw _ m'
      · apply ends_onSlot (.percentile hop hw _ _)
        exact clean_windowStep b.alloc _ b.nowMs _ (clean_percentileResult b.alloc _)
    · exact ends_throw _ m'

theorem ends_callRate (args : List (Value N)) (m : Machine N W) :
    Ends (fun n => callRate ⟨b, publish n⟩ args) m := by
  unfold callRate
  split
  · split
    · exact ends_throw _ m
    · split
      · exact ends_throw _ m
      · split
        · exact ends_throw _ m
        · rename_i hms
          apply ends_onSlot (.rate (by simpa using hms))
          exact clean_windowStep b.alloc _ b.nowMs _ fun _ => clean_ok rfl
  · exact ends_throw _ m

theorem mem_of_parseWindow {args rest : List (Value N)} {w : Window} {v : Value N}
    (h : parseWindow args = some (w, rest)) (hv : v ∈ rest) : v ∈ args := by
  unfold parseWindow at h
  split at h
  · cases h
  · split at h
    · split at h
      · cases h
      · split at h
        · cases h
        · split_ifs at h
          cases h
          exact List.mem_cons_of_mem _ (List.mem_cons_of_mem _ hv)
    · split at h
      · cases h
      · split_ifs at h
        cases h
        exact List.mem_cons_of_mem _ hv

theorem ends_callThrottle {args : List (Value N)} (hargs : ∀ a ∈ args, a.Evaluated)
    (m : Machine N W) : Ends (fun n => callThrottle ⟨b, publish n⟩ args) m := by
  unfold callThrottle
  split
  · rename_i hw
    split
    · exact ends_throw _ m
    · split
      · exact ends_throw _ m
      · have hv := hargs _ (mem_of_parseWindow hw (List.mem_cons_of_mem _ List.mem_cons_self))
        exact ends_onSlot (.throttle hw _ _) (clean_throttle b.alloc _ b.nowMs _ hv) m
  · exact ends_throw _ m

theorem ends_emitBar (hpub : HookEnds publish) (close : Option (StateEntry.BarClose N))
    (m : Machine N W) : Ends (fun n => emitBar ⟨b, publish n⟩ close) m := by
  cases close with
  | none => exact ends_pure (v := .nil) rfl m
  | some c =>
    exact ends_publishEach hpub
      [barFieldRequest "open" c.open, barFieldRequest "high" c.high,
        barFieldRequest "low" c.low, barFieldRequest "close" c.close] m

theorem ends_callBar (hpub : HookEnds publish) (args : List (Value N)) (m : Machine N W) :
    Ends (fun n => callBar ⟨b, publish n⟩ args) m := by
  unfold callBar
  apply (totalRun_liftResult _ m).bind
  rintro ⟨timeWindow, count, windowMs, input⟩ m' - h
  dsimp only
  split
  · exact ends_throw _ m'
  · apply (@totalRun_onSlot _ _ _ ⟨b, publish 0⟩ _ _ _ (.bar h _) m').bind
    intro close m'' _ _
    exact ends_emitBar hpub close m''

theorem ends_callRetain {op : String} {kind : ClockKind} {resetDeadline : Bool}
    (hform : ∀ {ms : N}, wholeFromOne ms = true → ∀ subject payload,
      SlotForm (N := N) b.alloc b.nowMs (lit op)
        (retainPublish b.alloc kind (toU64 ms) b.nowMs subject payload resetDeadline))
    (args : List (Value N)) (m : Machine N W) :
    Ends (fun n => callRetain ⟨b, publish n⟩ op kind resetDeadline args) m := by
  unfold callRetain
  split
  · split
    · exact ends_throw _ m
    · split
      · exact ends_throw _ m
      · split
        · exact ends_throw _ m
        · rename_i hms
          dsimp only
          split
          · exact ends_onSlot (hform (by simpa using hms) _ _)
              (clean_retainPublish b.alloc kind _ b.nowMs _ _ resetDeadline) m
          · exact ends_throw _ m
  · exact ends_throw _ m

theorem ends_callAggregate (args : List (Value N)) (m : Machine N W) :
    Ends (fun n => callAggregate ⟨b, publish n⟩ args) m := by
  unfold callAggregate
  split
  · split
    · exact ends_throw _ m
    · split
      · split
        · exact ends_throw _ m
        · rename_i hms
          split
          · exact ends_throw _ m
          · rename_i hmetric
            split
            · exact ends_throw _ m
            · exact ends_onSlot (.aggregate hmetric (by simpa using hms) _ _)
                (clean_aggregateSample b.alloc _ _ b.nowMs _ _) m
      · exact ends_throw _ m
  · exact ends_throw _ m

theorem ends_callForm (hpub : HookEnds publish) (form : Form) {args : List (Value N)}
    (hargs : ∀ a ∈ args, a.Evaluated) (m : Machine N W) :
    Ends (fun n => callForm ⟨b, publish n⟩ form args) m := by
  cases form with
  | publish => exact ends_publishEach hpub [fun b => callPublish b args] m
  | jsonDemux => exact ends_publishEach hpub (callJsonDemux b args) m
  | squelch => exact ends_callChanged .squelch hargs m
  | deadband => exact ends_callDeadband args m
  | changed => exact ends_callChanged .changed hargs m
  | holdOff => exact ends_callHoldOff hargs m
  | risingEdge => exact ends_callEdge true args m
  | fallingEdge => exact ends_callEdge false args m
  | delta => exact ends_callDelta args m
  | count => exact ends_callCount hpub args m
  | movingAvg => exact ends_callWindowCalc (by decide) .avg args m
  | movingSum => exact ends_callWindowCalc (by decide) .sum args m
  | movingMax => exact ends_callWindowCalc (by decide) .max args m
  | movingMin => exact ends_callWindowCalc (by decide) .min args m
  | median => exact ends_callPercentile true args m
  | percentile => exact ends_callPercentile false args m
  | stddev => exact ends_callWindowCalc (by decide) .stddev args m
  | variance => exact ends_callWindowCalc (by decide) .variance args m
  | rate => exact ends_callRate args m
  | throttle => exact ends_callThrottle hargs m
  | debounce => exact ends_callRetain .debounce args m
  | sample => exact ends_callRetain .sample args m
  | aggregate => exact ends_callAggregate args m
  | bar => exact ends_callBar hpub args m
  | doForm | ifForm | when | and | or | thread | transition | onSilence | dropout =>
    exact ends_throw _ m
  | now => exact ends_liftResult (clean_callNow b args) m
  | not => exact ends_liftResult (clean_callNot args) m
  | eq => exact ends_liftResult (clean_callEq args) m
  | gt | lt | ge | le => exact ends_liftResult (clean_callCmp _ args) m
  | add | sub | mul | div | min | max => exact ends_liftResult (clean_callFold _ _ args) m
  | round => exact ends_liftResult (clean_callRound args) m
  | quantize => exact ends_liftResult (clean_callQuantize args) m
  | clamp => exact ends_liftResult (clean_callClamp args) m
  | abs | sign => exact ends_liftResult (clean_callNumber _ args) m
  | strConcat => exact ends_liftResult (clean_callStrConcat b args) m
  | contains => exact ends_liftResult (clean_callContains args) m
  | startsWith | endsWith => exact ends_liftResult (clean_callAffix _ args) m
  | subjectAppend => exact ends_liftResult (clean_callSubjectAppend b args) m
  | subjectToken => exact ends_liftResult (clean_callSubjectToken b args) m
  | subjectWith => exact ends_liftResult (clean_callSubjectWith b args) m
  | print => exact ends_liftResult (clean_callPrint hargs) m
  | jsonGet => exact ends_liftResult (clean_callJsonGet b args) m

end Forms

/-! ## Special forms -/

section Control

variable {b : Bindings N} {publish : ℕ → Slice → Slice → MachineM N W Bool}
  {rec : ℕ → Ctx N W → Value N → EvalM N W (Value N)} {ℓ : ℕ}

/-- The evaluation of an expression comes to an end in a state with at most so many
lost slots. -/
def PartEnds (b : Bindings N) (publish : ℕ → Slice → Slice → MachineM N W Bool)
    (rec : ℕ → Ctx N W → Value N → EvalM N W (Value N)) (ℓ : ℕ) (v : Value N) : Prop :=
  ∀ m, lostCount (m.ruleState b.ruleId) ≤ ℓ → Ends (fun n => rec n ⟨b, publish n⟩ v) m

theorem ends_evalEach {vs : List (Value N)} (hvs : ∀ v ∈ vs, PartEnds b publish rec ℓ v)
    {m : Machine N W} (hm : lostCount (m.ruleState b.ruleId) ≤ ℓ) :
    TotalRun Fewer (fun n => evalEach (rec n) ⟨b, publish n⟩ vs) m
      fun as _ => ∀ a ∈ as, a.Evaluated := by
  induction vs generalizing m with
  | nil => exact .pure (a := []) fun a ha => by cases ha
  | cons v vs ih =>
    obtain ⟨hv, hvs⟩ := List.forall_mem_cons.mp hvs
    apply (hv m hm).bind
    intro a m' hfewer ha
    apply (ih hvs ((hfewer b.ruleId).trans hm)).bind
    intro as m'' _ has
    exact .pure (a := a :: as) (List.forall_mem_cons.mpr ⟨ha, has⟩)

theorem ends_evalArgs {vs : List (Value N)} (hvs : ∀ v ∈ vs, PartEnds b publish rec ℓ v)
    {m : Machine N W} (hm : lostCount (m.ruleState b.ruleId) ≤ ℓ) :
    TotalRun Fewer (fun n => evalArgs (rec n) ⟨b, publish n⟩ vs) m
      fun as _ => ∀ a ∈ as, a.Evaluated := by
  unfold evalArgs
  by_cases harena : (!b.alloc .arena && !vs.isEmpty) = true
  · simp only [if_pos harena]
    exact .throw _
  · simp only [if_neg harena]
    exact ends_evalEach hvs hm

theorem ends_evalDoFrom {last : Value N} (hlast : last.Evaluated) {vs : List (Value N)}
    (hvs : ∀ v ∈ vs, PartEnds b publish rec ℓ v) {m : Machine N W}
    (hm : lostCount (m.ruleState b.ruleId) ≤ ℓ) :
    Ends (fun n => evalDoFrom (rec n) ⟨b, publish n⟩ last vs) m := by
  induction vs generalizing m last with
  | nil => exact ends_pure hlast m
  | cons v vs ih =>
    obtain ⟨hv, hvs⟩ := List.forall_mem_cons.mp hvs
    apply (hv m hm).bind
    intro a m' hfewer ha
    exact ih ha hvs ((hfewer b.ruleId).trans hm)

theorem ends_evalDo {vs : List (Value N)} (hvs : ∀ v ∈ vs, PartEnds b publish rec ℓ v)
    {m : Machine N W} (hm : lostCount (m.ruleState b.ruleId) ≤ ℓ) :
    Ends (fun n => evalDo (rec n) ⟨b, publish n⟩ vs) m :=
  @ends_evalDoFrom _ _ _ _ _ _ .nil rfl _ hvs _ hm

theorem ends_evalIf {vs : List (Value N)} (hvs : ∀ v ∈ vs, PartEnds b publish rec ℓ v)
    {m : Machine N W} (hm : lostCount (m.ruleState b.ruleId) ≤ ℓ) :
    Ends (fun n => evalIf (rec n) ⟨b, publish n⟩ vs) m := by
  unfold evalIf
  split
  · rename_i c t
    apply (hvs c (by simp) m hm).bind
    intro a m' hfewer _
    cases a.truthy with
    | true => exact hvs t (by simp) m' ((hfewer b.ruleId).trans hm)
    | false => exact ends_pure (v := .nil) rfl m'
  · rename_i c t f
    apply (hvs c (by simp) m hm).bind
    intro a m' hfewer _
    cases a.truthy with
    | true => exact hvs t (by simp) m' ((hfewer b.ruleId).trans hm)
    | false => exact hvs f (by simp) m' ((hfewer b.ruleId).trans hm)
  · exact ends_throw _ m

theorem ends_evalWhen {vs : List (Value N)} (hvs : ∀ v ∈ vs, PartEnds b publish rec ℓ v)
    {m : Machine N W} (hm : lostCount (m.ruleState b.ruleId) ≤ ℓ) :
    Ends (fun n => evalWhen (rec n) ⟨b, publish n⟩ vs) m := by
  cases vs with
  | nil => exact ends_throw _ m
  | cons c body =>
    obtain ⟨hc, hbody⟩ := List.forall_mem_cons.mp hvs
    apply (hc m hm).bind
    intro a m' hfewer _
    cases a.truthy with
    | true => exact ends_evalDo hbody ((hfewer b.ruleId).trans hm)
    | false => exact ends_pure (v := .nil) rfl m'

theorem ends_evalAndFrom {last : Value N} (hlast : last.Evaluated) {vs : List (Value N)}
    (hvs : ∀ v ∈ vs, PartEnds b publish rec ℓ v) {m : Machine N W}
    (hm : lostCount (m.ruleState b.ruleId) ≤ ℓ) :
    Ends (fun n => evalAndFrom (rec n) ⟨b, publish n⟩ last vs) m := by
  induction vs generalizing m last with
  | nil => exact ends_pure hlast m
  | cons v vs ih =>
    obtain ⟨hv, hvs⟩ := List.forall_mem_cons.mp hvs
    apply (hv m hm).bind
    intro a m' hfewer ha
    cases a.truthy with
    | true => exact ih ha hvs ((hfewer b.ruleId).trans hm)
    | false => exact ends_pure ha m'

theorem ends_evalOr {vs : List (Value N)} (hvs : ∀ v ∈ vs, PartEnds b publish rec ℓ v)
    {m : Machine N W} (hm : lostCount (m.ruleState b.ruleId) ≤ ℓ) :
    Ends (fun n => evalOr (rec n) ⟨b, publish n⟩ vs) m := by
  induction vs generalizing m with
  | nil => exact ends_pure (v := .nil) rfl m
  | cons v vs ih =>
    obtain ⟨hv, hvs⟩ := List.forall_mem_cons.mp hvs
    apply (hv m hm).bind
    intro a m' hfewer ha
    cases a.truthy with
    | true => exact ends_pure ha m'
    | false => exact ih hvs ((hfewer b.ruleId).trans hm)

/-- The calls the thread form makes of a form come to an end. -/
def CallsEnd (b : Bindings N) (publish : ℕ → Slice → Slice → MachineM N W Bool)
    (rec : ℕ → Ctx N W → Value N → EvalM N W (Value N)) (ℓ : ℕ) (form : Value N) : Prop :=
  ∀ threaded : Value N, threaded.Evaluated →
    (∀ name, form = .symbol name → PartEnds b publish rec ℓ (.list [.symbol name, threaded])) ∧
      ∀ name args, form = .list (.symbol name :: args) →
        PartEnds b publish rec ℓ (.list (.symbol name :: args ++ [threaded]))

theorem ends_evalCallWithThreaded {form : Value N} (hform : CallsEnd b publish rec ℓ form)
    {threaded : Value N} (ht : threaded.Evaluated) {m : Machine N W}
    (hm : lostCount (m.ruleState b.ruleId) ≤ ℓ) :
    Ends (fun n => evalCallWithThreaded (rec n) ⟨b, publish n⟩ form threaded) m := by
  obtain ⟨hsymbol, hlist⟩ := hform threaded ht
  unfold evalCallWithThreaded
  split
  · exact hsymbol _ rfl m hm
  · by_cases harena : b.alloc .arena = true
    · simp only [if_pos harena]
      exact hlist _ _ rfl m hm
    · simp only [if_neg harena]
      exact ends_throw _ m
  · exact ends_throw _ m

theorem ends_evalThreadFrom {fs : List (Value N)} (hfs : ∀ f ∈ fs, CallsEnd b publish rec ℓ f)
    {cur : Value N} (hcur : cur.Evaluated) {m : Machine N W}
    (hm : lostCount (m.ruleState b.ruleId) ≤ ℓ) :
    Ends (fun n => evalThreadFrom (rec n) ⟨b, publish n⟩ cur fs) m := by
  induction fs generalizing m cur with
  | nil => exact ends_pure hcur m
  | cons form fs ih =>
    obtain ⟨hform, hfs⟩ := List.forall_mem_cons.mp hfs
    unfold evalThreadFrom
    cases hnil : cur.isNil with
    | true => exact ends_pure hcur m
    | false =>
      apply (ends_evalCallWithThreaded hform hcur hm).bind
      intro a m' hfewer ha
      exact ih hfs ha ((hfewer b.ruleId).trans hm)

theorem ends_evalThread {v : Value N} {fs : List (Value N)} (hv : PartEnds b publish rec ℓ v)
    (hfs : ∀ f ∈ fs, CallsEnd b publish rec ℓ f) {m : Machine N W}
    (hm : lostCount (m.ruleState b.ruleId) ≤ ℓ) :
    Ends (fun n => evalThread (rec n) ⟨b, publish n⟩ (v :: fs)) m := by
  apply (hv m hm).bind
  intro a m' hfewer ha
  exact ends_evalThreadFrom hfs ha ((hfewer b.ruleId).trans hm)

section Slots

variable [Number N]

theorem ends_evalTransition {vs : List (Value N)} (hvs : ∀ v ∈ vs, PartEnds b publish rec ℓ v)
    {m : Machine N W} (hm : lostCount (m.ruleState b.ruleId) ≤ ℓ) :
    Ends (fun n => evalTransition (rec n) ⟨b, publish n⟩ vs) m := by
  unfold evalTransition
  split
  · rename_i c up down
    apply (hvs c (by simp) m hm).bind
    intro a m' hfewer _
    have hm' := (hfewer b.ruleId).trans hm
    have hslot := totalRun_onSlot_afresh (b := b) (p := publish) (m := m')
      (f := fun _ => levelChange a.truthy) (.transition a.truthy)
    apply hslot.bind
    intro change m'' hfewer' _
    have hm'' := (hfewer' b.ruleId).trans hm'
    split
    · exact hvs up (by simp) m'' hm''
    · exact hvs down (by simp) m'' hm''
    · exact ends_pure (v := .nil) rfl m''
  · exact ends_throw _ m

theorem ends_evalMs {v : Value N} (hv : PartEnds b publish rec ℓ v) {m : Machine N W}
    (hm : lostCount (m.ruleState b.ruleId) ≤ ℓ) :
    TotalRun Fewer (fun n => evalMs (rec n) ⟨b, publish n⟩ v) m
      fun ms _ => wholeFromOne ms = true := by
  unfold evalMs
  have hlift : TotalRun Fewer
      (fun n => (ExceptT.lift (rec n ⟨b, publish n⟩ v).run : EvalM N W (Except EvalError (Value N))))
      m fun _ _ => True :=
    .lift (Total.mono (hv m hm) fun _ _ h => ⟨h.1, trivial⟩)
  apply hlift.bind
  intro r m' _ _
  split
  · exact .throw _
  · split
    · exact .throw _
    · split
      · rename_i hms
        exact .pure hms
      · exact .throw _

theorem ends_callOnSilence {vs : List (Value N)} (hvs : ∀ v ∈ vs, PartEnds b publish rec ℓ v)
    {m : Machine N W} (hm : lostCount (m.ruleState b.ruleId) ≤ ℓ) :
    Ends (fun n => callOnSilence (rec n) ⟨b, publish n⟩ vs) m := by
  unfold callOnSilence
  split
  · rename_i k v b' body
    split
    · exact ends_throw _ m
    · apply (ends_evalMs (hvs v (by simp)) hm).bind
      intro ms m' _ hms
      have hform : SlotForm b.alloc b.nowMs (lit "on-silence")
          (onSilenceArm b.alloc (toU64 ms) b.nowMs (m'.reread b).payload (b' :: body)) :=
        .onSilence hms _ _
      apply totalRun_afresh
      exact @ends_onSlot _ _ _ (m'.reread b) publish _ _ hform
        (clean_onSilenceArm b.alloc _ b.nowMs _ _) m'
  · exact ends_throw _ m

omit [Number N] in
/-- A stored form is read out of a slot that was lost. -/
theorem dropoutArm_some {ms now : UInt64} {lost found : Value N} {e : StateEntry N} {form : Value N}
    (h : (dropoutArm ms now lost found e).result = .ok (some form)) :
    e.dropoutLost = true ∧ (dropoutArm ms now lost found e).entry.dropoutLost = false := by
  unfold dropoutArm at h ⊢
  dsimp only at h ⊢
  split_ifs at h ⊢ with hother hempty hlost
  · cases h
  · exact ⟨hlost, rfl⟩
  · cases h
  · exact ⟨by assumption, rfl⟩
  · cases h

theorem ends_callDropout {vs : List (Value N)} (hvs : ∀ v ∈ vs, PartEnds b publish rec ℓ v)
    (hstored : ∀ ℓ' < ℓ, ∀ v, PartEnds b publish rec ℓ' v) {m : Machine N W}
    (hm : lostCount (m.ruleState b.ruleId) ≤ ℓ) :
    Ends (fun n => callDropout (rec n) ⟨b, publish n⟩ vs) m := by
  unfold callDropout
  split
  · rename_i k v kl lost kf found
    split
    · exact ends_throw _ m
    · apply (ends_evalMs (hvs v (by simp)) hm).bind
      intro ms m' hfewer hms
      have hm' := (hfewer b.ruleId).trans hm
      have hslot := totalRun_onSlot_afresh (b := b) (p := publish) (m := m')
        (f := fun b => dropoutArm (toU64 ms) b.nowMs lost found) (.dropout hms lost found)
      apply hslot.bind
      rintro form m'' - ⟨e, hresult, hless⟩
      cases form with
      | none => exact ends_pure (v := .nil) rfl m''
      | some form =>
        obtain ⟨hlost, hback⟩ := dropoutArm_some hresult
        exact hstored _ ((hless hlost hback).trans_le hm') form m'' le_rfl
  · exact ends_throw _ m

theorem ends_evalSymbol (name : Bytes) (m : Machine N W) :
    Ends (fun n => evalSymbol ⟨b, publish n⟩ name) m := by
  unfold evalSymbol
  dsimp only
  split
  · exact ends_pure (v := .string b.subject) rfl m
  · split
    · exact ends_pure (v := .string b.payload) rfl m
    · split
      · exact ends_pure (v := .bool b.replaying) rfl m
      · split
        · split
          · exact ends_throw _ m
          · split
            · exact ends_throw _ m
            · exact ends_pure (v := .number _) rfl m
        · exact ends_throw _ m

theorem ends_evalList (hpub : HookEnds publish) {head : Value N} {raw : List (Value N)}
    (hraw : ∀ v ∈ raw, PartEnds b publish rec ℓ v) (hcalls : ∀ f ∈ raw.tail, CallsEnd b publish rec ℓ f)
    (hstored : ∀ ℓ' < ℓ, ∀ v, PartEnds b publish rec ℓ' v) {m : Machine N W}
    (hm : lostCount (m.ruleState b.ruleId) ≤ ℓ) :
    Ends (fun n => evalList (rec n) ⟨b, publish n⟩ (head :: raw)) m := by
  unfold evalList
  dsimp only
  split
  · exact ends_throw _ m
  · exact ends_evalDo hraw hm
  · exact ends_evalIf hraw hm
  · exact ends_evalWhen hraw hm
  · exact @ends_evalAndFrom _ _ _ _ _ _ (.bool true) rfl _ hraw _ hm
  · exact ends_evalOr hraw hm
  · cases raw with
    | nil => exact ends_throw _ m
    | cons v fs => exact ends_evalThread (hraw v List.mem_cons_self) hcalls hm
  · exact ends_evalTransition hraw hm
  · exact ends_callOnSilence hraw hm
  · exact ends_callDropout hraw hstored hm
  · apply (ends_evalArgs hraw hm).bind
    intro args m' _ hargs
    apply totalRun_afresh
    exact ends_callForm hpub _ hargs m'

end Slots

end Control

/-! ## Expressions -/

section Expressions

variable [Number N] {b : Bindings N} {publish : ℕ → Slice → Slice → MachineM N W Bool} {ℓ : ℕ}

/-- The evaluation comes to an end whatever part of the fuel is left for the depth
of expressions. -/
def EvalEnds (b : Bindings N) (publish : ℕ → Slice → Slice → MachineM N W Bool) (ℓ : ℕ)
    (v : Value N) : Prop :=
  ∀ depth : ℕ → ℕ, Tendsto depth atTop atTop → PartEnds b publish (fun n => eval (depth n)) ℓ v

/-- The calls of the thread form weigh less than the thread. -/
theorem callsEnd_of_weight {w : ℕ} {form : Value N} {depth : ℕ → ℕ}
    (hdepth : Tendsto depth atTop atTop) (hw : form.weight + 2 ≤ w)
    (hlight : ∀ v : Value N, v.weight < w → EvalEnds b publish ℓ v) :
    CallsEnd b publish (fun n => eval (depth n)) ℓ form := by
  intro threaded ht
  have hthreaded : threaded.weight = 0 := ht
  refine ⟨?_, ?_⟩
  · rintro name rfl
    apply hlight _ ?_ depth hdepth
    simp only [Value.weight, weights] at hw ⊢
    omega
  · rintro name args rfl
    apply hlight _ ?_ depth hdepth
    simp only [List.cons_append, Value.weight, weights_append, weights] at hw ⊢
    omega

theorem evalEnds_step (hpub : HookEnds publish) {v : Value N}
    (hstored : ∀ ℓ' < ℓ, ∀ w : Value N, EvalEnds b publish ℓ' w)
    (hlight : ∀ w : Value N, w.weight < v.weight → EvalEnds b publish ℓ w)
    (hpart : ∀ w : Value N, w.weight ≤ v.weight → sizeOf w < sizeOf v → EvalEnds b publish ℓ w)
    {depth : ℕ → ℕ} (hdepth : Tendsto depth atTop atTop) {m : Machine N W}
    (hm : lostCount (m.ruleState b.ruleId) ≤ ℓ) :
    Ends (fun n => evalStep (eval (depth n - 1)) ⟨b, publish n⟩ v) m := by
  have hdepth' : Tendsto (fun n => depth n - 1) atTop atTop :=
    (tendsto_sub_atTop_nat 1).comp hdepth
  cases v with
  | symbol name => exact ends_evalSymbol name m
  | vector items =>
    have hitems : ∀ w ∈ items, PartEnds b publish (fun n => eval (depth n - 1)) ℓ w := by
      intro w hw
      apply hpart w (weight_le_of_mem hw) ?_ _ hdepth'
      have := List.sizeOf_lt_of_mem hw
      simp only [Value.vector.sizeOf_spec]
      omega
    apply (ends_evalArgs hitems hm).bind
    intro vs m' _ hvs
    exact ends_pure (v := .vector vs) (weights_eq_zero hvs) m'
  | list call =>
    cases call with
    | nil => exact ends_throw _ m
    | cons head raw =>
      apply ends_evalList hpub ?_ ?_ (fun ℓ' hℓ w => hstored ℓ' hℓ w _ hdepth') hm
      · intro w hw
        have := weight_le_of_mem hw
        exact hlight w (by simp only [Value.weight]; omega) _ hdepth'
      · intro form hform
        have := weight_le_of_mem (List.mem_of_mem_tail hform)
        exact callsEnd_of_weight hdepth' (by simp only [Value.weight]; omega) hlight
  | nil => exact ends_pure (v := .nil) rfl m
  | bool x => exact ends_pure (v := .bool x) rfl m
  | number x => exact ends_pure (v := .number x) rfl m
  | keyword text => exact ends_pure (v := .keyword text) rfl m
  | string text => exact ends_pure (v := .string text) rfl m

/-- Every evaluation comes to an end if the publish hook does. -/
theorem evalEnds (hpub : HookEnds publish) (ℓ : ℕ) (v : Value N) : EvalEnds b publish ℓ v := by
  induction ℓ using Nat.strong_induction_on generalizing v b with
  | _ ℓ hstored =>
    induction hw : v.weight using Nat.strong_induction_on generalizing v b with
    | _ w hlight =>
      induction hs : sizeOf v using Nat.strong_induction_on generalizing v b with
      | _ s hpart =>
        intro depth hdepth m hm
        -- one level of the evaluator is taken off, at what the slices read
        have hstep : Ends (fun n => evalStep (eval (depth n - 1)) ⟨m.reread b, publish n⟩ v) m := by
          refine @evalEnds_step _ _ _ (m.reread b) _ _ hpub v (fun ℓ' hℓ w => hstored ℓ' hℓ w)
            ?_ ?_ _ hdepth m hm
          · exact fun u hu => hlight u.weight (hw ▸ hu) u rfl
          · intro u hu hsize
            rcases hu.lt_or_eq with hlt | heq
            · exact hlight u.weight (hw ▸ hlt) u rfl
            · exact hpart (sizeOf u) (hs ▸ hsize) u (heq.trans hw) rfl
        apply Total.congr hstep
        filter_upwards [hdepth.eventually_ge_atTop 1] with n hn
        obtain ⟨k, hk⟩ := Nat.exists_eq_add_of_le' hn
        rw [hk]
        rfl

end Expressions

end Monoblok.Patchbay
