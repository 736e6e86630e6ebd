import Monoblok.Patchbay.Timeless
import Monoblok.Snapshot.CatchUp
import Monoblok.Source.FrontEnds

/-!
# The scan for clock forms

`scan_clock_forms` looks for calls as they are written: a form with a clock, or a form with a
window and `:ms` behind its name. A window that is one of time only because the first argument
comes to `:ms` is not found. In the runs in which there is none, no deadline is overlooked.
-/

namespace Monoblok.Patchbay

open Number Coinciding

variable {N W : Type}

/-! ## Windows that are not written -/

/-- The forms that take a window. -/
def Form.isWindowed : Form → Bool
  | .movingAvg | .movingSum | .movingMax | .movingMin | .stddev | .variance | .median
  | .percentile | .rate | .throttle | .bar => true
  | _ => false

/-- A call of a form with a window whose first argument is not the keyword `:ms` itself. -/
def unwrittenWindow : Value N → Option (Form × List (Value N))
  | .list (head :: raw) =>
    match findForm head.text with
    | some form =>
      if form.isWindowed && !(raw.head?.any fun v => v.keywordEq "ms") then some (form, raw)
      else none
    | none => none
  | _ => none

theorem list_of_unwrittenWindow {v : Value N} {form : Form} {raw : List (Value N)}
    (h : unwrittenWindow v = some (form, raw)) : ∃ head, v = .list (head :: raw) := by
  unfold unwrittenWindow at h
  split at h
  · split at h
    · split_ifs at h
      cases h
      exact ⟨_, rfl⟩
    · cases h
  · cases h

theorem written_of_unwrittenWindow {head : Value N} {raw : List (Value N)} {form : Form}
    (h : unwrittenWindow (.list (head :: raw)) = none) (hform : findForm head.text = some form)
    (hwindowed : form.isWindowed = true) : (raw.head?.any fun v => v.keywordEq "ms") = true := by
  simpa [unwrittenWindow, hform, hwindowed] using h

section Written

variable [Number N]

/-- The evaluator that has no result where such a call comes to a window of time. -/
def writtenEval : ℕ → Ctx N W → Value N → EvalM N W (Value N)
  | 0 => fun _ _ => ExceptT.mk fun _ => none
  | depth + 1 => fun ctx v => afresh ctx fun ctx =>
    match unwrittenWindow v with
    | some (form, raw) => do
      let args ← evalArgs (writtenEval depth) ctx raw
      if (slotOp form args).any fun op => timeOps.contains op then ExceptT.mk fun _ => none
      else afresh ctx fun ctx => callForm ctx form args
    | none => evalStep (writtenEval depth) ctx v

/-- Runs from the freshly loaded program in which every window of time is written, unless the
scan has found something; whatever memory there is, and without snapshots. -/
inductive WrittenRun (rules : List (RuleSource N)) (usesClock : Bool) : Machine N W → Prop
  | load (world : W) : WrittenRun rules usesClock ⟨loadProgram rules usesClock, world⟩
  | world {m : Machine N W} (world : W) (h : WrittenRun rules usesClock m) :
      WrittenRun rules usesClock { m with world := world }
  | publish {m m' : Machine N W} (env : Env N W) (t : Moment) (subject payload : Bytes) {ok : Bool}
      (h : WrittenRun rules usesClock m)
      (written : usesClock = true ∨ publishWith (writtenEval env.fuel) env t subject payload m =
        evalPublish env t subject payload m)
      (run : evalPublish env t subject payload m = some (ok, m')) : WrittenRun rules usesClock m'
  | tick {m m' : Machine N W} (env : Env N W) (t : Moment) {ok : Bool}
      (h : WrittenRun rules usesClock m)
      (written : usesClock = true ∨ tickWith (writtenEval env.fuel) env t m = tick env t m)
      (run : tick env t m = some (ok, m')) : WrittenRun rules usesClock m'
  | tickUntil {m m' : Machine N W} (env : Env N W) (t : Moment) {ok : Bool}
      (h : WrittenRun rules usesClock m)
      (written : usesClock = true ∨
        tickUntilWith (writtenEval env.fuel) env t m = tickUntil env t m)
      (run : tickUntil env t m = some (ok, m')) : WrittenRun rules usesClock m'

theorem WrittenRun.reached {rules : List (RuleSource N)} {usesClock : Bool} {m : Machine N W}
    (h : WrittenRun rules usesClock m) : Reached rules usesClock m := by
  induction h with
  | load world => exact .load world
  | world world _ ih => exact .world world ih
  | publish env t subject payload _ _ run ih => exact .publish env t subject payload ih run
  | tick env t _ _ run ih => exact .tick env t ih run
  | tickUntil env t _ _ run ih => exact .tickUntil env t ih run

/-! ## Operations of time -/

/-- The forms with a clock. -/
def Form.isClocked : Form → Bool
  | .onSilence | .dropout | .debounce | .sample | .aggregate => true
  | _ => false

theorem windowSlotOp_timeOps {op : String} (hop : op ∈ windowNames) {extra : ℕ} (hextra : 1 ≤ extra)
    {args : List (Value N)} {o : Bytes} (h : windowSlotOp op extra args = some o)
    (ho : o ∈ timeOps) : 3 ≤ args.length := by
  unfold windowSlotOp at h
  split at h
  · rename_i w rest hw
    split_ifs at h with hlength
    cases h
    have htime := (windowOp_timeOps hop w).mp ho
    unfold parseWindow at hw
    split at hw
    · cases hw
    · split at hw
      · split at hw
        · cases hw
        · split at hw
          · cases hw
          · split_ifs at hw
            cases hw
            simp only [List.length_cons]
            omega
      · split at hw
        · cases hw
        · split_ifs at hw
          cases hw
          cases htime
  · cases h

/-- A call comes to an operation of time by a form with a window or a clock, and with three
arguments at least. -/
theorem slotOp_timeOps {form : Form} {args : List (Value N)} {o : Bytes}
    (h : slotOp form args = some o) (ho : o ∈ timeOps) :
    3 ≤ args.length ∧ (form.isWindowed = true ∨ form.isClocked = true) := by
  cases form with
  | movingAvg | movingSum | movingMax | movingMin | stddev | variance | median | percentile
  | throttle => exact ⟨windowSlotOp_timeOps (by decide) (by decide) h ho, .inl rfl⟩
  | rate =>
    simp only [slotOp] at h
    split at h
    · exact ⟨by simp, .inl rfl⟩
    · cases h
  | bar =>
    simp only [slotOp] at h
    split at h
    · rename_i timeWindow rest hargs
      cases h
      cases timeWindow with
      | false => exact absurd ho (by decide)
      | true =>
        unfold barArgs at hargs
        split at hargs
        · split at hargs
          · cases hargs
          · split_ifs at hargs
            cases hargs
        · exact ⟨by simp, .inl rfl⟩
        · cases hargs
    · cases h
  | debounce | sample | aggregate =>
    simp only [slotOp] at h
    split_ifs at h with hlength
    exact ⟨by omega, .inr rfl⟩
  | _ =>
    cases h
    try exact absurd ho (by decide)

end Written

/-! ## What the scan does not find -/

/-- An expression of a source in which the scan finds nothing. -/
def Unclocked (v : Value N) : Prop := v.Shaped ∧ scanClockForms v = false

theorem scanClockItems_false {vs : List (Value N)} :
    scanClockItems vs = false ↔ ∀ v ∈ vs, scanClockForms v = false := by
  induction vs with
  | nil => simp [scanClockItems]
  | cons v vs ih => simp [scanClockItems, ih]

theorem unclocked_list {items : List (Value N)} (h : Unclocked (.list items)) :
    isClockForm (.list items) = false ∧ ∀ v ∈ items, Unclocked v := by
  obtain ⟨hshaped, hscan⟩ := h
  rw [scanClockForms, Bool.or_eq_false_iff, scanClockItems_false] at hscan
  exact ⟨hscan.1, fun v hv => ⟨(shaped_list.mp hshaped).2 v hv, hscan.2 v hv⟩⟩

theorem unclocked_vector {items : List (Value N)} (h : Unclocked (.vector items)) :
    ∀ v ∈ items, Unclocked v := by
  obtain ⟨hshaped, hscan⟩ := h
  rw [scanClockForms, scanClockItems_false] at hscan
  exact fun v hv => ⟨shaped_vector.mp hshaped v hv, hscan v hv⟩

/-- What an evaluation of such an expression comes to: its parts, values, and the calls that the
thread form puts together. -/
inductive Calm : Value N → Prop
  | source {v : Value N} (h : Unclocked v) : Calm v
  | value {v : Value N} (h : v.Evaluated) : Calm v
  | symbolStep (name : Bytes) {x : Value N} (h : x.Evaluated) : Calm (.list [.symbol name, x])
  | listStep {name : Bytes} {args : List (Value N)} (h : Unclocked (.list (.symbol name :: args)))
      {x : Value N} (hx : x.Evaluated) : Calm (.list (.symbol name :: args ++ [x]))

/-- The names of a kind of form are found among those listed for it. -/
theorem findForm_listed {kind : Form → Bool} {names : List String}
    (hall : ∀ entry ∈ forms, kind entry.2 = true → entry.1 ∈ names) {name : Bytes} {form : Form}
    (h : findForm name = some form) (hform : kind form = true) :
    names.any fun n => name == lit n := by
  obtain ⟨entry, hfind, rfl⟩ := Option.map_eq_some_iff.mp h
  have hname := List.find?_some hfind
  exact List.any_eq_true.mpr ⟨entry.1, hall entry (List.mem_of_find?_eq_some hfind) hform, hname⟩

theorem clocked_listed : ∀ entry ∈ forms, entry.2.isClocked = true → entry.1 ∈ clockForms := by
  decide

theorem windowed_listed :
    ∀ entry ∈ forms, entry.2.isWindowed = true → entry.1 ∈ windowedForms := by
  decide

/-- No call with a clock is written in such an expression. -/
theorem unclocked_head {name : Bytes} {args : List (Value N)}
    (h : Unclocked (.list (.symbol name :: args))) {form : Form} (hform : findForm name = some form) :
    form.isClocked = false := by
  have hclock := (unclocked_list h).1
  cases hcase : form.isClocked with
  | false => rfl
  | true =>
    have hname := findForm_listed clocked_listed hform hcase
    simp [isClockForm, valueHeadIs, hname] at hclock

/-- Nor is one with a window of time. -/
theorem unclocked_window {name : Bytes} {args : List (Value N)}
    (h : Unclocked (.list (.symbol name :: args))) {form : Form} (hform : findForm name = some form)
    (hwindowed : form.isWindowed = true) (hms : (args.head?.any fun v => v.keywordEq "ms") = true) :
    args.length < 2 := by
  have hclock := (unclocked_list h).1
  have hname := findForm_listed windowed_listed hform hwindowed
  match args with
  | [] => simp
  | [v] => simp
  | v :: w :: rest =>
    rw [List.head?_cons, Option.any_some, Value.keywordEq, Bool.and_eq_true] at hms
    obtain ⟨hkeyword, htext⟩ := hms
    cases v with
    | keyword text =>
      have hms : (text == lit "ms") = true := htext
      simp only [isClockForm, valueHeadIs, hname, callHasMsWindow, hms, Bool.and_self,
        Bool.true_or, Bool.true_eq_false] at hclock
    | _ => cases hkeyword

/-- A call that the evaluation comes to has an argument at most, or it is one of the expression,
perhaps with one more argument. -/
theorem calm_call {head : Value N} {raw : List (Value N)} (h : Calm (.list (head :: raw))) :
    raw.length ≤ 1 ∨ ∃ name args, head = .symbol name ∧ Unclocked (.list (.symbol name :: args)) ∧
      (raw = args ∨ ∃ x : Value N, x.Evaluated ∧ raw = args ++ [x]) := by
  generalize hlist : Value.list (head :: raw) = w at h
  cases h with
  | source h =>
    subst hlist
    obtain ⟨name, args, hcall⟩ := (shaped_list.mp h.1).1
    cases hcall
    exact .inr ⟨name, raw, rfl, h, .inl rfl⟩
  | value h =>
    subst hlist
    exact absurd h not_evaluated_list
  | symbolStep name h =>
    cases hlist
    exact .inl le_rfl
  | @listStep name args h x hx =>
    cases hlist
    exact .inr ⟨name, args, rfl, h, .inr ⟨x, hx, rfl⟩⟩

/-- Such a call, with two arguments at least, is not one with a clock. -/
theorem calm_not_clocked {head : Value N} {raw : List (Value N)} (h : Calm (.list (head :: raw)))
    (hraw : 1 < raw.length) {form : Form} (hform : findForm head.text = some form) :
    form.isClocked = false := by
  rcases calm_call h with hle | ⟨name, args, rfl, hcall, -⟩
  · omega
  · exact unclocked_head hcall hform

/-- Nor has it a window that is written as one of time, and enough arguments for it. -/
theorem calm_window {head : Value N} {raw : List (Value N)} (h : Calm (.list (head :: raw)))
    {form : Form} (hform : findForm head.text = some form) (hwindowed : form.isWindowed = true)
    (hms : (raw.head?.any fun v => v.keywordEq "ms") = true) : raw.length < 3 := by
  rcases calm_call h with hle | ⟨name, args, rfl, hcall, rfl | ⟨x, hx, rfl⟩⟩
  · omega
  · exact (unclocked_window hcall hform hwindowed hms).trans (by decide)
  · cases args with
    | nil => simp
    | cons v args =>
      have hlength := unclocked_window hcall hform hwindowed hms
      simp only [List.length_append, List.length_cons, List.length_nil] at hlength ⊢
      omega

theorem calm_args {head : Value N} {raw : List (Value N)} (h : Calm (.list (head :: raw))) :
    ∀ v ∈ raw, Unclocked v ∨ v.Evaluated := by
  generalize hlist : Value.list (head :: raw) = w at h
  cases h with
  | source h =>
    subst hlist
    exact fun v hv => .inl ((unclocked_list h).2 v (List.mem_cons_of_mem _ hv))
  | value h =>
    subst hlist
    exact absurd h not_evaluated_list
  | symbolStep name h =>
    cases hlist
    exact List.forall_mem_singleton.mpr (.inr h)
  | listStep h hx =>
    cases hlist
    intro v hv
    rcases List.mem_append.mp hv with hv | hv
    · exact .inl ((unclocked_list h).2 v (List.mem_cons_of_mem _ hv))
    · rw [List.mem_singleton.mp hv]
      exact .inr hx

theorem discipline_calm : Discipline (N := N) NoForms Calm where
  deferred h := h.elim
  evaluated h := .value h
  items h v hv := by
    cases h with
    | source h => exact .source (unclocked_vector h v hv)
    | value h => exact .value (evaluated_of_mem_vector hv h)
  args {head args} h v hv := by
    rcases calm_args h v hv with h | h
    · exact .source h
    · exact .value h
  onSilence {head k m b body} h hform := by
    have hclocked := calm_not_clocked h (by simp) hform
    cases hclocked
  dropout {head k m kl lost kf found} h hform := by
    have hclocked := calm_not_clocked h (by simp) hform
    cases hclocked
  symbolStep _ _ _ _ _ hx := .symbolStep _ hx
  listStep {head v fs} h _ name args hmem x hx := by
    rcases calm_args h _ (List.mem_cons_of_mem v hmem) with h | h
    · exact .listStep h hx
    · exact absurd h not_evaluated_list

/-! ## Runs -/

section Runs

variable [Number N] {p : Program N}

/-- While no slot has a time, the evaluator gives none one. -/
theorem sameRecs_writtenEval (depth : ℕ) :
    SameRecs (W := W) (Untimely p) Calm (writtenEval depth) (writtenEval depth) := by
  induction depth with
  | zero => exact fun _ _ _ _ _ _ => Coincide.noResult
  | succ depth ih =>
    intro b publish publish' hpub v hv
    unfold writtenEval
    apply coincide_afresh
    intro s pl
    generalize { b with subject := s, payload := pl } = b
    have hslots : SlotsAlike (Untimely p) NoForms (· ∉ timeOps) b publish publish' :=
      fun _ _ => sameSlots_untimely _ publish publish'
    have hrec := ih b publish publish' hpub
    split
    · rename_i form raw hcall
      obtain ⟨head, rfl⟩ := list_of_unwrittenWindow hcall
      have hraw := discipline_calm.args hv
      apply (coincide_evalArgs hrec hraw).bind
      rintro args ⟨hargs, -⟩
      split
      · exact Coincide.noResult
      · rename_i hop
        apply coincide_afresh
        intro s pl
        apply sameEvals_callForm (hslots s pl) hpub hargs
        intro o ho htime
        simp [ho, htime] at hop
    · rename_i hcall
      apply sameEvals_evalStep discipline_calm hpub hslots (by decide) hrec hv
      rintro head raw rfl form args hform hlength o ho htime
      obtain ⟨hthree, hwindowed | hclocked⟩ := slotOp_timeOps ho htime
      · have hshort := calm_window hv hform hwindowed (written_of_unwrittenWindow hcall hform hwindowed)
        omega
      · simp [calm_not_clocked hv (by omega) hform] at hclocked

theorem WrittenRun.untimely {rules : List (RuleSource N)} {m : Machine N W}
    (h : WrittenRun rules false m) (hbodies : ∀ r ∈ rules, Calm r.body) :
    Untimely (loadProgram rules false) m := by
  have hbodies := @bodies_loadProgram _ _ _ false hbodies
  have hsteps := @sameSteps_untimely N W _ (loadProgram rules false)
  have hev := @sameRecs_writtenEval N W _ (loadProgram rules false)
  induction h with
  | load world =>
    constructor
    · rfl
    · have hload : Snapshot.ProgramHas Timeless (loadProgram rules false) := by
        intro r hr
        obtain ⟨src, -, rfl⟩ := List.mem_map.mp hr
        exact fun e he => by cases he
      exact (@Snapshot.programHas_iff _ _ _ ⟨loadProgram rules false, world⟩).mp hload
  | world world _ ih => exact ⟨ih.source, ih.slots⟩
  | publish env t subject payload _ written run ih =>
    rw [← written.resolve_left Bool.false_ne_true] at run
    exact ((coincide_publish hsteps (hev env.fuel) hbodies t subject payload).left ih run).1
  | tick env t _ written run ih =>
    rw [← written.resolve_left Bool.false_ne_true] at run
    exact ((coincide_tick hsteps (hev env.fuel) hbodies t discipline_calm).left ih run).1
  | tickUntil env t _ written run ih =>
    rw [← written.resolve_left Bool.false_ne_true] at run
    exact ((coincide_tickUntil hsteps (hev env.fuel) hbodies t discipline_calm).left ih run).1

end Runs

/-! ## Sources -/

section Sources

variable [ConfigNumber N] {memory : Bytes → Bool} {readJson : Bytes → Except ℕ (Json N)}
  {path src : Bytes} {forms : List (Value N)} {getenv : Bytes → Option Bytes} {program : Program N}
  {loaded : LoadedSource N}

theorem unclocked_bodies (hshaped : AllShaped forms) (hscan : scanClockItems forms = false)
    (h : loadForms getenv forms = some loaded) : ∀ r ∈ loaded.rules, Unclocked r.body := by
  have hforms : ∀ items, .list items ∈ forms → ∀ v ∈ items, Unclocked v := by
    intro items hitems
    have hform := scanClockItems_false.mp hscan _ hitems
    exact (unclocked_list ⟨hshaped _ hitems, hform⟩).2
  exact bodies_of_items (p := .zero) hforms (fun r hr => by cases hr) h

/-- In the runs in which every window of time is written, or the scan has found something anyway,
a slot has a deadline only if the scan has found something, and the next deadline is one that
is not later. -/
theorem no_deadline_overlooked
    (h : parsePatchbaySource memory readJson path src = some (.ok forms))
    (hload : loadSource getenv forms = some (program, loaded)) {m : Machine N W}
    (hrun : WrittenRun loaded.rules program.usesClockTimer m) :
    ∀ j, ∀ e ∈ (m.ruleState j).items, ∀ d, entryDeadline e = some d →
      program.usesClockTimer = true ∧
        ∃ next, nextClockDeadline m.program = some next ∧ next ≤ d := by
  intro j e he d hd
  have hshaped := allShaped_parsePatchbaySource h
  obtain ⟨p, hp, heq⟩ := Option.map_eq_some_iff.mp hload
  cases heq
  have hclock : scanClockItems forms = true := by
    by_contra hscan
    rw [Bool.not_eq_true] at hscan
    have hbodies := unclocked_bodies hshaped hscan hp
    change WrittenRun loaded.rules (scanClockItems forms) m at hrun
    rw [hscan] at hrun
    have huntimely := hrun.untimely fun r hr => .source (hbodies r hr)
    simp [(huntimely.slots j e he).deadline] at hd
  have hbodies := shaped_bodies (p := .zero) hshaped (fun r hr => by cases hr) hp
  have hsource := (hrun.reached.keeping discipline_shaped hbodies).source
  have hkept : m.program.usesClockTimer = true := (sameSource_iff.mpr hsource).clock.trans hclock
  exact ⟨hclock, Snapshot.nextClockDeadline_of_slot hkept he hd⟩

end Sources

/-- A source, and the machine after one message to the program of it. -/
def oneMessage (src : Bytes) :
    Option (List (Value ℚ) × (Program ℚ × LoadedSource ℚ) × Bool × Machine ℚ Unit) := do
  let forms ← (parsePatchbaySource (fun _ => true) (fun _ => .error 0) (lit "a.edn") src).bind
    Except.toOption
  let p ← loadSource (fun _ => none) forms
  let x ← evalPublish plainEnv ⟨5000, 0, false⟩ (lit "a") (lit "7") ⟨p.1, ()⟩
  pure (forms, p, x)

theorem oneMessage_spec {src : Bytes} {forms : List (Value ℚ)} {p : Program ℚ × LoadedSource ℚ}
    {ok : Bool} {m : Machine ℚ Unit} (h : oneMessage src = some (forms, p, ok, m)) :
    parsePatchbaySource (fun _ => true) (fun _ => .error 0) (lit "a.edn") src = some (.ok forms) ∧
      loadSource (fun _ => none) forms = some p ∧
      evalPublish plainEnv ⟨5000, 0, false⟩ (lit "a") (lit "7") ⟨p.1, ()⟩ = some (ok, m) := by
  obtain ⟨forms', hforms, h⟩ := Option.bind_eq_some_iff.mp h
  obtain ⟨p', hp, h⟩ := Option.bind_eq_some_iff.mp h
  obtain ⟨x, hx, h⟩ := Option.bind_eq_some_iff.mp h
  cases h
  obtain ⟨r, hr, hok⟩ := Option.bind_eq_some_iff.mp hforms
  cases r with
  | error e => cases hok
  | ok _ =>
    cases hok
    exact ⟨hr, hp, hx⟩

/-- An average over a second, with the second written. -/
theorem no_deadline_overlooked_average : ∃ (forms : List (Value ℚ)) (program : Program ℚ)
    (loaded : LoadedSource ℚ) (m : Machine ℚ Unit),
    parsePatchbaySource (fun _ => true) (fun _ => .error 0) (lit "a.edn")
      (lit "(on \"a\" (moving-avg :ms 1000 payload-float))") = some (.ok forms) ∧
    loadSource (fun _ => none) forms = some (program, loaded) ∧
    WrittenRun loaded.rules program.usesClockTimer m ∧
    (∃ e ∈ (m.ruleState 0).items, entryDeadline e = some 6001) ∧
    program.usesClockTimer = true ∧ ∃ next, nextClockDeadline m.program = some next ∧ next ≤ 6001 := by
  have hrun : (oneMessage (lit "(on \"a\" (moving-avg :ms 1000 payload-float))")).map (fun x =>
      decide (x.2.1.1.usesClockTimer = true) &&
        (x.2.2.2.ruleState 0).items.any fun e => entryDeadline e = some 6001) = some true := by
    decide +kernel
  obtain ⟨⟨forms, ⟨program, loaded⟩, ok, m⟩, hone, htest⟩ := Option.map_eq_some_iff.mp hrun
  obtain ⟨hforms, hload, hpublish⟩ := oneMessage_spec hone
  rw [Bool.and_eq_true, List.any_eq_true] at htest
  obtain ⟨hclock, e, he, hdeadline⟩ := htest
  have hclock := of_decide_eq_true hclock
  have hdeadline := of_decide_eq_true hdeadline
  obtain ⟨q, hq, heq⟩ := Option.map_eq_some_iff.mp hload
  cases heq
  have hwritten := WrittenRun.publish plainEnv ⟨5000, 0, false⟩ (lit "a") (lit "7")
    (.load ()) (.inl hclock) hpublish
  obtain ⟨-, hnext⟩ := no_deadline_overlooked hforms hload hwritten 0 e he 6001 hdeadline
  exact ⟨forms, _, loaded, m, hforms, hload, hwritten, ⟨e, he, hdeadline⟩, hclock, hnext⟩

/-- An average over a second whose `:ms` is computed: the slot waits for the second to end, but
the program has not asked for a timer. -/
theorem computed_window_overlooked : ∃ (forms : List (Value ℚ)) (program : Program ℚ)
    (loaded : LoadedSource ℚ) (m : Machine ℚ Unit),
    parsePatchbaySource (fun _ => true) (fun _ => .error 0) (lit "a.edn")
      (lit "(on \"a\" (moving-avg (do :ms) 1000 payload-float))") = some (.ok forms) ∧
    loadSource (fun _ => none) forms = some (program, loaded) ∧
    Reached loaded.rules program.usesClockTimer m ∧
    (∃ e ∈ (m.ruleState 0).items, entryDeadline e = some 6001) ∧
    program.usesClockTimer = false ∧ nextClockDeadline m.program = none := by
  have hrun : (oneMessage (lit "(on \"a\" (moving-avg (do :ms) 1000 payload-float))")).map (fun x =>
      decide (x.2.1.1.usesClockTimer = false ∧ nextClockDeadline x.2.2.2.program = none) &&
        (x.2.2.2.ruleState 0).items.any fun e => entryDeadline e = some 6001) = some true := by
    decide +kernel
  obtain ⟨⟨forms, ⟨program, loaded⟩, ok, m⟩, hone, htest⟩ := Option.map_eq_some_iff.mp hrun
  obtain ⟨hforms, hload, hpublish⟩ := oneMessage_spec hone
  rw [Bool.and_eq_true, List.any_eq_true] at htest
  obtain ⟨hclock, e, he, hdeadline⟩ := htest
  obtain ⟨hclock, hnext⟩ := of_decide_eq_true hclock
  have hdeadline := of_decide_eq_true hdeadline
  obtain ⟨q, hq, heq⟩ := Option.map_eq_some_iff.mp hload
  cases heq
  have hreached := Reached.publish plainEnv ⟨5000, 0, false⟩ (lit "a") (lit "7")
    (.load ()) hpublish
  exact ⟨forms, _, loaded, m, hforms, hload, hreached, ⟨e, he, hdeadline⟩, hclock, hnext⟩

end Monoblok.Patchbay
