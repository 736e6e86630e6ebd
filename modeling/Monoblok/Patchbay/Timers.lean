import Monoblok.Patchbay.Lookup

/-!
# Timers of slots

A slot has a deadline as the ring of a time window, as a time bar or as an armed
clock. The forms other than bars and clocks leave bars and clocks alone. What
holds of the timers of every slot a program comes to is `EntryOk`.
-/

namespace Monoblok.Patchbay

open Number

variable {N : Type}

/-! ## The part of a slot that has to do with time -/

/-- The fields of bars and clocks that a deadline depends on. -/
structure Timers where
  barTimeWindow : Bool
  barCount : UInt32
  barWindowMs : UInt64
  barWindowStartMs : UInt64
  clockKind : ClockKind
  metricKind : MetricKind
  clockArmed : Bool
  clockIntervalMs : UInt64
  clockDeadlineMs : UInt64

def StateEntry.timers (e : StateEntry N) : Timers where
  barTimeWindow := e.barTimeWindow
  barCount := e.barCount
  barWindowMs := e.barWindowMs
  barWindowStartMs := e.barWindowStartMs
  clockKind := e.clockKind
  metricKind := e.metricKind
  clockArmed := e.clockArmed
  clockIntervalMs := e.clockIntervalMs
  clockDeadlineMs := e.clockDeadlineMs

/-- A step that leaves bars and clocks alone, and the kind as well. -/
structure SameTimers (e e' : StateEntry N) : Prop where
  timers : e'.timers = e.timers
  kind : e'.kind = e.kind

/-- A step that leaves bars and clocks alone: the kind stays, or becomes that of a
plain value, or an empty slot becomes a ring. -/
structure Untimed (e e' : StateEntry N) : Prop where
  timers : e'.timers = e.timers
  kind : e'.kind = e.kind ∨ e'.kind = .number ∨ e'.kind = .bytes ∨
    (e.kind = .empty ∧ e'.kind = .ring)

theorem SameTimers.refl (e : StateEntry N) : SameTimers e e := ⟨rfl, rfl⟩

theorem SameTimers.trans {e e' e'' : StateEntry N} (h : SameTimers e e') (h' : SameTimers e' e'') :
    SameTimers e e'' := ⟨h'.timers.trans h.timers, h'.kind.trans h.kind⟩

theorem SameTimers.untimed {e e' : StateEntry N} (h : SameTimers e e') : Untimed e e' :=
  ⟨h.timers, .inl h.kind⟩

theorem Untimed.refl (e : StateEntry N) : Untimed e e := (SameTimers.refl e).untimed

theorem Untimed.andThen {e e' e'' : StateEntry N} (h : Untimed e e') (h' : SameTimers e' e'') :
    Untimed e e'' := by
  refine ⟨h'.timers.trans h.timers, ?_⟩
  rw [h'.kind]
  exact h.kind

section Rings

variable [Number N] {A : EvalAlloc → Bool}

omit [Number N] in
theorem sameTimers_ringReserve {e e' : StateEntry N} {cap : ℕ} {withTimes : Bool}
    (h : e.ringReserve A cap withTimes = some e') : SameTimers e e' := by
  unfold StateEntry.ringReserve at h
  split_ifs at h
  all_goals
    cases h
    exact ⟨rfl, rfl⟩

theorem sameTimers_ringPushCount (e : StateEntry N) (x : N) :
    SameTimers e (e.ringPushCount x) := by
  unfold StateEntry.ringPushCount
  split_ifs <;> exact ⟨rfl, rfl⟩

theorem sameTimers_ringEvictLoop (cutoff : UInt64) (n : ℕ) (e : StateEntry N) :
    SameTimers e (StateEntry.ringEvictLoop cutoff n e) := by
  induction n generalizing e with
  | zero => exact .refl e
  | succ n ih =>
    unfold StateEntry.ringEvictLoop
    split_ifs
    · exact .refl e
    · exact ⟨(ih _).timers, (ih _).kind⟩

theorem sameTimers_ringEvictTime (e : StateEntry N) (cutoff : UInt64) :
    SameTimers e (e.ringEvictTime cutoff) :=
  sameTimers_ringEvictLoop cutoff e.ringLen e

theorem sameTimers_ringPushTime {e e' : StateEntry N} {x : N} {t : UInt64}
    (h : e.ringPushTime A x t = some e') : SameTimers e e' := by
  unfold StateEntry.ringPushTime at h
  obtain ⟨e₁, hroom, rfl⟩ := Option.map_eq_some_iff.mp h
  have hroom' : SameTimers e e₁ := by
    split_ifs at hroom
    · exact sameTimers_ringReserve hroom
    · exact sameTimers_ringReserve hroom
    · cases hroom
      exact .refl e
  exact hroom'.trans ⟨rfl, rfl⟩

theorem sameTimers_windowPush (A : EvalAlloc → Bool) (e : StateEntry N) (timeWindow : Bool)
    (count : ℕ) (ms now : UInt64) (x : N) :
    SameTimers e (e.windowPush A timeWindow count ms now x).1 := by
  unfold StateEntry.windowPush
  dsimp only
  split
  · have hevict := sameTimers_ringEvictTime e
      (StateEntry.cutoff now (if e.ringWindowMs = 0 then ms else e.ringWindowMs))
    split
    · exact hevict
    · rename_i hpush
      exact hevict.trans (sameTimers_ringPushTime hpush)
  · split
    · exact .refl e
    · rename_i e₁ hroom
      have hroom' : SameTimers e e₁ := by
        split_ifs at hroom
        · exact sameTimers_ringReserve hroom
        · cases hroom
          exact .refl e
      exact hroom'.trans (sameTimers_ringPushCount _ x)

omit [Number N] in
theorem untimed_windowSlot (A : EvalAlloc → Bool) (w : Window) (e : StateEntry N) :
    Untimed e (windowSlot A w e).1 := by
  unfold windowSlot
  split
  · rename_i hempty
    have hring : Untimed e
        { e with kind := .ring, ringTimeWindow := w.timeWindow, ringWindowMs := w.ms } :=
      ⟨rfl, .inr (.inr (.inr ⟨hempty, rfl⟩))⟩
    dsimp only
    split
    · exact hring
    · split
      · exact hring
      · rename_i hreserve
        exact hring.andThen (sameTimers_ringReserve hreserve)
  · exact .refl e

theorem untimed_windowStep (A : EvalAlloc → Bool) (w : Window) (now : UInt64) (x : N)
    (g : StateEntry N → Except EvalError (Value N)) (e : StateEntry N) :
    Untimed e (windowStep A w now x g e).entry := by
  have hslot := untimed_windowSlot A w e
  have hsample : Untimed e (windowSample A w now x e).1 := by
    unfold windowSample
    generalize windowSlot A w e = r at hslot ⊢
    obtain ⟨e₁, ok⟩ := r
    cases ok with
    | false => exact hslot
    | true => exact hslot.andThen (sameTimers_windowPush A e₁ _ _ _ now x)
  unfold windowStep
  generalize windowSample A w now x e = r at hsample ⊢
  obtain ⟨e₁, ok⟩ := r
  cases ok with
  | false => exact hsample
  | true => exact hsample

theorem untimed_throttle (A : EvalAlloc → Bool) (w : Window) (now : UInt64) (max : N) (v : Value N)
    (e : StateEntry N) : Untimed e (throttle A w now max v e).entry := by
  have hslot := untimed_windowSlot A w e
  unfold throttle
  generalize windowSlot A w e = r at hslot ⊢
  obtain ⟨e₁, ok⟩ := r
  cases ok with
  | false => exact hslot
  | true =>
    dsimp only
    split
    · have hevict := hslot.andThen (sameTimers_ringEvictTime e₁ (StateEntry.cutoff now w.ms))
      split
      · exact hevict
      · split
        · exact hevict
        · rename_i hpush
          exact hevict.andThen (sameTimers_ringPushTime hpush)
    · exact hslot.andThen (sameTimers_ringPushCount e₁ _)

theorem untimed_statefulChanged (A : EvalAlloc → Bool) (v : Value N) (boolMode : Bool)
    (e : StateEntry N) : Untimed e (statefulChanged A v boolMode e).entry := by
  unfold statefulChanged
  split
  · exact ⟨rfl, .inr (.inl rfl)⟩
  · split
    · exact .refl e
    · split
      · split
        · exact .refl e
        · rename_i hset
          unfold StateEntry.setBytes at hset
          split_ifs at hset
          cases hset
          exact ⟨rfl, .inr (.inr (.inl rfl))⟩
      · exact .refl e

omit [Number N] in
theorem untimed_setNumber (e : StateEntry N) (n : N) : Untimed e (e.setNumber n) :=
  ⟨rfl, .inr (.inl rfl)⟩

theorem untimed_edge (rising cur : Bool) (e : StateEntry N) :
    Untimed e (edge rising cur e).entry := by
  unfold edge
  split
  · exact untimed_setNumber e _
  · exact untimed_setNumber e _
  · exact .refl e

end Rings

/-! ## Forms that leave bars and clocks alone -/

/-- The operations of bars and clocks. -/
def clockOps : List Bytes :=
  [lit "debounce", lit "sample", lit "aggregate", lit "on-silence", lit "dropout"]

def barOps : List Bytes := [lit "bar/m", lit "bar/t"]

theorem windowOp_not_timed {op : String}
    (h : op ∈ windowCalcOps ++ ["median", "percentile", "rate", "throttle"]) (w : Window) :
    windowOp op w ∉ clockOps ++ barOps := by
  have hall : ∀ op ∈ windowCalcOps ++ ["median", "percentile", "rate", "throttle"],
      lit op ++ lit "/m" ∉ clockOps ++ barOps ∧ lit op ++ lit "/t" ∉ clockOps ++ barOps := by
    decide
  unfold windowOp
  cases w.timeWindow with
  | false => exact (hall op h).2
  | true => exact (hall op h).1

section Forms

variable [Number N] {A : EvalAlloc → Bool} {now : UInt64} {α : Type} {op : Bytes}
  {f : StateEntry N → SlotStep N α}

/-- The forms of bars and clocks. -/
inductive TimedForm (A : EvalAlloc → Bool) (now : UInt64) :
    {α : Type} → Bytes → (StateEntry N → SlotStep N α) → Prop
  | bar {args : List (Value N)} {timeWindow : Bool} {count : UInt32} {windowMs : UInt64}
      {input : Value N} (h : barArgs args = .ok (timeWindow, count, windowMs, input)) (x : N) :
      TimedForm A now (lit (if timeWindow then "bar/m" else "bar/t"))
        (barSample timeWindow count windowMs now x)
  | debounce {ms : N} (hms : wholeFromOne ms = true) (subject payload : Bytes) :
      TimedForm A now (lit "debounce")
        (retainPublish A .debounce (toU64 ms) now subject payload true)
  | sample {ms : N} (hms : wholeFromOne ms = true) (subject payload : Bytes) :
      TimedForm A now (lit "sample")
        (retainPublish A .sample (toU64 ms) now subject payload false)
  | aggregate {metric : MetricKind} (hmetric : metric ≠ .none) {ms : N}
      (hms : wholeFromOne ms = true) (subject : Bytes) (x : N) :
      TimedForm A now (lit "aggregate") (aggregateSample A metric (toU64 ms) now subject x)
  | onSilence {ms : N} (hms : wholeFromOne ms = true) (payload : Bytes) (body : List (Value N)) :
      TimedForm A now (lit "on-silence") (onSilenceArm A (toU64 ms) now payload body)
  | dropout {ms : N} (hms : wholeFromOne ms = true) (lost found : Value N) :
      TimedForm A now (lit "dropout") (dropoutArm (toU64 ms) now lost found)

theorem SlotForm.timed_or_untimed (h : SlotForm A now op f) :
    TimedForm A now op f ∨ op ∉ clockOps ++ barOps ∧ ∀ e, Untimed e (f e).entry := by
  cases h with
  | squelch v => exact .inr ⟨by decide, untimed_statefulChanged A v false⟩
  | changed v => exact .inr ⟨by decide, untimed_statefulChanged A v true⟩
  | holdOff windowMs v =>
    refine .inr ⟨by decide, fun e => ?_⟩
    unfold Patchbay.holdOff
    dsimp only
    split
    · exact untimed_setNumber e _
    · split_ifs
      · exact .refl e
      · exact untimed_setNumber e _
    · exact .refl e
  | risingEdge cur => exact .inr ⟨by decide, untimed_edge true cur⟩
  | fallingEdge cur => exact .inr ⟨by decide, untimed_edge false cur⟩
  | transition cur =>
    refine .inr ⟨by decide, fun e => ?_⟩
    unfold levelChange
    split
    · exact untimed_setNumber e _
    · exact untimed_setNumber e _
    · exact .refl e
  | deadband threshold x =>
    refine .inr ⟨by decide, fun e => ?_⟩
    unfold Patchbay.deadband
    split_ifs
    · exact untimed_setNumber e _
    · exact .refl e
  | delta x => exact .inr ⟨by decide, fun e => untimed_setNumber e _⟩
  | count => exact .inr ⟨by decide, fun e => untimed_setNumber e _⟩
  | windowCalc hop _ x what =>
    exact .inr ⟨windowOp_not_timed (List.mem_append_left _ hop) _, untimed_windowStep A _ now x _⟩
  | percentile hop _ x p =>
    have hmem : ∀ op ∈ ["median", "percentile"],
        op ∈ windowCalcOps ++ ["median", "percentile", "rate", "throttle"] := by decide
    exact .inr ⟨windowOp_not_timed (hmem _ hop) _, untimed_windowStep A _ now x _⟩
  | rate _ => exact .inr ⟨windowOp_not_timed (by decide) _, untimed_windowStep A _ now _ _⟩
  | throttle _ max v =>
    exact .inr ⟨windowOp_not_timed (by decide) _, untimed_throttle A _ now max v⟩
  | bar hargs x => exact .inl (.bar hargs x)
  | debounce hms subject payload => exact .inl (.debounce hms subject payload)
  | sample hms subject payload => exact .inl (.sample hms subject payload)
  | aggregate hmetric hms subject x => exact .inl (.aggregate hmetric hms subject x)
  | onSilence hms payload body => exact .inl (.onSilence hms payload body)
  | dropout hms lost found => exact .inl (.dropout hms lost found)

end Forms

/-! ## What holds of the timers of every slot -/

/-- The operation of a clock. -/
def clockOp : ClockKind → Option Bytes
  | .none => none
  | .onSilence => some (lit "on-silence")
  | .dropout => some (lit "dropout")
  | .debounce => some (lit "debounce")
  | .sample => some (lit "sample")
  | .aggregate => some (lit "aggregate")

structure EntryOk (e : StateEntry N) : Prop where
  idle : e.kind ≠ .clock →
    e.clockKind = .none ∧ e.clockArmed = false ∧ e.clockDeadlineMs = 0
  op : e.kind = .clock → e.op ∈ clockOps
  armed : e.kind = .clock → e.clockArmed = true → clockOp e.clockKind = some e.op
  sample : e.kind = .clock → e.op = lit "sample" → e.clockArmed = true
  metric : e.kind = .clock → e.clockKind = .aggregate → e.metricKind ≠ .none

theorem Untimed.entryOk {e e' : StateEntry N} (h : Untimed e e') (hop : e.op ∉ clockOps)
    (he : EntryOk e) : EntryOk e' := by
  have hclock : e.kind ≠ .clock := fun hkind => hop (he.op hkind)
  have hclock' : e'.kind ≠ .clock := by
    rcases h.kind with hkind | hkind | hkind | ⟨-, hkind⟩
    · rwa [hkind]
    all_goals
      rw [hkind]
      decide
  have hfields := h.timers
  rw [StateEntry.timers, StateEntry.timers, Timers.mk.injEq] at hfields
  obtain ⟨-, -, -, -, hkind, -, harmed, -, hdeadline⟩ := hfields
  refine ⟨fun _ => ?_, fun hkind => absurd hkind hclock', fun hkind => absurd hkind hclock',
    fun hkind => absurd hkind hclock', fun hkind => absurd hkind hclock'⟩
  rw [hkind, harmed, hdeadline]
  exact he.idle hclock

section Steps

variable [Number N] {A : EvalAlloc → Bool} {now : UInt64} {α : Type} {op : Bytes}
  {f : StateEntry N → SlotStep N α}

theorem entryOk_fresh (k : StateKey) : EntryOk (freshEntry k : StateEntry N) where
  idle _ := ⟨rfl, rfl, rfl⟩
  op h := by cases h
  armed h := by cases h
  sample h := by cases h
  metric h := by cases h

omit [Number N] in
/-- A slot that is now a clock of its operation. -/
theorem entryOk_clock {e : StateEntry N} (hkind : e.kind = .clock) (hop : e.op ∈ clockOps)
    (harmed : e.clockArmed = true) (hclock : clockOp e.clockKind = some e.op)
    (hmetric : e.clockKind = .aggregate → e.metricKind ≠ .none) : EntryOk e where
  idle h := absurd hkind h
  op _ := hop
  armed _ _ := hclock
  sample _ _ := harmed
  metric _ := hmetric

/-- What a sample does to the slot of a bar. -/
structure BarStep (timeWindow : Bool) (windowMs now : UInt64) (e e' : StateEntry N) : Prop where
  kind : e'.kind = .bar
  clock : e'.clockKind = e.clockKind
  armed : e'.clockArmed = e.clockArmed
  deadline : e'.clockDeadlineMs = e.clockDeadlineMs
  time : e'.barTimeWindow = timeWindow
  window : e'.barWindowMs = if e.kind = .empty then windowMs else e.barWindowMs
  before : e.kind = .empty ∨ e.kind = .bar ∧ e.barTimeWindow = timeWindow
  start : timeWindow = true →
    e'.barWindowStartMs = now / e'.barWindowMs * e'.barWindowMs ∨
      e.barCount ≠ 0 ∧ e'.barWindowStartMs = e.barWindowStartMs

/-- The update of a bar that is there. -/
theorem barUpdate_spec (timeWindow : Bool) (now : UInt64) (x : N) (e : StateEntry N) :
    let e' := (if timeWindow then e.barTimeUpdate now x else e.barTickUpdate x).1
    e'.kind = e.kind ∧ e'.clockKind = e.clockKind ∧ e'.clockArmed = e.clockArmed ∧ e'.clockDeadlineMs = e.clockDeadlineMs ∧
      e'.barTimeWindow = e.barTimeWindow ∧ e'.barWindowMs = e.barWindowMs ∧
      (timeWindow = true → e'.barWindowStartMs = now / e'.barWindowMs * e'.barWindowMs ∨
        e.barCount ≠ 0 ∧ e'.barWindowStartMs = e.barWindowStartMs) := by
  cases timeWindow with
  | false =>
    simp only [StateEntry.barTickUpdate, StateEntry.barOpenAt, StateEntry.barExtend,
      Bool.false_eq_true, if_false]
    split_ifs <;> exact ⟨rfl, rfl, rfl, rfl, rfl, rfl, fun h => by cases h⟩
  | true =>
    simp only [StateEntry.barTimeUpdate, if_true]
    by_cases hcount : e.barCount = 0
    · simp only [if_pos hcount]
      exact ⟨rfl, rfl, rfl, rfl, rfl, rfl, fun _ => .inl rfl⟩
    · by_cases hstart : e.barWindowStartMs ≠ now / e.barWindowMs * e.barWindowMs
      · simp only [if_neg hcount, if_pos hstart]
        exact ⟨rfl, rfl, rfl, rfl, rfl, rfl, fun _ => .inl rfl⟩
      · simp only [if_neg hcount, if_neg hstart]
        exact ⟨rfl, rfl, rfl, rfl, rfl, rfl, fun _ => .inr ⟨hcount, rfl⟩⟩

theorem barSample_spec (timeWindow : Bool) (count : UInt32) (windowMs now : UInt64) (x : N)
    (e : StateEntry N) :
    (barSample timeWindow count windowMs now x e).entry = e ∨
      BarStep timeWindow windowMs now e (barSample timeWindow count windowMs now x e).entry := by
  unfold barSample
  dsimp only
  by_cases hempty : e.kind = .empty
  · rw [if_pos hempty, if_neg (by simp)]
    obtain ⟨hkind, hclock, harmed, hdeadline, htime, hwindow, hstart⟩ := barUpdate_spec timeWindow now x
      { e with kind := .bar, barTimeWindow := timeWindow, barCap := count, barWindowMs := windowMs }
    exact .inr ⟨hkind, hclock, harmed, hdeadline, htime, hwindow.trans (if_pos hempty).symm, .inl hempty,
      hstart⟩
  · rw [if_neg hempty]
    by_cases hbar : e.kind ≠ .bar ∨ e.barTimeWindow ≠ timeWindow
    · rw [if_pos hbar]
      exact .inl rfl
    · rw [if_neg hbar]
      push Not at hbar
      obtain ⟨hkind, hclock, harmed, hdeadline, htime, hwindow, hstart⟩ := barUpdate_spec timeWindow now x e
      exact .inr ⟨hkind.trans hbar.1, hclock, harmed, hdeadline, htime.trans hbar.2,
        hwindow.trans (if_neg hempty).symm, .inr hbar, hstart⟩

omit [Number N] in
theorem BarStep.entryOk {timeWindow : Bool} {windowMs : UInt64} {e e' : StateEntry N}
    (h : BarStep timeWindow windowMs now e e') (he : EntryOk e) : EntryOk e' := by
  have hne : e'.kind ≠ .clock := by
    rw [h.kind]
    decide
  have hidle : e.kind ≠ .clock := by
    rcases h.before with hkind | ⟨hkind, -⟩
    all_goals
      rw [hkind]
      decide
  refine ⟨fun _ => ?_, fun hk => absurd hk hne, fun hk => absurd hk hne, fun hk => absurd hk hne,
    fun hk => absurd hk hne⟩
  rw [h.clock, h.armed, h.deadline]
  exact he.idle hidle

omit [Number N] in
theorem entryOk_retainPublish (hA : ∀ site, A site = true) {kind : ClockKind}
    (ms now : UInt64) (subject payload : Bytes) (resetDeadline : Bool)
    {e : StateEntry N} (hop : clockOp kind = some e.op) (hmem : e.op ∈ clockOps)
    (hkind : kind ≠ .aggregate) :
    EntryOk (retainPublish A kind ms now subject payload resetDeadline e).entry := by
  unfold retainPublish StateEntry.setEmitSubject StateEntry.setBytes
  simp only [hA, if_true]
  exact entryOk_clock rfl hmem rfl hop fun h => absurd h hkind

theorem ringPushTime_some (hA : ∀ site, A site = true) (e : StateEntry N) (x : N) (t : UInt64) :
    ∃ e', e.ringPushTime A x t = some e' := by
  have hreserve : ∀ cap, ∃ e', e.ringReserve A cap true = some e' := by
    intro cap
    unfold StateEntry.ringReserve
    simp only [hA, Bool.not_true, Bool.and_false, Bool.or_self, Bool.false_eq_true, if_false]
    split_ifs
    · exact ⟨e, rfl⟩
    · exact ⟨_, rfl⟩
  unfold StateEntry.ringPushTime
  dsimp only
  split_ifs
  · obtain ⟨e', he'⟩ := hreserve 16
    exact ⟨_, by rw [he']; rfl⟩
  · obtain ⟨e', he'⟩ := hreserve (e.ringCap * 2)
    exact ⟨_, by rw [he']; rfl⟩
  · exact ⟨_, rfl⟩

/-- The slot of an aggregate after a sample. -/
theorem aggregateSample_entry (hA : ∀ site, A site = true) (metric : MetricKind) (ms now : UInt64)
    (subject : Bytes) (x : N) (e : StateEntry N) :
    (aggregateSample A metric ms now subject x e).entry.kind = .clock ∧
      (aggregateSample A metric ms now subject x e).entry.op = e.op ∧
      (aggregateSample A metric ms now subject x e).entry.timers =
        if e.kind = .empty then
          { e.timers with
            clockKind := .aggregate
            metricKind := metric
            clockArmed := true
            clockIntervalMs := ms
            clockDeadlineMs := now + ms }
        else { e.timers with metricKind := metric } := by
  unfold aggregateSample StateEntry.setEmitSubject
  simp only [hA, if_true]
  have hpush : ∀ e₁ : StateEntry N,
      ∃ e₂, e₁.ringPushTime A x now = some e₂ ∧ SameTimers e₁ e₂ ∧ e₂.key = e₁.key := by
    intro e₁
    obtain ⟨e₂, he₂⟩ := ringPushTime_some hA e₁ x now
    exact ⟨e₂, he₂, sameTimers_ringPushTime he₂, StateEntry.key_of_held (StateEntry.held_ringPushTime he₂)⟩
  by_cases hempty : e.kind = .empty
  · rw [if_pos hempty, if_pos hempty]
    obtain ⟨e₂, he₂, hsame, hkey⟩ := hpush _
    rw [he₂]
    exact ⟨rfl, congrArg StateKey.op hkey, hsame.timers⟩
  · rw [if_neg hempty, if_neg hempty]
    obtain ⟨e₂, he₂, hsame, hkey⟩ := hpush _
    rw [he₂]
    exact ⟨rfl, congrArg StateKey.op hkey, hsame.timers⟩

omit [Number N] in
theorem entryOk_onSilenceArm (hA : ∀ site, A site = true) (ms now : UInt64) (payload : Bytes)
    (body : List (Value N)) {e : StateEntry N} (hop : e.op = lit "on-silence") (he : EntryOk e) :
    EntryOk (onSilenceArm A ms now payload body e).entry := by
  have hmem : e.op ∈ clockOps := by
    rw [hop]
    decide
  have hsilence : ∀ {e' : StateEntry N}, e'.kind = .clock → e'.clockArmed = true →
      e'.clockKind = .onSilence → e'.op = e.op → EntryOk e' := by
    intro e' hkind harmed hclock hop'
    refine entryOk_clock hkind (hop' ▸ hmem) harmed ?_ ?_
    · rw [hclock, hop', hop]
      rfl
    · rw [hclock]
      simp
  unfold onSilenceArm StateEntry.setBytes
  by_cases hother : e.kind ≠ .empty ∧ (e.kind ≠ .clock ∨ e.clockKind ≠ .onSilence)
  · rw [if_pos hother]
    exact he
  · rw [if_neg hother]
    simp only [hA, if_true]
    by_cases hempty : e.kind = .empty
    · simp only [if_pos hempty]
      exact hsilence rfl rfl rfl rfl
    · simp only [if_neg hempty]
      simp only [not_and, not_or, not_not] at hother
      exact hsilence rfl rfl (hother hempty).2 rfl

omit [Number N] in
theorem entryOk_dropoutArm (ms now : UInt64) (lost found : Value N) {e : StateEntry N}
    (hop : e.op = lit "dropout") (he : EntryOk e) :
    EntryOk (dropoutArm ms now lost found e).entry := by
  have hmem : e.op ∈ clockOps := by
    rw [hop]
    decide
  have hdropout : ∀ {e' : StateEntry N}, e'.kind = .clock → e'.clockArmed = true →
      e'.clockKind = .dropout → e'.op = e.op → EntryOk e' := by
    intro e' hkind harmed hclock hop'
    refine entryOk_clock hkind (hop' ▸ hmem) harmed ?_ ?_
    · rw [hclock, hop', hop]
      rfl
    · rw [hclock]
      simp
  unfold dropoutArm
  by_cases hother : e.kind ≠ .empty ∧ (e.kind ≠ .clock ∨ e.clockKind ≠ .dropout)
  · rw [if_pos hother]
    exact he
  · rw [if_neg hother]
    by_cases hempty : e.kind = .empty
    · simp only [if_pos hempty]
      split_ifs
      · exact hdropout rfl rfl rfl rfl
      · exact hdropout rfl rfl rfl rfl
    · simp only [if_neg hempty]
      simp only [not_and, not_or, not_not] at hother
      split_ifs
      · exact hdropout (hother hempty).1 rfl (hother hempty).2 rfl
      · exact hdropout (hother hempty).1 rfl (hother hempty).2 rfl

theorem entryOk_aggregateSample (hA : ∀ site, A site = true) {metric : MetricKind}
    (hmetric : metric ≠ .none) (ms now : UInt64) (subject : Bytes) (x : N)
    {e : StateEntry N} (hop : e.op = lit "aggregate") (he : EntryOk e) :
    EntryOk (aggregateSample A metric ms now subject x e).entry := by
  obtain ⟨hkind, hop', htimers⟩ := aggregateSample_entry hA metric ms now subject x e
  generalize (aggregateSample A metric ms now subject x e).entry = e' at hkind hop' htimers ⊢
  have hmem : e'.op ∈ clockOps := by
    rw [hop', hop]
    decide
  have hne : e'.op ≠ lit "sample" := by
    rw [hop', hop]
    decide
  by_cases hempty : e.kind = .empty
  · rw [if_pos hempty, StateEntry.timers, Timers.mk.injEq] at htimers
    obtain ⟨-, -, -, -, hclock, hmetric', harmed, -⟩ := htimers
    refine entryOk_clock hkind hmem harmed ?_ fun _ => hmetric' ▸ hmetric
    rw [hclock, hop', hop]
    rfl
  · rw [if_neg hempty, StateEntry.timers, Timers.mk.injEq] at htimers
    obtain ⟨-, -, -, -, hclock, hmetric', harmed, -⟩ := htimers
    refine ⟨fun h => absurd hkind h, fun _ => hmem, fun _ h => ?_, fun _ h => absurd h hne,
      fun _ _ => hmetric' ▸ hmetric⟩
    have harmed' : e.clockArmed = true := harmed.symm.trans h
    have hwas : e.kind = .clock := by
      by_contra hnot
      rw [(he.idle hnot).2.1] at harmed'
      cases harmed'
    rw [hclock, hop']
    exact he.armed hwas harmed'

theorem barArgs_window {args : List (Value N)} {count : UInt32} {windowMs : UInt64}
    {input : Value N} (h : barArgs args = .ok (true, count, windowMs, input)) :
    ∃ ms : N, wholeFromOne ms = true ∧ windowMs = toU64 ms := by
  unfold barArgs at h
  split at h
  · split at h
    · cases h
    · split at h <;> cases h
  · split at h
    · cases h
    · split at h
      · cases h
      · rename_i ms _
        split at h
        · cases h
        · rename_i hms
          cases h
          exact ⟨ms, by simpa using hms, rfl⟩
  · cases h

/-- The forms keep what holds of the timers of a slot. -/
theorem SlotForm.entryOk (h : SlotForm A now op f) (hA : ∀ site, A site = true)
    {e : StateEntry N} (hop : e.op = op) (he : EntryOk e) : EntryOk (f e).entry := by
  rcases h.timed_or_untimed with htimed | ⟨hother, huntimed⟩
  · cases htimed with
    | @bar args timeWindow count windowMs input hargs x =>
      rcases barSample_spec timeWindow count windowMs now x e with hsame | hstep
      · rw [hsame]
        exact he
      · exact hstep.entryOk he
    | debounce hms subject payload =>
      refine entryOk_retainPublish hA _ now subject payload true ?_ ?_ (by decide)
      · rw [hop]
        rfl
      · rw [hop]
        decide
    | sample hms subject payload =>
      refine entryOk_retainPublish hA _ now subject payload false ?_ ?_ (by decide)
      · rw [hop]
        rfl
      · rw [hop]
        decide
    | aggregate hmetric hms subject x =>
      exact entryOk_aggregateSample hA hmetric _ now subject x hop he
    | onSilence hms payload body => exact entryOk_onSilenceArm hA _ now payload body hop he
    | dropout hms lost found => exact entryOk_dropoutArm _ now lost found hop he
  · refine (huntimed e).entryOk ?_ he
    rw [hop]
    exact fun hmem => hother (List.mem_append_left _ hmem)

/-! ## Ticks -/

/-- What a tick does to a clock: nothing, or it is disarmed, or its deadline moves
on by its interval. -/
inductive ClockTick (e e' : StateEntry N) : Prop
  | same (timers : e'.timers = e.timers)
  | disarmed (armed : e.clockArmed = true)
      (kind : e.clockKind = .onSilence ∨ e.clockKind = .dropout ∨ e.clockKind = .debounce)
      (timers : e'.timers = { e.timers with clockArmed := false })
  | advanced (armed : e.clockArmed = true) (kind : e.clockKind = .sample ∨ e.clockKind = .aggregate)
      (timers : e'.timers =
        { e.timers with clockDeadlineMs := e.clockDeadlineMs + e.clockIntervalMs })

theorem tickAggregate_entry (A : EvalAlloc → Bool) {e : StateEntry N} (hkind : e.kind = .clock) :
    (tickAggregate A e).entry.kind = .clock ∧
      ((tickAggregate A e).entry.timers = e.timers ∨ (tickAggregate A e).entry.timers =
        { e.timers with clockDeadlineMs := e.clockDeadlineMs + e.clockIntervalMs }) := by
  unfold tickAggregate
  split_ifs
  · exact ⟨hkind, .inr rfl⟩
  · split
    · exact ⟨hkind, .inl rfl⟩
    · split
      · exact ⟨hkind, .inl rfl⟩
      · rename_i hbytes
        obtain ⟨bytes, -, hset⟩ := Option.bind_eq_some_iff.mp hbytes
        unfold StateEntry.setBytes at hset
        split_ifs at hset
        cases hset
        exact ⟨rfl, .inr rfl⟩

theorem tickClock_entry (A : EvalAlloc → Bool) (now : UInt64) {e : StateEntry N}
    (hkind : e.kind = .clock) :
    (tickClock A now e).entry.kind = .clock ∧ ClockTick e (tickClock A now e).entry := by
  unfold tickClock
  split_ifs with hidle
  · exact ⟨hkind, .same rfl⟩
  · have harmed : e.clockArmed = true := by
      simp only [Bool.or_eq_true, not_or, Bool.not_eq_true', Bool.not_eq_false] at hidle
      exact hidle.1
    split
    · rename_i hclock
      exact ⟨hkind, .disarmed harmed (.inl hclock) rfl⟩
    · rename_i hclock
      exact ⟨hkind, .disarmed harmed (.inr (.inl hclock)) rfl⟩
    · rename_i hclock
      exact ⟨hkind, .disarmed harmed (.inr (.inr hclock)) rfl⟩
    · rename_i hclock
      exact ⟨hkind, .advanced harmed (.inl hclock) rfl⟩
    · rename_i hclock
      obtain ⟨hkind', htimers | htimers⟩ := tickAggregate_entry A hkind
      · exact ⟨hkind', .same htimers⟩
      · exact ⟨hkind', .advanced harmed (.inr hclock) htimers⟩
    · exact ⟨hkind, .same rfl⟩

omit [Number N] in
theorem ClockTick.entryOk {e e' : StateEntry N} (h : ClockTick e e') (hkind : e.kind = .clock)
    (hkind' : e'.kind = .clock) (hop : e'.op = e.op) (he : EntryOk e) : EntryOk e' := by
  have hmem : e'.op ∈ clockOps := hop ▸ he.op hkind
  cases h with
  | same htimers =>
    rw [StateEntry.timers, StateEntry.timers, Timers.mk.injEq] at htimers
    obtain ⟨-, -, -, -, hclock, hmetric, harmed, -⟩ := htimers
    refine ⟨fun h => absurd hkind' h, fun _ => hmem, fun _ h => ?_, fun _ h => ?_, fun _ h => ?_⟩
    · rw [hclock, hop]
      exact he.armed hkind (harmed ▸ h)
    · rw [harmed]
      exact he.sample hkind (hop ▸ h)
    · rw [hmetric]
      exact he.metric hkind (hclock ▸ h)
  | disarmed harmed hclock htimers =>
    rw [StateEntry.timers, StateEntry.timers, Timers.mk.injEq] at htimers
    obtain ⟨-, -, -, -, hclock', -, harmed', -, -⟩ := htimers
    dsimp only at hclock' harmed'
    have hclockOp := he.armed hkind harmed
    refine ⟨fun h => absurd hkind' h, fun _ => hmem, fun _ h => ?_, fun _ h => ?_, fun _ h => ?_⟩
    · rw [harmed'] at h
      cases h
    · rw [hop] at h
      rw [h] at hclockOp
      rcases hclock with hclock | hclock | hclock
      all_goals
        rw [hclock] at hclockOp
        exact absurd hclockOp (by decide)
    · rw [hclock'] at h
      rcases hclock with hclock | hclock | hclock
      all_goals
        rw [hclock] at h
        cases h
  | advanced harmed hclock htimers =>
    rw [StateEntry.timers, StateEntry.timers, Timers.mk.injEq] at htimers
    obtain ⟨-, -, -, -, hclock', hmetric, harmed', -⟩ := htimers
    dsimp only at hclock' hmetric harmed'
    refine entryOk_clock hkind' hmem (harmed'.trans harmed) ?_ fun h => ?_
    · rw [hclock', hop]
      exact he.armed hkind harmed
    · rw [hmetric]
      exact he.metric hkind (hclock' ▸ h)

/-- What a tick does to the timers of a slot that is no clock: nothing, or it closes
an open time bar. -/
theorem tickWindow_entry (now : UInt64) (e : StateEntry N) :
    (tickWindow now e).entry.kind = e.kind ∧
      ((tickWindow now e).entry.timers = e.timers ∨
        (tickWindow now e).entry.timers = { e.timers with barCount := 0, barWindowStartMs := 0 }) := by
  have hevict : ∀ e' : StateEntry N, SameTimers e e' →
      (e'.barTimeTick now).1.kind = e.kind ∧
        ((e'.barTimeTick now).1.timers = e.timers ∨ (e'.barTimeTick now).1.timers =
          { e.timers with barCount := 0, barWindowStartMs := 0 }) := by
    intro e' hsame
    rw [← hsame.kind, ← hsame.timers]
    unfold StateEntry.barTimeTick
    split_ifs
    · exact ⟨rfl, .inl rfl⟩
    · exact ⟨rfl, .inl rfl⟩
    · exact ⟨rfl, .inr rfl⟩
  unfold tickWindow
  dsimp only
  by_cases hring : e.kind = .ring ∧ e.ringTimeWindow = true ∧ 0 < e.ringLen
  · rw [if_pos hring]
    exact hevict _ (sameTimers_ringEvictTime e _)
  · rw [if_neg hring]
    exact hevict e (.refl e)

omit [Number N] in
theorem entryOk_of_window {e e' : StateEntry N} (hclock : e.kind ≠ .clock)
    (hkind : e'.kind = e.kind)
    (htimers : e'.timers = e.timers ∨
      e'.timers = { e.timers with barCount := 0, barWindowStartMs := 0 })
    (he : EntryOk e) : EntryOk e' := by
  have hclock' : e'.kind ≠ .clock := by rwa [hkind]
  have hfields : e'.clockKind = e.clockKind ∧ e'.clockArmed = e.clockArmed ∧
      e'.clockDeadlineMs = e.clockDeadlineMs := by
    rcases htimers with htimers | htimers
    all_goals
      rw [StateEntry.timers, StateEntry.timers, Timers.mk.injEq] at htimers
      obtain ⟨-, -, -, -, hclock, -, harmed, -, hdeadline⟩ := htimers
      exact ⟨hclock, harmed, hdeadline⟩
  obtain ⟨hkind', harmed, hdeadline⟩ := hfields
  refine ⟨fun _ => ?_, fun h => absurd h hclock', fun h => absurd h hclock',
    fun h => absurd h hclock', fun h => absurd h hclock'⟩
  rw [hkind', harmed, hdeadline]
  exact he.idle hclock

theorem entryOk_tickClock (A : EvalAlloc → Bool) (now : UInt64) {e : StateEntry N} (he : EntryOk e) :
    EntryOk (tickClock A now e).entry := by
  by_cases hclock : e.kind = .clock
  · obtain ⟨hkind, htick⟩ := tickClock_entry A now hclock
    exact htick.entryOk hclock hkind (congrArg StateKey.op (key_tickClock A now e)) he
  · have hidle : (!e.clockArmed || decide (now < e.clockDeadlineMs)) = true := by
      rw [(he.idle hclock).2.1]
      rfl
    rw [tickClock, if_pos hidle]
    exact he

theorem entryOk_tickWindow (now : UInt64) {e : StateEntry N} (he : EntryOk e) :
    EntryOk (tickWindow now e).entry := by
  by_cases hclock : e.kind = .clock
  · have hsame : tickWindow now e = .done e none := by
      rw [tickWindow, if_neg (by simp [hclock]), StateEntry.barTimeTick, if_pos (by simp [hclock])]
    rw [hsame]
    exact he
  · obtain ⟨hkind, htimers⟩ := tickWindow_entry now e
    exact entryOk_of_window hclock hkind htimers he

theorem entryOk_tickEntry (A : EvalAlloc → Bool) (now : UInt64) {e : StateEntry N} (he : EntryOk e) :
    EntryOk (tickEntry A now e).entry := by
  rw [tickEntry]
  split_ifs
  · exact entryOk_tickClock A now he
  · exact entryOk_tickWindow now he

end Steps

end Monoblok.Patchbay
