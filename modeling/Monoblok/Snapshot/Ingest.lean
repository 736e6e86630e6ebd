import Monoblok.Patchbay.Silences
import Monoblok.Patchbay.Sizes
import Monoblok.Patchbay.Steps
import Monoblok.Snapshot.CatchUp

/-!
# Programs driven by event time

A program that is given messages like the consumer of a stream gives them to it catches up
with the time of each before it evaluates it. Such a run is recorded step by step. Its
ticks and evaluations drive the slots of its emitters, each in the order in which the slot
sees them, and what an emitter emits is told by the messages it takes in the record.
-/

namespace Monoblok.Snapshot

open Patchbay Relational Number Filter

variable {N W : Type} [Number N]

/-! ## Runs -/

/-- The programs reached by messages in the order of their times, with the time of the last
and the messages. The ticks that catch up are at times that go up from the last message on. -/
inductive Ingesting (rules : List (RuleSource N)) :
    UInt64 → List (UInt64 × Bytes × Bytes) → Machine N W → Prop
  | load (world : W) : Ingesting rules 0 [] ⟨loadProgram rules true, world⟩
  | world {last : UInt64} {given : List (UInt64 × Bytes × Bytes)} {m : Machine N W} (world : W)
      (h : Ingesting rules last given m) : Ingesting rules last given { m with world := world }
  | message {last : UInt64} {given : List (UInt64 × Bytes × Bytes)} {m m₁ m₂ : Machine N W}
      {ds : List UInt64} {ok : Bool} (env : Env N W) (memory : AllMemory env.alloc) (t : Moment)
      (h : Ingesting rules last given m) (time : last ≤ t.nowMs)
      (caughtUp : CaughtUp env t last.toNat m m₁ ds) (subject payload : Bytes)
      (run : evalPublish env t subject payload m₁ = some (ok, m₂)) :
      Ingesting rules t.nowMs (given ++ [(t.nowMs, subject, payload)]) m₂

/-- A run with the record of its steps, and the time of the last. A tick is at the next
deadline; a message is evaluated when no deadline up to its time is left. -/
inductive Recording (rules : List (RuleSource N)) :
    UInt64 → List (RunEvent N) → Machine N W → Prop
  | load (world : W) : Recording rules 0 [] ⟨loadProgram rules true, world⟩
  | world {last : UInt64} {tr : List (RunEvent N)} {m : Machine N W} (world : W)
      (h : Recording rules last tr m) : Recording rules last tr { m with world := world }
  | tick {last d : UInt64} {tr l : List (RunEvent N)} {m m' : Machine N W} {ok : Bool}
      (env : Env N W) (memory : AllMemory env.alloc) (t : Moment) (h : Recording rules last tr m)
      (next : nextClockDeadline m.program = some d) (time : last ≤ d) (due : d ≤ t.nowMs)
      (run : tick env (tickMoment t d) m = some (ok, m'))
      (steps : Steps env.alloc env.route d m l m') : Recording rules d (tr ++ l) m'
  | message {last : UInt64} {tr l : List (RunEvent N)} {m m' : Machine N W} {ok : Bool}
      (env : Env N W) (memory : AllMemory env.alloc) (t : Moment) (h : Recording rules last tr m)
      (time : last ≤ t.nowMs) (later : ∀ d, nextClockDeadline m.program = some d → t.nowMs < d)
      (subject payload : Bytes) (run : evalPublish env t subject payload m = some (ok, m'))
      (steps : Steps env.alloc env.route t.nowMs m l m') :
      Recording rules t.nowMs (tr ++ .given t.nowMs subject payload :: l) m'

/-! ## Slots that are driven -/

/-- A slot has been driven up to now, and no deadline is left before `b`. -/
structure Ride {V : Type} (arm : Arm N V) (now : UInt64) (b : ℕ) (e : StateEntry N)
    (last : UInt64) (messages : List (Incoming V)) (sent : List Emission) : Prop where
  driven : Driven arm last e messages sent
  past : last ≤ now
  used : e.kind = .empty ∨ e.kind = .clock ∧ ∃ a ∈ messages, e.clockIntervalMs = a.ms
  pending : InTime last messages → e.Armed → b ≤ e.clockDeadlineMs.toNat

/-- The slot has taken the messages and emitted what was sent. -/
def Rides {V : Type} (arm : Arm N V) (now : UInt64) (b : ℕ) (e : StateEntry N)
    (messages : List (Incoming V)) (sent : List Emission) : Prop :=
  ∃ last, Ride arm now b e last messages sent

/-- What a message does to the timer of a slot. -/
structure Arms {V : Type} (a : Incoming V) (e e' : StateEntry N) : Prop where
  kind : e'.kind = .clock
  interval : e'.clockIntervalMs = a.ms ∨ e.kind ≠ .empty ∧ e'.clockIntervalMs = e.clockIntervalMs
  deadline : e'.clockDeadlineMs = a.now + a.ms ∨
    (e'.Armed → e.Armed) ∧ e'.clockDeadlineMs = e.clockDeadlineMs

section Rides

variable {V : Type} {arm : Arm N V} {now : UInt64} {b : ℕ} {e : StateEntry N}
  {messages : List (Incoming V)} {sent : List Emission}

theorem rides_fresh (arm : Arm N V) (now : UInt64) (b : ℕ) (k : StateKey) :
    Rides arm now b (freshEntry k) [] [] :=
  ⟨0, .fresh k, UInt64.zero_le, .inl rfl, fun _ h => by cases h.1⟩

theorem Rides.later {now' : UInt64} {b' : ℕ} (h : Rides arm now b e messages sent)
    (hle : now ≤ now') (hb : e.Armed → b' ≤ e.clockDeadlineMs.toNat) :
    Rides arm now' b' e messages sent := by
  obtain ⟨last, h⟩ := h
  exact ⟨last, h.driven, UInt64.le_trans h.past hle, h.used, fun _ => hb⟩

/-- A message at the current time. -/
theorem Rides.message (h : Rides arm now b e messages sent) (hb : b ≤ now.toNat + 1)
    (hnow : now.toNat ≤ b) {A : EvalAlloc → Bool} {a : Incoming V} (htime : a.now = now)
    (hearly : a.early = e.dueAt now) (hok : (arm A a e).result.isOk = true)
    (harms : Arms a e (arm A a e).entry) :
    Rides arm now b (arm A a e).entry (messages ++ [a]) sent := by
  obtain ⟨last, h⟩ := h
  subst htime
  have hdue : InTime last messages → e.Armed → a.Before e.clockDeadlineMs.toNat := by
    intro hroom harmed
    have hle := hnow.trans (h.pending hroom harmed)
    rcases lt_or_eq_of_le hle with hlt | heq
    · exact .inl hlt
    -- it comes at the deadline, and the slot has yet to be ticked at this time
    · exact .inr ⟨hearly.trans (decide_eq_true ⟨harmed, UInt64.toNat_inj.mp heq⟩), heq⟩
  have hdriven := h.driven.message A a h.past hdue
    (fun hyes => of_decide_eq_true (hearly.symm.trans hyes)) hok
  refine ⟨a.now, hdriven, UInt64.le_refl a.now, .inr ⟨harms.kind, ?_⟩, ?_⟩
  · rcases harms.interval with hinterval | ⟨hused, hinterval⟩
    · exact ⟨a, by simp, hinterval⟩
    · obtain ⟨-, c, hc, hms⟩ := h.used.resolve_left hused
      exact ⟨c, List.mem_append_left _ hc, hinterval.trans hms⟩
  · intro hroom harmed
    rcases harms.deadline with hdeadline | ⟨harmed', hdeadline⟩
    · obtain ⟨hms, hfits⟩ := hroom a (by simp)
      have hpos : a.ms.toNat ≠ 0 := fun hzero => hms (UInt64.toNat_inj.mp hzero)
      rw [hdeadline, InTime.toNat_add hfits (UInt64.le_refl a.now)]
      omega
    · rw [hdeadline]
      exact h.pending (hroom.init.earlier h.past) (harmed' harmed)

/-- A tick at the current time. -/
theorem Rides.tick (h : Rides arm now b e messages sent) (hb : b ≤ now.toNat + 1)
    (hnow : now.toNat ≤ b) {A : EvalAlloc → Bool}
    {fires : Fired N ⊕ Option (StateEntry.BarClose N)}
    (hresult : (tickEntry A now e).result = .ok fires) :
    Rides arm now b (tickEntry A now e).entry messages (sent ++ emitted now fires) := by
  obtain ⟨last, h⟩ := h
  have hdriven := h.driven.tick A now h.past
    (fun hroom harmed => UInt64.le_iff_toNat_le.mpr (hnow.trans (h.pending hroom harmed))) hresult
  rcases h.used with hempty | ⟨hkind, a, ha, hinterval⟩
  · have hsame := tickEntry_empty A now hempty
    rw [hsame] at hdriven ⊢
    exact ⟨now, hdriven, UInt64.le_refl now, .inl hempty,
      fun hroom => h.pending (hroom.earlier h.past)⟩
  have hentry : (tickEntry A now e).entry = (tickClock A now e).entry := by
    rw [tickEntry_clock A now hkind]
  obtain ⟨hkind', htick⟩ := tickClock_entry A now hkind
  rw [← hentry] at hkind' htick
  by_cases hwait : e.clockArmed = false ∨ now < e.clockDeadlineMs
  · have hsame := tickEntry_early A hkind hwait
    rw [hsame] at hdriven ⊢
    exact ⟨now, hdriven, UInt64.le_refl now,
      .inr ⟨hkind, a, ha, hinterval⟩, fun hroom => h.pending (hroom.earlier h.past)⟩
  obtain ⟨harmed, hdue⟩ := not_or.mp hwait
  have harmed' : e.clockArmed = true := by simpa using harmed
  have hduring : InTime now messages → now = e.clockDeadlineMs := by
    intro hroom
    have hle := hnow.trans (h.pending (hroom.earlier h.past) ⟨hkind, harmed'⟩)
    exact UInt64.le_antisymm (UInt64.le_iff_toNat_le.mpr hle) (UInt64.not_lt.mp hdue)
  have hinterval' : (tickEntry A now e).entry.clockIntervalMs = e.clockIntervalMs := by
    cases htick with
    | same timers => exact congrArg Timers.clockIntervalMs timers
    | disarmed _ _ timers => exact congrArg Timers.clockIntervalMs timers
    | advanced _ _ timers => exact congrArg Timers.clockIntervalMs timers
  refine ⟨now, hdriven, UInt64.le_refl now,
    .inr ⟨hkind', a, ha, hinterval'.trans hinterval⟩, fun hroom hyes => ?_⟩
  have hpending := h.pending (hroom.earlier h.past) ⟨hkind, harmed'⟩
  cases htick with
  | same timers =>
    have hdeadline := congrArg Timers.clockDeadlineMs timers
    change (tickEntry A now e).entry.clockDeadlineMs = e.clockDeadlineMs at hdeadline
    rwa [hdeadline]
  | disarmed _ _ timers =>
    have hoff : (tickEntry A now e).entry.clockArmed = false := congrArg Timers.clockArmed timers
    exact absurd (hyes.2.symm.trans hoff) (by decide)
  | advanced _ _ timers =>
    have hdeadline := congrArg Timers.clockDeadlineMs timers
    change (tickEntry A now e).entry.clockDeadlineMs = e.clockDeadlineMs + e.clockIntervalMs
      at hdeadline
    have hat := hduring hroom
    rw [← hat] at hpending
    obtain ⟨-, hfits⟩ := hroom a ha
    rw [hdeadline, ← hat, hinterval, InTime.toNat_add hfits (UInt64.le_refl now)]
    omega

end Rides

/-! ## What is recorded for a slot -/

/-- What a slot of `debounce!` or `sample!` takes. -/
def RunEvent.retained (k : StateKey) : RunEvent N → Option (Incoming Bytes)
  | .retains slot a => if slot = k then some a else none
  | _ => none

/-- What a slot of `aggregate!` takes. -/
def RunEvent.taken (k : StateKey) : RunEvent N → Option (Incoming (MetricKind × N))
  | .counts slot a => if slot = k then some a else none
  | _ => none

def RunEvent.sent (k : StateKey) : RunEvent N → Option Emission
  | .emits slot s => if slot = k then some s else none
  | _ => none

def RunEvent.message : RunEvent N → Option (UInt64 × Bytes × Bytes)
  | .given now subject payload => some (now, subject, payload)
  | _ => none

/-- What a slot has taken and emitted in a run that drives it. -/
structure Rider (now : UInt64) (b : ℕ) (tr : List (RunEvent N)) (e : StateEntry N) : Prop where
  timers : EntryOk e
  debounce : e.op = lit "debounce" → Rides debounceArm now b e
    (tr.filterMap (RunEvent.retained e.key)) (tr.filterMap (RunEvent.sent e.key))
  sample : e.op = lit "sample" → Rides sampleArm now b e
    (tr.filterMap (RunEvent.retained e.key)) (tr.filterMap (RunEvent.sent e.key))
  aggregate : e.op = lit "aggregate" → Rides aggregateArm now b e
    (tr.filterMap (RunEvent.taken e.key)) (tr.filterMap (RunEvent.sent e.key))

/-- No event is one of the slot. -/
structure Silent (k : StateKey) (l : List (RunEvent N)) : Prop where
  retained : l.filterMap (RunEvent.retained k) = []
  taken : l.filterMap (RunEvent.taken k) = []
  sent : l.filterMap (RunEvent.sent k) = []

section Forms

variable {now : UInt64} {b : ℕ} {e : StateEntry N} {A : EvalAlloc → Bool} {tr l : List (RunEvent N)}

omit [Number N] in
theorem silent_nil (k : StateKey) : Silent k ([] : List (RunEvent N)) := ⟨rfl, rfl, rfl⟩

omit [Number N] in
theorem silent_retains {k k' : StateKey} (h : k' ≠ k) (a : Incoming Bytes) :
    Silent k [(.retains k' a : RunEvent N)] := by
  constructor
  · simp [RunEvent.retained, h]
  · rfl
  · rfl

omit [Number N] in
theorem silent_counts {k k' : StateKey} (h : k' ≠ k) (a : Incoming (MetricKind × N)) :
    Silent k [.counts k' a] := by
  constructor
  · rfl
  · simp [RunEvent.taken, h]
  · rfl

omit [Number N] in
theorem silent_emits {k k' : StateKey} (h : k' ≠ k) (s : Emission) :
    Silent k [(.emits k' s : RunEvent N)] := by
  constructor
  · rfl
  · rfl
  · simp [RunEvent.sent, h]

theorem Rider.silent (h : Rider now b tr e) (hl : Silent e.key l) : Rider now b (tr ++ l) e := by
  obtain ⟨timers, debounce, sample, aggregate⟩ := h
  constructor
  · exact timers
  · simpa [List.filterMap_append, hl.retained, hl.sent] using debounce
  · simpa [List.filterMap_append, hl.retained, hl.sent] using sample
  · simpa [List.filterMap_append, hl.taken, hl.sent] using aggregate

theorem rider_fresh (now : UInt64) (b : ℕ) (k : StateKey) :
    Rider now b [] (freshEntry k : StateEntry N) :=
  ⟨entryOk_fresh k, fun _ => rides_fresh _ _ _ k, fun _ => rides_fresh _ _ _ k,
    fun _ => rides_fresh _ _ _ k⟩

theorem Rider.later {now' : UInt64} {b' : ℕ} (h : Rider now b tr e)
    (hle : now ≤ now') (hb : e.Armed → b' ≤ e.clockDeadlineMs.toNat) : Rider now' b' tr e :=
  ⟨h.timers, fun heq => (h.debounce heq).later hle hb, fun heq => (h.sample heq).later hle hb,
    fun heq => (h.aggregate heq).later hle hb⟩

/-- What comes of a slot of one operation. -/
theorem rider_of_op {e' : StateEntry N} (timers : EntryOk e') {op : Bytes} (hop : e'.op = op)
    (debounce : op = lit "debounce" → Rides debounceArm now b e'
      (tr.filterMap (RunEvent.retained e'.key)) (tr.filterMap (RunEvent.sent e'.key)))
    (sample : op = lit "sample" → Rides sampleArm now b e'
      (tr.filterMap (RunEvent.retained e'.key)) (tr.filterMap (RunEvent.sent e'.key)))
    (aggregate : op = lit "aggregate" → Rides aggregateArm now b e'
      (tr.filterMap (RunEvent.taken e'.key)) (tr.filterMap (RunEvent.sent e'.key))) :
    Rider now b tr e' :=
  ⟨timers, fun h => debounce (hop.symm.trans h), fun h => sample (hop.symm.trans h),
    fun h => aggregate (hop.symm.trans h)⟩

/-! ## The forms of the emitters -/

omit [Number N] in
theorem retainPublish_isOk (memory : AllMemory A) (kind : ClockKind) (ms now : UInt64)
    (subject payload : Bytes) (reset : Bool) (e : StateEntry N) :
    (retainPublish A kind ms now subject payload reset e).result.isOk = true := by
  have hA : ∀ site, A site = true := memory
  unfold retainPublish StateEntry.setEmitSubject StateEntry.setBytes
  simp only [hA, if_true]
  rfl

theorem aggregateSample_isOk (memory : AllMemory A) (metric : MetricKind) (ms now : UInt64)
    (subject : Bytes) (x : N) (e : StateEntry N) :
    (aggregateSample A metric ms now subject x e).result.isOk = true := by
  have hA : ∀ site, A site = true := memory
  unfold aggregateSample StateEntry.setEmitSubject
  simp only [hA, if_true]
  generalize hset : ({ (if e.kind = .empty then
      { e with
        clockKind := .aggregate
        clockIntervalMs := ms
        clockDeadlineMs := now + ms
        clockArmed := true }
    else e : StateEntry N) with metricKind := metric, emitSubject := subject } : StateEntry N) = e₁
  obtain ⟨e', hpush⟩ := ringPushTime_isSome memory e₁ x now
  rw [hpush]
  rfl

/-- With memory the forms of the emitters go through. -/
theorem emitter_isOk (memory : AllMemory A) {α : Type} {op : Bytes}
    {f : StateEntry N → SlotStep N α} (hform : SlotForm A now op f) (hop : op ∈ emitterOps)
    (e : StateEntry N) : (f e).result.isOk = true := by
  rcases hform.timed_or_untimed with htimed | ⟨hnot, -⟩
  swap
  · have hall : ∀ o ∈ emitterOps, o ∈ clockOps ++ barOps := by decide
    exact absurd (hall op hop) hnot
  cases htimed with
  | @bar args timeWindow count windowMs input hargs x =>
    cases timeWindow
    all_goals exact absurd hop (by decide)
  | debounce hms subject payload => exact retainPublish_isOk memory _ _ now subject payload true e
  | sample hms subject payload => exact retainPublish_isOk memory _ _ now subject payload false e
  | aggregate hmetric hms subject x => exact aggregateSample_isOk memory _ _ now subject x e
  | onSilence hms payload body => exact absurd hop (by decide)
  | dropout hms lost found => exact absurd hop (by decide)

/-- Another form leaves no event. -/
theorem rider_form (memory : AllMemory A) {α : Type} {op : Bytes} {f : StateEntry N → SlotStep N α}
    (hform : SlotForm A now op f) (hop : e.op = op) (hother : op ∉ emitterOps)
    (h : Rider now b tr e) : Rider now b tr (f e).entry := by
  have hop' : (f e).entry.op = op := (congrArg StateKey.op (hform.key e)).trans hop
  apply rider_of_op (hform.entryOk memory hop h.timers) hop'
  all_goals
    rintro rfl
    exact absurd (by decide) hother

section Takes

variable {messages : List (Incoming Bytes)} {sent : List Emission}

theorem rides_debounce (memory : AllMemory A) (hb : b ≤ now.toNat + 1) (hnow : now.toNat ≤ b)
    (h : Rides debounceArm now b e messages sent) {a : Incoming Bytes} (htime : a.now = now)
    (hearly : a.early = e.dueAt now) :
    Rides debounceArm now b (debounceArm A a e).entry (messages ++ [a]) sent := by
  have hok := retainPublish_isOk memory .debounce a.ms a.now a.subject a.value true e
  apply h.message hb hnow htime hearly hok
  change Arms a e (retainPublish A .debounce a.ms a.now a.subject a.value true e).entry
  rw [retainPublish_ok hok]
  exact ⟨rfl, .inl rfl, .inl rfl⟩

theorem rides_sample (memory : AllMemory A) (hb : b ≤ now.toNat + 1) (hnow : now.toNat ≤ b)
    (htimers : EntryOk e) (hop : e.op = lit "sample") (h : Rides sampleArm now b e messages sent)
    {a : Incoming Bytes} (htime : a.now = now) (hearly : a.early = e.dueAt now) :
    Rides sampleArm now b (sampleArm A a e).entry (messages ++ [a]) sent := by
  have hok := retainPublish_isOk memory .sample a.ms a.now a.subject a.value false e
  apply h.message hb hnow htime hearly hok
  change Arms a e (retainPublish A .sample a.ms a.now a.subject a.value false e).entry
  rw [retainPublish_ok hok]
  refine ⟨rfl, .inl rfl, ?_⟩
  by_cases hkind : e.kind = .clock
  · by_cases hzero : e.clockDeadlineMs = 0
    · exact .inl (by simp [hzero])
    · exact .inr ⟨fun _ => ⟨hkind, htimers.sample hkind hop⟩, by simp [hzero]⟩
  · exact .inl (by simp [(htimers.idle hkind).2.2])

theorem rides_aggregate (memory : AllMemory A) (hb : b ≤ now.toNat + 1) (hnow : now.toNat ≤ b)
    {messages : List (Incoming (MetricKind × N))} (h : Rides aggregateArm now b e messages sent)
    {a : Incoming (MetricKind × N)} (htime : a.now = now) (hearly : a.early = e.dueAt now) :
    Rides aggregateArm now b (aggregateArm A a e).entry (messages ++ [a]) sent := by
  have hok := aggregateSample_isOk memory a.value.1 a.ms a.now a.subject a.value.2 e
  have hused : e.kind = .empty ∨ e.kind = .clock := by
    obtain ⟨_, h⟩ := h
    exact h.used.imp_right And.left
  apply h.message hb hnow htime hearly hok
  obtain ⟨e', hpush, hentry⟩ := aggregateSample_ok hok
  have htimers := (sameTimers_ringPushTime hpush).timers
  rw [StateEntry.timers, StateEntry.timers, Timers.mk.injEq] at htimers
  obtain ⟨-, -, -, -, -, -, harmed, hinterval, hdeadline⟩ := htimers
  change Arms a e (aggregateSample A a.value.1 a.ms a.now a.subject a.value.2 e).entry
  rw [hentry]
  rcases hused with hempty | hkind
  · rw [if_pos hempty] at hinterval hdeadline
    exact ⟨rfl, .inl hinterval, .inl hdeadline⟩
  · have hnot : e.kind ≠ .empty := by
      rw [hkind]
      decide
    rw [if_neg hnot] at harmed hinterval hdeadline
    exact ⟨rfl, .inr ⟨hnot, hinterval⟩,
      .inr ⟨fun hyes => ⟨hkind, harmed.symm.trans hyes.2⟩, hdeadline⟩⟩

/-- A message to a slot of `debounce!` or `sample!` is one it has taken. -/
theorem rider_retains {e' : StateEntry N} {k : StateKey} (hkey : e.key = k) (hkey' : e'.key = k)
    (h : Rider now b tr e) (timers : EntryOk e') {a : Incoming Bytes}
    (hop : k.op = lit "debounce" ∨ k.op = lit "sample")
    (debounce : k.op = lit "debounce" → ∀ messages sent, Rides debounceArm now b e messages sent →
      Rides debounceArm now b e' (messages ++ [a]) sent)
    (sample : k.op = lit "sample" → ∀ messages sent, Rides sampleArm now b e messages sent →
      Rides sampleArm now b e' (messages ++ [a]) sent) :
    Rider now b (tr ++ [.retains k a]) e' := by
  have hop₀ : e.op = k.op := congrArg StateKey.op hkey
  have hop' : e'.op = k.op := congrArg StateKey.op hkey'
  have hretained : (tr ++ [RunEvent.retains k a]).filterMap (RunEvent.retained e'.key) =
      tr.filterMap (RunEvent.retained e.key) ++ [a] := by
    rw [List.filterMap_append, hkey, hkey']
    simp [RunEvent.retained]
  have hsent : (tr ++ [RunEvent.retains k a]).filterMap (RunEvent.sent e'.key) =
      tr.filterMap (RunEvent.sent e.key) := by
    rw [List.filterMap_append, hkey, hkey']
    simp [RunEvent.sent]
  apply rider_of_op timers hop'
  · intro heq
    rw [hretained, hsent]
    exact debounce heq _ _ (h.debounce (hop₀.trans heq))
  · intro heq
    rw [hretained, hsent]
    exact sample heq _ _ (h.sample (hop₀.trans heq))
  · intro heq
    rw [heq] at hop
    exact absurd hop (by decide)

/-- A message to a slot of `aggregate!` is one it has taken. -/
theorem rider_counts (memory : AllMemory A) (hb : b ≤ now.toNat + 1) (hnow : now.toNat ≤ b)
    {k : StateKey} (hkey : e.key = k) {a : Incoming (MetricKind × N)}
    (hform : SlotForm A now (lit "aggregate") (aggregateArm A a)) (hop : e.op = lit "aggregate")
    (htime : a.now = now) (hearly : a.early = e.dueAt now) (h : Rider now b tr e) :
    Rider now b (tr ++ [.counts k a]) (aggregateArm A a e).entry := by
  have hkey' := (hform.key e).trans hkey
  have hrides := rides_aggregate memory hb hnow (h.aggregate hop) htime hearly
  have hop' : (aggregateArm A a e).entry.op = lit "aggregate" :=
    (congrArg StateKey.op (hform.key e)).trans hop
  apply rider_of_op (hform.entryOk memory hop h.timers) hop'
  · exact fun heq => absurd heq (by decide)
  · exact fun heq => absurd heq (by decide)
  · intro _
    have hsent : [(.counts k a : RunEvent N)].filterMap (RunEvent.sent k) = [] := rfl
    rw [hkey] at hrides
    simpa [List.filterMap_append, hkey', RunEvent.taken, hsent] using hrides

end Takes

/-! ## The ticks of a slot -/

theorem tickAggregate_isOk (memory : AllMemory A) (htext : TextFits N)
    (hmetric : e.metricKind ≠ .none) : ∃ fires, (tickAggregate A e).result = .ok fires := by
  have hA : ∀ site, A site = true := memory
  unfold tickAggregate
  by_cases hlen : e.ringLen = 0
  · rw [if_pos hlen]
    exact ⟨_, rfl⟩
  · obtain ⟨v, text, hv, hpayload⟩ := metricPayload hA htext hmetric hlen
    rw [if_neg hlen, hv]
    simp only [hpayload, Option.bind_some, StateEntry.setBytes, hA, if_true]
    exact ⟨_, rfl⟩

/-- With memory the tick of a slot goes through. -/
theorem tickEntry_isOk (memory : AllMemory A) (htext : TextFits N) (htimers : EntryOk e) :
    ∃ fires, (tickEntry A now e).result = .ok fires := by
  by_cases hkind : e.kind = .clock
  · have hclock : ∃ fires, (tickClock A now e).result = .ok fires := by
      unfold tickClock
      split_ifs
      · exact ⟨_, rfl⟩
      · split
        · exact ⟨_, rfl⟩
        · exact ⟨_, rfl⟩
        · exact ⟨_, rfl⟩
        · exact ⟨_, rfl⟩
        · rename_i haggregate
          exact tickAggregate_isOk memory htext (htimers.metric hkind haggregate)
        · exact ⟨_, rfl⟩
    obtain ⟨fires, hfires⟩ := hclock
    refine ⟨.inl fires, ?_⟩
    rw [tickEntry_clock A now hkind, hfires]
    rfl
  · have hwindow : ∃ close, (tickWindow now e).result = .ok close := by
      unfold tickWindow
      exact ⟨_, rfl⟩
    obtain ⟨close, hclose⟩ := hwindow
    refine ⟨.inr close, ?_⟩
    rw [tickEntry, if_neg hkind]
    change Except.map Sum.inr (tickWindow now e).result = _
    rw [hclose]
    rfl

/-- What a tick emits for a slot is recorded for it. -/
theorem rider_tickEntry (hb : b ≤ now.toNat + 1) (hnow : now.toNat ≤ b) (h : Rider now b tr e)
    {fires : Fired N ⊕ Option (StateEntry.BarClose N)}
    (hfires : (tickEntry A now e).result = .ok fires) :
    Rider now b (tr ++ (emitted now fires).map (.emits e.key)) (tickEntry A now e).entry := by
  have hkey := key_tickEntry A now e
  have hretained : ∀ k, ((emitted now fires).map (RunEvent.emits (N := N) e.key)).filterMap
      (RunEvent.retained k) = [] := fun k => by simp [RunEvent.retained]
  have htaken : ∀ k, ((emitted now fires).map (RunEvent.emits (N := N) e.key)).filterMap
      (RunEvent.taken k) = [] := fun k => by simp [RunEvent.taken]
  have hsent : ((emitted now fires).map (RunEvent.emits (N := N) e.key)).filterMap
      (RunEvent.sent e.key) = emitted now fires := by
    simp [List.filterMap_map, Function.comp_def, RunEvent.sent]
  apply rider_of_op (entryOk_tickEntry A now h.timers) (congrArg StateKey.op hkey)
  all_goals
    intro heq
    rw [hkey, List.filterMap_append, List.filterMap_append, hsent]
  · rw [hretained, List.append_nil]
    exact (h.debounce heq).tick hb hnow hfires
  · rw [hretained, List.append_nil]
    exact (h.sample heq).tick hb hnow hfires
  · rw [htaken, List.append_nil]
    exact (h.aggregate heq).tick hb hnow hfires

end Forms

/-! ## Programs that are driven -/

/-- What a machine has taken and emitted, slot by slot, in a run that drives it. -/
structure Riding (now : UInt64) (b : ℕ) (tr : List (RunEvent N)) (m : Machine N W) : Prop where
  keyed : Keyed m
  clock : m.program.usesClockTimer = true
  slots : ∀ k, Rider now b tr (m.slotFor k)

section Riding

variable {A : EvalAlloc → Bool} {route : W → Bytes → Bytes → W × Bool} {now : UInt64} {b : ℕ}
  {tr l : List (RunEvent N)} {m m' : Machine N W}

/-- A form on the slot of one key, or its tick. -/
theorem Riding.slot (h : Riding now b tr m) (hkeyed : Keyed m')
    (hclock : m'.program.usesClockTimer = true) {k : StateKey} {e' : StateEntry N}
    (hslots : ∀ k', m'.slotFor k' = if k' = k then e' else m.slotFor k')
    (hsilent : ∀ k' ≠ k, Silent k' l) (hslot : Rider now b (tr ++ l) e') :
    Riding now b (tr ++ l) m' := by
  refine ⟨hkeyed, hclock, fun k' => ?_⟩
  rw [hslots]
  split_ifs with hk
  · exact hslot
  · apply (h.slots k').silent
    rw [key_slotFor h.keyed]
    exact hsilent k' hk

/-- A step that leaves the slots as they are. -/
theorem Riding.same (h : Riding now b tr m) (hkeyed : Keyed m')
    (hclock : m'.program.usesClockTimer = true) (hslots : ∀ k, m'.slotFor k = m.slotFor k)
    (hsilent : ∀ k, Silent k l) : Riding now b (tr ++ l) m' := by
  refine ⟨hkeyed, hclock, fun k => ?_⟩
  rw [hslots]
  exact (h.slots k).silent (hsilent _)

/-- A message to a slot of `debounce!` or `sample!`. -/
theorem Riding.retains (memory : AllMemory A) (hb : b ≤ now.toNat + 1) (hnow : now.toNat ≤ b)
    (h : Riding now b tr m) (hclock : m'.program.usesClockTimer = true) {ctx : Ctx N W}
    {op : Bytes} {arm : Arm N Bytes} {a : Incoming Bytes} {v : Value N} (htime : a.now = now)
    (place : ctx.ruleId < m.program.rules.length)
    (hearly : a.early = (m.slotFor ⟨ctx.ruleId, op, ctx.subject⟩).dueAt now)
    (hform : SlotForm A now op (arm A a))
    (hrun : (onSlot ctx op (arm A a)).run m = some (.ok v, m'))
    (harm : op = lit "debounce" ∧ arm = debounceArm ∨ op = lit "sample" ∧ arm = sampleArm) :
    Riding now b (tr ++ [.retains ⟨ctx.ruleId, op, ctx.subject⟩ a]) m' := by
  obtain ⟨hkeyed, hleaves⟩ := h.keyed.onSlot hform.key hrun
  generalize hk : (⟨ctx.ruleId, op, ctx.subject⟩ : StateKey) = k at *
  have hop : k.op = op := congrArg StateKey.op hk.symm
  have hrule : k.ruleId = ctx.ruleId := congrArg StateKey.ruleId hk.symm
  generalize hr : (Except.ok v : Except EvalError (Value N)) = r at hleaves
  cases hleaves with
  | nothing missing slots =>
    rw [missing (hrule ▸ place)] at hr
    cases hr
  | step place slots =>
    have hkey := key_slotFor h.keyed k
    have hslot := h.slots k
    apply h.slot hkeyed hclock slots fun k' hne => silent_retains (Ne.symm hne) a
    have htimers := hform.entryOk memory ((congrArg StateKey.op hkey).trans hop) hslot.timers
    apply rider_retains hkey ((hform.key _).trans hkey) hslot htimers
    · rw [hop]
      exact harm.imp And.left And.left
    · intro hdebounce messages sent hrides
      rcases harm with ⟨-, rfl⟩ | ⟨hsample, -⟩
      · exact rides_debounce memory hb hnow hrides htime hearly
      · exact absurd (hop.symm.trans hdebounce |>.symm.trans hsample) (by decide)
    · intro hsample messages sent hrides
      rcases harm with ⟨hdebounce, -⟩ | ⟨-, rfl⟩
      · exact absurd (hop.symm.trans hsample |>.symm.trans hdebounce) (by decide)
      · exact rides_sample memory hb hnow hslot.timers ((congrArg StateKey.op hkey).trans hsample)
          hrides htime hearly

/-- The steps at a time record what the slots take and emit. -/
theorem Riding.step (memory : AllMemory A) (htext : TextFits N) (hb : b ≤ now.toNat + 1)
    (hnow : now.toNat ≤ b) (h : Riding now b tr m) (hstep : Step A route now m l m') :
    Riding now b (tr ++ l) m' := by
  have hclock : m'.program.usesClockTimer = true := by
    have hsource := congrArg Program.usesClockTimer hstep.source
    exact hsource.trans h.clock
  cases hstep with
  | debounce alloc time place early form run =>
    exact h.retains memory hb hnow hclock time place early form run (.inl ⟨rfl, rfl⟩)
  | sample alloc time place early form run =>
    exact h.retains memory hb hnow hclock time place early form run (.inr ⟨rfl, rfl⟩)
  | @aggregate ctx a v _ _ alloc time place early form run =>
    obtain ⟨hkeyed, hleaves⟩ := h.keyed.onSlot form.key run
    generalize hk : (⟨ctx.ruleId, lit "aggregate", ctx.subject⟩ : StateKey) = k at *
    have hop : k.op = lit "aggregate" := congrArg StateKey.op hk.symm
    have hrule : k.ruleId = ctx.ruleId := congrArg StateKey.ruleId hk.symm
    generalize hr : (Except.ok v : Except EvalError (Value N)) = r at hleaves
    cases hleaves with
    | nothing missing slots =>
      rw [missing (hrule ▸ place)] at hr
      cases hr
    | step place slots =>
      have hkey := key_slotFor h.keyed k
      have hslot := h.slots k
      have hop₀ := (congrArg StateKey.op hkey).trans hop
      apply h.slot hkeyed hclock slots fun k' hne => silent_counts (Ne.symm hne) a
      exact rider_counts memory hb hnow hkey form hop₀ time early hslot
  | @form α ctx op f r _ _ alloc form quiet run =>
    obtain ⟨hkeyed, hleaves⟩ := h.keyed.onSlot form.key run
    cases hleaves with
    | nothing missing slots => exact h.same hkeyed hclock slots silent_nil
    | step place slots =>
      have hkey := key_slotFor h.keyed ⟨ctx.ruleId, op, ctx.subject⟩
      apply h.slot hkeyed hclock slots fun k' _ => silent_nil k'
      rw [List.append_nil]
      apply rider_form memory form (congrArg StateKey.op hkey) ?_ (h.slots _)
      -- with memory an emitter does not fail
      intro hop
      obtain ⟨err, herr⟩ := quiet hop place
      have hok := emitter_isOk memory form hop (m.slotFor ⟨ctx.ruleId, op, ctx.subject⟩)
      rw [herr] at hok
      cases hok
  | tick run quiet =>
    obtain ⟨hkeyed, ⟨-, hsame⟩ | ⟨e, hi, hr, hslots⟩⟩ := h.keyed.tickEntry run
    · exact h.same hkeyed hclock hsame silent_nil
    · have he := h.keyed.slotFor_eq (List.mem_of_getElem? hi)
      have hslot := he ▸ h.slots e.key
      obtain ⟨fires, hfires⟩ := @tickEntry_isOk _ _ now e A memory htext hslot.timers
      have hticked := rider_tickEntry hb hnow hslot hfires
      rw [quiet fires (hr.trans hfires)] at hticked
      exact h.slot hkeyed hclock hslots (fun k' _ => silent_nil k') hticked
  | @emit j i e subject payload _ m₁ slot run =>
    obtain ⟨hkeyed, ⟨hnone, -⟩ | ⟨e', hi, hr, hslots⟩⟩ := h.keyed.tickEntry run
    · cases hnone _ rfl
    · cases slot.symm.trans hi
      have he := h.keyed.slotFor_eq (List.mem_of_getElem? hi)
      have hticked := rider_tickEntry hb hnow (he ▸ h.slots e.key) hr.symm
      have hstates : ∀ j, (m₁.handed route subject payload).ruleState j = m₁.ruleState j := by
        intro j
        unfold Machine.handed
        split_ifs
        · rfl
        · rfl
      apply h.slot (keyed_of_states hkeyed hstates) hclock (k := e.key) ?_
        (fun k' hne => silent_emits (Ne.symm hne) _) hticked
      intro k
      rw [slotFor_congr (fun j => congrArg EvalState.items (hstates j)), hslots]
  | publish subject payload =>
    exact h.same (keyed_of_states h.keyed fun _ => rfl) hclock
      (slotFor_congr fun _ => rfl) fun _ => ⟨rfl, rfl, rfl⟩
  | suppressed j =>
    have hstates := fun j' => ruleState_modifyRule m j j'
      (f := fun r => { r with publishesSuppressed := r.publishesSuppressed + 1 }) fun _ => rfl
    exact h.same (keyed_of_states h.keyed hstates) hclock
      (slotFor_congr fun j => congrArg EvalState.items (hstates j)) silent_nil
  | counted j =>
    have hstates := fun j' => ruleState_modifyRule m j j'
      (f := fun r => { r with publishesEmitted := r.publishesEmitted + 1 }) fun _ => rfl
    exact h.same (keyed_of_states h.keyed hstates) hclock
      (slotFor_congr fun j => congrArg EvalState.items (hstates j)) silent_nil

theorem Riding.steps (memory : AllMemory A) (htext : TextFits N) (hb : b ≤ now.toNat + 1)
    (hnow : now.toNat ≤ b) (h : Riding now b tr m) (hsteps : Steps A route now m l m') :
    Riding now b (tr ++ l) m' := by
  induction hsteps with
  | nil => rwa [List.append_nil]
  | snoc steps step ih =>
    rw [← List.append_assoc]
    exact ih.step memory htext hb hnow step

theorem Riding.later {now' : UInt64} {b' : ℕ} (h : Riding now b tr m) (hle : now ≤ now')
    (hb : ∀ j, AllSlots (fun e => e.Armed → b' ≤ e.clockDeadlineMs.toNat) (m.ruleState j)) :
    Riding now' b' tr m := by
  refine ⟨h.keyed, h.clock, fun k => (h.slots k).later hle fun harmed => ?_⟩
  cases hfind : m.slotOf k with
  | none =>
    unfold Machine.slotFor at harmed
    rw [hfind] at harmed
    cases harmed.1
  | some e =>
    have hslot : m.slotFor k = e := by
      unfold Machine.slotFor
      rw [hfind]
      rfl
    rw [hslot] at harmed ⊢
    exact hb k.ruleId e (h.keyed.slotOf_eq_some.mp hfind).1 harmed

omit [Number N] in
theorem entryDeadline_armed {e : StateEntry N} (h : e.Armed) :
    entryDeadline e = some e.clockDeadlineMs := by
  obtain ⟨hkind, harmed⟩ := h
  simp [entryDeadline, hkind, harmed]

/-- At the next deadline no slot is past its own. -/
theorem Riding.next {d : UInt64} (h : Riding now b tr m)
    (hnext : nextClockDeadline m.program = some d) (hle : now ≤ d) : Riding d d.toNat tr m := by
  apply h.later hle
  intro j e he harmed
  exact UInt64.le_iff_toNat_le.mp
    (nextClockDeadline_le hnext j e he _ (entryDeadline_armed harmed))

/-- A slot with a deadline waits past a time at which no deadline is left. -/
theorem Riding.ahead {t : UInt64} (h : Riding now b tr m)
    (hlater : ∀ d, nextClockDeadline m.program = some d → t < d) {j : ℕ} {e : StateEntry N}
    (he : e ∈ (m.ruleState j).items) (harmed : e.Armed) : t < e.clockDeadlineMs := by
  obtain ⟨d, hnext, hd⟩ := nextClockDeadline_of_slot h.clock he (entryDeadline_armed harmed)
  exact UInt64.lt_of_lt_of_le (hlater d hnext) hd

end Riding

section Recording

variable {rules : List (RuleSource N)} {last : UInt64} {tr : List (RunEvent N)} {m : Machine N W}

/-- The record of a run tells what the slots have taken and emitted. -/
theorem Recording.riding (htext : TextFits N) (h : Recording rules last tr m) :
    ∃ b, Riding last b tr m := by
  induction h with
  | load world =>
    have hempty : ∀ j, (⟨loadProgram rules true, world⟩ : Machine N W).ruleState j = stateInit :=
      ruleState_load rules true world
    refine ⟨0, keyed_load rules true world, rfl, fun k => ?_⟩
    have hslot : (⟨loadProgram rules true, world⟩ : Machine N W).slotFor k = freshEntry k := by
      unfold Machine.slotFor Machine.slotOf
      rw [hempty]
      rfl
    rw [hslot]
    exact rider_fresh 0 0 k
  | world world _ ih =>
    obtain ⟨b, h⟩ := ih
    exact ⟨b, h.keyed, h.clock, h.slots⟩
  | tick env memory t _ next time due run steps ih =>
    obtain ⟨b, h⟩ := ih
    exact ⟨_, (h.next next time).steps memory htext (Nat.le_succ _) le_rfl steps⟩
  | message env memory t _ time later subject payload run steps ih =>
    obtain ⟨b, h⟩ := ih
    have hready := h.later time fun j e he harmed =>
      UInt64.lt_iff_toNat_lt.mp (h.ahead later he harmed)
    have hgiven : Riding t.nowMs _ (_ ++ [.given t.nowMs subject payload]) _ :=
      hready.same hready.keyed hready.clock (fun _ => rfl) fun _ => ⟨rfl, rfl, rfl⟩
    have hsteps := hgiven.steps memory htext le_rfl (Nat.le_succ _) steps
    rw [List.append_assoc] at hsteps
    exact ⟨_, hsteps⟩

theorem Recording.keyed (h : Recording rules last tr m) : Keyed m := by
  induction h with
  | load world => exact keyed_load rules true world
  | world world _ ih => exact ih
  | tick env memory t _ next time due run steps ih => exact (steps_tick ih run).1
  | message env memory t _ time later subject payload run steps ih =>
    exact (steps_evalPublish ih run).1

/-- No step is a message to the program. -/
theorem message_steps {A : EvalAlloc → Bool} {route : W → Bytes → Bytes → W × Bool} {now : UInt64}
    {m' : Machine N W} {l : List (RunEvent N)} (h : Steps A route now m l m') :
    l.filterMap RunEvent.message = [] := by
  induction h with
  | nil => rfl
  | snoc steps step ih =>
    rw [List.filterMap_append, ih, List.nil_append]
    cases step
    all_goals rfl

/-- The ticks that catch up are part of the record. -/
theorem Recording.ticks (h : Recording rules last tr m) {env : Env N W}
    (memory : AllMemory env.alloc) {t : Moment} {m' : Machine N W} {ds : List UInt64}
    (hticks : Ticks env t m ds m') (hup : ds.Pairwise (· < ·)) (hfrom : ∀ d ∈ ds, last ≤ d)
    (hto : last ≤ t.nowMs) : ∃ last' l, last' ≤ t.nowMs ∧ Recording rules last' (tr ++ l) m' ∧
      l.filterMap RunEvent.message = [] := by
  induction hticks generalizing last tr with
  | nil m => exact ⟨last, [], hto, by rwa [List.append_nil], rfl⟩
  | @cons m m₁ m₂ d ds ok next due run rest ih =>
    obtain ⟨fuel, hrun⟩ := run.exists
    obtain ⟨-, l, hsteps⟩ := steps_tick h.keyed hrun
    have hnext := Recording.tick (env.withFuel fuel) memory t h next (hfrom d List.mem_cons_self)
      due hrun hsteps
    obtain ⟨habove, hup⟩ := List.pairwise_cons.mp hup
    obtain ⟨last', l', hle, hrest, hquiet⟩ :=
      ih hnext hup (fun x hx => UInt64.le_of_lt (habove x hx)) due
    refine ⟨last', l ++ l', hle, by rwa [← List.append_assoc], ?_⟩
    rw [List.filterMap_append, message_steps hsteps, hquiet]
    rfl

/-- So they are when the program catches up. -/
theorem Recording.caughtUp (h : Recording rules last tr m) {env : Env N W}
    (memory : AllMemory env.alloc) {t : Moment} {m' : Machine N W} {ds : List UInt64} {since : UInt64}
    (hle : last ≤ since) (hto : since ≤ t.nowMs) (hcaught : CaughtUp env t since.toNat m m' ds) :
    ∃ last' l, last' ≤ t.nowMs ∧ Recording rules last' (tr ++ l) m' ∧
      l.filterMap RunEvent.message = [] := by
  apply h.ticks memory hcaught.ticks hcaught.increasing ?_ (UInt64.le_trans hle hto)
  intro d hd
  exact UInt64.le_trans hle (UInt64.le_iff_toNat_le.mpr (hcaught.due d hd).1)

/-- A program that is driven has a record, with its messages. -/
theorem Ingesting.recording {given : List (UInt64 × Bytes × Bytes)} (h : Ingesting rules last given m) :
    ∃ last' tr, last' ≤ last ∧ Recording rules last' tr m ∧ tr.filterMap RunEvent.message = given := by
  induction h with
  | load world => exact ⟨0, [], UInt64.le_refl 0, .load world, rfl⟩
  | world world _ ih =>
    obtain ⟨last', tr, hle, h, hgiven⟩ := ih
    exact ⟨last', tr, hle, .world world h, hgiven⟩
  | @message last given m m₁ m₂ ds ok env memory t _ time caughtUp subject payload run ih =>
    obtain ⟨last₀, tr, hle, h, hgiven⟩ := ih
    obtain ⟨last₁, l, hle₁, h₁, hquiet⟩ := h.caughtUp memory hle time caughtUp
    obtain ⟨-, l', hsteps⟩ := steps_evalPublish h₁.keyed run
    refine ⟨_, _, UInt64.le_refl _, .message env memory t h₁ hle₁ caughtUp.later subject payload run hsteps, ?_⟩
    rw [List.filterMap_append, List.filterMap_append, hgiven, hquiet, List.append_nil,
      List.filterMap_cons]
    change given ++ (t.nowMs, subject, payload) :: l'.filterMap RunEvent.message = _
    rw [message_steps hsteps]

end Recording

/-! ## What they emit -/

/-- A slot has been driven up to now and has no deadline left. -/
structure Followed {V : Type} (arm : Arm N V) (now : UInt64) (e : StateEntry N)
    (messages : List (Incoming V)) (sent : List Emission) : Prop where
  driven : Driven arm now e messages sent
  ahead : e.Armed → now < e.clockDeadlineMs

/-- All messages wait for the same interval, and there is room for it. -/
structure Spaced {V : Type} (n now : UInt64) (messages : List (Incoming V)) : Prop where
  positive : 0 < n.toNat
  room : now.toNat + n.toNat < 2 ^ 64
  same : ∀ a ∈ messages, a.ms = n

/-- An emitter has been driven to a time, and what it has emitted is told by the messages
it has taken. -/
structure FollowsTime (now : UInt64) (tr : List (RunEvent N)) (e : StateEntry N) : Prop where
  debounce : e.op = lit "debounce" →
    Followed debounceArm now e (tr.filterMap (RunEvent.retained e.key))
      (tr.filterMap (RunEvent.sent e.key)) ∧
    ∀ n, Spaced n now (tr.filterMap (RunEvent.retained e.key)) →
      tr.filterMap (RunEvent.sent e.key) =
        debounced n.toNat now.toNat (tr.filterMap (RunEvent.retained e.key))
  sample : e.op = lit "sample" →
    Followed sampleArm now e (tr.filterMap (RunEvent.retained e.key))
      (tr.filterMap (RunEvent.sent e.key)) ∧
    ∀ n, Spaced n now (tr.filterMap (RunEvent.retained e.key)) →
      tr.filterMap (RunEvent.sent e.key) =
        sampled n.toNat now.toNat (tr.filterMap (RunEvent.retained e.key))
  aggregate : e.op = lit "aggregate" →
    Followed aggregateArm now e (tr.filterMap (RunEvent.taken e.key))
      (tr.filterMap (RunEvent.sent e.key)) ∧
    ∀ n, Spaced n now (tr.filterMap (RunEvent.taken e.key)) →
      (tr.filterMap (RunEvent.sent e.key)).map Emission.parts =
        aggregated n now.toNat (tr.filterMap (RunEvent.taken e.key)) ∧
      ∀ start : ℕ, ∀ a ∈ tr.filterMap (RunEvent.taken e.key), ∃! i, counted n.toNat start i a = true

/-- A tick that finds a slot not due brings it up to the time. -/
theorem Rides.followed {V : Type} {arm : Arm N V} {now now' : UInt64} {b : ℕ} {e : StateEntry N}
    {messages : List (Incoming V)} {sent : List Emission} (h : Rides arm now b e messages sent)
    (hle : now ≤ now') (hahead : e.Armed → now' < e.clockDeadlineMs) :
    Followed arm now' e messages sent := by
  obtain ⟨last, h⟩ := h
  let A : EvalAlloc → Bool := fun _ => true
  have hsame : ∃ fires, (tickEntry A now' e).result = .ok fires ∧ emitted now' fires = [] ∧
      (tickEntry A now' e).entry = e := by
    rcases h.used with hempty | ⟨hkind, -⟩
    · refine ⟨.inr none, ?_, rfl, tickEntry_empty A now' hempty⟩
      rw [tickEntry, if_neg (by simp [hempty]), tickWindow, if_neg (by simp [hempty]),
        StateEntry.barTimeTick, if_pos (by simp [hempty])]
      rfl
    · have hwait : e.clockArmed = false ∨ now' < e.clockDeadlineMs := by
        by_cases harmed : e.clockArmed = true
        · exact .inr (hahead ⟨hkind, harmed⟩)
        · exact .inl (by simpa using harmed)
      have hearly := tickEntry_early A hkind hwait
      rw [hearly]
      exact ⟨_, rfl, rfl, rfl⟩
  obtain ⟨fires, hfires, hquiet, hentry⟩ := hsame
  have hdriven := h.driven.tick A now' (UInt64.le_trans h.past hle)
    (fun _ harmed => UInt64.le_of_lt (hahead harmed)) hfires
  rw [hentry, hquiet, List.append_nil] at hdriven
  exact ⟨hdriven, hahead⟩

theorem Rider.followsTime {now now' : UInt64} {b : ℕ} {tr : List (RunEvent N)} {e : StateEntry N}
    (h : Rider now b tr e) (hle : now ≤ now') (hahead : e.Armed → now' < e.clockDeadlineMs) :
    FollowsTime now' tr e := by
  constructor
  · intro hop
    have hfollowed := (h.debounce hop).followed hle hahead
    exact ⟨hfollowed, fun n hn =>
      debounce_emits hfollowed.driven hn.positive hn.same hn.room hfollowed.ahead⟩
  · intro hop
    have hfollowed := (h.sample hop).followed hle hahead
    exact ⟨hfollowed, fun n hn =>
      sample_emits hfollowed.driven hn.positive hn.same hn.room hfollowed.ahead⟩
  · intro hop
    have hfollowed := (h.aggregate hop).followed hle hahead
    refine ⟨hfollowed, fun n hn => ⟨?_, fun start a _ => existsUnique_counted hn.positive a⟩⟩
    exact aggregate_emits hfollowed.driven hn.positive hn.same hn.room hfollowed.ahead

def debounceRule (filter subject : String) : RuleSource ℤ :=
  ⟨lit filter, .list [.symbol (lit "debounce!"), .keyword (lit "ms"), .number 10,
    .string (lit subject), .symbol (lit "payload")], false⟩

/-- Publishes the latest payload of `a` every ten milliseconds and evaluates it again. -/
def sampleAgain (subject : String) : RuleSource ℤ :=
  ⟨lit "a", .list [.symbol (lit "sample!"), .keyword (lit "ms"), .number 10,
    .string (lit subject), .symbol (lit "payload")], true⟩

/-- Messages at 1, and a tick at 11 that publishes the next one itself. -/
def messageAtDeadline : Option (Machine ℤ (List (Bytes × Bytes))) :=
  let env : Env ℤ (List (Bytes × Bytes)) :=
    ⟨fun _ => true, fun _ => none, writtenOver, payloadDrawn, fun w subject payload => (w ++ [(subject, payload)], true), 9⟩
  let m₀ : Machine ℤ (List (Bytes × Bytes)) :=
    ⟨loadProgram [sampleAgain "x", debounceRule "x" "y"] true, []⟩
  (@tickUntil _ _ shortIntervals env ⟨1, 0, false⟩ m₀).bind fun x₁ =>
  (@evalPublish _ _ shortIntervals env ⟨1, 0, false⟩ (lit "a") (lit "1") x₁.2).bind fun x₂ =>
  (@tickUntil _ _ shortIntervals env ⟨1, 0, false⟩ x₂.2).bind fun x₃ =>
  (@evalPublish _ _ shortIntervals env ⟨1, 0, false⟩ (lit "x") (lit "2") x₃.2).bind fun x₄ =>
  (@tickUntil _ _ shortIntervals env ⟨11, 0, false⟩ x₄.2).map Prod.snd

end Monoblok.Snapshot
