import Monoblok.Patchbay.Rings

/-!
# Slots with no deadline before a given time

Forms evaluated at the time of a tick set no deadline before it, and the tick of
a slot leaves none up to its time. What comes up during a tick is left alone by
the rest of it.
-/

namespace Monoblok.Patchbay

open Number

variable {N : Type}

/-! ## Slots whose deadlines are not yet past -/

/-- The windows of a slot, and its interval if it is due by the given time, did not wrap
when they were converted and take no time up to the given one past the last time there
is. -/
structure Fits (latest : UInt64) (e : StateEntry N) : Prop where
  bar : e.kind = .bar → e.barTimeWindow = true →
    e.barWindowMs ≠ 0 ∧ latest.toNat + e.barWindowMs.toNat < 2 ^ 64
  clock : e.kind = .clock → e.clockKind = .sample ∨ e.clockKind = .aggregate →
    e.clockDeadlineMs ≤ latest →
      e.clockIntervalMs ≠ 0 ∧ latest.toNat + e.clockIntervalMs.toNat < 2 ^ 64

/-- What holds of every slot, whatever the time. -/
structure SlotOk (e : StateEntry N) : Prop where
  timers : EntryOk e
  ring : RingFrom 0 e
  unused : e.kind = .empty → e.barCount = 0

/-- A slot that has no deadline before the given time. -/
structure OnTime (b : ℕ) (latest : UInt64) (e : StateEntry N) : Prop where
  ok : SlotOk e
  fits : Fits latest e
  ring : RingFrom b e
  bar : e.kind = .bar → e.barTimeWindow = true → e.barCount ≠ 0 →
    b ≤ (e.barWindowStartMs + e.barWindowMs).toNat
  clock : e.kind = .clock → e.clockArmed = true → b ≤ e.clockDeadlineMs.toNat

section OnTime

variable [Number N] {A : EvalAlloc → Bool} {b : ℕ} {now latest : UInt64} {e : StateEntry N}

omit [Number N] in
theorem OnTime.mono {b' : ℕ} (h : OnTime b latest e) (hle : b' ≤ b) : OnTime b' latest e :=
  ⟨h.ok, h.fits, h.ring.mono hle, fun hkind htime hopen => le_trans hle (h.bar hkind htime hopen),
    fun hkind harmed => le_trans hle (h.clock hkind harmed)⟩

omit [Number N] in
theorem OnTime.deadline (h : OnTime b latest e) (hb : b < 2 ^ 64) {x : UInt64}
    (hx : entryDeadline e = some x) : b ≤ x.toNat := by
  by_cases hring : e.kind = .ring
  · rw [entryDeadline_ring hring] at hx
    split_ifs at hx with hopen
    cases hx
    have hfront := (h.ring.ring hring hopen.1).2 (by omega)
    rw [toNat_ringDeadline]
    omega
  by_cases hbar : e.kind = .bar
  · rw [entryDeadline_bar hbar] at hx
    split_ifs at hx with hopen
    cases hx
    exact h.bar hbar hopen.1 hopen.2
  by_cases hclock : e.kind = .clock
  · rw [entryDeadline_clock hclock] at hx
    split_ifs at hx with harmed
    cases hx
    exact h.clock hclock harmed
  · rw [entryDeadline_none hring hbar hclock] at hx
    cases hx

omit [Number N] in
/-- What the bounds say of a slot whose deadlines are known to be late enough. -/
theorem onTime_of_deadline (hok : SlotOk e) (hfits : Fits latest e)
    (hdeadline : ∀ x, entryDeadline e = some x → b ≤ x.toNat) : OnTime b latest e := by
  refine ⟨hok, hfits, ⟨hok.ring.unused, ?_⟩, ?_, ?_⟩
  · intro hkind htime
    obtain ⟨hin, -⟩ := hok.ring.ring hkind htime
    refine ⟨hin, fun hlen => ?_⟩
    have hle := hdeadline _ ((entryDeadline_ring hkind).trans (if_pos ⟨htime, Nat.pos_of_ne_zero hlen⟩))
    rw [toNat_ringDeadline] at hle
    omega
  · intro hkind htime hopen
    exact hdeadline _ ((entryDeadline_bar hkind).trans (if_pos ⟨htime, hopen⟩))
  · intro hkind harmed
    exact hdeadline _ ((entryDeadline_clock hkind).trans (if_pos harmed))

omit [Number N] in
/-- A slot that is now a clock. -/
theorem onTime_clock (hok : EntryOk e) (hkind : e.kind = .clock)
    (hfits : e.clockKind = .sample ∨ e.clockKind = .aggregate → e.clockDeadlineMs ≤ latest →
      e.clockIntervalMs ≠ 0 ∧ latest.toNat + e.clockIntervalMs.toNat < 2 ^ 64)
    (hdeadline : e.clockArmed = true → b ≤ e.clockDeadlineMs.toNat) : OnTime b latest e := by
  have hbar : e.kind ≠ .bar := by
    rw [hkind]
    decide
  have hempty : e.kind ≠ .empty := by
    rw [hkind]
    decide
  exact ⟨⟨hok, ringFrom_of_kind (.inr hkind), fun h => absurd h hempty⟩,
    ⟨fun h => absurd h hbar, fun _ => hfits⟩, ringFrom_of_kind (.inr hkind),
    fun h => absurd h hbar, fun _ => hdeadline⟩

/-- The sum of now and a number of milliseconds. -/
theorem fits_add {ms : UInt64} (hle : now ≤ latest) (hb : b ≤ now.toNat + 1) (hms : ms ≠ 0)
    (hfits : latest.toNat + ms.toNat < 2 ^ 64) : b ≤ (now + ms).toNat := by
  have hpos : ms.toNat ≠ 0 := fun h => hms (UInt64.toNat_inj.mp h)
  rw [UInt64.le_iff_toNat_le] at hle
  rw [UInt64.toNat_add]
  omega

end OnTime


/-! ## Forms on slots that are on time -/

section Steps

variable {b : ℕ} {now latest : UInt64} {e e' : StateEntry N}

theorem Untimed.onTime (h : Untimed e e') (hok : EntryOk e') (hring : RingFrom b e')
    (he : OnTime b latest e) : OnTime b latest e' := by
  have hfields := h.timers
  rw [StateEntry.timers, StateEntry.timers, Timers.mk.injEq] at hfields
  obtain ⟨htime, hcount, hwindow, hstart, hclock, -, harmed, hinterval, hdeadline⟩ := hfields
  have hsame : e'.kind = .empty ∨ e'.kind = .bar ∨ e'.kind = .clock → e.kind = e'.kind := by
    intro hkind
    rcases h.kind with hkind' | hkind' | hkind' | ⟨-, hkind'⟩
    · exact hkind'.symm
    all_goals
      rw [hkind'] at hkind
      simp at hkind
  have hunused : e'.kind = .empty → e'.barCount = 0 := by
    intro hkind
    rw [hcount]
    exact he.ok.unused ((hsame (.inl hkind)).trans hkind)
  refine ⟨⟨hok, hring.mono (Nat.zero_le b), hunused⟩, ⟨?_, ?_⟩, hring, ?_, ?_⟩
  · intro hkind
    rw [htime, hwindow]
    exact he.fits.bar ((hsame (.inr (.inl hkind))).trans hkind)
  · intro hkind
    rw [hclock, hinterval, hdeadline]
    exact he.fits.clock ((hsame (.inr (.inr hkind))).trans hkind)
  · intro hkind
    rw [htime, hcount, hstart, hwindow]
    exact he.bar ((hsame (.inr (.inl hkind))).trans hkind)
  · intro hkind
    rw [harmed, hdeadline]
    exact he.clock ((hsame (.inr (.inr hkind))).trans hkind)

/-- A slot that is now a bar. -/
theorem onTime_bar (hok : EntryOk e) (hkind : e.kind = .bar)
    (hfits : e.barTimeWindow = true →
      e.barWindowMs ≠ 0 ∧ latest.toNat + e.barWindowMs.toNat < 2 ^ 64)
    (hdeadline : e.barTimeWindow = true → e.barCount ≠ 0 →
      b ≤ (e.barWindowStartMs + e.barWindowMs).toNat) : OnTime b latest e := by
  have hclock : e.kind ≠ .clock := by
    rw [hkind]
    decide
  have hempty : e.kind ≠ .empty := by
    rw [hkind]
    decide
  exact ⟨⟨hok, ringFrom_of_kind (.inl hkind), fun h => absurd h hempty⟩,
    ⟨fun _ => hfits, fun h => absurd h hclock⟩, ringFrom_of_kind (.inl hkind),
    fun _ => hdeadline, fun h => absurd h hclock⟩

theorem BarStep.onTime {timeWindow : Bool} {windowMs : UInt64}
    (h : BarStep timeWindow windowMs now e e') (hle : now ≤ latest) (hb : b ≤ now.toNat + 1)
    (hwindow : timeWindow = true → windowMs ≠ 0 ∧ latest.toNat + windowMs.toNat < 2 ^ 64)
    (he : OnTime b latest e) : OnTime b latest e' := by
  have hok := h.entryOk he.ok.timers
  have hfits : timeWindow = true →
      e'.barWindowMs ≠ 0 ∧ latest.toNat + e'.barWindowMs.toNat < 2 ^ 64 := by
    intro htime
    rw [h.window]
    split_ifs with hempty
    · exact hwindow htime
    · obtain ⟨hbar, hbarTime⟩ := h.before.resolve_left hempty
      exact he.fits.bar hbar (hbarTime.trans htime)
  apply onTime_bar hok h.kind
  · intro htime
    exact hfits (h.time.symm.trans htime)
  · intro htime hopen
    have htimed : timeWindow = true := h.time.symm.trans htime
    rcases h.start htimed with hstart | ⟨hcount, hstart⟩
    · -- the window around now ends later than now
      rw [UInt64.le_iff_toNat_le] at hle
      obtain ⟨hne, hroom⟩ := hfits htimed
      have haligned := lt_aligned_add hne (show now.toNat + e'.barWindowMs.toNat < 2 ^ 64 by omega)
      rw [UInt64.lt_iff_toNat_lt] at haligned
      rw [hstart]
      omega
    · have hused : e.kind ≠ .empty := fun hempty => hcount (he.ok.unused hempty)
      obtain ⟨hbar, hbarTime⟩ := h.before.resolve_left hused
      rw [hstart, h.window, if_neg hused]
      exact he.bar hbar (hbarTime.trans htimed) hcount

end Steps


section Forms

variable [Number N] {A : EvalAlloc → Bool} {b : ℕ} {now latest : UInt64} {e : StateEntry N}

omit [Number N] in
theorem onTime_retainPublish (hA : ∀ site, A site = true) {kind : ClockKind} {ms : UInt64}
    (hms : ms ≠ 0 ∧ latest.toNat + ms.toNat < 2 ^ 64) (hnext : b ≤ (now + ms).toNat)
    (subject payload : Bytes) {resetDeadline : Bool}
    (hkeep : resetDeadline = false → e.clockDeadlineMs ≠ 0 → b ≤ e.clockDeadlineMs.toNat)
    (hok : EntryOk (retainPublish A kind ms now subject payload resetDeadline e).entry) :
    OnTime b latest (retainPublish A kind ms now subject payload resetDeadline e).entry := by
  revert hok
  unfold retainPublish StateEntry.setEmitSubject StateEntry.setBytes
  simp only [hA, if_true]
  intro hok
  refine onTime_clock hok rfl (fun _ _ => hms) fun _ => ?_
  change b ≤ UInt64.toNat
    (if (resetDeadline || e.clockDeadlineMs == 0) = true then now + ms else e.clockDeadlineMs)
  split_ifs with hreset
  · exact hnext
  · simp only [Bool.or_eq_true, beq_iff_eq, not_or, Bool.not_eq_true] at hreset
    exact hkeep hreset.1 hreset.2

theorem onTime_aggregateSample (hA : ∀ site, A site = true) (metric : MetricKind) {ms : UInt64}
    (hms : ms ≠ 0 ∧ latest.toNat + ms.toNat < 2 ^ 64) (hnext : b ≤ (now + ms).toNat)
    (subject : Bytes) (x : N)
    (he : OnTime b latest e)
    (hok : EntryOk (aggregateSample A metric ms now subject x e).entry) :
    OnTime b latest (aggregateSample A metric ms now subject x e).entry := by
  obtain ⟨hkind, -, htimers⟩ := aggregateSample_entry hA metric ms now subject x e
  by_cases hempty : e.kind = .empty
  · rw [if_pos hempty, StateEntry.timers, Timers.mk.injEq] at htimers
    obtain ⟨-, -, -, -, -, -, -, hinterval, hdeadline⟩ := htimers
    apply onTime_clock hok hkind
    · rw [hinterval]
      exact fun _ _ => hms
    · rw [hdeadline]
      exact fun _ => hnext
  · rw [if_neg hempty, StateEntry.timers, Timers.mk.injEq] at htimers
    obtain ⟨-, -, -, -, hclock, -, harmed, hinterval, hdeadline⟩ := htimers
    apply onTime_clock hok hkind
    · rw [hclock, hinterval, hdeadline]
      intro h
      have hwas : e.kind = .clock := by
        by_contra hnot
        rw [show e.timers.clockKind = e.clockKind from rfl, (he.ok.timers.idle hnot).1] at h
        simp at h
      exact he.fits.clock hwas h
    · rw [harmed, hdeadline]
      intro h
      have hwas : e.kind = .clock := by
        by_contra hnot
        rw [show e.timers.clockArmed = e.clockArmed from rfl, (he.ok.timers.idle hnot).2.1] at h
        cases h
      exact he.clock hwas h

omit [Number N] in
theorem onTime_onSilenceArm (hA : ∀ site, A site = true) {ms : UInt64}
    (hnext : b ≤ (now + ms).toNat) (payload : Bytes) (body : List (Value N))
    (he : OnTime b latest e) (hok : EntryOk (onSilenceArm A ms now payload body e).entry) :
    OnTime b latest (onSilenceArm A ms now payload body e).entry := by
  revert hok
  unfold onSilenceArm StateEntry.setBytes
  by_cases hother : e.kind ≠ .empty ∧ (e.kind ≠ .clock ∨ e.clockKind ≠ .onSilence)
  · rw [if_pos hother]
    exact fun _ => he
  · rw [if_neg hother]
    simp only [hA, if_true]
    intro hok
    have hsilence : ∀ {e' : StateEntry N}, EntryOk e' → e'.kind = .clock → e'.clockKind = .onSilence →
        e'.clockDeadlineMs = now + ms → OnTime b latest e' := by
      intro e' hok hkind hclock hdeadline
      apply onTime_clock hok hkind
      · rw [hclock]
        simp
      · rw [hdeadline]
        exact fun _ => hnext
    by_cases hempty : e.kind = .empty
    · simp only [if_pos hempty] at hok ⊢
      exact hsilence hok rfl rfl rfl
    · simp only [if_neg hempty] at hok ⊢
      simp only [not_and, not_or, not_not] at hother
      exact hsilence hok rfl (hother hempty).2 rfl

omit [Number N] in
theorem onTime_dropoutArm {ms : UInt64} (hnext : b ≤ (now + ms).toNat) (lost found : Value N)
    (he : OnTime b latest e) (hok : EntryOk (dropoutArm ms now lost found e).entry) :
    OnTime b latest (dropoutArm ms now lost found e).entry := by
  revert hok
  unfold dropoutArm
  by_cases hother : e.kind ≠ .empty ∧ (e.kind ≠ .clock ∨ e.clockKind ≠ .dropout)
  · rw [if_pos hother]
    exact fun _ => he
  · rw [if_neg hother]
    have hdropout : ∀ {e' : StateEntry N}, e'.kind = .clock → e'.clockKind = .dropout →
        e'.clockDeadlineMs = now + ms → EntryOk e' → OnTime b latest e' := by
      intro e' hkind hclock hdeadline hok
      apply onTime_clock hok hkind
      · rw [hclock]
        simp
      · rw [hdeadline]
        exact fun _ => hnext
    by_cases hempty : e.kind = .empty
    · simp only [if_pos hempty]
      split_ifs
      · exact hdropout rfl rfl rfl
      · exact hdropout rfl rfl rfl
    · simp only [if_neg hempty]
      simp only [not_and, not_or, not_not] at hother
      split_ifs
      · exact hdropout (hother hempty).1 (hother hempty).2 rfl
      · exact hdropout (hother hempty).1 (hother hempty).2 rfl

/-- The forms set no deadline before one after now, and keep later ones. -/
theorem SlotForm.onTime {α : Type} {op : Bytes} {f : StateEntry N → SlotStep N α}
    (h : SlotForm A now op f) (hA : ∀ site, A site = true) (hfits : WholeFits N latest)
    (hle : now ≤ latest) (hb : b ≤ now.toNat + 1) (hop : e.op = op) (he : OnTime b latest e) :
    OnTime b latest (f e).entry := by
  have hok : EntryOk (f e).entry := h.entryOk hA hop he.ok.timers
  have hnext : ∀ {ms : N}, wholeFromOne ms = true → b ≤ (now + toU64 ms).toNat := fun hms =>
    fits_add hle hb (hfits _ hms).1 (hfits _ hms).2
  rcases h.timed_or_untimed with htimed | ⟨-, huntimed⟩
  · cases htimed with
    | @bar args timeWindow count windowMs input hargs x =>
      rcases barSample_spec timeWindow count windowMs now x e with hsame | hstep
      · rw [hsame]
        exact he
      · refine hstep.onTime hle hb ?_ he
        rintro rfl
        obtain ⟨ms, hms, rfl⟩ := barArgs_window hargs
        exact hfits ms hms
    | debounce hms subject payload =>
      exact onTime_retainPublish hA (hfits _ hms) (hnext hms) subject payload (fun h => by cases h) hok
    | sample hms subject payload =>
      refine onTime_retainPublish hA (hfits _ hms) (hnext hms) subject payload (fun _ hset => ?_) hok
      -- a slot that keeps its deadline is a clock, and a sampling clock stays armed
      have hclock : e.kind = .clock := by
        by_contra hnot
        exact hset (he.ok.timers.idle hnot).2.2
      exact he.clock hclock (he.ok.timers.sample hclock hop)
    | aggregate hmetric hms subject x =>
      exact onTime_aggregateSample hA _ (hfits _ hms) (hnext hms) subject x he hok
    | onSilence hms payload body => exact onTime_onSilenceArm hA (hnext hms) payload body he hok
    | dropout hms lost found => exact onTime_dropoutArm (hnext hms) lost found he hok
  · exact (huntimed e).onTime hok (h.ringFrom hA hb he.ring) he

end Forms


/-! ## The tick of a slot that is on time -/

section Ticks

variable [Number N] {A : EvalAlloc → Bool} {now latest : UInt64} {e : StateEntry N}

theorem onTime_tickClock (hA : ∀ site, A site = true) (htext : TextFits N) (hle : now ≤ latest)
    (hkind : e.kind = .clock) (he : OnTime now.toNat latest e) :
    OnTime (now.toNat + 1) latest (tickClock A now e).entry := by
  obtain ⟨hkind', -⟩ := tickClock_entry A now hkind
  have hok : EntryOk (tickClock A now e).entry := entryOk_tickClock A now he.ok.timers
  revert hkind' hok
  unfold tickClock
  by_cases hidle : (!e.clockArmed || decide (now < e.clockDeadlineMs)) = true
  · rw [if_pos hidle]
    intro _ hok
    refine onTime_clock hok hkind (he.fits.clock hkind) fun harmed => ?_
    change e.clockArmed = true at harmed
    rw [harmed, Bool.not_true, Bool.false_or, decide_eq_true_eq, UInt64.lt_iff_toNat_lt] at hidle
    exact hidle
  rw [if_neg hidle]
  simp only [Bool.or_eq_true, Bool.not_eq_true', decide_eq_true_eq, not_or, Bool.not_eq_false,
    UInt64.not_lt] at hidle
  obtain ⟨harmed, hdue⟩ := hidle
  have hdeadline := he.clock hkind harmed
  have hop := he.ok.timers.armed hkind harmed
  rw [UInt64.le_iff_toNat_le] at hdue hle
  have hrepeats : e.clockKind = .sample ∨ e.clockKind = .aggregate →
      e.clockIntervalMs ≠ 0 ∧ latest.toNat + e.clockIntervalMs.toNat < 2 ^ 64 := fun hclock =>
    he.fits.clock hkind hclock (UInt64.le_iff_toNat_le.mpr (by omega))
  have hadvance : e.clockKind = .sample ∨ e.clockKind = .aggregate →
      now.toNat + 1 ≤ (e.clockDeadlineMs + e.clockIntervalMs).toNat := by
    intro hclock
    obtain ⟨hne, hroom⟩ := hrepeats hclock
    have hpos : e.clockIntervalMs.toNat ≠ 0 := fun hzero => hne (UInt64.toNat_inj.mp hzero)
    rw [UInt64.toNat_add]
    omega
  have hdisarmed : ∀ {e' : StateEntry N}, e'.clockKind ≠ .sample → e'.clockKind ≠ .aggregate →
      e'.clockArmed = false → e'.kind = .clock → EntryOk e' → OnTime (now.toNat + 1) latest e' := by
    intro e' hsample haggregate harmed hkind hok
    apply onTime_clock hok hkind
    · rintro (h | h)
      · exact absurd h hsample
      · exact absurd h haggregate
    · rw [harmed]
      exact fun h => by cases h
  cases hclock : e.clockKind with
  | none =>
    rw [hclock] at hop
    cases hop
  | onSilence => exact hdisarmed (fun h => by cases h) (fun h => by cases h) rfl
  | dropout => exact hdisarmed (fun h => by cases h) (fun h => by cases h) rfl
  | debounce => exact hdisarmed (fun h => by cases h) (fun h => by cases h) rfl
  | sample =>
    intro h hok
    refine onTime_clock hok h (fun _ _ => hrepeats (.inl hclock)) fun _ => ?_
    exact hadvance (.inl hclock)
  | aggregate =>
    intro h hok
    have htimers := tickAggregate_advances hA htext (he.ok.timers.metric hkind hclock)
    rw [StateEntry.timers, Timers.mk.injEq] at htimers
    obtain ⟨-, -, -, -, -, -, -, hinterval, hnext⟩ := htimers
    apply onTime_clock hok h
    · rw [hinterval]
      exact fun _ _ => hrepeats (.inr hclock)
    · rw [hnext]
      exact fun _ => hadvance (.inr hclock)

omit [Number N] in
/-- A time bar that is not closed by a tick ends later. -/
theorem onTime_barTimeTick (hkind : e.kind = .bar) (he : OnTime now.toNat latest e)
    (hok : EntryOk (e.barTimeTick now).1) :
    OnTime (now.toNat + 1) latest (e.barTimeTick now).1 := by
  revert hok
  unfold StateEntry.barTimeTick
  by_cases hshut : e.kind ≠ .bar ∨ e.barTimeWindow = false ∨ e.barCount = 0
  · rw [if_pos hshut]
    intro hok
    refine onTime_bar hok hkind (he.fits.bar hkind) fun htime hopen => ?_
    rcases hshut.resolve_left (not_not.mpr hkind) with hshut | hshut
    · exact absurd htime (Bool.eq_false_iff.mp hshut)
    · exact absurd hshut hopen
  rw [if_neg hshut]
  by_cases hin : now - e.barWindowStartMs < e.barWindowMs
  · rw [if_pos hin]
    intro hok
    refine onTime_bar hok hkind (he.fits.bar hkind) fun htime hopen => ?_
    change now.toNat + 1 ≤ (e.barWindowStartMs + e.barWindowMs).toNat
    have hdeadline := he.bar hkind htime hopen
    have hnow := now.toNat_lt
    have hstart := e.barWindowStartMs.toNat_lt
    have hwindow := e.barWindowMs.toNat_lt
    rw [UInt64.lt_iff_toNat_lt, UInt64.toNat_sub] at hin
    rw [UInt64.toNat_add] at hdeadline ⊢
    omega
  · rw [if_neg hin]
    intro hok
    exact onTime_bar hok hkind (he.fits.bar hkind) fun _ hopen => absurd rfl hopen

/-- The tick of a slot that is no bar drops old samples only. -/
theorem entry_tickWindow (now : UInt64) (hbar : e.kind ≠ .bar) :
    (tickWindow now e).entry =
      if e.kind = .ring ∧ e.ringTimeWindow = true ∧ 0 < e.ringLen then
        e.ringEvictTime (StateEntry.cutoff now e.ringWindowMs) else e := by
  have hkind : ∀ {e' : StateEntry N}, e'.kind = e.kind → (e'.barTimeTick now).1 = e' := by
    intro e' hkind
    rw [StateEntry.barTimeTick, if_pos (.inl (hkind ▸ hbar))]
  rw [tickWindow]
  dsimp only
  split_ifs
  · exact hkind (sameTimers_ringEvictTime e _).kind
  · exact hkind rfl

/-- The tick of a slot leaves no deadline up to now. -/
theorem onTime_tickEntry (hA : ∀ site, A site = true) (htext : TextFits N) (hle : now ≤ latest)
    (he : OnTime now.toNat latest e) :
    OnTime (now.toNat + 1) latest (tickEntry A now e).entry := by
  have hok : EntryOk (tickEntry A now e).entry := entryOk_tickEntry A now he.ok.timers
  by_cases hclock : e.kind = .clock
  · rw [tickEntry, if_pos hclock]
    exact onTime_tickClock hA htext hle hclock he
  by_cases hbar : e.kind = .bar
  · have hring : e.kind ≠ .ring := by
      rw [hbar]
      decide
    rw [tickEntry_of_bar A now hclock hring] at hok ⊢
    exact onTime_barTimeTick hbar he hok
  have hentry : (tickEntry A now e).entry =
      if e.kind = .ring ∧ e.ringTimeWindow = true ∧ 0 < e.ringLen then
        e.ringEvictTime (StateEntry.cutoff now e.ringWindowMs) else e := by
    rw [tickEntry, if_neg hclock]
    exact entry_tickWindow now hbar
  rw [hentry] at hok ⊢
  by_cases hopen : e.kind = .ring ∧ e.ringTimeWindow = true ∧ 0 < e.ringLen
  · rw [if_pos hopen] at hok ⊢
    obtain ⟨hin, -⟩ := he.ring.ring hopen.1 hopen.2.1
    have hsame := sameTimers_ringEvictTime e (StateEntry.cutoff now e.ringWindowMs)
    obtain ⟨-, hwindow⟩ := ringEvictLoop_window (StateEntry.cutoff now e.ringWindowMs) e.ringLen e
    have hleft := ringEvictLoop_fresh (StateEntry.cutoff now e.ringWindowMs) e.ringLen (e := e) le_rfl
    have hfront : FrontFrom (now.toNat + 1)
        (e.ringEvictTime (StateEntry.cutoff now e.ringWindowMs)) := by
      intro hlen
      have hyoung := hleft.resolve_left hlen
      rw [cutoff_le_iff] at hyoung
      change (e.ringEvictTime _).ringWindowMs = e.ringWindowMs at hwindow
      change now.toNat < ((e.ringEvictTime _).ringTimes (e.ringEvictTime _).ringStart).toNat + _ + 1
        at hyoung
      rw [hwindow]
      omega
    have hring := ringFrom_times (hsame.kind.trans hopen.1)
      ⟨ringEvictLoop_inRing (StateEntry.cutoff now e.ringWindowMs) e.ringLen hin, hfront⟩
    have hnot : (e.ringEvictTime (StateEntry.cutoff now e.ringWindowMs)).kind ≠ .empty := by
      rw [hsame.kind, hopen.1]
      decide
    refine ⟨⟨hok, hring.mono (Nat.zero_le _), fun h => absurd h hnot⟩, ⟨?_, ?_⟩, hring, ?_, ?_⟩
    · exact fun h => absurd (hsame.kind.symm.trans h) hbar
    · exact fun h => absurd (hsame.kind.symm.trans h) hclock
    · exact fun h => absurd (hsame.kind.symm.trans h) hbar
    · exact fun h => absurd (hsame.kind.symm.trans h) hclock
  · rw [if_neg hopen]
    refine ⟨he.ok, he.fits, ⟨he.ring.unused, fun hkind htime => ?_⟩, fun h => absurd h hbar,
      fun h => absurd h hclock⟩
    refine ⟨(he.ring.ring hkind htime).1, fun hlen => ?_⟩
    exact absurd ⟨hkind, htime, Nat.pos_of_ne_zero hlen⟩ hopen

end Ticks

/-! ## Slots that come up during a tick -/

/-- An open time bar starts at the given time at the latest. -/
def Started (now : UInt64) (e : StateEntry N) : Prop :=
  e.kind = .bar → e.barTimeWindow = true → e.barCount ≠ 0 → e.barWindowStartMs ≤ now

section Started

variable [Number N] {A : EvalAlloc → Bool} {now latest : UInt64} {e : StateEntry N}

theorem aligned_le (now w : UInt64) : now / w * w ≤ now := by
  have hle : now.toNat / w.toNat * w.toNat ≤ now.toNat := Nat.div_mul_le_self _ _
  have hnow := now.toNat_lt
  rw [UInt64.le_iff_toNat_le, UInt64.toNat_mul, UInt64.toNat_div, Nat.mod_eq_of_lt (by omega)]
  exact hle

theorem SlotForm.started {α : Type} {op : Bytes} {f : StateEntry N → SlotStep N α}
    (h : SlotForm A now op f) (hA : ∀ site, A site = true) (hunused : e.kind = .empty → e.barCount = 0)
    (he : Started now e) : Started now (f e).entry := by
  rcases h.timed_or_untimed with htimed | ⟨-, huntimed⟩
  · rcases htimed.step hA e with hsame | hkind | ⟨timeWindow, windowMs, hstep⟩
    · rw [hsame]
      exact he
    · intro hbar
      rw [hkind] at hbar
      cases hbar
    · intro hbar htime hopen
      have htimed := hstep.time.symm.trans htime
      rcases hstep.start htimed with hstart | ⟨hcount, hstart⟩
      · rw [hstart]
        exact aligned_le now _
      · obtain ⟨hkind, htime'⟩ := hstep.before.resolve_left fun hempty => hcount (hunused hempty)
        rw [hstart]
        exact he hkind (htime'.trans htimed) hcount
  · have hstep := huntimed e
    have hfields := hstep.timers
    rw [StateEntry.timers, StateEntry.timers, Timers.mk.injEq] at hfields
    obtain ⟨htime, hcount, -, hstart, -⟩ := hfields
    intro hbar
    rw [htime, hcount, hstart]
    apply he
    rcases hstep.kind with hkind | hkind | hkind | ⟨-, hkind⟩
    · exact hkind.symm.trans hbar
    all_goals
      rw [hkind] at hbar
      cases hbar

/-- A tick does nothing to a slot that is not due and has started. -/
theorem idle_of_onTime (hnow : now.toNat + 1 < 2 ^ 64) (he : OnTime (now.toNat + 1) latest e)
    (hstarted : Started now e) : TickIdle A now e := by
  have hlater : ¬StartsLater now e := by
    intro hlater
    have hle := hstarted hlater.kind hlater.time hlater.open
    exact absurd hlater.later (UInt64.not_lt.mpr hle)
  by_contra hacts
  obtain ⟨d, hdeadline, hdue⟩ := (acts_due_iff A now e).mpr hlater hacts
  have hle := he.deadline hnow hdeadline
  rw [UInt64.le_iff_toNat_le] at hdue
  omega

end Started

/-! ## What holds of every slot -/

section SlotOk

variable [Number N] {A : EvalAlloc → Bool} {now : UInt64} {e : StateEntry N}

theorem ringFrom_fresh (b : ℕ) (k : StateKey) : RingFrom b (freshEntry k : StateEntry N) :=
  ⟨fun _ => ⟨rfl, rfl⟩, fun h => by cases h⟩

theorem slotOk_fresh (k : StateKey) : SlotOk (freshEntry k : StateEntry N) :=
  ⟨entryOk_fresh k, ringFrom_fresh 0 k, fun _ => rfl⟩

theorem onTime_fresh (b : ℕ) (latest : UInt64) (k : StateKey) :
    OnTime b latest (freshEntry k : StateEntry N) := by
  refine ⟨slotOk_fresh k, ⟨?_, ?_⟩, ringFrom_fresh b k, ?_, ?_⟩
  all_goals
    intro h
    cases h

theorem SlotForm.slotOk {α : Type} {op : Bytes} {f : StateEntry N → SlotStep N α}
    (h : SlotForm A now op f) (hA : ∀ site, A site = true) (hop : e.op = op) (he : SlotOk e) :
    SlotOk (f e).entry := by
  refine ⟨h.entryOk hA hop he.timers, h.ringFrom hA (Nat.zero_le _) he.ring, ?_⟩
  rcases h.timed_or_untimed with htimed | ⟨-, huntimed⟩
  · rcases htimed.step hA e with hsame | hkind | ⟨_, _, hstep⟩
    · rw [hsame]
      exact he.unused
    · rw [hkind]
      exact fun h => by cases h
    · rw [hstep.kind]
      exact fun h => by cases h
  · have hstep := huntimed e
    have hcount := congrArg Timers.barCount hstep.timers
    intro hempty
    rcases hstep.kind with hkind | hkind | hkind | ⟨-, hkind⟩
    · exact hcount.trans (he.unused (hkind.symm.trans hempty))
    all_goals
      rw [hkind] at hempty
      cases hempty

theorem slotOk_tickClock (A : EvalAlloc → Bool) (now : UInt64) (he : SlotOk e) :
    SlotOk (tickClock A now e).entry := by
  by_cases hclock : e.kind = .clock
  · obtain ⟨hkind, -⟩ := tickClock_entry A now hclock
    refine ⟨entryOk_tickClock A now he.timers, ringFrom_of_kind (.inr hkind), fun hempty => ?_⟩
    rw [hkind] at hempty
    cases hempty
  · have hidle : (!e.clockArmed || decide (now < e.clockDeadlineMs)) = true := by
      rw [(he.timers.idle hclock).2.1]
      rfl
    rw [tickClock, if_pos hidle]
    exact he

theorem slotOk_tickWindow (now : UInt64) (he : SlotOk e) : SlotOk (tickWindow now e).entry := by
  have hok := entryOk_tickWindow now he.timers
  obtain ⟨hkind, -⟩ := tickWindow_entry now e
  by_cases hbar : e.kind = .bar
  · refine ⟨hok, ringFrom_of_kind (.inl (hkind.trans hbar)), fun hempty => ?_⟩
    rw [hkind, hbar] at hempty
    cases hempty
  rw [entry_tickWindow now hbar] at hok ⊢
  split_ifs at hok ⊢ with hopen
  · obtain ⟨hin, hfront⟩ := he.ring.ring hopen.1 hopen.2.1
    have hsame := sameTimers_ringEvictTime e (StateEntry.cutoff now e.ringWindowMs)
    have hring := ringFrom_times (hsame.kind.trans hopen.1)
      ⟨ringEvictLoop_inRing (StateEntry.cutoff now e.ringWindowMs) e.ringLen hin,
        frontFrom_evict hfront⟩
    refine ⟨hok, hring, fun hempty => ?_⟩
    rw [hsame.kind, hopen.1] at hempty
    cases hempty
  · exact he

end SlotOk

end Monoblok.Patchbay
