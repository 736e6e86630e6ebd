import Monoblok.Patchbay.Deadline

/-!
# Rings of time windows

The deadline of the ring of a time window is that of its oldest sample. A push
does not write over that sample, and when it is dropped the next one is younger.
-/

namespace Monoblok.Patchbay

open Number

variable {N : Type}

/-! ## The oldest sample -/

/-- The samples lie within the arrays. -/
def InRing (e : StateEntry N) : Prop :=
  e.ringLen ≤ e.ringCap ∧ (e.ringCap ≠ 0 → e.ringStart < e.ringCap)

/-- The oldest sample leaves its window at the given time or later. -/
def FrontFrom (b : ℕ) (e : StateEntry N) : Prop :=
  e.ringLen ≠ 0 → b ≤ (e.ringTimes e.ringStart).toNat + e.ringWindowMs.toNat + 1

/-- What holds of the ring of a slot. -/
structure RingFrom (b : ℕ) (e : StateEntry N) : Prop where
  unused : e.kind = .empty → e.ringLen = 0 ∧ e.ringCap = 0
  ring : e.kind = .ring → e.ringTimeWindow = true → InRing e ∧ FrontFrom b e

theorem RingFrom.mono {b b' : ℕ} {e : StateEntry N} (h : RingFrom b e) (hle : b' ≤ b) :
    RingFrom b' e := by
  refine ⟨h.unused, fun hkind htime => ?_⟩
  obtain ⟨hin, hfront⟩ := h.ring hkind htime
  exact ⟨hin, fun hlen => le_trans hle (hfront hlen)⟩

section Rings

variable [Number N] {A : EvalAlloc → Bool}

theorem ringEvictLoop_inRing (cutoff : UInt64) (n : ℕ) {e : StateEntry N} (he : InRing e) :
    InRing (StateEntry.ringEvictLoop cutoff n e) := by
  induction n generalizing e with
  | zero => exact he
  | succ n ih =>
    unfold StateEntry.ringEvictLoop
    split_ifs
    · exact he
    · apply ih
      constructor
      · exact le_trans (Nat.sub_le _ _) he.1
      · intro hcap
        exact Nat.mod_lt _ (Nat.pos_of_ne_zero hcap)

/-- What is dropped is older than what is kept. -/
theorem frontFrom_evict {b : ℕ} {cutoff : UInt64} {e : StateEntry N} (he : FrontFrom b e) :
    FrontFrom b (e.ringEvictTime cutoff) := by
  by_cases hfresh : e.ringLen = 0 ∨ cutoff ≤ e.ringTimes e.ringStart
  · rw [ringEvictTime_of_fresh hfresh]
    exact he
  obtain ⟨hlen, hold⟩ := not_or.mp hfresh
  have hfront := he hlen
  obtain ⟨-, hwindow⟩ := ringEvictLoop_window cutoff e.ringLen e
  have hleft := ringEvictLoop_fresh cutoff e.ringLen (e := e) le_rfl
  intro hlen'
  have hyoung := hleft.resolve_left hlen'
  change (e.ringEvictTime _).ringWindowMs = e.ringWindowMs at hwindow
  change cutoff ≤ (e.ringEvictTime _).ringTimes (e.ringEvictTime _).ringStart at hyoung
  rw [UInt64.le_iff_toNat_le] at hold hyoung
  rw [hwindow]
  omega

omit [Number N] in
/-- The front of a ring stays where it is when the arrays grow. -/
theorem ringReserve_front {e e' : StateEntry N} {cap : ℕ} (hin : InRing e)
    (h : e.ringReserve A cap true = some e') :
    InRing e' ∧ cap ≤ e'.ringCap ∧ e'.ringLen = e.ringLen ∧ e'.ringWindowMs = e.ringWindowMs ∧
      (e.ringLen ≠ 0 → e'.ringTimes e'.ringStart = e.ringTimes e.ringStart) := by
  unfold StateEntry.ringReserve at h
  simp only [if_true] at h
  split_ifs at h with hcap
  · cases h
    exact ⟨hin, hcap, rfl, rfl, fun _ => rfl⟩
  · cases h
    refine ⟨⟨le_trans hin.1 (Nat.le_of_not_le hcap), fun _ => ?_⟩, le_rfl, rfl, rfl, ?_⟩
    · change 0 < cap
      omega
    intro hlen
    have hne : e.ringCap ≠ 0 := fun hzero => hlen (Nat.le_zero.mp (hzero ▸ hin.1))
    change e.ringTimes (e.ringIdx 0) = _
    rw [StateEntry.ringIdx, if_neg hne, Nat.add_zero, Nat.mod_eq_of_lt (hin.2 hne)]

theorem ringPushTime_front {b : ℕ} {now : UInt64} {x : N} {e e' : StateEntry N}
    (hb : b ≤ now.toNat + 1) (hin : InRing e) (hfront : FrontFrom b e)
    (h : e.ringPushTime A x now = some e') : InRing e' ∧ FrontFrom b e' := by
  unfold StateEntry.ringPushTime at h
  obtain ⟨e₁, hroom, rfl⟩ := Option.map_eq_some_iff.mp h
  have hroom' : InRing e₁ ∧ e₁.ringLen < e₁.ringCap ∧ FrontFrom b e₁ := by
    by_cases hfull : e.ringLen = e.ringCap
    · rw [if_pos hfull] at hroom
      obtain ⟨hin', hcap, hlen, hwindow, hfront'⟩ := ringReserve_front hin hroom
      refine ⟨hin', ?_, ?_⟩
      · split_ifs at hcap <;> omega
      · intro hne
        rw [hfront' (hlen ▸ hne), hwindow]
        exact hfront (hlen ▸ hne)
    · rw [if_neg hfull] at hroom
      cases hroom
      exact ⟨hin, lt_of_le_of_ne hin.1 hfull, hfront⟩
  obtain ⟨hin', hlt, hfront'⟩ := hroom'
  have hstart := hin'.2 (by omega)
  refine ⟨⟨hlt, fun _ => hstart⟩, ?_⟩
  intro _
  change b ≤ (Function.update e₁.ringTimes ((e₁.ringStart + e₁.ringLen) % e₁.ringCap) now
    e₁.ringStart).toNat + e₁.ringWindowMs.toNat + 1
  by_cases hlen : e₁.ringLen = 0
  · have hidx : (e₁.ringStart + e₁.ringLen) % e₁.ringCap = e₁.ringStart := by
      rw [hlen, Nat.add_zero, Nat.mod_eq_of_lt hstart]
    rw [hidx, Function.update_self]
    omega
  · have hidx : (e₁.ringStart + e₁.ringLen) % e₁.ringCap ≠ e₁.ringStart := by
      -- the new sample goes to another place than the front
      intro heq
      by_cases hwrap : e₁.ringStart + e₁.ringLen < e₁.ringCap
      · rw [Nat.mod_eq_of_lt hwrap] at heq
        omega
      · rw [Nat.mod_eq_sub_mod (by omega), Nat.mod_eq_of_lt (by omega)] at heq
        omega
    rw [Function.update_of_ne hidx.symm]
    exact hfront' hlen

end Rings


/-! ## Forms and rings -/

/-- The fields of a ring that a deadline depends on. -/
structure RingFields where
  times : ℕ → UInt64
  cap : ℕ
  len : ℕ
  start : ℕ
  windowMs : UInt64
  timeWindow : Bool

def StateEntry.ringFields (e : StateEntry N) : RingFields where
  times := e.ringTimes
  cap := e.ringCap
  len := e.ringLen
  start := e.ringStart
  windowMs := e.ringWindowMs
  timeWindow := e.ringTimeWindow

theorem RingFrom.congr {b : ℕ} {e e' : StateEntry N} (he : RingFrom b e)
    (hfields : e'.ringFields = e.ringFields)
    (hkind : e'.kind = e.kind ∨ e'.kind = .number ∨ e'.kind = .bytes) : RingFrom b e' := by
  rw [StateEntry.ringFields, StateEntry.ringFields, RingFields.mk.injEq] at hfields
  obtain ⟨htimes, hcap, hlen, hstart, hwindow, htime⟩ := hfields
  have hother : e'.kind ≠ e.kind → e'.kind ≠ .empty ∧ e'.kind ≠ .ring := by
    intro hne
    rcases hkind.resolve_left hne with hkind | hkind
    all_goals
      rw [hkind]
      decide
  by_cases hsame : e'.kind = e.kind
  · constructor
    · rw [hsame, hlen, hcap]
      exact he.unused
    · rw [hsame, htime]
      intro hring hwindowed
      obtain ⟨hin, hfront⟩ := he.ring hring hwindowed
      unfold InRing FrontFrom
      rw [hlen, hcap, hstart, htimes, hwindow]
      exact ⟨hin, hfront⟩
  · exact ⟨fun h => absurd h (hother hsame).1, fun h => absurd h (hother hsame).2⟩

/-- A slot that is a bar or a clock. -/
theorem ringFrom_of_kind {b : ℕ} {e : StateEntry N} (h : e.kind = .bar ∨ e.kind = .clock) :
    RingFrom b e := by
  have hne : e.kind ≠ .empty ∧ e.kind ≠ .ring := by
    rcases h with h | h
    all_goals
      rw [h]
      decide
  exact ⟨fun h => absurd h hne.1, fun h => absurd h hne.2⟩

section Forms

variable [Number N] {A : EvalAlloc → Bool} {b : ℕ} {now : UInt64} {e : StateEntry N}

omit [Number N] in
theorem ringFrom_setNumber (he : RingFrom b e) (n : N) : RingFrom b (e.setNumber n) :=
  he.congr rfl (.inr (.inl rfl))

theorem ringFrom_statefulChanged (he : RingFrom b e) (v : Value N) (boolMode : Bool) :
    RingFrom b (statefulChanged A v boolMode e).entry := by
  unfold statefulChanged
  split
  · exact ringFrom_setNumber he _
  · split
    · exact he
    · split
      · split
        · exact he
        · rename_i hset
          unfold StateEntry.setBytes at hset
          split_ifs at hset
          cases hset
          exact he.congr rfl (.inr (.inr rfl))
      · exact he

theorem ringFrom_edge (he : RingFrom b e) (rising cur : Bool) :
    RingFrom b (edge rising cur e).entry := by
  unfold edge
  split
  · exact ringFrom_setNumber he _
  · exact ringFrom_setNumber he _
  · exact he

omit [Number N] in
/-- A ring of the last samples has no deadline. -/
theorem ringFrom_counts (hkind : e.kind = .ring) (htime : e.ringTimeWindow = false) :
    RingFrom b e := by
  constructor
  · intro h
    rw [hkind] at h
    cases h
  · intro _ h
    rw [htime] at h
    cases h

omit [Number N] in
theorem ringFrom_times (hkind : e.kind = .ring) (h : InRing e ∧ FrontFrom b e) : RingFrom b e := by
  refine ⟨fun hempty => ?_, fun _ _ => h⟩
  rw [hkind] at hempty
  cases hempty

omit [Number N] in
theorem ringReserve_timeWindow {e' : StateEntry N} {cap : ℕ} {withTimes : Bool}
    (h : e.ringReserve A cap withTimes = some e') : e'.ringTimeWindow = e.ringTimeWindow := by
  unfold StateEntry.ringReserve at h
  split_ifs at h
  all_goals
    cases h
    rfl

theorem ringPushCount_timeWindow (x : N) :
    (e.ringPushCount x).ringTimeWindow = e.ringTimeWindow := by
  unfold StateEntry.ringPushCount
  split_ifs <;> rfl

omit [Number N] in
/-- The slot of a window is a ring of its kind, still without samples if it is new. -/
theorem ringFrom_windowSlot (he : RingFrom b e) (w : Window) :
    RingFrom b (windowSlot A w e).1 ∧
      ((windowSlot A w e).2 = true →
        (windowSlot A w e).1.kind = .ring ∧ (windowSlot A w e).1.ringTimeWindow = w.timeWindow) := by
  unfold windowSlot
  by_cases hempty : e.kind = .empty
  · obtain ⟨hlen, hcap⟩ := he.unused hempty
    rw [if_pos hempty]
    dsimp only
    split_ifs with htime
    · refine ⟨ringFrom_times rfl ⟨⟨?_, fun hne => absurd hcap hne⟩, fun hne => absurd hlen hne⟩,
        fun _ => ⟨rfl, rfl⟩⟩
      exact le_of_eq (hlen.trans hcap.symm)
    · have hcounts : w.timeWindow = false := Bool.eq_false_iff.mpr htime
      split
      · exact ⟨ringFrom_counts rfl hcounts, fun h => by cases h⟩
      · rename_i hreserve
        have hkind := (sameTimers_ringReserve hreserve).kind
        have htime' := ringReserve_timeWindow hreserve
        exact ⟨ringFrom_counts hkind (htime'.trans hcounts), fun _ => ⟨hkind, htime'⟩⟩
  · rw [if_neg hempty]
    refine ⟨he, fun h => ?_⟩
    rw [Bool.and_eq_true, decide_eq_true_eq, beq_iff_eq] at h
    exact h

/-- A sample at the given time, after an eviction. -/
theorem ringFrom_evictPush (hb : b ≤ now.toNat + 1) (hkind : e.kind = .ring)
    (htime : e.ringTimeWindow = true) (he : RingFrom b e) (cutoff : UInt64) :
    RingFrom b (e.ringEvictTime cutoff) ∧
      ∀ {x : N} {e' : StateEntry N},
        (e.ringEvictTime cutoff).ringPushTime A x now = some e' → RingFrom b e' := by
  obtain ⟨hin, hfront⟩ := he.ring hkind htime
  have hkind' := (sameTimers_ringEvictTime e cutoff).kind.trans hkind
  have hin' : InRing (e.ringEvictTime cutoff) := ringEvictLoop_inRing cutoff e.ringLen hin
  have hfront' : FrontFrom b (e.ringEvictTime cutoff) := frontFrom_evict hfront
  refine ⟨ringFrom_times hkind' ⟨hin', hfront'⟩, fun hpush => ?_⟩
  exact ringFrom_times ((sameTimers_ringPushTime hpush).kind.trans hkind')
    (ringPushTime_front hb hin' hfront' hpush)

theorem ringFrom_windowPush (hb : b ≤ now.toNat + 1) (hkind : e.kind = .ring)
    {timeWindow : Bool} (htime : e.ringTimeWindow = timeWindow) (he : RingFrom b e) (count : ℕ)
    (ms : UInt64) (x : N) : RingFrom b (e.windowPush A timeWindow count ms now x).1 := by
  unfold StateEntry.windowPush
  cases timeWindow with
  | true =>
    obtain ⟨hevict, hpush⟩ := ringFrom_evictPush (A := A) hb hkind htime he
      (StateEntry.cutoff now (if e.ringWindowMs = 0 then ms else e.ringWindowMs))
    simp only [if_true]
    split
    · exact hevict
    · rename_i hsome
      exact hpush hsome
  | false =>
    simp only [Bool.false_eq_true, if_false]
    split
    · exact he
    · rename_i e₁ hroom
      have hroom' : e₁.kind = .ring ∧ e₁.ringTimeWindow = false := by
        split_ifs at hroom
        · exact ⟨(sameTimers_ringReserve hroom).kind.trans hkind,
            (ringReserve_timeWindow hroom).trans htime⟩
        · cases hroom
          exact ⟨hkind, htime⟩
      exact ringFrom_counts ((sameTimers_ringPushCount e₁ x).kind.trans hroom'.1)
        ((ringPushCount_timeWindow x).trans hroom'.2)

theorem ringFrom_windowStep (hb : b ≤ now.toNat + 1) (he : RingFrom b e) (w : Window) (x : N)
    (g : StateEntry N → Except EvalError (Value N)) :
    RingFrom b (windowStep A w now x g e).entry := by
  obtain ⟨hslot, hready⟩ := ringFrom_windowSlot (A := A) he w
  have hsample : RingFrom b (windowSample A w now x e).1 := by
    unfold windowSample
    generalize windowSlot A w e = r at hslot hready ⊢
    obtain ⟨e₁, ok⟩ := r
    cases ok with
    | false => exact hslot
    | true =>
      obtain ⟨hkind, htime⟩ := hready rfl
      exact ringFrom_windowPush hb hkind htime hslot _ _ x
  unfold windowStep
  generalize windowSample A w now x e = r at hsample ⊢
  obtain ⟨e₁, ok⟩ := r
  cases ok with
  | false => exact hsample
  | true => exact hsample

theorem ringFrom_throttle (hb : b ≤ now.toNat + 1) (he : RingFrom b e) (w : Window) (max : N)
    (v : Value N) : RingFrom b (throttle A w now max v e).entry := by
  obtain ⟨hslot, hready⟩ := ringFrom_windowSlot (A := A) he w
  unfold throttle
  generalize windowSlot A w e = r at hslot hready ⊢
  obtain ⟨e₁, ok⟩ := r
  cases ok with
  | false => exact hslot
  | true =>
    obtain ⟨hkind, htime⟩ := hready rfl
    dsimp only at hkind htime ⊢
    split_ifs with hwindow
    · obtain ⟨hevict, hpush⟩ :=
        ringFrom_evictPush (A := A) hb hkind (htime.trans hwindow) hslot (StateEntry.cutoff now w.ms)
      exact hevict
    · obtain ⟨hevict, hpush⟩ :=
        ringFrom_evictPush (A := A) hb hkind (htime.trans hwindow) hslot (StateEntry.cutoff now w.ms)
      split
      · exact hevict
      · rename_i hsome
        exact hpush hsome
    all_goals
      have hcounts : w.timeWindow = false := Bool.eq_false_iff.mpr hwindow
      exact ringFrom_counts ((sameTimers_ringPushCount e₁ _).kind.trans hkind)
        ((ringPushCount_timeWindow _).trans (htime.trans hcounts))

/-- The forms of bars and clocks leave a bar, a clock or the slot as it was. -/
theorem TimedForm.step {α : Type} {op : Bytes} {f : StateEntry N → SlotStep N α}
    (h : TimedForm A now op f) (hA : ∀ site, A site = true) (e : StateEntry N) :
    (f e).entry = e ∨ (f e).entry.kind = .clock ∨
      ∃ timeWindow windowMs, BarStep timeWindow windowMs now e (f e).entry := by
  have hretain : ∀ (kind : ClockKind) (ms : UInt64) (subject payload : Bytes) (reset : Bool),
      (retainPublish A kind ms now subject payload reset e).entry.kind = .clock := by
    intro kind ms subject payload reset
    unfold retainPublish StateEntry.setEmitSubject StateEntry.setBytes
    simp only [hA, if_true]
    rfl
  cases h with
  | bar hargs x =>
    rcases barSample_spec _ _ _ now x e with hsame | hstep
    · exact .inl hsame
    · exact .inr (.inr ⟨_, _, hstep⟩)
  | debounce hms subject payload => exact .inr (.inl (hretain _ _ _ _ _))
  | sample hms subject payload => exact .inr (.inl (hretain _ _ _ _ _))
  | aggregate hmetric hms subject x =>
    exact .inr (.inl (aggregateSample_entry hA _ _ now subject x e).1)
  | onSilence hms payload body =>
    unfold onSilenceArm StateEntry.setBytes
    by_cases hother : e.kind ≠ .empty ∧ (e.kind ≠ .clock ∨ e.clockKind ≠ .onSilence)
    · rw [if_pos hother]
      exact .inl rfl
    · rw [if_neg hother]
      simp only [hA, if_true]
      exact .inr (.inl rfl)
  | dropout hms lost found =>
    unfold dropoutArm
    by_cases hother : e.kind ≠ .empty ∧ (e.kind ≠ .clock ∨ e.clockKind ≠ .dropout)
    · rw [if_pos hother]
      exact .inl rfl
    · rw [if_neg hother]
      right
      left
      have hclock : ∀ e' : StateEntry N, e'.kind = (if e.kind = .empty then .clock else e.kind) →
          e'.kind = .clock := by
        intro e' hkind
        rw [hkind]
        split_ifs with hempty
        · rfl
        · simp only [not_and, not_or, not_not] at hother
          exact (hother hempty).1
      apply hclock
      by_cases hempty : e.kind = .empty
      · simp only [if_pos hempty]
        split_ifs <;> rfl
      · simp only [if_neg hempty]
        split_ifs <;> rfl

theorem TimedForm.ringFrom {α : Type} {op : Bytes} {f : StateEntry N → SlotStep N α}
    (h : TimedForm A now op f) (hA : ∀ site, A site = true) (he : RingFrom b e) :
    RingFrom b (f e).entry := by
  rcases h.step hA e with hsame | hkind | ⟨_, _, hstep⟩
  · rw [hsame]
    exact he
  · exact ringFrom_of_kind (.inr hkind)
  · exact ringFrom_of_kind (.inl hstep.kind)

/-- The forms keep the rings in order. -/
theorem SlotForm.ringFrom {α : Type} {op : Bytes} {f : StateEntry N → SlotStep N α}
    (h : SlotForm A now op f) (hA : ∀ site, A site = true) (hb : b ≤ now.toNat + 1)
    (he : RingFrom b e) : RingFrom b (f e).entry := by
  cases h with
  | squelch v => exact ringFrom_statefulChanged he v false
  | changed v => exact ringFrom_statefulChanged he v true
  | holdOff windowMs v =>
    unfold Patchbay.holdOff
    dsimp only
    split
    · exact ringFrom_setNumber he _
    · split_ifs
      · exact he
      · exact ringFrom_setNumber he _
    · exact he
  | risingEdge cur => exact ringFrom_edge he true cur
  | fallingEdge cur => exact ringFrom_edge he false cur
  | transition cur =>
    unfold levelChange
    split
    · exact ringFrom_setNumber he _
    · exact ringFrom_setNumber he _
    · exact he
  | deadband threshold x =>
    unfold Patchbay.deadband
    split_ifs
    · exact ringFrom_setNumber he _
    · exact he
  | delta x => exact ringFrom_setNumber he _
  | count => exact ringFrom_setNumber he _
  | windowCalc _ _ x what => exact ringFrom_windowStep hb he _ x _
  | percentile _ _ x p => exact ringFrom_windowStep hb he _ x _
  | rate _ => exact ringFrom_windowStep hb he _ _ _
  | throttle _ max v => exact ringFrom_throttle hb he _ max v
  | bar hargs x => exact (TimedForm.bar (A := A) hargs x).ringFrom hA he
  | debounce hms subject payload => exact (TimedForm.debounce hms subject payload).ringFrom hA he
  | sample hms subject payload => exact (TimedForm.sample hms subject payload).ringFrom hA he
  | aggregate hmetric hms subject x =>
    exact (TimedForm.aggregate hmetric hms subject x).ringFrom hA he
  | onSilence hms payload body => exact (TimedForm.onSilence hms payload body).ringFrom hA he
  | dropout hms lost found => exact (TimedForm.dropout (A := A) hms lost found).ringFrom hA he

end Forms

end Monoblok.Patchbay
