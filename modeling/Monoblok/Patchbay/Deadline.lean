import Monoblok.Patchbay.Timers
import Monoblok.Patchbay.Whole

/-!
# Deadlines and ticks

Whether the tick of a slot does anything, against the deadline of the slot. The
two agree except on a time bar whose window starts after the tick.
-/

namespace Monoblok.Patchbay

open Number

variable {N : Type}

/-! ## Deadlines -/

theorem entryDeadline_clock {e : StateEntry N} (hkind : e.kind = .clock) :
    entryDeadline e = if e.clockArmed = true then some e.clockDeadlineMs else none := by
  simp [entryDeadline, hkind]

theorem entryDeadline_bar {e : StateEntry N} (hkind : e.kind = .bar) :
    entryDeadline e =
      if e.barTimeWindow = true ∧ e.barCount ≠ 0 then some (e.barWindowStartMs + e.barWindowMs)
      else none := by
  simp [entryDeadline, hkind]

/-- One more than the sum, or the last time there is. -/
def ringDeadline (t w : UInt64) : UInt64 :=
  if t.toNat + w.toNat + 1 < 2 ^ 64 then t + w + 1 else 0xffffffffffffffff

theorem toNat_ringDeadline (t w : UInt64) :
    (ringDeadline t w).toNat = min (t.toNat + w.toNat + 1) (2 ^ 64 - 1) := by
  have ht := t.toNat_lt
  have hw := w.toNat_lt
  unfold ringDeadline
  split_ifs with h
  · rw [UInt64.toNat_add, UInt64.toNat_add]
    simp only [UInt64.toNat_one]
    omega
  · have hmax : (0xffffffffffffffff : UInt64).toNat = 2 ^ 64 - 1 := by decide
    rw [hmax]
    omega

theorem entryDeadline_ring {e : StateEntry N} (hkind : e.kind = .ring) :
    entryDeadline e =
      if e.ringTimeWindow = true ∧ 0 < e.ringLen then
        some (ringDeadline (e.ringTimes e.ringStart) e.ringWindowMs)
      else none := by
  have hsum : ∀ t w : UInt64,
      (if t ≤ 0xffffffffffffffff - w then
        some (if t + w < 0xffffffffffffffff then t + w + 1 else t + w)
      else some 0xffffffffffffffff) = some (ringDeadline t w) := by
    intro t w
    have ht := t.toNat_lt
    have hw := w.toNat_lt
    have hmax : (0xffffffffffffffff : UInt64).toNat = 2 ^ 64 - 1 := by decide
    have hroom : (0xffffffffffffffff - w).toNat = 2 ^ 64 - 1 - w.toNat := by
      rw [UInt64.toNat_sub, hmax]
      omega
    have hdeadline := toNat_ringDeadline t w
    split_ifs with hle hlt
    all_goals rw [UInt64.le_iff_toNat_le, hroom] at hle
    · rw [UInt64.lt_iff_toNat_lt, hmax, UInt64.toNat_add] at hlt
      rw [Option.some.injEq, ← UInt64.toNat_inj, hdeadline, UInt64.toNat_add, UInt64.toNat_add]
      simp only [UInt64.toNat_one]
      omega
    · rw [UInt64.lt_iff_toNat_lt, hmax, UInt64.toNat_add] at hlt
      rw [Option.some.injEq, ← UInt64.toNat_inj, hdeadline, UInt64.toNat_add]
      omega
    · rw [Option.some.injEq, ← UInt64.toNat_inj, hdeadline, hmax]
      omega
  have hring := hsum (e.ringTimes e.ringStart) e.ringWindowMs
  simp only [entryDeadline, hkind, true_and]
  by_cases hopen : e.ringTimeWindow = true ∧ 0 < e.ringLen
  · rw [if_pos hopen, if_pos hopen]
    exact hring
  · rw [if_neg hopen, if_neg hopen]
    simp

/-! ## A tick that does something -/

section Ticks

variable [Number N]

/-- A tick does nothing to a slot: the slot stays as it is, no clock fires and no
bar closes. -/
def TickIdle (A : EvalAlloc → Bool) (now : UInt64) (e : StateEntry N) : Prop :=
  (tickEntry A now e).entry = e ∧
    ((tickEntry A now e).result = .ok (.inl .nothing) ∨ (tickEntry A now e).result = .ok (.inr none))

/-- A slot has a deadline, and its time has come. -/
def Due (now : UInt64) (e : StateEntry N) : Prop := ∃ d, entryDeadline e = some d ∧ d ≤ now

/-- An open time bar whose window starts after the tick. -/
structure StartsLater (now : UInt64) (e : StateEntry N) : Prop where
  kind : e.kind = .bar
  time : e.barTimeWindow = true
  «open» : e.barCount ≠ 0
  later : now < e.barWindowStartMs
  ends : e.barWindowStartMs.toNat + e.barWindowMs.toNat < 2 ^ 64

theorem idle_of_clock (A : EvalAlloc → Bool) {now : UInt64} {e : StateEntry N}
    (hkind : e.kind = .clock) (hdue : ¬Due now e) : TickIdle A now e := by
  have hearly : (!e.clockArmed || decide (now < e.clockDeadlineMs)) = true := by
    rw [Bool.or_eq_true, Bool.not_eq_true', decide_eq_true_eq]
    by_contra hnot
    simp only [not_or, Bool.not_eq_false, UInt64.not_lt] at hnot
    apply hdue
    rw [Due, entryDeadline_clock hkind, if_pos hnot.1]
    exact ⟨_, rfl, hnot.2⟩
  have hunfold : tickEntry A now e = ⟨e, false, .ok (.inl .nothing)⟩ := by
    rw [tickEntry, if_pos hkind, tickClock, if_pos hearly]
    rfl
  rw [TickIdle, hunfold]
  exact ⟨rfl, .inl rfl⟩

theorem ringEvictTime_of_fresh {e : StateEntry N} {cutoff : UInt64}
    (h : e.ringLen = 0 ∨ cutoff ≤ e.ringTimes e.ringStart) : e.ringEvictTime cutoff = e := by
  unfold StateEntry.ringEvictTime
  cases hlen : e.ringLen with
  | zero => rfl
  | succ n =>
    rw [StateEntry.ringEvictLoop]
    exact if_pos h

/-- The cutoff of a window is the time its oldest sample may have. -/
theorem cutoff_le_iff (now t w : UInt64) :
    StateEntry.cutoff now w ≤ t ↔ now.toNat < t.toNat + w.toNat + 1 := by
  have ht := t.toNat_lt
  have hw := w.toNat_lt
  have hnow := now.toNat_lt
  unfold StateEntry.cutoff
  split_ifs with h
  · rw [UInt64.lt_iff_toNat_lt] at h
    rw [UInt64.le_iff_toNat_le, UInt64.toNat_sub]
    omega
  · rw [UInt64.lt_iff_toNat_lt] at h
    have hzero : (0 : UInt64) ≤ t := by
      rw [UInt64.le_iff_toNat_le]
      exact Nat.zero_le _
    simp only [hzero, true_iff]
    omega

theorem idle_of_ring (A : EvalAlloc → Bool) {now : UInt64} {e : StateEntry N}
    (hkind : e.kind = .ring) (hdue : ¬Due now e) : TickIdle A now e := by
  have hclock : e.kind ≠ .clock := by
    rw [hkind]
    decide
  have hbar : e.kind ≠ .bar := by
    rw [hkind]
    decide
  have hevict : (if e.kind = .ring ∧ e.ringTimeWindow = true ∧ 0 < e.ringLen then
      e.ringEvictTime (StateEntry.cutoff now e.ringWindowMs) else e) = e := by
    split_ifs with hopen
    · apply ringEvictTime_of_fresh
      right
      rw [cutoff_le_iff]
      by_contra hnot
      apply hdue
      refine ⟨_, (entryDeadline_ring hkind).trans (if_pos hopen.2), ?_⟩
      have hnow := now.toNat_lt
      rw [UInt64.le_iff_toNat_le, toNat_ringDeadline]
      omega
    · rfl
  have hunfold : tickEntry A now e = ⟨e, false, .ok (.inr none)⟩ := by
    rw [tickEntry, if_neg hclock, tickWindow]
    dsimp only
    rw [hevict, StateEntry.barTimeTick, if_pos (.inl hbar)]
    rfl
  rw [TickIdle, hunfold]
  exact ⟨rfl, .inr rfl⟩

/-- The tick of a slot that is neither a clock nor a ring. -/
theorem tickEntry_of_bar (A : EvalAlloc → Bool) (now : UInt64) {e : StateEntry N}
    (hclock : e.kind ≠ .clock) (hring : e.kind ≠ .ring) :
    tickEntry A now e =
      ⟨(e.barTimeTick now).1, false, .ok (.inr (e.barTimeTick now).2)⟩ := by
  rw [tickEntry, if_neg hclock, tickWindow, if_neg fun h => hring h.1]
  rfl

/-- A bar is closed when as much time has passed as its window takes; the
difference wraps. -/
theorem idle_bar_iff (A : EvalAlloc → Bool) {now : UInt64} {e : StateEntry N}
    (hkind : e.kind = .bar) :
    TickIdle A now e ↔
      ¬(e.barTimeWindow = true ∧ e.barCount ≠ 0 ∧ e.barWindowMs ≤ now - e.barWindowStartMs) := by
  have hclock : e.kind ≠ .clock := by
    rw [hkind]
    decide
  have hring : e.kind ≠ .ring := by
    rw [hkind]
    decide
  rw [TickIdle, tickEntry_of_bar A now hclock hring]
  unfold StateEntry.barTimeTick
  by_cases hshut : e.kind ≠ .bar ∨ e.barTimeWindow = false ∨ e.barCount = 0
  · rw [if_pos hshut]
    simp only [hkind, ne_eq, not_true_eq_false, false_or] at hshut
    refine ⟨?_, fun _ => ⟨rfl, .inr rfl⟩⟩
    rintro - ⟨htime, hopen, -⟩
    rcases hshut with hshut | hshut
    · rw [htime] at hshut
      cases hshut
    · exact hopen hshut
  · rw [if_neg hshut]
    simp only [hkind, ne_eq, not_true_eq_false, false_or, not_or, Bool.not_eq_false] at hshut
    by_cases hin : now - e.barWindowStartMs < e.barWindowMs
    · rw [if_pos hin]
      refine ⟨fun _ h => ?_, fun _ => ⟨rfl, .inr rfl⟩⟩
      exact UInt64.not_lt.mpr h.2.2 hin
    · rw [if_neg hin]
      refine ⟨fun h => ?_, fun h => absurd ⟨hshut.1, hshut.2, UInt64.not_lt.mp hin⟩ h⟩
      rcases h.2 with h | h
      · simp at h
      · simp at h

/-- The wrapping difference against the deadline. -/
theorem bar_due_iff (now start w : UInt64) :
    (w ≤ now - start → start + w ≤ now) ↔
      ¬(now < start ∧ start.toNat + w.toNat < 2 ^ 64) := by
  have hnow := now.toNat_lt
  have hstart := start.toNat_lt
  have hw := w.toNat_lt
  rw [UInt64.le_iff_toNat_le, UInt64.le_iff_toNat_le, UInt64.lt_iff_toNat_lt, UInt64.toNat_sub,
    UInt64.toNat_add]
  omega

/-- A tick does something to a slot only if it is due, except that it closes a bar
whose window starts later. -/
theorem acts_due_iff (A : EvalAlloc → Bool) (now : UInt64) (e : StateEntry N) :
    (¬TickIdle A now e → Due now e) ↔ ¬StartsLater now e := by
  have hlater : e.kind ≠ .bar → ¬StartsLater now e := fun hkind h => hkind h.kind
  have hnone : e.kind ≠ .clock → e.kind ≠ .ring → e.kind ≠ .bar →
      ((¬TickIdle A now e → Due now e) ↔ ¬StartsLater now e) := by
    intro hclock hring hbar
    refine iff_of_true (fun h => absurd ?_ h) (hlater hbar)
    rw [TickIdle, tickEntry_of_bar A now hclock hring, StateEntry.barTimeTick, if_pos (.inl hbar)]
    exact ⟨rfl, .inr rfl⟩
  cases hkind : e.kind with
  | clock =>
    refine iff_of_true (fun h => ?_) (hlater (by rw [hkind]; decide))
    exact Classical.byContradiction fun hdue => h (idle_of_clock A hkind hdue)
  | ring =>
    refine iff_of_true (fun h => ?_) (hlater (by rw [hkind]; decide))
    exact Classical.byContradiction fun hdue => h (idle_of_ring A hkind hdue)
  | bar =>
    have hdue : Due now e ↔ e.barTimeWindow = true ∧ e.barCount ≠ 0 ∧
        e.barWindowStartMs + e.barWindowMs ≤ now := by
      rw [Due, entryDeadline_bar hkind]
      by_cases hopen : e.barTimeWindow = true ∧ e.barCount ≠ 0
      · simp [hopen]
      · simp only [if_neg hopen]
        constructor
        · rintro ⟨d, h, -⟩
          cases h
        · intro h
          exact absurd ⟨h.1, h.2.1⟩ hopen
    have hwrap := bar_due_iff now e.barWindowStartMs e.barWindowMs
    rw [idle_bar_iff A hkind, not_not, hdue]
    constructor
    · intro h hstarts
      refine hwrap.mp (fun hle => (h ⟨hstarts.time, hstarts.open, hle⟩).2.2) ⟨hstarts.later, hstarts.ends⟩
    · rintro h ⟨htime, hopen, hle⟩
      refine ⟨htime, hopen, hwrap.mpr ?_ hle⟩
      rintro ⟨hlt, hends⟩
      exact h ⟨hkind, htime, hopen, hlt, hends⟩
  | empty => exact hnone (by simp [hkind]) (by simp [hkind]) (by simp [hkind])
  | number => exact hnone (by simp [hkind]) (by simp [hkind]) (by simp [hkind])
  | bytes => exact hnone (by simp [hkind]) (by simp [hkind]) (by simp [hkind])

end Ticks

/-! ## A slot that is not due for some time -/

theorem entryDeadline_congr {e e' : StateEntry N} (h : SameTimers e e') (hring : e.kind ≠ .ring) :
    entryDeadline e' = entryDeadline e := by
  have hfields := h.timers
  rw [StateEntry.timers, StateEntry.timers, Timers.mk.injEq] at hfields
  obtain ⟨htime, hcount, hwindow, hstart, -, -, harmed, -, hdeadline⟩ := hfields
  simp only [entryDeadline, hring, h.kind, htime, hcount, hwindow, hstart, harmed, hdeadline,
    false_and, if_false]

theorem entryDeadline_none {e : StateEntry N} (hring : e.kind ≠ .ring) (hbar : e.kind ≠ .bar)
    (hclock : e.kind ≠ .clock) : entryDeadline e = none := by
  simp [entryDeadline, hring, hbar, hclock]

/-- A slot in use whose deadline, if it has one, is later than the given one. -/
structure Later (d now : UInt64) (e : StateEntry N) : Prop where
  used : e.kind ≠ .empty
  noRing : e.kind ≠ .ring
  deadline : ∀ x, entryDeadline e = some x → d < x
  room : e.kind = .bar → e.barTimeWindow = true →
    e.barWindowMs ≠ 0 ∧ now.toNat + e.barWindowMs.toNat < 2 ^ 64

variable {d now : UInt64}

theorem Untimed.later {e e' : StateEntry N} (h : Untimed e e') (he : Later d now e) :
    Later d now e' := by
  have hvalue : e'.kind = .number ∨ e'.kind = .bytes → Later d now e' := by
    intro hkind
    have hdeadline : entryDeadline e' = none := by
      rcases hkind with hkind | hkind
      all_goals
        apply entryDeadline_none
        all_goals
          rw [hkind]
          decide
    refine ⟨?_, ?_, ?_, ?_⟩
    · rcases hkind with hkind | hkind <;> simp [hkind]
    · rcases hkind with hkind | hkind <;> simp [hkind]
    · intro x hx
      rw [hdeadline] at hx
      cases hx
    · rcases hkind with hkind | hkind <;> simp [hkind]
  rcases h.kind with hkind | hkind | hkind | ⟨hempty, -⟩
  · have hdeadline := entryDeadline_congr ⟨h.timers, hkind⟩ he.noRing
    have hfields := h.timers
    rw [StateEntry.timers, StateEntry.timers, Timers.mk.injEq] at hfields
    obtain ⟨htime, -, hwindow, -⟩ := hfields
    refine ⟨by rw [hkind]; exact he.used, by rw [hkind]; exact he.noRing, ?_, ?_⟩
    · rw [hdeadline]
      exact he.deadline
    · rw [hkind, htime, hwindow]
      exact he.room
  · exact hvalue (.inl hkind)
  · exact hvalue (.inr hkind)
  · exact absurd hempty he.used

/-- The sum with a positive number that fits is later. -/
theorem lt_add_of_fits {ms : UInt64} (hd : d ≤ now) (hms : ms ≠ 0)
    (hfits : now.toNat + ms.toNat < 2 ^ 64) : d < now + ms := by
  have hpos : ms.toNat ≠ 0 := fun h => hms (UInt64.toNat_inj.mp h)
  rw [UInt64.le_iff_toNat_le] at hd
  rw [UInt64.lt_iff_toNat_lt, UInt64.toNat_add]
  omega

/-- The window around now ends later than now. -/
theorem lt_aligned_add {w : UInt64} (hw : w ≠ 0) (hfits : now.toNat + w.toNat < 2 ^ 64) :
    now < now / w * w + w := by
  have hpos : 0 < w.toNat := Nat.pos_of_ne_zero fun h => hw (UInt64.toNat_inj.mp h)
  have hle : now.toNat / w.toNat * w.toNat ≤ now.toNat := Nat.div_mul_le_self _ _
  have hnow := now.toNat_lt
  rw [UInt64.lt_iff_toNat_lt, UInt64.toNat_add, UInt64.toNat_mul, UInt64.toNat_div,
    Nat.mod_eq_of_lt (show now.toNat / w.toNat * w.toNat < 2 ^ 64 by omega), Nat.mod_eq_of_lt (by omega)]
  exact Nat.lt_div_mul_add hpos

theorem BarStep.later {timeWindow : Bool} {windowMs : UInt64} {e e' : StateEntry N}
    (h : BarStep timeWindow windowMs now e e') (hd : d ≤ now) (he : Later d now e) :
    Later d now e' := by
  obtain ⟨hbar, htime⟩ := h.before.resolve_left he.used
  have hwindow : e'.barWindowMs = e.barWindowMs := h.window.trans (if_neg he.used)
  refine ⟨by simp [h.kind], by simp [h.kind], ?_, ?_⟩
  · intro x hx
    rw [entryDeadline_bar h.kind] at hx
    split_ifs at hx with hopen
    cases hx
    have htimed : timeWindow = true := h.time.symm.trans hopen.1
    obtain ⟨hne, hroom⟩ := he.room hbar (htime.trans htimed)
    rcases h.start htimed with hstart | ⟨hcount, hstart⟩
    · rw [hstart, hwindow]
      have haligned := lt_aligned_add hne hroom
      rw [UInt64.lt_iff_toNat_lt] at haligned ⊢
      rw [UInt64.le_iff_toNat_le] at hd
      omega
    · rw [hstart, hwindow]
      apply he.deadline
      rw [entryDeadline_bar hbar, if_pos ⟨htime.trans htimed, hcount⟩]
  · rw [hwindow, h.time, ← htime]
    exact fun _ => he.room hbar

theorem later_clock {e : StateEntry N} (hkind : e.kind = .clock)
    (hdeadline : e.clockArmed = true → d < e.clockDeadlineMs) : Later d now e := by
  refine ⟨by simp [hkind], by simp [hkind], ?_, by simp [hkind]⟩
  intro x hx
  rw [entryDeadline_clock hkind] at hx
  split_ifs at hx with harmed
  cases hx
  exact hdeadline harmed

/-- The deadline of a clock that is armed. -/
theorem Later.armed {e : StateEntry N} (h : Later d now e) (hkind : e.kind = .clock)
    (harmed : e.clockArmed = true) : d < e.clockDeadlineMs := by
  apply h.deadline
  rw [entryDeadline_clock hkind, if_pos harmed]

section Forms

variable [Number N] {A : EvalAlloc → Bool}

/-- No number of milliseconds wraps when it is converted, nor its sum with now. -/
def WholeFits (N : Type) [Number N] (now : UInt64) : Prop :=
  ∀ n : N, wholeFromOne n = true → toU64 n ≠ 0 ∧ now.toNat + (toU64 n).toNat < 2 ^ 64

omit [Number N] in
theorem later_retainPublish (hA : ∀ site, A site = true) {kind : ClockKind} {ms : UInt64}
    (hd : d ≤ now) (hms : ms ≠ 0) (hfits : now.toNat + ms.toNat < 2 ^ 64) (subject payload : Bytes)
    {resetDeadline : Bool} {e : StateEntry N}
    (hkeep : resetDeadline = false → e.clockDeadlineMs ≠ 0 → d < e.clockDeadlineMs) :
    Later d now (retainPublish A kind ms now subject payload resetDeadline e).entry := by
  unfold retainPublish StateEntry.setEmitSubject StateEntry.setBytes
  simp only [hA, if_true]
  refine later_clock rfl fun _ => ?_
  change d < if (resetDeadline || e.clockDeadlineMs == 0) = true then now + ms else e.clockDeadlineMs
  split_ifs with hreset
  · exact lt_add_of_fits hd hms hfits
  · simp only [Bool.or_eq_true, beq_iff_eq, not_or, Bool.not_eq_true] at hreset
    exact hkeep hreset.1 hreset.2

omit [Number N] in
theorem later_onSilenceArm (hA : ∀ site, A site = true) {ms : UInt64} (hd : d ≤ now) (hms : ms ≠ 0)
    (hfits : now.toNat + ms.toNat < 2 ^ 64) (payload : Bytes) (body : List (Value N))
    {e : StateEntry N} (he : Later d now e) :
    Later d now (onSilenceArm A ms now payload body e).entry := by
  unfold onSilenceArm StateEntry.setBytes
  by_cases hother : e.kind ≠ .empty ∧ (e.kind ≠ .clock ∨ e.clockKind ≠ .onSilence)
  · rw [if_pos hother]
    exact he
  · rw [if_neg hother]
    simp only [hA, if_true, if_neg he.used]
    exact later_clock rfl fun _ => lt_add_of_fits hd hms hfits

omit [Number N] in
theorem later_dropoutArm {ms : UInt64} (hd : d ≤ now) (hms : ms ≠ 0)
    (hfits : now.toNat + ms.toNat < 2 ^ 64) (lost found : Value N) {e : StateEntry N}
    (he : Later d now e) : Later d now (dropoutArm ms now lost found e).entry := by
  unfold dropoutArm
  by_cases hother : e.kind ≠ .empty ∧ (e.kind ≠ .clock ∨ e.clockKind ≠ .dropout)
  · rw [if_pos hother]
    exact he
  · rw [if_neg hother]
    have hclock : e.kind = .clock := by
      simp only [not_and, not_or, not_not] at hother
      exact (hother he.used).1
    simp only [if_neg he.used]
    split_ifs
    · exact later_clock hclock fun _ => lt_add_of_fits hd hms hfits
    · exact later_clock hclock fun _ => lt_add_of_fits hd hms hfits

theorem later_aggregateSample (hA : ∀ site, A site = true) (metric : MetricKind) (ms : UInt64)
    (subject : Bytes) (x : N) {e : StateEntry N} (hok : EntryOk e) (he : Later d now e) :
    Later d now (aggregateSample A metric ms now subject x e).entry := by
  obtain ⟨hkind, -, htimers⟩ := aggregateSample_entry hA metric ms now subject x e
  rw [if_neg he.used, StateEntry.timers, Timers.mk.injEq] at htimers
  obtain ⟨-, -, -, -, -, -, harmed, -, hdeadline⟩ := htimers
  refine later_clock hkind fun h => ?_
  rw [harmed] at h
  rw [hdeadline]
  have hclock : e.kind = .clock := by
    by_contra hnot
    rw [show e.timers.clockArmed = e.clockArmed from rfl, (hok.idle hnot).2.1] at h
    cases h
  exact he.armed hclock h

/-- The forms keep a slot from becoming due. -/
theorem SlotForm.later {α : Type} {op : Bytes} {f : StateEntry N → SlotStep N α}
    (h : SlotForm A now op f) (hA : ∀ site, A site = true) (hfits : WholeFits N now) (hd : d ≤ now)
    {e : StateEntry N} (hop : e.op = op) (hok : EntryOk e) (he : Later d now e) :
    Later d now (f e).entry := by
  rcases h.timed_or_untimed with htimed | ⟨-, huntimed⟩
  · cases htimed with
    | @bar args timeWindow count windowMs input hargs x =>
      rcases barSample_spec timeWindow count windowMs now x e with hsame | hstep
      · rw [hsame]
        exact he
      · exact hstep.later hd he
    | debounce hms subject payload =>
      obtain ⟨hne, hsum⟩ := hfits _ hms
      exact later_retainPublish hA hd hne hsum subject payload fun h => by cases h
    | sample hms subject payload =>
      obtain ⟨hne, hsum⟩ := hfits _ hms
      refine later_retainPublish hA hd hne hsum subject payload fun _ hset => ?_
      -- a slot that keeps its deadline is a clock, and a sampling clock stays armed
      have hclock : e.kind = .clock := by
        by_contra hnot
        exact hset (hok.idle hnot).2.2
      exact he.armed hclock (hok.sample hclock hop)
    | aggregate hmetric hms subject x =>
      exact later_aggregateSample hA _ _ subject x hok he
    | onSilence hms payload body =>
      obtain ⟨hne, hsum⟩ := hfits _ hms
      exact later_onSilenceArm hA hd hne hsum payload body he
    | dropout hms lost found =>
      obtain ⟨hne, hsum⟩ := hfits _ hms
      exact later_dropoutArm hd hne hsum lost found he
  · exact (huntimed e).later he

end Forms

/-! ## The tick of a slot that is due -/

/-- The sums the tick of a slot makes do not wrap: the deadline of a bar, the next
one of a clock, and the one after now of a ring. Nor did the window of a bar when it
was converted: where it came to 0 the first sample has divided by it. -/
structure NoWrap (now : UInt64) (e : StateEntry N) : Prop where
  now_lt : now.toNat + 1 < 2 ^ 64
  bar : e.kind = .bar → e.barTimeWindow = true →
    e.barWindowMs ≠ 0 ∧ e.barWindowStartMs.toNat + e.barWindowMs.toNat < 2 ^ 64 ∧
      now.toNat + e.barWindowMs.toNat < 2 ^ 64
  clock : e.kind = .clock → e.clockDeadlineMs.toNat + e.clockIntervalMs.toNat < 2 ^ 64

/-- A clock that is due and repeats after no time. -/
structure StaysDue (now : UInt64) (e : StateEntry N) : Prop where
  now_lt : now.toNat + 1 < 2 ^ 64
  kind : e.kind = .clock
  repeats : e.clockKind = .sample ∨ e.clockKind = .aggregate
  armed : e.clockArmed = true
  due : e.clockDeadlineMs ≤ now
  interval : e.clockIntervalMs = 0

/-- The text of a number fits its buffer. -/
def TextFits (N : Type) [Number N] : Prop :=
  ∀ (p : ℕ) (n : N), p ≤ 17 → (fmtG p n).length < 32

section Saturation

variable [Number N]

/-- A number of milliseconds that has not come to 0 and takes now no further than the
last time; others are raised to 1 or cut to what is left. -/
def saturated (now ms : UInt64) : UInt64 :=
  if ms = 0 then 1
  else if now.toNat + ms.toNat < 2 ^ 64 then ms else 0xffffffffffffffff - now

/-- The same arithmetic, where no number of milliseconds wraps, neither when it is
converted nor in its sum with now. -/
abbrev saturate (now : UInt64) : Number N :=
  { (inferInstance : Number N) with
    toU64 := fun n => if wholeFromOne n then saturated now (toU64 n) else toU64 n }

theorem toNat_left {now : UInt64} : (0xffffffffffffffff - now).toNat = 2 ^ 64 - 1 - now.toNat := by
  have hmax : (0xffffffffffffffff : UInt64).toNat = 2 ^ 64 - 1 := by decide
  have hnow := now.toNat_lt
  rw [UInt64.toNat_sub, hmax]
  omega

theorem wholeFits_saturate {now : UInt64} (hnow : now.toNat + 1 < 2 ^ 64) :
    @WholeFits N (saturate now) now := by
  intro n hn
  change (if wholeFromOne n then saturated now (toU64 n) else toU64 n) ≠ 0 ∧
    now.toNat + (if wholeFromOne n then saturated now (toU64 n) else toU64 n).toNat < 2 ^ 64
  rw [if_pos (show wholeFromOne n = true from hn)]
  unfold saturated
  split_ifs with hzero hfits
  · exact ⟨by decide, by simpa using hnow⟩
  · exact ⟨hzero, hfits⟩
  · have hleft := @toNat_left now
    refine ⟨?_, by omega⟩
    intro hzero
    rw [hzero, UInt64.toNat_zero] at hleft
    omega

/-- Where nothing wraps there is nothing to raise or to cut. -/
theorem saturate_of_fits {now : UInt64} (hfits : WholeFits N now) :
    (saturate now : Number N) = ‹Number N› := by
  have hsame : (fun n : N => if wholeFromOne n then saturated now (toU64 n) else toU64 n) = toU64 := by
    funext n
    split_ifs with hn
    · rw [saturated, if_neg (hfits n hn).1, if_pos (hfits n hn).2]
    · rfl
  unfold saturate
  rw [hsame]

end Saturation

/-- The whole numbers, with texts cut to what the buffer of a number holds. -/
abbrev shortTexts : Number ℤ :=
  { (inferInstance : Number ℤ) with fmtG := fun _ n => (wholeText n).take 31 }

theorem textFits_shortTexts : @TextFits ℤ shortTexts := by
  intro p n _
  change ((wholeText n).take 31).length < 32
  rw [List.length_take]
  omega

section Due

variable [Number N] {A : EvalAlloc → Bool}

theorem shortestText_isSome (htext : TextFits N) (n : N) {ps : List ℕ} (hne : ps ≠ [])
    (hps : ∀ p ∈ ps, p ≤ 17) : (shortestText n ps).isSome = true := by
  induction ps with
  | nil => exact absurd rfl hne
  | cons p ps ih =>
    have hfits : ¬32 ≤ (fmtG p n).length := Nat.not_le.mpr (htext p n (hps p List.mem_cons_self))
    cases ps with
    | nil =>
      rw [shortestText, if_neg hfits]
      rfl
    | cons q qs =>
      rw [shortestText, if_neg hfits]
      split_ifs
      · rfl
      · exact ih (List.cons_ne_nil q qs) fun r hr => hps r (List.mem_cons_of_mem p hr)
      · exact List.cons_ne_nil q qs

theorem metricValue_number {e : StateEntry N} (hmetric : e.metricKind ≠ .none)
    (hlen : e.ringLen ≠ 0) : ∃ n, metricValue e = some (.number n) := by
  unfold metricValue StateEntry.calcRing
  simp only [if_neg hlen]
  cases hkind : e.metricKind with
  | none => exact absurd hkind hmetric
  | avg => exact ⟨_, rfl⟩
  | sum => exact ⟨_, rfl⟩
  | min => exact ⟨_, rfl⟩
  | max => exact ⟨_, rfl⟩
  | count => exact ⟨_, rfl⟩
  | rate => exact ⟨_, rfl⟩

/-- With memory a metric of some samples has a payload. -/
theorem metricPayload (hA : ∀ site, A site = true) (htext : TextFits N) {e : StateEntry N}
    (hmetric : e.metricKind ≠ .none) (hlen : e.ringLen ≠ 0) :
    ∃ v text, metricValue e = some v ∧ coercePayload A v = some text := by
  obtain ⟨n, hn⟩ := metricValue_number hmetric hlen
  have hsome := @shortestText_isSome _ _ htext n [15, 16, 17] (by simp) (by simp)
  obtain ⟨text, htext⟩ := Option.isSome_iff_exists.mp hsome
  exact ⟨.number n, text, hn, by simp [coercePayload, Value.asString, hA, htext]⟩

/-- An aggregate that is due moves on. -/
theorem tickAggregate_advances (hA : ∀ site, A site = true) (htext : TextFits N)
    {e : StateEntry N} (hmetric : e.metricKind ≠ .none) :
    (tickAggregate A e).entry.timers =
      { e.timers with clockDeadlineMs := e.clockDeadlineMs + e.clockIntervalMs } := by
  unfold tickAggregate
  by_cases hlen : e.ringLen = 0
  · rw [if_pos hlen]
    rfl
  · obtain ⟨v, text, hv, hpayload⟩ := metricPayload hA htext hmetric hlen
    rw [if_neg hlen, hv]
    simp only [hpayload, Option.bind_some, StateEntry.setBytes, hA, if_true]
    rfl

/-- A clock that is due is disarmed or moves on. -/
theorem later_tickClock (hA : ∀ site, A site = true) (htext : TextFits N) {d now : UInt64}
    {e : StateEntry N} (hkind : e.kind = .clock) (hok : EntryOk e) (hwrap : NoWrap now e)
    (hrepeats : ¬StaysDue now e) (hdeadline : entryDeadline e = some d) (hd : d ≤ now) :
    Later d now (tickClock A now e).entry := by
  rw [entryDeadline_clock hkind] at hdeadline
  split_ifs at hdeadline with harmed
  obtain rfl : e.clockDeadlineMs = d := Option.some.inj hdeadline
  have hdue : ¬(!e.clockArmed || decide (now < e.clockDeadlineMs)) = true := by
    simp only [Bool.or_eq_true, Bool.not_eq_true', decide_eq_true_eq, not_or, Bool.not_eq_false]
    exact ⟨harmed, UInt64.not_lt.mpr hd⟩
  have hop := hok.armed hkind harmed
  have hadvance : e.clockKind = .sample ∨ e.clockKind = .aggregate →
      e.clockDeadlineMs < e.clockDeadlineMs + e.clockIntervalMs := fun hclock =>
    lt_add_of_fits (UInt64.le_refl _)
      (fun hzero => hrepeats ⟨hwrap.now_lt, hkind, hclock, harmed, hd, hzero⟩) (hwrap.clock hkind)
  have hdisarmed : ∀ {e' : StateEntry N}, e'.kind = .clock → e'.clockArmed = false →
      Later e.clockDeadlineMs now e' := by
    intro e' hkind harmed
    refine later_clock hkind fun h => ?_
    rw [harmed] at h
    cases h
  unfold tickClock
  rw [if_neg hdue]
  cases hclock : e.clockKind with
  | none =>
    rw [hclock] at hop
    cases hop
  | onSilence => exact hdisarmed hkind rfl
  | dropout => exact hdisarmed hkind rfl
  | debounce => exact hdisarmed hkind rfl
  | sample => exact later_clock hkind fun _ => hadvance (.inl hclock)
  | aggregate =>
    obtain ⟨hkind', -⟩ := tickAggregate_entry A hkind
    have hnext := congrArg Timers.clockDeadlineMs
      (tickAggregate_advances hA htext (hok.metric hkind hclock))
    refine later_clock hkind' fun _ => ?_
    rw [show (tickAggregate A e).entry.clockDeadlineMs = e.clockDeadlineMs + e.clockIntervalMs
      from hnext]
    exact hadvance (.inr hclock)

/-- A bar that is due closes. -/
theorem later_tickBar (A : EvalAlloc → Bool) {d now : UInt64} {e : StateEntry N}
    (hkind : e.kind = .bar) (hwrap : NoWrap now e) (hdeadline : entryDeadline e = some d)
    (hd : d ≤ now) : Later d now (tickEntry A now e).entry := by
  rw [entryDeadline_bar hkind] at hdeadline
  split_ifs at hdeadline with hopen
  obtain rfl : e.barWindowStartMs + e.barWindowMs = d := Option.some.inj hdeadline
  obtain ⟨hne, hend, hroom⟩ := hwrap.bar hkind hopen.1
  have hlate : ¬now - e.barWindowStartMs < e.barWindowMs := by
    have hnow := now.toNat_lt
    rw [UInt64.le_iff_toNat_le, UInt64.toNat_add] at hd
    rw [UInt64.lt_iff_toNat_lt, UInt64.toNat_sub]
    omega
  have hshut : ¬(e.kind ≠ .bar ∨ e.barTimeWindow = false ∨ e.barCount = 0) := by
    simp [hkind, hopen]
  rw [tickEntry_of_bar A now (by rw [hkind]; decide) (by rw [hkind]; decide),
    StateEntry.barTimeTick, if_neg hshut, if_neg hlate]
  have hclosed : ∀ {e' : StateEntry N}, e'.kind = .bar → e'.barCount = 0 →
      e'.barWindowMs = e.barWindowMs → Later (e.barWindowStartMs + e.barWindowMs) now e' := by
    intro e' hkind hcount hwindow
    refine ⟨by simp [hkind], by simp [hkind], ?_, fun _ _ => hwindow ▸ ⟨hne, hroom⟩⟩
    intro x hx
    rw [entryDeadline_bar hkind, if_neg fun h => h.2 hcount] at hx
    cases hx
  exact hclosed hkind rfl rfl

theorem ringEvictLoop_fresh (cutoff : UInt64) (n : ℕ) {e : StateEntry N} (hn : e.ringLen ≤ n) :
    (StateEntry.ringEvictLoop cutoff n e).ringLen = 0 ∨
      cutoff ≤ (StateEntry.ringEvictLoop cutoff n e).ringTimes
        (StateEntry.ringEvictLoop cutoff n e).ringStart := by
  induction n generalizing e with
  | zero => exact .inl (Nat.le_zero.mp hn)
  | succ n ih =>
    unfold StateEntry.ringEvictLoop
    split_ifs with hfresh
    · exact hfresh
    · exact ih (by dsimp only; omega)

theorem ringEvictLoop_window (cutoff : UInt64) (n : ℕ) (e : StateEntry N) :
    (StateEntry.ringEvictLoop cutoff n e).ringTimeWindow = e.ringTimeWindow ∧
      (StateEntry.ringEvictLoop cutoff n e).ringWindowMs = e.ringWindowMs := by
  induction n generalizing e with
  | zero => exact ⟨rfl, rfl⟩
  | succ n ih =>
    unfold StateEntry.ringEvictLoop
    split_ifs
    · exact ⟨rfl, rfl⟩
    · exact ih _

/-- The tick of a ring sets nothing off. -/
theorem result_tickRing (A : EvalAlloc → Bool) (now : UInt64) {e : StateEntry N}
    (hkind : e.kind = .ring) : (tickEntry A now e).result = .ok (.inr none) := by
  have hclock : e.kind ≠ .clock := by
    rw [hkind]
    decide
  rw [tickEntry, if_neg hclock, tickWindow]
  dsimp only
  have hring : ∀ {e' : StateEntry N}, e'.kind = .ring → e'.barTimeTick now = (e', none) := by
    intro e' hkind
    rw [StateEntry.barTimeTick, if_pos (.inl (by rw [hkind]; decide))]
  split_ifs
  · rw [hring ((sameTimers_ringEvictTime e _).kind.trans hkind)]
    rfl
  · rw [hring hkind]
    rfl

/-- A ring that is due loses the samples that have left its window. -/
theorem deadline_tickRing (A : EvalAlloc → Bool) {d now : UInt64} {e : StateEntry N}
    (hkind : e.kind = .ring) (hwrap : NoWrap now e) (hdeadline : entryDeadline e = some d)
    (hd : d ≤ now) {x : UInt64} (hx : entryDeadline (tickEntry A now e).entry = some x) : d < x := by
  rw [entryDeadline_ring hkind] at hdeadline
  split_ifs at hdeadline with hopen
  have hclock : e.kind ≠ .clock := by
    rw [hkind]
    decide
  have hsame := sameTimers_ringEvictTime e (StateEntry.cutoff now e.ringWindowMs)
  have hkind' : (e.ringEvictTime (StateEntry.cutoff now e.ringWindowMs)).kind = .ring :=
    hsame.kind.trans hkind
  have htick : (tickEntry A now e).entry = e.ringEvictTime (StateEntry.cutoff now e.ringWindowMs) := by
    rw [tickEntry, if_neg hclock, tickWindow, if_pos ⟨hkind, hopen⟩]
    dsimp only
    rw [StateEntry.barTimeTick, if_pos (.inl (by rw [hkind']; decide))]
    rfl
  obtain ⟨-, hwindow⟩ :=
    ringEvictLoop_window (StateEntry.cutoff now e.ringWindowMs) e.ringLen e
  have hfresh := ringEvictLoop_fresh (StateEntry.cutoff now e.ringWindowMs) e.ringLen (e := e) le_rfl
  change (e.ringEvictTime _).ringWindowMs = e.ringWindowMs at hwindow
  change (e.ringEvictTime _).ringLen = 0 ∨
    _ ≤ (e.ringEvictTime _).ringTimes (e.ringEvictTime _).ringStart at hfresh
  rw [htick, entryDeadline_ring hkind'] at hx
  split_ifs at hx with hopen'
  cases hx
  have hcutoff := hfresh.resolve_left (by omega)
  rw [cutoff_le_iff] at hcutoff
  have hnow := hwrap.now_lt
  rw [UInt64.le_iff_toNat_le] at hd
  rw [UInt64.lt_iff_toNat_lt, toNat_ringDeadline, hwindow]
  omega

end Due

end Monoblok.Patchbay
