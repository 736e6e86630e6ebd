import Monoblok.Patchbay.AlikeRuns
import Monoblok.Patchbay.Schedule
import Monoblok.Snapshot.SlotKeys

/-!
# Slots of the rules that run

What a slot can hold when the forms of its own rules made it: an empty one has
never been used, a clock is of a clock form, and the samples of a ring lie in its
arrays. The capacity of a state is that of its slots added one by one.
-/

namespace Monoblok.Snapshot

open Patchbay Number

variable {N W : Type}

/-! ## Slots -/

variable [Number N]

structure OwnSlot (e : StateEntry N) : Prop where
  timers : EntryOk e
  fresh : e.kind = .empty → e = freshEntry e.key
  clock : e.op ∈ clockOps → e.kind = .empty ∨ e.kind = .clock
  ring : e.kind = .ring → InRing e

/-- What a form leaves behind: the slot as it was, a ring in order, or a slot with
other contents. -/
inductive Outcome (e e' : StateEntry N) : Prop
  | same (h : e' = e)
  | other (h : e'.kind ≠ .empty ∧ e'.kind ≠ .ring)
  | ring (kind : e'.kind = .ring) (inRing : InRing e')

section Forms

variable {A : EvalAlloc → Bool} {now : UInt64} {e : StateEntry N}

omit [Number N] in
theorem outcome_setNumber (e : StateEntry N) (n : N) : Outcome e (e.setNumber n) :=
  .other ⟨by simp [StateEntry.setNumber], by simp [StateEntry.setNumber]⟩

theorem outcome_statefulChanged (v : Value N) (boolMode : Bool) :
    Outcome e (statefulChanged A v boolMode e).entry := by
  unfold statefulChanged
  split
  · exact outcome_setNumber e _
  · split
    · exact .same rfl
    · split
      · split
        · exact .same rfl
        · rename_i hset
          unfold StateEntry.setBytes at hset
          split_ifs at hset
          cases hset
          exact .other ⟨by simp [SlotStep.done], by simp [SlotStep.done]⟩
      · exact .same rfl

theorem outcome_edge (rising cur : Bool) : Outcome e (edge rising cur e).entry := by
  unfold edge
  split
  · exact outcome_setNumber e _
  · exact outcome_setNumber e _
  · exact .same rfl

/-! ### Windows -/

theorem inRing_pushTime {e' : StateEntry N} (h : InRing e) {x : N} {t : UInt64}
    (hpush : e.ringPushTime A x t = some e') : InRing e' :=
  (ringPushTime_spec (p := []) sumLaw_true h trivial hpush).2.1

theorem inRing_pushCount (h : InRing e) (x : N) : InRing (e.ringPushCount x) := by
  by_cases hcap : e.ringCap = 0
  · have hlen : e.ringLen = 0 := Nat.le_zero.mp (hcap ▸ h.1)
    rw [StateEntry.ringPushCount, if_neg (by omega)]
    exact ⟨h.1, fun hne => absurd hcap hne⟩
  · exact (ringPushCount_spec (p := []) sumLaw_true x h hcap trivial).1

/-- The window of a slot: none, or one in order. -/
theorem windowSlot_inRing (hA : ∀ site, A site = true) (w : Window) (he : OwnSlot e) :
    windowSlot A w e = (e, false) ∨
      ∃ e₁, windowSlot A w e = (e₁, true) ∧ e₁.kind = .ring ∧ InRing e₁ := by
  unfold windowSlot
  by_cases hempty : e.kind = .empty
  · have hzero : e.ringCap = 0 ∧ e.ringLen = 0 := by
      rw [he.fresh hempty]
      exact ⟨rfl, rfl⟩
    have hin : InRing { e with
        kind := .ring, ringTimeWindow := w.timeWindow, ringWindowMs := w.ms } :=
      ⟨le_of_eq (hzero.2.trans hzero.1.symm), fun hcap => absurd hzero.1 hcap⟩
    right
    rw [if_pos hempty]
    dsimp only
    cases htime : w.timeWindow with
    | true =>
      rw [htime] at hin
      exact ⟨_, rfl, rfl, hin⟩
    | false =>
      rw [htime] at hin
      obtain ⟨e', hroom⟩ := ringReserve_isSome hA
        { e with kind := .ring, ringTimeWindow := false, ringWindowMs := w.ms } w.count false
      simp only [Bool.false_eq_true, if_false, hroom]
      exact ⟨e', rfl, (sameTimers_ringReserve hroom).kind,
        (ringReserve_empty (e := { e with kind := .ring, ringTimeWindow := false, ringWindowMs := w.ms })
          hzero.1 hin hroom).1⟩
  · rw [if_neg hempty]
    cases hfits : decide (e.kind = .ring) && e.ringTimeWindow == w.timeWindow with
    | false => exact .inl rfl
    | true =>
      rw [Bool.and_eq_true, decide_eq_true_eq] at hfits
      exact .inr ⟨e, rfl, hfits.1, he.ring hfits.1⟩

theorem outcome_windowStep (hA : ∀ site, A site = true) (w : Window) (he : OwnSlot e) (x : N)
    (g : StateEntry N → Except EvalError (Value N)) :
    Outcome e (windowStep A w now x g e).entry := by
  unfold windowStep windowSample
  rcases windowSlot_inRing hA w he with hslot | ⟨e₁, hslot, hkind, hin⟩
  · rw [hslot]
    exact .same rfl
  · rw [hslot]
    dsimp only
    unfold StateEntry.windowPush
    cases w.timeWindow with
    | true =>
      have hstale : InRing (e₁.ringEvictTime
          (StateEntry.cutoff now (if e₁.ringWindowMs = 0 then w.ms else e₁.ringWindowMs))) :=
        ringEvictLoop_inRing _ _ hin
      have hkind' := (sameTimers_ringEvictTime e₁
        (StateEntry.cutoff now (if e₁.ringWindowMs = 0 then w.ms else e₁.ringWindowMs))).kind.trans
          hkind
      obtain ⟨e₂, hpush⟩ := ringPushTime_isSome hA (e₁.ringEvictTime
        (StateEntry.cutoff now (if e₁.ringWindowMs = 0 then w.ms else e₁.ringWindowMs))) x now
      simp only [if_true, hpush]
      exact .ring ((sameTimers_ringPushTime hpush).kind.trans hkind') (inRing_pushTime hstale hpush)
    | false =>
      simp only [Bool.false_eq_true, if_false]
      split_ifs with hcap
      · obtain ⟨e₂, hroom⟩ := ringReserve_isSome hA e₁ w.count false
        have hin' := (ringReserve_empty hcap hin hroom).1
        have hkind' := (sameTimers_ringReserve hroom).kind.trans hkind
        rw [hroom]
        exact .ring ((sameTimers_ringPushCount e₂ x).kind.trans hkind') (inRing_pushCount hin' x)
      · exact .ring ((sameTimers_ringPushCount e₁ x).kind.trans hkind) (inRing_pushCount hin x)

theorem outcome_throttle (hA : ∀ site, A site = true) (w : Window) (he : OwnSlot e) (max : N)
    (v : Value N) : Outcome e (throttle A w now max v e).entry := by
  unfold throttle
  rcases windowSlot_inRing hA w he with hslot | ⟨e₁, hslot, hkind, hin⟩
  · rw [hslot]
    exact .same rfl
  · rw [hslot]
    dsimp only
    cases w.timeWindow with
    | true =>
      have hstale : InRing (e₁.ringEvictTime (StateEntry.cutoff now w.ms)) :=
        ringEvictLoop_inRing _ _ hin
      have hkind' := (sameTimers_ringEvictTime e₁ (StateEntry.cutoff now w.ms)).kind.trans hkind
      obtain ⟨e₂, hpush⟩ := ringPushTime_isSome hA
        (e₁.ringEvictTime (StateEntry.cutoff now w.ms)) (ofNat 1) now
      simp only [if_true, hpush]
      split_ifs
      · exact .ring hkind' hstale
      · exact .ring ((sameTimers_ringPushTime hpush).kind.trans hkind') (inRing_pushTime hstale hpush)
    | false =>
      simp only [Bool.false_eq_true, if_false]
      exact .ring ((sameTimers_ringPushCount e₁ _).kind.trans hkind) (inRing_pushCount hin _)

/-! ### Every form and every tick -/

/-- A form of a clock leaves a clock, or the slot as it was. -/
theorem clock_of_form {α : Type} {op : Bytes} {f : StateEntry N → SlotStep N α}
    (h : SlotForm A now op f) (hA : ∀ site, A site = true) (hop : op ∈ clockOps) :
    (f e).entry = e ∨ (f e).entry.kind = .clock := by
  rcases h.timed_or_untimed with htimed | ⟨hother, -⟩
  · cases htimed with
    | @bar args timeWindow count windowMs input hargs x =>
      cases timeWindow <;> exact absurd hop (by decide)
    | debounce hms subject payload =>
      right
      simp [retainPublish, StateEntry.setEmitSubject, StateEntry.setBytes, hA, SlotStep.done]
    | sample hms subject payload =>
      right
      simp [retainPublish, StateEntry.setEmitSubject, StateEntry.setBytes, hA, SlotStep.done]
    | aggregate hmetric hms subject x =>
      exact .inr (aggregateSample_entry hA _ _ now subject x e).1
    | onSilence hms payload body =>
      unfold onSilenceArm StateEntry.setBytes
      by_cases hbusy : e.kind ≠ .empty ∧ (e.kind ≠ .clock ∨ e.clockKind ≠ .onSilence)
      · rw [if_pos hbusy]
        exact .inl rfl
      · rw [if_neg hbusy]
        simp only [hA, if_true]
        exact .inr rfl
    | dropout hms lost found =>
      unfold dropoutArm
      by_cases hbusy : e.kind ≠ .empty ∧ (e.kind ≠ .clock ∨ e.clockKind ≠ .dropout)
      · rw [if_pos hbusy]
        exact .inl rfl
      · rw [if_neg hbusy]
        right
        by_cases hempty : e.kind = .empty
        · simp only [if_pos hempty]
          split_ifs <;> rfl
        · have hclock : e.kind = .clock := by
            simp only [not_and, not_or, not_not] at hbusy
            exact (hbusy hempty).1
          simp only [if_neg hempty]
          split_ifs <;> exact hclock
  · exact absurd (List.mem_append_left _ hop) hother

theorem SlotForm.outcome {α : Type} {op : Bytes} {f : StateEntry N → SlotStep N α}
    (h : SlotForm A now op f) (hA : ∀ site, A site = true) (he : OwnSlot e) :
    Outcome e (f e).entry := by
  have htimed : ∀ {α : Type} {op : Bytes} {f : StateEntry N → SlotStep N α},
      TimedForm A now op f → Outcome e (f e).entry := by
    intro α op f hform
    rcases hform.step hA e with hsame | hclock | ⟨_, _, hstep⟩
    · exact .same hsame
    · exact .other (by simp [hclock])
    · exact .other (by simp [hstep.kind])
  cases h with
  | squelch v => exact outcome_statefulChanged v false
  | changed v => exact outcome_statefulChanged v true
  | holdOff windowMs v =>
    unfold Patchbay.holdOff
    dsimp only
    split
    · exact outcome_setNumber e _
    · split_ifs
      · exact .same rfl
      · exact outcome_setNumber e _
    · exact .same rfl
  | risingEdge cur => exact outcome_edge true cur
  | fallingEdge cur => exact outcome_edge false cur
  | transition cur =>
    unfold levelChange
    split
    · exact outcome_setNumber e _
    · exact outcome_setNumber e _
    · exact .same rfl
  | deadband threshold x =>
    unfold Patchbay.deadband
    split_ifs
    · exact outcome_setNumber e _
    · exact .same rfl
  | delta x => exact outcome_setNumber e _
  | count => exact outcome_setNumber e _
  | windowCalc _ _ x what => exact outcome_windowStep hA _ he x _
  | percentile _ _ x p => exact outcome_windowStep hA _ he x _
  | rate hms => exact outcome_windowStep hA _ he _ _
  | throttle _ max v => exact outcome_throttle hA _ he max v
  | bar hargs x => exact htimed (.bar hargs x)
  | debounce hms subject payload => exact htimed (.debounce hms subject payload)
  | sample hms subject payload => exact htimed (.sample hms subject payload)
  | aggregate hmetric hms subject x => exact htimed (.aggregate hmetric hms subject x)
  | onSilence hms payload body => exact htimed (.onSilence hms payload body)
  | dropout hms lost found => exact htimed (.dropout hms lost found)

theorem ownSlot_fresh (k : StateKey) : OwnSlot (freshEntry k : StateEntry N) where
  timers := entryOk_fresh k
  fresh _ := rfl
  clock _ := .inl rfl
  ring h := by cases h

theorem OwnSlot.form {α : Type} {op : Bytes} {f : StateEntry N → SlotStep N α} (he : OwnSlot e)
    (h : SlotForm A now op f) (hA : ∀ site, A site = true) (hop : e.op = op) :
    OwnSlot (f e).entry := by
  have htimers := h.entryOk hA hop he.timers
  have hkey : (f e).entry.op = op := (congrArg StateKey.op (h.key e)).trans hop
  have hclock : (f e).entry.op ∈ clockOps →
      (f e).entry.kind = .empty ∨ (f e).entry.kind = .clock := by
    intro hmem
    rw [hkey] at hmem
    rcases @clock_of_form N _ A now e α op f h hA hmem with hsame | hkind
    · rw [hsame]
      exact he.clock (hop ▸ hmem)
    · exact .inr hkind
  cases SlotForm.outcome h hA he with
  | same hsame => rwa [hsame]
  | other hother => exact ⟨htimers, fun h => absurd h hother.1, hclock, fun h => absurd h hother.2⟩
  | ring hkind hin =>
    refine ⟨htimers, fun hempty => ?_, hclock, fun _ => hin⟩
    rw [hkind] at hempty
    cases hempty

theorem OwnSlot.tickClock (he : OwnSlot e) (now : UInt64) :
    OwnSlot (tickClock A now e).entry := by
  have htimers := entryOk_tickClock A now he.timers
  by_cases hclock : e.kind = .clock
  · obtain ⟨hkind, -⟩ := tickClock_entry A now hclock
    refine ⟨htimers, fun h => ?_, fun _ => .inr hkind, fun h => ?_⟩
    all_goals
      rw [hkind] at h
      cases h
  · have hidle : (!e.clockArmed || decide (now < e.clockDeadlineMs)) = true := by
      rw [(he.timers.idle hclock).2.1]
      rfl
    rw [Patchbay.tickClock, if_pos hidle]
    exact he

theorem OwnSlot.tickWindow (he : OwnSlot e) (now : UInt64) : OwnSlot (tickWindow now e).entry := by
  have htimers := entryOk_tickWindow now he.timers
  have hop : (Patchbay.tickWindow now e).entry.op = e.op := congrArg StateKey.op (key_tickWindow now e)
  obtain ⟨hkind, -⟩ := tickWindow_entry now e
  have hclock : (Patchbay.tickWindow now e).entry.op ∈ clockOps →
      (Patchbay.tickWindow now e).entry.kind = .empty ∨
        (Patchbay.tickWindow now e).entry.kind = .clock := by
    rw [hop, hkind]
    exact he.clock
  by_cases hbar : e.kind = .bar
  · have hkind' := hkind.trans hbar
    refine ⟨htimers, fun h => ?_, hclock, fun h => ?_⟩
    all_goals
      rw [hkind'] at h
      cases h
  · rw [entry_tickWindow now hbar] at htimers hclock ⊢
    split_ifs at htimers hclock ⊢ with hold
    · refine ⟨htimers, fun h => ?_, hclock, fun _ => ringEvictLoop_inRing _ _ (he.ring hold.1)⟩
      have hring := (sameTimers_ringEvictTime e (StateEntry.cutoff now e.ringWindowMs)).kind.trans hold.1
      rw [hring] at h
      cases h
    · exact he

end Forms

/-! ## Capacities -/

/-- The capacity of an array of slots that were added one by one. -/
inductive Grown : ℕ → ℕ → Prop
  | none : Grown 0 0
  | more {n cap cap' : ℕ} (h : Grown n cap)
      (room : arrayReserve true cap (n + 1) stateEntrySize 8 = some cap') : Grown (n + 1) cap'

theorem Grown.fits {n cap : ℕ} (h : Grown n cap) : cap ≤ sizeMax / stateEntrySize := by
  induction h with
  | none => exact Nat.zero_le _
  | more _ room ih => exact arrayReserve_fits ih room

theorem Grown.unique {n cap cap' : ℕ} (h : Grown n cap) (h' : Grown n cap') : cap' = cap := by
  induction h generalizing cap' with
  | none =>
    cases h'
    rfl
  | more _ room ih =>
    cases h' with
    | more h' room' =>
      rw [ih h', room] at room'
      exact (Option.some.inj room').symm

/-- What a larger array had room for on its way. -/
theorem Grown.room {n m cap cap' : ℕ} (h : Grown m cap') (h' : Grown n cap) (hlt : n < m) :
    ∃ cap₁, arrayReserve true cap (n + 1) stateEntrySize 8 = some cap₁ := by
  induction h with
  | none => omega
  | @more m c c' hm room ih =>
    by_cases hlast : n = m
    · subst hlast
      rw [hm.unique h']
      exact ⟨_, room⟩
    · exact ih (by omega)

/-! ## States -/

/-- The state of rule `i`, of its own slots and with the memory they take. -/
structure OwnState (i : ℕ) (st : EvalState N) : Prop extends OwnKeys i st where
  slots : AllSlots OwnSlot st
  grown : Grown st.items.length st.cap

theorem ownState_init (i : ℕ) : OwnState i (stateInit : EvalState N) where
  indexed := stateIndexed_init
  own k hk := by cases hk
  slots e he := by cases he
  grown := .none

theorem OwnState.stepAt {i : ℕ} {st : EvalState N} (h : OwnState i st) {α : Type}
    {f : StateEntry N → SlotStep N α} (hkey : ∀ e, (f e).entry.key = e.key)
    (hf : ∀ e, OwnSlot e → OwnSlot (f e).entry) (j : ℕ) : OwnState i (stepAt f j st).2 where
  toOwnKeys := h.toOwnKeys.write (hkey _)
  slots := h.slots.stepAt hf j
  grown := by
    have hgrown := h.grown
    simpa [Patchbay.stepAt, setSlot] using hgrown

/-- The keys, the number of slots and the capacity after a lookup. -/
theorem OwnState.slotIn {i : ℕ} {st : EvalState N} (h : OwnState i st) {A : EvalAlloc → Bool}
    (memory : AllMemory A) {op : Bytes} (hop : op ∈ slotOps) (subject : Bytes) :
    OwnKeys i (stateSlotIn A st ⟨i, op, subject⟩).1 ∧
      Grown (stateSlotIn A st ⟨i, op, subject⟩).1.items.length
        (stateSlotIn A st ⟨i, op, subject⟩).1.cap := by
  refine ⟨h.toOwnKeys.lookup A A hop subject, ?_⟩
  by_cases hold : ⟨i, op, subject⟩ ∈ st.keys
  · obtain ⟨j, hj⟩ := List.mem_iff_getElem?.mp hold
    have hthere : stateSlotIn A st ⟨i, op, subject⟩ = (stateIndexPrepare A st, some j) :=
      h.indexed.slotWith_there A A hj
    obtain ⟨-, hitems, hcap⟩ := h.indexed.prepare A
    rw [hthere, hitems, hcap]
    exact h.grown
  · have hroom := h.indexed.reserved h.grown.fits memory hold
    generalize hreserve : arrayReserve true st.cap (st.items.length + 1) stateEntrySize 8 = room
      at hroom
    generalize stateSlotIn A st ⟨i, op, subject⟩ = r at hroom ⊢
    cases hroom with
    | refused _ hitems hcap =>
      rw [hitems, hcap]
      exact h.grown
    | granted _ hitems hgrown =>
      rw [hitems, hgrown, List.length_append]
      exact .more h.grown hreserve

theorem OwnState.slotStep {i : ℕ} {st : EvalState N} (h : OwnState i st) {A : EvalAlloc → Bool}
    (memory : AllMemory A) {now : UInt64} {α : Type} {op : Bytes}
    {f : StateEntry N → SlotStep N α} (hform : SlotForm A now op f) (subject : Bytes) :
    OwnState i (slotStep A ⟨i, op, subject⟩ f st).2 := by
  obtain ⟨hkeys, hgrown⟩ := h.slotIn memory hform.op_mem subject
  have hslots := h.slots.slotStep A ⟨i, op, subject⟩ (ownSlot_fresh _)
    fun e hop he => OwnSlot.form he hform memory hop
  unfold Patchbay.slotStep at hslots ⊢
  generalize stateSlotIn A st ⟨i, op, subject⟩ = r at hkeys hgrown hslots ⊢
  obtain ⟨st', j⟩ := r
  cases j with
  | none => exact ⟨hkeys, hslots, hgrown⟩
  | some j =>
    refine ⟨hkeys.write (hform.key _), hslots, ?_⟩
    simpa [Patchbay.stepAt, setSlot] using hgrown

end Monoblok.Snapshot
