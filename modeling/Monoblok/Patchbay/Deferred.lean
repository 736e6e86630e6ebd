import Monoblok.Patchbay.Timers
import Monoblok.Snapshot.Format

/-!
# Deferred forms

An on-silence slot keeps a body and a dropout slot two forms, to be evaluated at
a later tick or message. They are set when the slot is armed for the first time;
no other step on a slot changes them.
-/

namespace Monoblok.Patchbay

open Number

variable {N : Type}

/-! ## Steps that leave the forms alone -/

/-- The clocks that evaluate stored forms. -/
def ClockKind.storesForms : ClockKind → Bool
  | .onSilence | .dropout => true
  | _ => false

structure KeepsForms (e e' : StateEntry N) : Prop where
  body : e'.clockBody = e.clockBody
  lost : e'.lostForm = e.lostForm
  found : e'.foundForm = e.foundForm
  kind : e'.clockKind.storesForms = true → e.clockKind = e'.clockKind

theorem KeepsForms.refl (e : StateEntry N) : KeepsForms e e := ⟨rfl, rfl, rfl, fun _ => rfl⟩

theorem KeepsForms.trans {e e' e'' : StateEntry N} (h : KeepsForms e e') (h' : KeepsForms e' e'') :
    KeepsForms e e'' where
  body := h'.body.trans h.body
  lost := h'.lost.trans h.lost
  found := h'.found.trans h.found
  kind hk := by
    have hkind := h'.kind hk
    exact (h.kind (hkind ▸ hk)).trans hkind

section Steps

variable [Number N] {A : EvalAlloc → Bool} {e e' : StateEntry N}

omit [Number N] in
theorem keepsForms_setBytes {bytes : Bytes} (h : e.setBytes A bytes = some e') :
    KeepsForms e e' := by
  unfold StateEntry.setBytes at h
  split_ifs at h
  cases h
  exact ⟨rfl, rfl, rfl, fun _ => rfl⟩

omit [Number N] in
theorem keepsForms_setEmitSubject {bytes : Bytes} (h : e.setEmitSubject A bytes = some e') :
    KeepsForms e e' := by
  unfold StateEntry.setEmitSubject at h
  split_ifs at h
  cases h
  exact ⟨rfl, rfl, rfl, fun _ => rfl⟩

omit [Number N] in
theorem keepsForms_ringReserve {cap : ℕ} {withTimes : Bool}
    (h : e.ringReserve A cap withTimes = some e') : KeepsForms e e' := by
  unfold StateEntry.ringReserve at h
  split_ifs at h
  all_goals
    cases h
    exact ⟨rfl, rfl, rfl, fun _ => rfl⟩

theorem keepsForms_ringPushCount (e : StateEntry N) (x : N) : KeepsForms e (e.ringPushCount x) := by
  unfold StateEntry.ringPushCount
  split_ifs <;> exact ⟨rfl, rfl, rfl, fun _ => rfl⟩

theorem keepsForms_ringEvictLoop (cutoff : UInt64) (n : ℕ) (e : StateEntry N) :
    KeepsForms e (StateEntry.ringEvictLoop cutoff n e) := by
  induction n generalizing e with
  | zero => exact .refl e
  | succ n ih =>
    unfold StateEntry.ringEvictLoop
    split_ifs
    · exact .refl e
    · exact ⟨(ih _).body, (ih _).lost, (ih _).found, (ih _).kind⟩

theorem keepsForms_ringEvictTime (e : StateEntry N) (cutoff : UInt64) :
    KeepsForms e (e.ringEvictTime cutoff) :=
  keepsForms_ringEvictLoop cutoff e.ringLen e

theorem keepsForms_ringPushTime {x : N} {t : UInt64} (h : e.ringPushTime A x t = some e') :
    KeepsForms e e' := by
  unfold StateEntry.ringPushTime at h
  obtain ⟨e₁, hroom, rfl⟩ := Option.map_eq_some_iff.mp h
  have hroom' : KeepsForms e e₁ := by
    split_ifs at hroom
    · exact keepsForms_ringReserve hroom
    · exact keepsForms_ringReserve hroom
    · cases hroom
      exact .refl e
  exact hroom'.trans ⟨rfl, rfl, rfl, fun _ => rfl⟩

theorem keepsForms_windowPush (A : EvalAlloc → Bool) (e : StateEntry N) (timeWindow : Bool)
    (count : ℕ) (ms now : UInt64) (x : N) :
    KeepsForms e (e.windowPush A timeWindow count ms now x).1 := by
  unfold StateEntry.windowPush
  dsimp only
  split
  · have hevict := keepsForms_ringEvictTime e
      (StateEntry.cutoff now (if e.ringWindowMs = 0 then ms else e.ringWindowMs))
    split
    · exact hevict
    · rename_i hpush
      exact hevict.trans (keepsForms_ringPushTime hpush)
  · split
    · exact .refl e
    · rename_i e₁ hroom
      have hroom' : KeepsForms e e₁ := by
        split_ifs at hroom
        · exact keepsForms_ringReserve hroom
        · cases hroom
          exact .refl e
      exact hroom'.trans (keepsForms_ringPushCount _ x)

omit [Number N] in
theorem keepsForms_windowSlot (A : EvalAlloc → Bool) (w : Window) (e : StateEntry N) :
    KeepsForms e (windowSlot A w e).1 := by
  unfold windowSlot
  split
  · dsimp only
    split
    · exact ⟨rfl, rfl, rfl, fun _ => rfl⟩
    · split
      · exact ⟨rfl, rfl, rfl, fun _ => rfl⟩
      · rename_i hreserve
        have hkeep := keepsForms_ringReserve hreserve
        exact ⟨hkeep.body, hkeep.lost, hkeep.found, hkeep.kind⟩
  · exact .refl e

theorem keepsForms_windowStep (w : Window) (now : UInt64) (x : N)
    (f : StateEntry N → Except EvalError (Value N)) (e : StateEntry N) :
    KeepsForms e (windowStep A w now x f e).entry := by
  have hsample : KeepsForms e (windowSample A w now x e).1 := by
    have hslot := keepsForms_windowSlot A w e
    unfold windowSample
    generalize windowSlot A w e = r at hslot ⊢
    obtain ⟨e₁, ok⟩ := r
    cases ok with
    | false => exact hslot
    | true => exact hslot.trans (keepsForms_windowPush A e₁ w.timeWindow w.count w.ms now x)
  unfold windowStep
  generalize windowSample A w now x e = r at hsample ⊢
  obtain ⟨e₁, ok⟩ := r
  cases ok with
  | false => exact hsample
  | true => exact hsample

theorem keepsForms_throttle (w : Window) (now : UInt64) (max : N) (v : Value N)
    (e : StateEntry N) : KeepsForms e (throttle A w now max v e).entry := by
  have hslot := keepsForms_windowSlot A w e
  unfold throttle
  generalize windowSlot A w e = r at hslot ⊢
  obtain ⟨e₁, ok⟩ := r
  cases ok with
  | false => exact hslot
  | true =>
    dsimp only
    split
    · have hevict := hslot.trans (keepsForms_ringEvictTime e₁ (StateEntry.cutoff now w.ms))
      split
      · exact hevict
      · split
        · exact hevict
        · rename_i hpush
          exact hevict.trans (keepsForms_ringPushTime hpush)
    · exact hslot.trans (keepsForms_ringPushCount _ _)

theorem keepsForms_statefulChanged (v : Value N) (boolMode : Bool) (e : StateEntry N) :
    KeepsForms e (statefulChanged A v boolMode e).entry := by
  unfold statefulChanged
  split
  · exact ⟨rfl, rfl, rfl, fun _ => rfl⟩
  · split
    · exact .refl e
    · split
      · split
        · exact .refl e
        · rename_i hset
          exact keepsForms_setBytes hset
      · exact .refl e

theorem keepsForms_barSample (timeWindow : Bool) (count : UInt32) (windowMs now : UInt64) (x : N)
    (e : StateEntry N) : KeepsForms e (barSample timeWindow count windowMs now x e).entry := by
  have hkind : ∀ e₁ : StateEntry N, KeepsForms e₁
      (if timeWindow then e₁.barTimeUpdate now x else e₁.barTickUpdate x).1 := by
    intro e₁
    unfold StateEntry.barTimeUpdate StateEntry.barTickUpdate
    dsimp only
    split_ifs <;> exact ⟨rfl, rfl, rfl, fun _ => rfl⟩
  have hopen : KeepsForms e (if e.kind = .empty then
        { e with
          kind := .bar
          barTimeWindow := timeWindow
          barCap := count
          barWindowMs := windowMs }
      else e) := by
    split <;> exact ⟨rfl, rfl, rfl, fun _ => rfl⟩
  unfold barSample
  extract_lets e₁
  change KeepsForms e e₁ at hopen
  split
  · exact hopen
  · exact hopen.trans (hkind e₁)

omit [Number N] in
theorem keepsForms_retainPublish {kind : ClockKind} (hkind : kind.storesForms = false)
    (ms now : UInt64)
    (subject payload : Bytes) (resetDeadline : Bool) (e : StateEntry N) :
    KeepsForms e (retainPublish A kind ms now subject payload resetDeadline e).entry := by
  unfold retainPublish
  dsimp only
  have harmed : ∀ deadline, KeepsForms e { e with
      clockKind := kind
      clockIntervalMs := ms
      clockArmed := true
      clockDeadlineMs := deadline } := fun _ =>
    ⟨rfl, rfl, rfl, fun h => absurd h (by simp [hkind])⟩
  split
  · exact harmed _
  · rename_i hsubject
    have hset := (harmed _).trans (keepsForms_setEmitSubject hsubject)
    split
    · exact hset
    · rename_i hbytes
      exact (hset.trans (keepsForms_setBytes hbytes)).trans ⟨rfl, rfl, rfl, fun _ => rfl⟩

theorem keepsForms_aggregateSample (metric : MetricKind) (ms now : UInt64) (subject : Bytes)
    (x : N) (e : StateEntry N) :
    KeepsForms e (aggregateSample A metric ms now subject x e).entry := by
  unfold aggregateSample
  dsimp only
  have hmetric : KeepsForms e { (if e.kind = .empty then
        { e with
          clockKind := .aggregate
          clockIntervalMs := ms
          clockDeadlineMs := now + ms
          clockArmed := true }
      else e : StateEntry N) with metricKind := metric } := by
    split
    · exact ⟨rfl, rfl, rfl, fun h => nomatch h⟩
    · exact ⟨rfl, rfl, rfl, fun _ => rfl⟩
  split
  · exact hmetric
  · rename_i hsubject
    have hset := hmetric.trans (keepsForms_setEmitSubject hsubject)
    split
    · exact hset
    · rename_i hpush
      exact (hset.trans (keepsForms_ringPushTime hpush)).trans ⟨rfl, rfl, rfl, fun _ => rfl⟩

/-- Only `on-silence` and `dropout` store forms. -/
theorem keepsForms_form {now : UInt64} {α : Type} {op : Bytes}
    {f : StateEntry N → SlotStep N α} (h : SlotForm A now op f) (hs : op ≠ lit "on-silence")
    (hd : op ≠ lit "dropout") (e : StateEntry N) : KeepsForms e (f e).entry := by
  cases h with
  | squelch v => exact keepsForms_statefulChanged v false e
  | changed v => exact keepsForms_statefulChanged v true e
  | holdOff windowMs v =>
    unfold holdOff
    dsimp only
    split
    · exact ⟨rfl, rfl, rfl, fun _ => rfl⟩
    · split <;> exact ⟨rfl, rfl, rfl, fun _ => rfl⟩
    · exact .refl e
  | risingEdge cur | fallingEdge cur =>
    unfold edge
    split <;> exact ⟨rfl, rfl, rfl, fun _ => rfl⟩
  | transition cur =>
    unfold levelChange
    split <;> exact ⟨rfl, rfl, rfl, fun _ => rfl⟩
  | deadband threshold x =>
    unfold deadband
    split <;> exact ⟨rfl, rfl, rfl, fun _ => rfl⟩
  | delta x => exact ⟨rfl, rfl, rfl, fun _ => rfl⟩
  | count => exact ⟨rfl, rfl, rfl, fun _ => rfl⟩
  | windowCalc hop hw x what => exact keepsForms_windowStep _ _ _ _ e
  | percentile hop hw x p => exact keepsForms_windowStep _ _ _ _ e
  | rate hms => exact keepsForms_windowStep _ _ _ _ e
  | throttle hw max v => exact keepsForms_throttle _ _ _ _ e
  | bar h x => exact keepsForms_barSample _ _ _ _ _ e
  | debounce hms subject payload =>
    exact keepsForms_retainPublish rfl _ _ _ _ _ e
  | sample hms subject payload =>
    exact keepsForms_retainPublish rfl _ _ _ _ _ e
  | aggregate hmetric hms subject x => exact keepsForms_aggregateSample _ _ _ _ _ e
  | onSilence hms payload body => exact absurd rfl hs
  | dropout hms lost found => exact absurd rfl hd

theorem keepsForms_tickClock (now : UInt64) (e : StateEntry N) :
    KeepsForms e (tickClock A now e).entry := by
  unfold tickClock
  split
  · exact .refl e
  · split
    · exact ⟨rfl, rfl, rfl, fun _ => rfl⟩
    · exact ⟨rfl, rfl, rfl, fun _ => rfl⟩
    · exact ⟨rfl, rfl, rfl, fun _ => rfl⟩
    · exact ⟨rfl, rfl, rfl, fun _ => rfl⟩
    · unfold tickAggregate
      split
      · exact ⟨rfl, rfl, rfl, fun _ => rfl⟩
      · split
        · exact .refl e
        · split
          · exact .refl e
          · rename_i hset
            obtain ⟨bytes, -, hbytes⟩ := Option.bind_eq_some_iff.mp hset
            exact (keepsForms_setBytes hbytes).trans ⟨rfl, rfl, rfl, fun _ => rfl⟩
    · exact .refl e

theorem keepsForms_tickWindow (now : UInt64) (e : StateEntry N) :
    KeepsForms e (tickWindow now e).entry := by
  have hbar : ∀ e₁ : StateEntry N, KeepsForms e₁ (e₁.barTimeTick now).1 := by
    intro e₁
    unfold StateEntry.barTimeTick
    split_ifs <;> exact ⟨rfl, rfl, rfl, fun _ => rfl⟩
  unfold tickWindow
  dsimp only
  split
  · exact (keepsForms_ringEvictTime e _).trans (hbar _)
  · exact hbar e

/-! ## A property of the forms -/

/-- The body of an on-silence slot has a property, and so have the two forms of a
dropout slot together. -/
structure Deferred (D : List (Value N) → Prop) (e : StateEntry N) : Prop where
  onSilence : e.clockKind = .onSilence → D e.clockBody
  dropout : e.clockKind = .dropout → D [e.lostForm, e.foundForm]

variable {D : List (Value N) → Prop}

omit [Number N] in
theorem Deferred.keep (h : Deferred D e) (hkeep : KeepsForms e e') : Deferred D e' := by
  constructor
  · intro hs
    rw [hkeep.body]
    exact h.onSilence ((hkeep.kind (by simp [hs, ClockKind.storesForms])).trans hs)
  · intro hd
    rw [hkeep.lost, hkeep.found]
    exact h.dropout ((hkeep.kind (by simp [hd, ClockKind.storesForms])).trans hd)

theorem deferred_fresh (k : StateKey) : Deferred D (freshEntry k : StateEntry N) := by
  constructor
  · intro hs
    cases hs
  · intro hd
    cases hd

theorem deferred_restore (k : StateKey) (s : Snapshot.Saved N) :
    Deferred D (Snapshot.restore (freshEntry k) s) := by
  apply (deferred_fresh k).keep
  cases s <;> exact ⟨rfl, rfl, rfl, fun _ => rfl⟩

omit [Number N] in
theorem deferred_onSilenceArm {body : List (Value N)} (hbody : D body) (ms now : UInt64)
    (payload : Bytes) (h : Deferred D e) :
    Deferred D (onSilenceArm A ms now payload body e).entry := by
  unfold onSilenceArm
  split
  · exact h
  · dsimp only
    have harmed : Deferred D { (if e.kind = .empty then
          { e with clockKind := .onSilence, clockBody := body }
        else e : StateEntry N) with
          clockIntervalMs := ms, clockArmed := true, clockDeadlineMs := now + ms } := by
      split
      · exact ⟨fun _ => hbody, fun hd => nomatch hd⟩
      · exact h.keep ⟨rfl, rfl, rfl, fun _ => rfl⟩
    split
    · exact harmed
    · rename_i hset
      exact (harmed.keep (keepsForms_setBytes hset)).keep ⟨rfl, rfl, rfl, fun _ => rfl⟩

omit [Number N] in
/-- The form to evaluate is one of the stored ones. -/
theorem deferred_dropoutArm {lost found : Value N} (hforms : D [lost, found]) (ms now : UInt64)
    (h : Deferred D e) :
    Deferred D (dropoutArm ms now lost found e).entry ∧
      ∀ f, (dropoutArm ms now lost found e).result = .ok (some f) → ∃ l, D l ∧ f ∈ l := by
  unfold dropoutArm
  split
  · exact ⟨h, fun f hf => nomatch hf⟩
  · rename_i hkind
    extract_lets e₁ e₂
    have harmed : Deferred D e₁ ∧ D [e₁.lostForm, e₁.foundForm] := by
      unfold e₁
      split
      · exact ⟨⟨fun hs => (nomatch hs), fun _ => hforms⟩, hforms⟩
      · rename_i hne
        have hd : e.clockKind = .dropout := by
          by_contra hother
          exact hkind ⟨hne, .inr hother⟩
        exact ⟨h, h.dropout hd⟩
    split
    · refine ⟨harmed.1.keep ⟨rfl, rfl, rfl, fun _ => rfl⟩, ?_⟩
      intro f hf
      cases hf
      exact ⟨_, harmed.2, by simp [e₂]⟩
    · exact ⟨harmed.1.keep ⟨rfl, rfl, rfl, fun _ => rfl⟩, fun f hf => nomatch hf⟩

/-- What is left to do when a clock has fired only evaluates stored forms. -/
def Fired.Within (D : List (Value N) → Prop) : Fired N → Prop
  | .body _ forms => D forms
  | .form f => ∃ l, D l ∧ f ∈ l
  | .nothing | .publish _ _ => True

theorem within_tickClock (now : UInt64) (h : Deferred D e) {fired : Fired N}
    (hfired : (tickClock A now e).result = .ok fired) : fired.Within D := by
  unfold tickClock at hfired
  split at hfired
  · cases hfired
    trivial
  · split at hfired
    · rename_i hkind
      cases hfired
      exact h.onSilence hkind
    · rename_i hkind
      cases hfired
      exact ⟨_, h.dropout hkind, List.mem_cons_self⟩
    · cases hfired
      trivial
    · cases hfired
      trivial
    · unfold tickAggregate at hfired
      split at hfired
      · cases hfired
        trivial
      · split at hfired
        · cases hfired
        · split at hfired
          · cases hfired
          · cases hfired
            trivial
    · cases hfired
      trivial

end Steps

end Monoblok.Patchbay
