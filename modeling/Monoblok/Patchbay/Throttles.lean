import Monoblok.Patchbay.Sizes

/-!
# The cap of a throttle

A throttle over a stretch of time keeps the times of its passes, one over the last
evaluations keeps for each of them whether it passed. Both count what they keep before
they let another value pass.
-/

namespace Monoblok.Patchbay

open Number Sliding

variable {N : Type} [Number N]

/-! ## Runs -/

/-- An evaluation lets its value pass. -/
def SlotStep.passes (s : SlotStep N (Value N)) : Bool := s.result.isOk && !s.suppressed

/-- A slot of a throttle, and when it was evaluated and whether the value passed. -/
structure Throttling (N : Type) where
  entry : StateEntry N
  evaluations : List (UInt64 × Bool)

namespace Throttling

def step (w : Window) (max : N) (r : Throttling N) : FormEvent N → Throttling N
  | .message A now _ v =>
    let s := throttle A w now max v r.entry
    ⟨s.entry, r.evaluations ++ [(now, s.passes)]⟩
  | .tick A now => ⟨(tickEntry A now r.entry).entry, r.evaluations⟩

def run (w : Window) (max : N) (r : Throttling N) (events : List (FormEvent N)) : Throttling N :=
  events.foldl (step w max) r

def fresh (k : StateKey) : Throttling N := ⟨freshEntry k, []⟩

/-- The passes from one time to another. -/
def passesBetween (l : List (UInt64 × Bool)) (a b : ℕ) : ℕ :=
  l.countP fun p => p.2 && decide (a ≤ p.1.toNat ∧ p.1.toNat ≤ b)

def passes (l : List (UInt64 × Bool)) : ℕ := l.countP Prod.snd

end Throttling

open Throttling

/-! ## The last evaluations -/

section Last

variable {A : EvalAlloc → Bool} {w : Window} {max : N} {now : UInt64} {e : StateEntry N}

theorem levelNumber_eq (b : Bool) : (levelNumber b : N) = ofNat b.toNat := by
  cases b <;> rfl

/-- The ring holds a level for each of the last evaluations, and their sum. -/
structure HoldsPasses (w : Window) (e : StateEntry N) (passed : List Bool) : Prop where
  last : HoldsLast (fun s _ _ => s = ofNat ((passed.rtake w.count).count true)) w.count w.count e
    (passed.map levelNumber)
  array : e.kind = .ring → e.ringCap = w.count

omit [Number N] in
/-- The first place of a ring that is in use holds its oldest sample. -/
theorem ringList_front (hin : InRing e) (hlen : e.ringLen ≠ 0) :
    e.ringList = e.ringValues e.ringStart :: e.ringList.tail := by
  obtain ⟨n, hn⟩ : ∃ n, e.ringLen = n + 1 := ⟨e.ringLen - 1, by omega⟩
  have hcap := hin.cap_ne hlen
  have hplace : e.ringIdx 0 = e.ringStart := by
    rw [StateEntry.ringIdx, if_neg hcap, Nat.add_zero, Nat.mod_eq_of_lt (hin.start_lt hcap)]
  simp only [StateEntry.ringList, hn, List.range_succ_eq_map, List.map_cons, List.tail_cons,
    StateEntry.ringValueAt, hplace]

/-- The sum of a ring that counts up to its capacity. -/
theorem ringPushCount_sum (hcounts : CountsUpTo N w.count) (hn : 0 < w.count)
    (hin : InRing e) (hcap : e.ringCap = w.count) {passed : List Bool}
    (hvalues : e.ringList = (passed.map levelNumber).rtake w.count)
    (hsum : e.ringSum = ofNat ((passed.rtake w.count).count true)) (b : Bool) :
    (e.ringPushCount (levelNumber b)).ringSum =
      ofNat (((passed ++ [b]).rtake w.count).count true) := by
  have hheld : e.ringList = (passed.rtake w.count).map levelNumber := by
    rw [hvalues, List.rtake, List.rtake, List.length_map, List.map_drop]
  have hlength : e.ringLen = (passed.rtake w.count).length := by
    rw [← length_ringList, hheld, List.length_map]
  have hbound : ∀ l : List Bool, l.count true ≤ l.length := fun l => List.count_le_length
  rw [← rtake_concat_window passed b hn]
  generalize passed.rtake w.count = held at hheld hlength hsum ⊢
  have hb : b.toNat = [b].count true := by cases b <;> rfl
  unfold StateEntry.ringPushCount
  by_cases hroom : e.ringLen < e.ringCap
  · have hle := hbound held
    have hb' := Bool.toNat_le b
    rw [rtake_of_length_le (by simp only [List.length_append, List.length_singleton]; omega),
      List.count_append, ← hb]
    simp only [hroom, if_true, hsum, levelNumber_eq]
    exact hcounts.add _ _ (by omega)
  · have hfull : held.length = w.count := by
      have := hin.1
      omega
    rw [rtake_concat_full b hn hfull]
    cases held with
    | nil =>
      simp only [List.length_nil] at hfull
      omega
    | cons f tl =>
      have hfront := ringList_front hin (by omega)
      rw [hheld, List.map_cons, List.cons.injEq] at hfront
      have hle := hbound tl
      simp only [List.length_cons] at hfull
      have hf : (f :: tl).count true = tl.count true + f.toNat := by
        cases f <;> simp
      have hb' := Bool.toNat_le b
      have hf' := Bool.toNat_le f
      simp only [hroom, if_false, List.tail_cons, List.count_append, ← hb, ← hfront.1, hsum, hf,
        levelNumber_eq]
      rw [hcounts.sub _ _ (by omega), hcounts.add _ _ (by omega)]

theorem holdsPasses_fresh (w : Window) (k : StateKey) :
    HoldsPasses w (freshEntry k : StateEntry N) [] := by
  refine ⟨⟨.inl ⟨rfl, rfl⟩, ⟨le_rfl, fun h => absurd rfl h⟩, .inr ⟨rfl, rfl, rfl⟩, ?_, ?_⟩, ?_⟩
  · simp [StateEntry.ringList, freshEntry]
  · simp [freshEntry]
  · intro h
    cases h

/-- One evaluation counts the passes among the last ones. -/
theorem throttle_passes (hcounts : CountsUpTo N w.count) (hA : ∀ site, A site = true)
    (hw : w.timeWindow = false) (hn : 0 < w.count) {passed : List Bool}
    (h : HoldsPasses w e passed) (v : Value N) :
    let s := throttle A w now max v e
    s.result = .ok (if s.passes then v else .nil) ∧
      (s.passes = true ↔ (passed.rtake w.count).count true < (toU64 max).toNat) ∧
      HoldsPasses w s.entry (passed ++ [s.passes]) := by
  obtain ⟨e₁, hslot, hlast, hkind, htime, hcap⟩ := windowSlot_array hA hw hn h.last h.array
  have hle : (passed.rtake w.count).count true ≤ w.count := by
    have hcount : (passed.rtake w.count).count true ≤ (passed.rtake w.count).length :=
      List.count_le_length
    have hlength := length_rtake passed w.count
    omega
  have hlt : flt e₁.ringSum (ofNat (toU64 max).toNat) =
      decide ((passed.rtake w.count).count true < (toU64 max).toNat) := by
    rw [hlast.sum]
    exact hcounts.lt _ _ hle (toU64 max).toNat_lt
  set pass := decide ((passed.rtake w.count).count true < (toU64 max).toNat) with hpass
  have hstep : throttle A w now max v e =
      ⟨e₁.ringPushCount (levelNumber pass), !pass, .ok (if pass then v else .nil)⟩ := by
    simp only [throttle, hslot, hw, Bool.false_eq_true, if_false, hlt]
    rfl
  intro s
  have hpasses : s.passes = pass := by
    simp [s, hstep, SlotStep.passes, Except.isOk, Except.toBool]
  have hentry : s.entry = e₁.ringPushCount (levelNumber pass) := by simp [s, hstep]
  rw [hpasses, hentry]
  refine ⟨by simp [s, hstep], by simp [hpass], ?_, ?_⟩
  · have htrivial : HoldsLast (fun _ _ _ => True) w.count w.count e₁ (passed.map levelNumber) :=
      ⟨hlast.slot, hlast.inRing, hlast.cap, hlast.values, trivial⟩
    have hpush := htrivial.push sumLaw_true hn hkind htime hcap (levelNumber pass)
    rw [List.map_append, List.map_singleton]
    refine ⟨hpush.slot, hpush.inRing, hpush.cap, hpush.values, ?_⟩
    exact ringPushCount_sum hcounts hn hlast.inRing hcap hlast.values hlast.sum pass
  · intro _
    have hne : e₁.ringCap ≠ 0 := by omega
    exact (ringPushCount_spec sumLaw_true (p := []) (levelNumber pass) hlast.inRing hne
      trivial).2.1.trans hcap

end Last

/-! ## The passes of a stretch of time -/

section Recent

variable {A : EvalAlloc → Bool} {w : Window} {max : N} {now now' : UInt64} {e : StateEntry N}

/-- What a ring of passes holds. -/
def stamps (l : List (UInt64 × Bool)) : List (UInt64 × N) :=
  (l.filter Prod.snd).map fun p => (p.1, ofNat 1)

/-- The ring holds the passes of the window, and no more than the cap. -/
structure HoldsStamps (w : Window) (max : N) (now : UInt64) (r : Throttling N) : Prop where
  recent : HoldsRecent (fun _ _ _ => True) w w.ms now r.entry (stamps r.evaluations)
  cap : r.entry.ringLen ≤ (toU64 max).toNat
  past : ∀ p ∈ r.evaluations, p.1 ≤ now

theorem length_recent_stamps {l : List (UInt64 × Bool)} (hpast : ∀ p ∈ l, p.1 ≤ now)
    (ms : UInt64) :
    (recent ms now (stamps l : List (UInt64 × N))).length =
      passesBetween l (now.toNat - ms.toNat) now.toNat := by
  unfold recent stamps passesBetween
  rw [List.filter_map, List.length_map, ← List.countP_eq_length_filter, List.countP_filter]
  apply List.countP_congr
  intro p hp
  have hle := UInt64.le_iff_toNat_le.mp (hpast p hp)
  simp only [Function.comp_apply, Bool.and_eq_true, decide_eq_true_eq]
  constructor
  · rintro ⟨hfrom, hpassed⟩
    exact ⟨hpassed, by omega, hle⟩
  · rintro ⟨hpassed, hfrom, -⟩
    exact ⟨by omega, hpassed⟩

theorem stamps_concat (l : List (UInt64 × Bool)) (now : UInt64) (pass : Bool) :
    (stamps (l ++ [(now, pass)]) : List (UInt64 × N)) =
      if pass then stamps l ++ [(now, ofNat 1)] else stamps l := by
  cases pass <;> simp [stamps]

theorem holdsStamps_fresh (hw : w.timeWindow = true) (max : N) (k : StateKey) :
    HoldsStamps w max 0 (Throttling.fresh k) := by
  refine ⟨(holds_fresh sumLaw_true w k).recent hw, Nat.zero_le _, ?_⟩
  intro p hp
  cases hp

omit [Number N] in
/-- As time passes samples are dropped only. -/
theorem HoldsRecent.later {T : N → List N → List N → Prop} {ms : UInt64} {e' : StateEntry N}
    {pushed : List (UInt64 × N)} (h : HoldsRecent T w ms now e pushed)
    (h' : HoldsRecent T w ms now' e' pushed) (hnow : now ≤ now') : e'.samples <:+ e.samples := by
  rw [h.held, h'.held, ← recent_later h.sorted hnow]
  exact List.dropWhile_suffix _

theorem HoldsStamps.ringLen {l : List (UInt64 × Bool)} (hpast : ∀ p ∈ l, p.1 ≤ now)
    (h : HoldsRecent (fun _ _ _ => True) w w.ms now e (stamps l)) :
    e.ringLen = passesBetween l (now.toNat - w.ms.toNat) now.toNat := by
  rw [← length_samples, h.held, length_recent_stamps hpast]

theorem holdsStamps_tick {r : Throttling N} (h : HoldsStamps w max now r) (hnow : now ≤ now') :
    HoldsStamps w max now' (r.step w max (.tick A now')) := by
  have htick := holdsRecent_tick (A := A) sumLaw_true h.recent hnow
  refine ⟨htick, ?_, ?_⟩
  · have hsuffix := (h.recent.later htick hnow).length_le
    rw [length_samples, length_samples] at hsuffix
    exact le_trans hsuffix h.cap
  · intro p hp
    exact UInt64.le_trans (h.past p hp) hnow

/-- What an evaluation does: it drops the passes from before the window, and counts the
others. -/
structure ThrottleStep (A : EvalAlloc → Bool) (w : Window) (max : N) (now : UInt64) (v : Value N)
    (r : Throttling N) (s : SlotStep N (Value N)) : Prop where
  served : (∀ site, A site = true) → s.result.isOk = true
  result : s.result.isOk = true → s.result = .ok (if s.passes then v else .nil)
  passes : s.result.isOk = true → (s.passes = true ↔
    passesBetween r.evaluations (now.toNat - w.ms.toNat) now.toNat < (toU64 max).toNat)
  kept : s.suppressed = true → s.entry.samples = r.entry.samples

/-- The ring after an eviction, before a pass is added. -/
structure Evicted (A : EvalAlloc → Bool) (w : Window) (max : N) (now : UInt64) (v : Value N)
    (r : Throttling N) (e : StateEntry N) : Prop where
  step : throttle A w now max v r.entry =
    if (toU64 max).toNat ≤ e.ringLen then .suppress e .nil
    else
      match e.ringPushTime A (ofNat 1) now with
      | none => .fail e .oom
      | some e => .done e v
  recent : HoldsRecent (fun _ _ _ => True) w w.ms now e (stamps r.evaluations)
  kind : e.kind = .ring
  samples : e.samples <:+ r.entry.samples
  ringLen : e.ringLen = passesBetween r.evaluations (now.toNat - w.ms.toNat) now.toNat

theorem exists_evicted {r : Throttling N} (hw : w.timeWindow = true)
    (h : HoldsStamps w max now r) (hnow : now ≤ now') (v : Value N) :
    ∃ e, Evicted A w max now' v r e := by
  obtain ⟨hslot, hok, hkind, -⟩ := holdsRecent_windowSlot (A := A) h.recent hw
  have hevict := hslot.evict sumLaw_true hnow hkind
  have hpast : ∀ p ∈ r.evaluations, p.1 ≤ now' := fun p hp => UInt64.le_trans (h.past p hp) hnow
  refine ⟨(windowSlot A w r.entry).1.ringEvictTime (StateEntry.cutoff now' w.ms), ?_, hevict, ?_,
    h.recent.later hevict hnow, HoldsStamps.ringLen hpast hevict⟩
  · unfold throttle
    generalize windowSlot A w r.entry = slot at hok ⊢
    obtain ⟨e₁, ok⟩ := slot
    dsimp only at hok ⊢
    subst hok
    exact if_pos hw
  · exact (sameTimers_ringEvictTime _ _).kind.trans hkind

theorem throttle_stamps {r : Throttling N} (hw : w.timeWindow = true)
    (h : HoldsStamps w max now r) (hnow : now ≤ now') (x : N) (v : Value N) :
    ThrottleStep A w max now' v r (throttle A w now' max v r.entry) ∧
      HoldsStamps w max now' (r.step w max (.message A now' x v)) := by
  obtain ⟨e, hstep, hevict, hkind, hsuffix, hlen⟩ := exists_evicted (A := A) hw h hnow v
  have hcap : e.ringLen ≤ (toU64 max).toNat := by
    have hle := hsuffix.length_le
    rw [length_samples, length_samples] at hle
    exact le_trans hle h.cap
  have hpast : ∀ pass, ∀ p ∈ r.evaluations ++ [(now', pass)], p.1 ≤ now' := by
    intro pass p hp
    rcases List.mem_append.mp hp with hp | hp
    · exact UInt64.le_trans (h.past p hp) hnow
    · simp only [List.mem_singleton] at hp
      simp [hp]
  -- what is left after the step, by whether it passed
  have hholds : ∀ s : SlotStep N (Value N), throttle A w now' max v r.entry = s →
      HoldsRecent (fun _ _ _ => True) w w.ms now' s.entry
        (stamps (r.evaluations ++ [(now', s.passes)])) → s.entry.ringLen ≤ (toU64 max).toNat →
      HoldsStamps w max now' (r.step w max (.message A now' x v)) := by
    rintro s rfl hrecent hle
    exact ⟨hrecent, hle, hpast _⟩
  by_cases hfull : (toU64 max).toNat ≤ e.ringLen
  · simp only [hfull, if_true] at hstep
    constructor
    · rw [hstep]
      refine ⟨fun _ => rfl, fun _ => rfl, fun _ => ?_, fun _ => ?_⟩
      · simp only [SlotStep.passes, SlotStep.suppress, Bool.not_true, Bool.and_false,
          Bool.false_eq_true, false_iff]
        omega
      · -- a full ring has dropped nothing
        apply hsuffix.eq_of_length_le
        rw [length_samples, length_samples]
        exact le_trans h.cap hfull
    · apply hholds _ hstep _ hcap
      rw [stamps_concat]
      exact hevict
  · simp only [hfull, if_false] at hstep
    cases hpush : e.ringPushTime A (ofNat 1) now' with
    | none =>
      rw [hpush] at hstep
      constructor
      · rw [hstep]
        refine ⟨fun hA => ?_, fun hok => ?_, fun hok => ?_, fun h => ?_⟩
        · obtain ⟨e', hsome⟩ := ringPushTime_isSome hA e (ofNat 1) now'
          rw [hpush] at hsome
          cases hsome
        all_goals cases ‹_›
      · apply hholds _ hstep _ hcap
        rw [stamps_concat]
        exact hevict
    | some e' =>
      rw [hpush] at hstep
      have hpushed := hevict.push sumLaw_true hkind hpush
      have hlength : e'.ringLen = e.ringLen + 1 := by
        obtain ⟨hsamples, -⟩ := ringPushTime_spec sumLaw_true (p := []) hevict.inRing trivial
          hpush
        rw [← length_samples, hsamples, List.length_append, length_samples, List.length_singleton]
      constructor
      · rw [hstep]
        refine ⟨fun _ => rfl, fun _ => rfl, fun _ => ?_, fun h => ?_⟩
        · simp only [SlotStep.passes, SlotStep.done, Except.isOk, Except.toBool, Bool.not_false,
            Bool.and_true, true_iff]
          omega
        · cases h
      · apply hholds _ hstep
        · rw [stamps_concat]
          exact hpushed
        · change e'.ringLen ≤ _
          omega

/-- A stretch of time that holds one more pass ends with it, so that it holds no other
passes than those that were counted before it. -/
theorem passesBetween_concat {l : List (UInt64 × Bool)} {ms m : ℕ} {pass : Bool}
    (hpast : ∀ p ∈ l, p.1 ≤ now) (h : ∀ a, passesBetween l a (a + ms) ≤ m)
    (hpass : pass = true → passesBetween l (now.toNat - ms) now.toNat < m) (a : ℕ) :
    passesBetween (l ++ [(now, pass)]) a (a + ms) ≤ m := by
  have hold := h a
  unfold passesBetween at hold hpass ⊢
  rw [List.countP_append, List.countP_singleton]
  split_ifs with hnew
  · simp only [Bool.and_eq_true, decide_eq_true_eq] at hnew
    obtain ⟨hpassed, hfrom, hto⟩ := hnew
    have hless := hpass hpassed
    have hle : l.countP (fun p => p.2 && decide (a ≤ p.1.toNat ∧ p.1.toNat ≤ a + ms)) ≤
        l.countP (fun p => p.2 && decide (now.toNat - ms ≤ p.1.toNat ∧ p.1.toNat ≤ now.toNat)) := by
      apply List.countP_mono_left
      intro p hp hin
      have hearlier := UInt64.le_iff_toNat_le.mp (hpast p hp)
      simp only [Bool.and_eq_true, decide_eq_true_eq] at hin ⊢
      exact ⟨hin.1, by omega, hearlier⟩
    omega
  · exact hold

end Recent

/-! ## The cap -/

section Runs

variable {w : Window} {max : N} {now : UInt64} {r : Throttling N}

/-- No stretch of time of the window's length holds more passes than the cap. -/
def CappedByTime (w : Window) (max : N) (r : Throttling N) : Prop :=
  ∀ a, passesBetween r.evaluations a (a + w.ms.toNat) ≤ (toU64 max).toNat

theorem capped_step (hw : w.timeWindow = true) (h : HoldsStamps w max now r)
    (hcapped : CappedByTime w max r) {event : FormEvent N} (hnow : now ≤ event.now) :
    HoldsStamps w max event.now (r.step w max event) ∧ CappedByTime w max (r.step w max event) := by
  cases event with
  | message A t x v =>
    obtain ⟨hstep, hholds⟩ := throttle_stamps (A := A) hw h hnow x v
    refine ⟨hholds, ?_⟩
    apply passesBetween_concat _ hcapped
    · intro hpass
      have hok : (throttle A w t max v r.entry).result.isOk = true := by
        unfold SlotStep.passes at hpass
        exact (Bool.and_eq_true_iff.mp hpass).1
      exact (hstep.passes hok).mp hpass
    · intro p hp
      exact UInt64.le_trans (h.past p hp) hnow
  | tick A t => exact ⟨holdsStamps_tick h hnow, hcapped⟩

theorem capped_run (hw : w.timeWindow = true) (h : HoldsStamps w max now r)
    (hcapped : CappedByTime w max r) {events : List (FormEvent N)}
    (htimes : (now :: events.map FormEvent.now).Pairwise (· ≤ ·)) :
    CappedByTime w max (r.run w max events) ∧
      ∃ last, HoldsStamps w max last (r.run w max events) ∧
        ∀ t, now ≤ t → (∀ event ∈ events, event.now ≤ t) → last ≤ t := by
  induction events generalizing r now with
  | nil => exact ⟨hcapped, now, h, fun t hnow _ => hnow⟩
  | cons event events ih =>
    rw [List.map_cons] at htimes
    have hnow := List.rel_of_pairwise_cons htimes List.mem_cons_self
    obtain ⟨hholds, hcapped'⟩ := capped_step hw h hcapped hnow
    obtain ⟨hrun, last, hlast, hle⟩ := ih hholds hcapped' htimes.of_cons
    refine ⟨hrun, last, hlast, fun t _ hevents => ?_⟩
    apply hle
    · exact hevents event List.mem_cons_self
    · intro event' hevent
      exact hevents event' (List.mem_cons_of_mem _ hevent)

omit [Number N] in
theorem count_map_snd (l : List (UInt64 × Bool)) :
    (l.map Prod.snd).count true = passes l := by
  unfold passes
  rw [List.count, List.countP_map]
  apply List.countP_congr
  intro p _
  simp

omit [Number N] in
theorem map_snd_rtake (l : List (UInt64 × Bool)) (n : ℕ) :
    (l.map Prod.snd).rtake n = (l.rtake n).map Prod.snd := by
  rw [List.rtake, List.rtake, List.length_map, List.map_drop]

/-- No evaluations in a row, as many as the window has, hold more passes than the cap. -/
def CappedByCount (w : Window) (max : N) (r : Throttling N) : Prop :=
  ∀ i, passes ((r.evaluations.drop i).take w.count) ≤ (toU64 max).toNat

theorem counted_step (hcounts : CountsUpTo N w.count) (hw : w.timeWindow = false)
    (hn : 0 < w.count) (h : HoldsPasses w r.entry (r.evaluations.map Prod.snd))
    (hcapped : CappedByCount w max r) {event : FormEvent N}
    (hserved : (WindowForm.throttle w max).Served event) :
    HoldsPasses w (r.step w max event).entry ((r.step w max event).evaluations.map Prod.snd) ∧
      CappedByCount w max (r.step w max event) := by
  cases event with
  | message A t x v =>
    obtain ⟨-, hpasses, hholds⟩ :=
      @throttle_passes _ _ A w max t r.entry hcounts (hserved hw) hw hn _ h v
    rw [map_snd_rtake, count_map_snd] at hpasses
    constructor
    · unfold Throttling.step
      rw [List.map_append]
      exact hholds
    · apply countP_consecutive_concat hcapped
      exact hpasses.mp
  | tick A t =>
    have htick := tickEntry_last (A := A) h.last t
    have hstill : r.step w max (.tick A t) = r := by simp only [Throttling.step, htick]
    rw [hstill]
    exact ⟨h, hcapped⟩

theorem counted_run (hcounts : CountsUpTo N w.count) (hw : w.timeWindow = false)
    (hn : 0 < w.count) (h : HoldsPasses w r.entry (r.evaluations.map Prod.snd))
    (hcapped : CappedByCount w max r) {events : List (FormEvent N)}
    (hserved : ∀ event ∈ events, (WindowForm.throttle w max).Served event) :
    HoldsPasses w (r.run w max events).entry ((r.run w max events).evaluations.map Prod.snd) ∧
      CappedByCount w max (r.run w max events) := by
  induction events generalizing r with
  | nil => exact ⟨h, hcapped⟩
  | cons event events ih =>
    obtain ⟨hholds, hcapped'⟩ := counted_step hcounts hw hn h hcapped (hserved event (by simp))
    exact ih hholds hcapped' fun event' hevent => hserved event' (by simp [hevent])

end Runs

/-- A throttle lets a value pass exactly when fewer passes than its cap lie in its window:
in the time that ends with the evaluation, or among the evaluations just before it. No
window of either kind ever holds more passes than the cap. -/
theorem throttle_caps_passes (k : StateKey) (w : Window) (max : N) :
    (w.timeWindow = true → ∀ events : List (FormEvent N),
      (events.map FormEvent.now).Pairwise (· ≤ ·) →
        let r := (Throttling.fresh k).run w max events
        CappedByTime w max r ∧
          ∀ A now v, (∀ event ∈ events, event.now ≤ now) →
            ThrottleStep A w max now v r (throttle A w now max v r.entry)) ∧
    (w.timeWindow = false → 0 < w.count → CountsUpTo N w.count →
      ∀ events : List (FormEvent N),
        (∀ event ∈ events, (WindowForm.throttle w max).Served event) →
          let r := (Throttling.fresh k).run w max events
          CappedByCount w max r ∧
            ∀ A now v, (∀ site, A site = true) →
              let s := throttle A w now max v r.entry
              s.result = .ok (if s.passes then v else .nil) ∧
                (s.passes = true ↔
                  passes (r.evaluations.rtake w.count) < (toU64 max).toNat)) := by
  constructor
  · intro hw events htimes
    have hfrom : (0 :: events.map FormEvent.now).Pairwise (· ≤ ·) :=
      List.Pairwise.cons (fun t _ => UInt64.zero_le) htimes
    obtain ⟨hcapped, last, hholds, hle⟩ := capped_run (r := Throttling.fresh k) hw
      (holdsStamps_fresh hw max k) (fun a => Nat.zero_le _) hfrom
    refine ⟨hcapped, fun A now v hnow => ?_⟩
    exact (throttle_stamps hw hholds (hle now UInt64.zero_le hnow) (ofNat 0) v).1
  · intro hw hn hcounts events hserved
    obtain ⟨hholds, hcapped⟩ := counted_run (r := Throttling.fresh k) hcounts hw hn
      (holdsPasses_fresh w k) (fun i => by simp [passes, Throttling.fresh]) hserved
    refine ⟨hcapped, fun A now v hA => ?_⟩
    obtain ⟨hresult, hpasses, -⟩ :=
      @throttle_passes _ _ A w max now _ hcounts hA hw hn _ hholds v
    rw [map_snd_rtake, count_map_snd] at hpasses
    exact ⟨hresult, hpasses⟩

/-- Two evaluations with a cap of one, over time and over the last four. -/
theorem throttle_caps_two :
    CappedByTime ⟨true, 0, 10⟩ 1 ((Throttling.fresh ⟨0, lit "throttle/m", lit "a"⟩).run
        ⟨true, 0, 10⟩ (1 : ℚ)
        [.message (fun _ => true) 5 0 (.bool true), .message (fun _ => true) 9 0 (.bool true)]) ∧
    CappedByCount ⟨false, 4, 0⟩ 1
      ((Throttling.fresh ⟨0, lit "throttle/t", lit "a"⟩).run ⟨false, 4, 0⟩ (1 : ℚ)
        [.message (fun _ => true) 5 0 (.bool true),
          .message (fun _ => true) 9 0 (.bool true)]) := by
  constructor
  · exact ((throttle_caps_passes _ _ _).1 rfl _ (by decide)).1
  · apply ((throttle_caps_passes _ _ _).2 rfl (by decide)
      (countsUpTo_of_exact exactArithmetic_rat 4) _ _).1
    intro event hevent
    simp only [List.mem_cons, List.not_mem_nil, or_false] at hevent
    rcases hevent with rfl | rfl
    all_goals exact fun _ _ => rfl

end Monoblok.Patchbay
