import Monoblok.Patchbay.Windows

/-!
# Forms on a window

One evaluation of a window form on a slot that is in use, as a step on the list of
its samples: the statistics go by the size the slot was made with, the throttle
over a stretch of time by its own.
-/

namespace Monoblok.Patchbay

open Circular Number Sliding

variable {N : Type} [Number N]

/-- A statistic over a window, or the throttle. -/
inductive WindowForm (N : Type) where
  | stat (w : Window)
  | throttle (w : Window) (max : N)

namespace WindowForm

def window : WindowForm N → Window
  | stat w | throttle w _ => w

/-- The stretch of time that an evaluation goes by. -/
def msFor (f : WindowForm N) (e : StateEntry N) : UInt64 :=
  match f with
  | stat w => if e.ringWindowMs = 0 then w.ms else e.ringWindowMs
  | throttle w _ => w.ms

/-- One evaluation: the slot and the samples that are added, or `none` where it
fails. -/
def sample (f : WindowForm N) (A : EvalAlloc → Bool) (now : UInt64) (x : N) (v : Value N)
    (e : StateEntry N) : StateEntry N × Option (List N) :=
  match f with
  | stat w =>
    match windowSample A w now x e with
    | (e, true) => (e, some [x])
    | (e, false) => (e, none)
  | throttle w max =>
    let s := Patchbay.throttle A w now max v e
    match s.result with
    | .error _ => (s.entry, none)
    | .ok _ =>
      (s.entry,
        some (if s.suppressed then if w.timeWindow then [] else [ofNat 0] else [ofNat 1]))

end WindowForm

omit [Number N] in
theorem msFor_congr {f : WindowForm N} {e e' : StateEntry N}
    (h : e'.ringWindowMs = e.ringWindowMs) : f.msFor e' = f.msFor e := by
  unfold WindowForm.msFor
  rw [h]

/-- A tick is for clocks, windows and bars. -/
theorem tickEntry_still {e : StateEntry N} (hclock : e.kind ≠ .clock) (hring : e.kind ≠ .ring)
    (hbar : e.kind ≠ .bar ∨ e.barTimeWindow = false) (A : EvalAlloc → Bool) (now : UInt64) :
    tickEntry A now e = ⟨e, false, .ok (.inr none)⟩ := by
  have hwindow : ¬(e.kind = .ring ∧ e.ringTimeWindow = true ∧ 0 < e.ringLen) := fun h => hring h.1
  have hopen : e.kind ≠ .bar ∨ e.barTimeWindow = false ∨ e.barCount = 0 := by
    rcases hbar with h | h
    · exact .inl h
    · exact .inr (.inl h)
  rw [tickEntry, if_neg hclock, tickWindow, if_neg hwindow]
  dsimp only
  rw [StateEntry.barTimeTick, if_pos hopen]
  rfl

theorem tickEntry_idle {e : StateEntry N} (hclock : e.kind ≠ .clock) (hring : e.kind ≠ .ring)
    (hbar : e.kind ≠ .bar) (A : EvalAlloc → Bool) (now : UInt64) :
    (tickEntry A now e).entry = e := by
  rw [tickEntry_still hclock hring (.inl hbar)]

/-! ## Windows of time -/

structure TimeRing (e : StateEntry N) : Prop where
  kind : e.kind = .ring
  timeWindow : e.ringTimeWindow = true
  inRing : InRing e

/-- A sample from before the window. -/
def old (ms now : UInt64) (s : UInt64 × N) : Bool := decide (s.1.toNat + ms.toNat < now.toNat)

omit [Number N] in
theorem lt_cutoff (ms now : UInt64) (s : UInt64 × N) :
    decide (s.1.toNat < (StateEntry.cutoff now ms).toNat) = old ms now s := by
  apply decide_eq_decide.mpr
  have hcutoff := cutoff_le_iff now s.1 ms
  rw [UInt64.le_iff_toNat_le] at hcutoff
  omega

section Time

variable {A : EvalAlloc → Bool} {now : UInt64} {e : StateEntry N}

theorem sumLaw_true : SumLaw fun (_ : N) _ _ => True where
  empty := trivial
  push := fun _ _ => trivial
  drop := fun _ => trivial

theorem TimeRing.evict (h : TimeRing e) (now ms : UInt64) :
    TimeRing (e.ringEvictTime (StateEntry.cutoff now ms)) ∧
      (e.ringEvictTime (StateEntry.cutoff now ms)).ringWindowMs = e.ringWindowMs ∧
      (e.ringEvictTime (StateEntry.cutoff now ms)).samples = e.samples.dropWhile (old ms now) := by
  obtain ⟨hlist, -⟩ := @ringEvictLoop_spec _ _ _ sumLaw_true (StateEntry.cutoff now ms) e.ringLen _ []
    le_rfl h.inRing trivial
  obtain ⟨htime, hwindow⟩ := ringEvictLoop_window (StateEntry.cutoff now ms) e.ringLen e
  refine ⟨⟨?_, htime.trans h.timeWindow, ringEvictLoop_inRing _ _ h.inRing⟩, hwindow, ?_⟩
  · exact (sameTimers_ringEvictTime e _).kind.trans h.kind
  · refine hlist.trans ?_
    congr 1
    funext s
    exact lt_cutoff ms now s

theorem TimeRing.push {e' : StateEntry N} {x : N} (h : TimeRing e)
    (hpush : e.ringPushTime A x now = some e') :
    TimeRing e' ∧ e'.ringWindowMs = e.ringWindowMs ∧ e'.samples = e.samples ++ [(now, x)] := by
  obtain ⟨hlist, hin, -⟩ := @ringPushTime_spec _ _ _ _ sumLaw_true _ _ _ _ [] h.inRing trivial hpush
  obtain ⟨htime, hms⟩ := ringPushTime_geometry hpush
  exact ⟨⟨(sameTimers_ringPushTime hpush).kind.trans h.kind, htime.trans h.timeWindow, hin⟩, hms,
    hlist⟩

omit [Number N] in
theorem TimeRing.windowSlot {w : Window} (h : TimeRing e) (hw : w.timeWindow = true) :
    windowSlot A w e = (e, true) := by
  have hne : e.kind ≠ .empty := by
    rw [h.kind]
    decide
  unfold Patchbay.windowSlot
  rw [if_neg hne, h.kind, h.timeWindow, hw]
  rfl

/-- What an evaluation does to a window of time in use. -/
structure TimedStep (f : WindowForm N) (now : UInt64) (e : StateEntry N)
    (r : StateEntry N × Option (List N)) : Prop where
  ring : TimeRing r.1
  windowMs : r.1.ringWindowMs = e.ringWindowMs
  samples : r.1.samples = e.samples.dropWhile (old (f.msFor e) now) ++ (r.2.getD []).map (now, ·)

theorem windowSample_time {w : Window} (h : TimeRing e) (hw : w.timeWindow = true) (x : N) :
    windowSample A w now x e =
      match (e.ringEvictTime (StateEntry.cutoff now ((WindowForm.stat w).msFor e))).ringPushTime
        A x now with
      | none => (e.ringEvictTime (StateEntry.cutoff now ((WindowForm.stat w).msFor e)), false)
      | some e => (e, true) := by
  unfold windowSample
  rw [h.windowSlot hw]
  dsimp only
  unfold StateEntry.windowPush
  rw [hw, if_pos rfl]
  rfl

theorem throttle_time {w : Window} (h : TimeRing e) (hw : w.timeWindow = true) (max : N)
    (v : Value N) :
    throttle A w now max v e =
      if (toU64 max).toNat ≤ (e.ringEvictTime (StateEntry.cutoff now w.ms)).ringLen then
        .suppress (e.ringEvictTime (StateEntry.cutoff now w.ms)) .nil
      else
        match (e.ringEvictTime (StateEntry.cutoff now w.ms)).ringPushTime A (ofNat 1) now with
        | none => .fail (e.ringEvictTime (StateEntry.cutoff now w.ms)) .oom
        | some e => .done e v := by
  unfold throttle
  rw [h.windowSlot hw]
  dsimp only
  exact if_pos hw

theorem timedStep_sample {f : WindowForm N} (h : TimeRing e) (hw : f.window.timeWindow = true)
    (x : N) (v : Value N) : TimedStep f now e (f.sample A now x v e) := by
  cases f with
  | stat w =>
    have hw' : w.timeWindow = true := hw
    obtain ⟨hring, hms, hlist⟩ := h.evict now ((WindowForm.stat w).msFor e)
    unfold WindowForm.sample
    dsimp only
    rw [windowSample_time h hw']
    cases hpush : (e.ringEvictTime (StateEntry.cutoff now ((WindowForm.stat w).msFor e))).ringPushTime
        A x now with
    | none => exact ⟨hring, hms, by rw [hlist]; exact (List.append_nil _).symm⟩
    | some e' =>
      obtain ⟨hring', hms', hlist'⟩ := hring.push hpush
      exact ⟨hring', hms'.trans hms, by rw [hlist', hlist]; rfl⟩
  | throttle w max =>
    have hw' : w.timeWindow = true := hw
    obtain ⟨hring, hms, hlist⟩ := h.evict now w.ms
    unfold WindowForm.sample
    dsimp only
    rw [throttle_time h hw']
    by_cases hfull : (toU64 max).toNat ≤ (e.ringEvictTime (StateEntry.cutoff now w.ms)).ringLen
    · rw [if_pos hfull]
      refine ⟨hring, hms, ?_⟩
      simp [SlotStep.suppress, WindowForm.msFor, hw', hlist]
    · rw [if_neg hfull]
      cases hpush : (e.ringEvictTime (StateEntry.cutoff now w.ms)).ringPushTime A (ofNat 1) now with
      | none => exact ⟨hring, hms, hlist.trans (List.append_nil _).symm⟩
      | some e' =>
        obtain ⟨hring', hms', hlist'⟩ := hring.push hpush
        exact ⟨hring', hms'.trans hms, hlist'.trans (congrArg (· ++ [(now, ofNat 1)]) hlist)⟩

theorem TimeRing.tick (h : TimeRing e) :
    TimeRing (tickEntry A now e).entry ∧ (tickEntry A now e).entry.ringWindowMs = e.ringWindowMs ∧
      (tickEntry A now e).entry.samples = e.samples.dropWhile (old e.ringWindowMs now) := by
  have hclock : e.kind ≠ .clock := by
    rw [h.kind]
    decide
  have hbar : ∀ {e' : StateEntry N}, e'.kind = .ring → e'.barTimeTick now = (e', none) := by
    intro e' hkind
    rw [StateEntry.barTimeTick, if_pos (.inl (by rw [hkind]; decide))]
  rw [tickEntry, if_neg hclock, tickWindow]
  dsimp only
  by_cases hopen : e.kind = .ring ∧ e.ringTimeWindow = true ∧ 0 < e.ringLen
  · rw [if_pos hopen, hbar ((sameTimers_ringEvictTime e _).kind.trans h.kind)]
    exact h.evict now e.ringWindowMs
  · rw [if_neg hopen, hbar h.kind]
    refine ⟨h, rfl, ?_⟩
    have hlen : e.ringLen = 0 := by
      by_contra hlen
      exact hopen ⟨h.kind, h.timeWindow, Nat.pos_of_ne_zero hlen⟩
    change e.samples = _
    rw [samples_eq_nil hlen]
    rfl

end Time

/-! ## Runs -/

/-- What happens to a slot: a message that is evaluated, or a tick. -/
inductive FormEvent (N : Type) where
  | message (A : EvalAlloc → Bool) (now : UInt64) (x : N) (v : Value N)
  | tick (A : EvalAlloc → Bool) (now : UInt64)

omit [Number N] in
def FormEvent.now : FormEvent N → UInt64
  | message _ now _ _ | tick _ now => now

namespace WindowForm

/-- The samples that are added are kept apart from those the slot had before. -/
def step (f : WindowForm N) (r : WindowRun N) : FormEvent N → WindowRun N
  | .message A now x v =>
    let s := f.sample A now x v r.entry
    ⟨s.1, r.pushed ++ (s.2.getD []).map (now, ·), now⟩
  | .tick A now => ⟨(tickEntry A now r.entry).entry, r.pushed, now⟩

def run (f : WindowForm N) (r : WindowRun N) (events : List (FormEvent N)) : WindowRun N :=
  events.foldl f.step r

theorem run_concat (f : WindowForm N) (r : WindowRun N) (events : List (FormEvent N))
    (event : FormEvent N) : f.run r (events ++ [event]) = f.step (f.run r events) event :=
  List.foldl_concat f.step r event events

end WindowForm

end Monoblok.Patchbay
