import Monoblok.Lib.Circular
import Monoblok.Lib.Sliding
import Monoblok.Patchbay.Exact
import Monoblok.Patchbay.Rings

/-!
# Samples of a window

The slot of a window read as the list of its samples, and what a push and a tick
do to that list. A run of both from a new slot keeps the last samples, or those
from the start of the window on, and a sum of them.
-/

namespace Monoblok.Patchbay

open Circular Number Sliding

variable {N : Type}

/-! ## A ring as a list -/

/-- The samples with their times, oldest first. -/
def StateEntry.samples (e : StateEntry N) : List (UInt64 × N) :=
  window (fun i => (e.ringTimes i, e.ringValues i)) e.ringCap e.ringStart e.ringLen

theorem InRing.start_lt {e : StateEntry N} (hin : InRing e) (hcap : e.ringCap ≠ 0) :
    e.ringStart < e.ringCap := hin.2 hcap

theorem InRing.cap_ne {e : StateEntry N} (hin : InRing e) (hlen : e.ringLen ≠ 0) :
    e.ringCap ≠ 0 := by
  intro hcap
  apply hlen
  exact Nat.le_zero.mp (hcap ▸ hin.1)

theorem ringIdx_eq_place {e : StateEntry N} (hcap : e.ringCap ≠ 0) (i : ℕ) :
    e.ringIdx i = place e.ringCap e.ringStart i := if_neg hcap

theorem ringList_eq_window {e : StateEntry N} (hin : InRing e) :
    e.ringList = window e.ringValues e.ringCap e.ringStart e.ringLen := by
  apply List.map_congr_left
  intro i hi
  have hlen : e.ringLen ≠ 0 := by
    have hlt := List.mem_range.mp hi
    omega
  rw [StateEntry.ringValueAt, ringIdx_eq_place (hin.cap_ne hlen)]

theorem ringList_eq_samples {e : StateEntry N} (hin : InRing e) :
    e.ringList = e.samples.map Prod.snd := by
  rw [ringList_eq_window hin, StateEntry.samples, window, window, List.map_map]
  rfl

theorem length_ringList (e : StateEntry N) : e.ringList.length = e.ringLen := by
  rw [StateEntry.ringList, List.length_map, List.length_range]

theorem samples_eq_nil {e : StateEntry N} (hlen : e.ringLen = 0) : e.samples = [] := by
  rw [StateEntry.samples, hlen]
  rfl

/-! ## Sums -/

section Ops

variable [Number N] {A : EvalAlloc → Bool}

/-- What the running sum says about all samples pushed and those still held, kept
by one more sample and by the loss of the oldest. -/
structure SumLaw (T : N → List N → List N → Prop) : Prop where
  empty : T (ofNat 0) [] []
  push : ∀ {s p l} x, T s p l → T (fadd s x) (p ++ [x]) (l ++ [x])
  drop : ∀ {s p l x}, T s p (x :: l) → T (fsub s x) p l

/-- What has been pushed once one more push has ended. -/
def recorded {α : Type} (pushed : List α) (x : α) (ok : Bool) : List α :=
  if ok then pushed ++ [x] else pushed

/-! ## The last samples -/

/-- The slot of a window of the last `n` samples after the given ones; its arrays
come with the first of them that finds memory. -/
structure HoldsLast (T : N → List N → List N → Prop) (count n : ℕ) (e : StateEntry N) (pushed : List N) :
    Prop where
  slot : e.kind = .empty ∧ e.ringCap = 0 ∨ e.kind = .ring ∧ e.ringTimeWindow = false
  inRing : InRing e
  cap : e.ringCap = n ∨ e.ringCap = 0 ∧ pushed = [] ∧ count = n
  values : e.ringList = pushed.rtake n
  sum : T e.ringSum pushed e.ringList

theorem ringPushCount_spec {T : N → List N → List N → Prop} (hT : SumLaw T) {e : StateEntry N} {p : List N}
    (x : N) (hin : InRing e) (hcap : e.ringCap ≠ 0) (hsum : T e.ringSum p e.ringList) :
    InRing (e.ringPushCount x) ∧ (e.ringPushCount x).ringCap = e.ringCap ∧
      (e.ringPushCount x).ringList = (e.ringList ++ [x]).rtake e.ringCap ∧
      T (e.ringPushCount x).ringSum (p ++ [x]) (e.ringPushCount x).ringList := by
  have hstart := hin.start_lt hcap
  have hlist := ringList_eq_window hin
  have hlen := length_ringList e
  unfold StateEntry.ringPushCount
  by_cases hroom : e.ringLen < e.ringCap
  · rw [if_pos hroom]
    have hin' : InRing { e with
        ringValues := Function.update e.ringValues ((e.ringStart + e.ringLen) % e.ringCap) x
        ringLen := e.ringLen + 1
        ringSum := fadd e.ringSum x } := ⟨hroom, hin.2⟩
    have hpush := ringList_eq_window hin'
    have hwindow : (e.ringList ++ [x]).rtake e.ringCap = e.ringList ++ [x] := by
      apply rtake_of_length_le
      rw [List.length_append, hlen]
      exact hroom
    rw [hwindow]
    have hvalues := hpush.trans ((window_push x hroom).trans (congrArg (· ++ [x]) hlist.symm))
    refine ⟨hin', rfl, hvalues, ?_⟩
    rw [hvalues]
    exact hT.push x hsum
  · rw [if_neg hroom]
    have hfull : e.ringLen = e.ringCap := le_antisymm hin.1 (not_lt.mp hroom)
    have hin' : InRing { e with
        ringValues := Function.update e.ringValues e.ringStart x
        ringSum := fadd (fsub e.ringSum (e.ringValues e.ringStart)) x
        ringStart := (e.ringStart + 1) % e.ringCap } :=
      ⟨hin.1, fun _ => Nat.mod_lt _ (Nat.pos_of_ne_zero hcap)⟩
    have hvalues := calc
      _ = window (Function.update e.ringValues e.ringStart x) e.ringCap
            ((e.ringStart + 1) % e.ringCap) e.ringLen := ringList_eq_window hin'
      _ = (window e.ringValues e.ringCap e.ringStart e.ringCap).tail ++ [x] := by
        rw [hfull]
        exact window_rotate x hstart
      _ = e.ringList.tail ++ [x] := by rw [hlist, hfull]
    have htail : (e.ringList ++ [x]).rtake e.ringCap = e.ringList.tail ++ [x] :=
      rtake_concat_full x (Nat.pos_of_ne_zero hcap) (hlen.trans hfull)
    rw [htail]
    refine ⟨hin', rfl, hvalues, ?_⟩
    rw [hvalues]
    apply hT.push x
    -- the first sample is the one that is written over
    have hfirst : e.ringList = e.ringValues e.ringStart :: e.ringList.tail := by
      obtain ⟨n, hn⟩ : ∃ n, e.ringCap = n + 1 := ⟨e.ringCap - 1, by omega⟩
      rw [hlist, hfull, hn, window_pop, List.tail_cons, place_zero (hn ▸ hstart)]
    rw [hfirst] at hsum
    exact hT.drop hsum

omit [Number N] in
theorem ringReserve_empty {e e' : StateEntry N} {cap : ℕ} (hcap : e.ringCap = 0) (hin : InRing e)
    (h : e.ringReserve A cap false = some e') :
    InRing e' ∧ e'.ringCap = cap ∧ e'.ringLen = 0 ∧ e'.ringSum = e.ringSum ∧ e'.kind = e.kind ∧
      e'.ringTimeWindow = e.ringTimeWindow := by
  have hlen : e.ringLen = 0 := Nat.le_zero.mp (hcap ▸ hin.1)
  unfold StateEntry.ringReserve at h
  by_cases hle : cap ≤ e.ringCap
  · rw [if_pos hle] at h
    cases h
    exact ⟨hin, by omega, hlen, rfl, rfl, rfl⟩
  · rw [if_neg hle] at h
    by_cases hfail : (!A .ringValues || (false && !A .ringTimes)) = true
    · rw [if_pos hfail] at h
      cases h
    rw [if_neg hfail] at h
    cases h
    refine ⟨⟨?_, fun _ => ?_⟩, rfl, hlen, rfl, rfl, rfl⟩
    · change e.ringLen ≤ cap
      omega
    · change 0 < cap
      omega

section Last

variable {T : N → List N → List N → Prop} {w : Window} {n : ℕ} {e e' : StateEntry N} {pushed : List N}

omit [Number N] in
theorem HoldsLast.reserve (hn : 0 < n) (h : HoldsLast T w.count n e pushed)
    (hkind : e.kind = .ring) (htime : e.ringTimeWindow = false) (hcap : e.ringCap = 0)
    (hroom : e.ringReserve A w.count false = some e') :
    HoldsLast T w.count n e' pushed ∧ e'.kind = .ring ∧ e'.ringCap = n := by
  obtain ⟨hin, hcap', hlen, hsum, hkind', htime'⟩ := ringReserve_empty hcap h.inRing hroom
  have hnil : e.ringList = [] := by
    apply List.eq_nil_of_length_eq_zero
    rw [length_ringList]
    exact Nat.le_zero.mp (hcap ▸ h.inRing.1)
  have hnil' : e'.ringList = [] := by
    apply List.eq_nil_of_length_eq_zero
    rw [length_ringList, hlen]
  have hcount : e'.ringCap = n := by
    rcases h.cap with hfull | ⟨-, -, hcount⟩
    · omega
    · exact hcap'.trans hcount
  refine ⟨⟨.inr ⟨hkind'.trans hkind, htime'.trans htime⟩, hin, .inl hcount, ?_, ?_⟩,
    hkind'.trans hkind, hcount⟩
  · rw [hnil', ← hnil, h.values]
  · rw [hnil', hsum, ← hnil]
    exact h.sum

omit [Number N] in
/-- A slot that is in use is a ring of its kind, also when its arrays are missing. -/
theorem holdsLast_windowSlot (hn : 0 < n) (h : HoldsLast T w.count n e pushed)
    (hw : w.timeWindow = false) :
    HoldsLast T w.count n (windowSlot A w e).1 pushed ∧ (windowSlot A w e).1.kind = .ring ∧
      (windowSlot A w e).1.ringTimeWindow = false := by
  unfold windowSlot
  rcases h.slot with ⟨hkind, hcap⟩ | ⟨hkind, htime⟩
  · rw [if_pos hkind, hw]
    have hring : HoldsLast T w.count n
        { e with kind := .ring, ringTimeWindow := false, ringWindowMs := w.ms } pushed :=
      ⟨.inr ⟨rfl, rfl⟩, h.inRing, h.cap, h.values, h.sum⟩
    dsimp only
    rw [if_neg Bool.false_ne_true]
    split
    · exact ⟨hring, rfl, rfl⟩
    · rename_i hroom
      obtain ⟨hready, hkind', -⟩ := hring.reserve hn rfl rfl hcap hroom
      exact ⟨hready, hkind', ringReserve_timeWindow hroom⟩
  · have hne : e.kind ≠ .empty := by
      rw [hkind]
      decide
    rw [if_neg hne]
    exact ⟨h, hkind, htime⟩

theorem HoldsLast.push (hT : SumLaw T) (hn : 0 < n) (h : HoldsLast T w.count n e pushed)
    (hkind : e.kind = .ring) (htime : e.ringTimeWindow = false) (hcap : e.ringCap = n) (x : N) :
    HoldsLast T w.count n (e.ringPushCount x) (pushed ++ [x]) := by
  obtain ⟨hin, hcap', hvalues, hsum⟩ :=
    ringPushCount_spec hT x h.inRing (by omega) h.sum
  refine ⟨.inr ⟨(sameTimers_ringPushCount e x).kind.trans hkind,
    (ringPushCount_timeWindow x).trans htime⟩, hin, .inl (hcap'.trans hcap), ?_, hsum⟩
  rw [hvalues, hcap, h.values, rtake_concat_window _ _ hn]

/-- One more sample. -/
theorem holdsLast_windowSample (hT : SumLaw T) (hn : 0 < n) (hw : w.timeWindow = false)
    (h : HoldsLast T w.count n e pushed) (now : UInt64) (x : N) :
    HoldsLast T w.count n (windowSample A w now x e).1
      (recorded pushed x (windowSample A w now x e).2) := by
  obtain ⟨hslot, hkind, htime⟩ := holdsLast_windowSlot (A := A) hn h hw
  unfold windowSample
  generalize windowSlot A w e = r at hslot hkind htime ⊢
  obtain ⟨e₁, ok⟩ := r
  cases ok with
  | false => exact hslot
  | true =>
    dsimp only at hslot hkind htime ⊢
    unfold StateEntry.windowPush
    rw [hw, if_neg Bool.false_ne_true]
    by_cases hcap : e₁.ringCap = 0
    · rw [if_pos hcap]
      split
      · exact hslot
      · rename_i hroom
        obtain ⟨hready, hkind', hcap'⟩ := hslot.reserve hn hkind htime hcap hroom
        exact hready.push hT hn hkind' ((ringReserve_timeWindow hroom).trans htime) hcap' x
    · rw [if_neg hcap]
      rcases hslot.cap with hfull | ⟨hzero, -⟩
      · exact hslot.push hT hn hkind htime hfull x
      · exact absurd hzero hcap

/-- A tick does nothing to a window without times. -/
theorem tickEntry_last (h : HoldsLast T w.count n e pushed) (now : UInt64) :
    (tickEntry A now e).entry = e := by
  have hkind : e.kind ≠ .clock ∧ e.kind ≠ .bar := by
    rcases h.slot with ⟨hkind, -⟩ | ⟨hkind, -⟩
    all_goals
      rw [hkind]
      decide
  have hwindow : ¬(e.kind = .ring ∧ e.ringTimeWindow = true ∧ 0 < e.ringLen) := by
    rintro ⟨hring, htime, -⟩
    rcases h.slot with ⟨hempty, -⟩ | ⟨-, hcounts⟩
    · rw [hring] at hempty
      cases hempty
    · rw [htime] at hcounts
      cases hcounts
  rw [tickEntry, if_neg hkind.1, tickWindow, if_neg hwindow]
  dsimp only
  rw [StateEntry.barTimeTick, if_pos (.inl hkind.2)]
  rfl

end Last

/-! ## The samples of a stretch of time -/

/-- The samples that are not older than the window. -/
def recent (ms now : UInt64) (pushed : List (UInt64 × N)) : List (UInt64 × N) :=
  pushed.filter fun s => decide ((now.toNat : ℤ) - ms.toNat ≤ s.1.toNat)

/-- The slot of a window of `ms` at the given time, after the given samples. -/
structure HoldsRecent (T : N → List N → List N → Prop) (w : Window) (ms now : UInt64) (e : StateEntry N)
    (pushed : List (UInt64 × N)) : Prop where
  slot : e.kind = .empty ∧ e.ringLen = 0 ∧ w.ms = ms ∨
    e.kind = .ring ∧ e.ringTimeWindow = true ∧ e.ringWindowMs = ms ∧ (ms = 0 → w.ms = 0)
  inRing : InRing e
  held : e.samples = recent ms now pushed
  sorted : SortedBy (fun s : UInt64 × N => s.1.toNat) pushed
  past : ∀ s ∈ pushed, s.1 ≤ now
  sum : T e.ringSum (pushed.map Prod.snd) (e.samples.map Prod.snd)

omit [Number N] in
theorem recent_eq_filter (ms now : UInt64) (pushed : List (UInt64 × N)) :
    recent ms now pushed =
      pushed.filter fun s => decide ((StateEntry.cutoff now ms).toNat ≤ s.1.toNat) := by
  apply List.filter_congr
  intro s _
  apply decide_eq_decide.mpr
  have hcutoff := cutoff_le_iff now s.1 ms
  rw [UInt64.le_iff_toNat_le] at hcutoff
  rw [hcutoff]
  omega

theorem cutoff_mono {now now' : UInt64} (h : now ≤ now') (ms : UInt64) :
    (StateEntry.cutoff now ms).toNat ≤ (StateEntry.cutoff now' ms).toNat := by
  have hcutoff := (cutoff_le_iff now (StateEntry.cutoff now' ms) ms).mpr
  have hself := (cutoff_le_iff now' (StateEntry.cutoff now' ms) ms).mp (UInt64.le_refl _)
  rw [UInt64.le_iff_toNat_le] at h hcutoff
  apply hcutoff
  omega

omit [Number N] in
/-- The oldest sample and the ring without it. -/
theorem samples_front {e : StateEntry N} (hin : InRing e) (hlen : e.ringLen ≠ 0) (s : N) :
    e.samples = (e.ringTimes e.ringStart, e.ringValues e.ringStart) ::
      { e with
        ringSum := s
        ringStart := (e.ringStart + 1) % e.ringCap
        ringLen := e.ringLen - 1 }.samples := by
  obtain ⟨m, hm⟩ : ∃ m, e.ringLen = m + 1 := ⟨e.ringLen - 1, by omega⟩
  have hstart := hin.start_lt (hin.cap_ne hlen)
  unfold StateEntry.samples
  dsimp only
  rw [hm, window_pop, place_zero hstart, Nat.add_sub_cancel]
  rfl

theorem ringEvictLoop_spec {T : N → List N → List N → Prop} (hT : SumLaw T) (cutoff : UInt64) (n : ℕ)
    {e : StateEntry N} {pushed : List N} (hn : e.ringLen ≤ n) (hin : InRing e)
    (hsum : T e.ringSum pushed (e.samples.map Prod.snd)) :
    (StateEntry.ringEvictLoop cutoff n e).samples =
        e.samples.dropWhile (fun s => decide (s.1.toNat < cutoff.toNat)) ∧
      T (StateEntry.ringEvictLoop cutoff n e).ringSum pushed
        ((StateEntry.ringEvictLoop cutoff n e).samples.map Prod.snd) := by
  induction n generalizing e with
  | zero =>
    have hnil := samples_eq_nil (Nat.le_zero.mp hn)
    refine ⟨?_, hsum⟩
    change e.samples = _
    rw [hnil]
    rfl
  | succ n ih =>
    unfold StateEntry.ringEvictLoop
    by_cases hfresh : e.ringLen = 0 ∨ cutoff ≤ e.ringTimes e.ringStart
    · rw [if_pos hfresh]
      refine ⟨?_, hsum⟩
      by_cases hlen : e.ringLen = 0
      · rw [samples_eq_nil hlen]
        rfl
      · have hyoung := UInt64.le_iff_toNat_le.mp (hfresh.resolve_left hlen)
        rw [samples_front hin hlen e.ringSum, List.dropWhile_cons, if_neg]
        rw [decide_eq_true_eq]
        exact not_lt.mpr hyoung
    · rw [if_neg hfresh]
      obtain ⟨hlen, hold⟩ := not_or.mp hfresh
      rw [UInt64.le_iff_toNat_le, not_le] at hold
      have hfront := samples_front hin hlen (fsub e.ringSum (e.ringValues e.ringStart))
      have hin' : InRing { e with
          ringSum := fsub e.ringSum (e.ringValues e.ringStart)
          ringStart := (e.ringStart + 1) % e.ringCap
          ringLen := e.ringLen - 1 } :=
        ⟨le_trans (Nat.sub_le _ _) hin.1,
          fun hcap => Nat.mod_lt _ (Nat.pos_of_ne_zero hcap)⟩
      rw [hfront, List.map_cons] at hsum
      obtain ⟨hlist, hsum'⟩ := ih (by dsimp only; omega) hin' (hT.drop hsum)
      refine ⟨?_, hsum'⟩
      rw [hlist, hfront, List.dropWhile_cons, if_pos (decide_eq_true hold)]

omit [Number N] in
theorem ringReserve_samples {e e' : StateEntry N} {cap : ℕ} (hin : InRing e)
    (h : e.ringReserve A cap true = some e') :
    e'.samples = e.samples ∧ e'.ringSum = e.ringSum := by
  unfold StateEntry.ringReserve at h
  by_cases hle : cap ≤ e.ringCap
  · rw [if_pos hle] at h
    cases h
    exact ⟨rfl, rfl⟩
  rw [if_neg hle] at h
  by_cases hfail : (!A .ringValues || (true && !A .ringTimes)) = true
  · rw [if_pos hfail] at h
    cases h
  rw [if_neg hfail] at h
  cases h
  refine ⟨?_, rfl⟩
  by_cases hlen : e.ringLen = 0
  · rw [samples_eq_nil hlen]
    exact samples_eq_nil hlen
  · have hroom : e.ringLen ≤ cap := le_trans hin.1 (Nat.le_of_not_le hle)
    have hfront := @window_front _ (fun i => (e.ringTimes i, e.ringValues i)) e.ringCap
      e.ringStart _ _ hroom
    have hidx : e.ringIdx = place e.ringCap e.ringStart := by
      funext i
      exact ringIdx_eq_place (hin.cap_ne hlen) i
    rw [StateEntry.samples, StateEntry.samples, ← hfront, if_pos rfl]
    unfold StateEntry.ringTimeAt StateEntry.ringValueAt
    rw [hidx]

omit [Number N] in
theorem ringReserve_geometry {e e' : StateEntry N} {cap : ℕ} {withTimes : Bool}
    (h : e.ringReserve A cap withTimes = some e') :
    e'.ringTimeWindow = e.ringTimeWindow ∧ e'.ringWindowMs = e.ringWindowMs := by
  unfold StateEntry.ringReserve at h
  split_ifs at h
  all_goals
    cases h
    exact ⟨rfl, rfl⟩

theorem ringPushTime_geometry {e e' : StateEntry N} {x : N} {t : UInt64}
    (h : e.ringPushTime A x t = some e') :
    e'.ringTimeWindow = e.ringTimeWindow ∧ e'.ringWindowMs = e.ringWindowMs := by
  unfold StateEntry.ringPushTime at h
  obtain ⟨e₁, hroom, rfl⟩ := Option.map_eq_some_iff.mp h
  change e₁.ringTimeWindow = _ ∧ e₁.ringWindowMs = _
  split_ifs at hroom
  · exact ringReserve_geometry hroom
  · exact ringReserve_geometry hroom
  · cases hroom
    exact ⟨rfl, rfl⟩

theorem ringPushTime_spec {T : N → List N → List N → Prop} (hT : SumLaw T) {e e' : StateEntry N} {x : N}
    {t : UInt64} {p : List N} (hin : InRing e)
    (hsum : T e.ringSum p (e.samples.map Prod.snd)) (h : e.ringPushTime A x t = some e') :
    e'.samples = e.samples ++ [(t, x)] ∧ InRing e' ∧
      T e'.ringSum (p ++ [x]) (e'.samples.map Prod.snd) := by
  unfold StateEntry.ringPushTime at h
  obtain ⟨e₁, hroom, rfl⟩ := Option.map_eq_some_iff.mp h
  have hready : InRing e₁ ∧ e₁.ringLen < e₁.ringCap ∧ e₁.samples = e.samples ∧
      e₁.ringSum = e.ringSum := by
    by_cases hfull : e.ringLen = e.ringCap
    · rw [if_pos hfull] at hroom
      obtain ⟨hin', hcap, hlen, -, -⟩ := ringReserve_front hin hroom
      refine ⟨hin', ?_, ringReserve_samples hin hroom⟩
      split_ifs at hcap <;> omega
    · rw [if_neg hfull] at hroom
      cases hroom
      exact ⟨hin, lt_of_le_of_ne hin.1 hfull, rfl, rfl⟩
  obtain ⟨hin', hlt, hsamples, hsum'⟩ := hready
  have hpair : (fun i => (Function.update e₁.ringTimes (place e₁.ringCap e₁.ringStart e₁.ringLen) t i,
      Function.update e₁.ringValues (place e₁.ringCap e₁.ringStart e₁.ringLen) x i)) =
      Function.update (fun i => (e₁.ringTimes i, e₁.ringValues i))
        (place e₁.ringCap e₁.ringStart e₁.ringLen) (t, x) := by
    funext i
    by_cases hi : i = place e₁.ringCap e₁.ringStart e₁.ringLen
    · rw [hi, Function.update_self, Function.update_self, Function.update_self]
    · rw [Function.update_of_ne hi, Function.update_of_ne hi, Function.update_of_ne hi]
  have hnew := congrArg (fun f => window f e₁.ringCap e₁.ringStart (e₁.ringLen + 1)) hpair
  replace hnew := hnew.trans ((window_push (t, x) hlt).trans (congrArg (· ++ [(t, x)]) hsamples))
  have hsum'' : T (fadd e₁.ringSum x) (p ++ [x]) ((e.samples ++ [(t, x)]).map Prod.snd) := by
    rw [List.map_append, hsum']
    exact hT.push x hsum
  refine ⟨hnew, ⟨hlt, hin'.2⟩, ?_⟩
  exact Eq.mpr (congrArg (fun l => T (fadd e₁.ringSum x) (p ++ [x]) (l.map Prod.snd)) hnew) hsum''

section Recent

variable {T : N → List N → List N → Prop} {w : Window} {ms now now' : UInt64} {e e' : StateEntry N}
  {pushed : List (UInt64 × N)}

omit [Number N] in
/-- Time passes, and the window starts later. -/
theorem recent_later (hsorted : SortedBy (fun s : UInt64 × N => s.1.toNat) pushed)
    (hnow : now ≤ now') :
    (recent ms now pushed).dropWhile
        (fun s => decide (s.1.toNat < (StateEntry.cutoff now' ms).toNat)) =
      recent ms now' pushed := by
  rw [recent_eq_filter ms now, recent_eq_filter ms now']
  rw [@dropWhile_lt_eq_filter _ _ (fun s : UInt64 × N => s.1.toNat) _ _ (hsorted.filter _)]
  exact @filter_le_filter_le _ _ (fun s : UInt64 × N => s.1.toNat) _ _ _ _ (cutoff_mono hnow ms)

theorem HoldsRecent.evict (hT : SumLaw T) (h : HoldsRecent T w ms now e pushed) (hnow : now ≤ now')
    (hkind : e.kind = .ring) :
    HoldsRecent T w ms now' (e.ringEvictTime (StateEntry.cutoff now' ms)) pushed := by
  obtain ⟨hlist, hsum⟩ :=
    ringEvictLoop_spec hT (StateEntry.cutoff now' ms) e.ringLen le_rfl h.inRing h.sum
  obtain ⟨htime', hwindow⟩ :=
    ringEvictLoop_window (StateEntry.cutoff now' ms) e.ringLen e
  constructor
  · rcases h.slot with ⟨hempty, -⟩ | ⟨-, htime, hms, hzero⟩
    · rw [hkind] at hempty
      cases hempty
    · exact .inr ⟨(sameTimers_ringEvictTime e _).kind.trans hkind, htime'.trans htime,
        hwindow.trans hms, hzero⟩
  · exact ringEvictLoop_inRing _ _ h.inRing
  · exact hlist.trans (h.held ▸ recent_later h.sorted hnow)
  · exact h.sorted
  · intro s hs
    exact UInt64.le_trans (h.past s hs) hnow
  · exact hsum

theorem HoldsRecent.push (hT : SumLaw T) (h : HoldsRecent T w ms now e pushed)
    (hkind : e.kind = .ring) {x : N} (hpush : e.ringPushTime A x now = some e') :
    HoldsRecent T w ms now e' (pushed ++ [(now, x)]) := by
  obtain ⟨hlist, hin, hsum⟩ := ringPushTime_spec hT h.inRing h.sum hpush
  constructor
  · rcases h.slot with ⟨hempty, -⟩ | ⟨-, htime, hms, hzero⟩
    · rw [hkind] at hempty
      cases hempty
    · obtain ⟨htime', hms'⟩ := ringPushTime_geometry hpush
      exact .inr ⟨(sameTimers_ringPushTime hpush).kind.trans hkind, htime'.trans htime,
        hms'.trans hms, hzero⟩
  · exact hin
  · have hnew : recent ms now [(now, x)] = [(now, x)] := by
      apply List.filter_eq_self.mpr
      intro s hs
      rw [List.mem_singleton.mp hs, decide_eq_true_eq]
      dsimp only
      omega
    have happend : recent ms now (pushed ++ [(now, x)]) =
        recent ms now pushed ++ recent ms now [(now, x)] := List.filter_append _ _
    rw [hlist, h.held, happend, hnew]
  · apply sortedBy_concat.mpr
    refine ⟨h.sorted, fun s hs => ?_⟩
    exact UInt64.le_iff_toNat_le.mp (h.past s hs)
  · intro s hs
    rcases List.mem_append.mp hs with hs | hs
    · exact h.past s hs
    · rw [List.mem_singleton.mp hs]
      exact UInt64.le_refl _
  · rw [List.map_append]
    exact hsum

omit [Number N] in
theorem holdsRecent_windowSlot (h : HoldsRecent T w ms now e pushed) (hw : w.timeWindow = true) :
    HoldsRecent T w ms now (windowSlot A w e).1 pushed ∧ (windowSlot A w e).2 = true ∧
      (windowSlot A w e).1.kind = .ring ∧
      (if (windowSlot A w e).1.ringWindowMs = 0 then w.ms else (windowSlot A w e).1.ringWindowMs) =
        ms := by
  unfold windowSlot
  rcases h.slot with ⟨hkind, -, rfl⟩ | ⟨hkind, htime, hms, hzero⟩
  · rw [if_pos hkind, hw]
    dsimp only
    rw [if_pos rfl]
    refine ⟨⟨.inr ⟨rfl, rfl, rfl, id⟩, h.inRing, h.held, h.sorted, h.past, h.sum⟩, rfl, rfl, ?_⟩
    dsimp only
    rw [ite_self]
  · have hne : e.kind ≠ .empty := by
      rw [hkind]
      decide
    rw [if_neg hne, hw, hkind, htime]
    refine ⟨h, rfl, rfl, ?_⟩
    dsimp only
    rw [hms]
    by_cases hms₀ : ms = 0
    · rw [if_pos hms₀, hzero hms₀, hms₀]
    · rw [if_neg hms₀]

theorem holdsRecent_windowSample (hT : SumLaw T) (hw : w.timeWindow = true)
    (h : HoldsRecent T w ms now e pushed) (hnow : now ≤ now') (x : N) :
    HoldsRecent T w ms now' (windowSample A w now' x e).1
      (recorded pushed (now', x) (windowSample A w now' x e).2) := by
  obtain ⟨hslot, hok, hkind, hms⟩ := holdsRecent_windowSlot (A := A) h hw
  unfold windowSample
  generalize windowSlot A w e = r at hslot hok hkind hms ⊢
  obtain ⟨e₁, ok⟩ := r
  dsimp only at hslot hok hkind hms ⊢
  subst hok
  dsimp only
  have hevict := hslot.evict hT hnow hkind
  have hkind' := (sameTimers_ringEvictTime e₁ (StateEntry.cutoff now' ms)).kind.trans hkind
  unfold StateEntry.windowPush
  rw [hw, if_pos rfl]
  dsimp only
  rw [hms]
  split
  · exact hevict
  · rename_i hpush
    exact hevict.push hT hkind' hpush

omit [Number N] in
/-- An empty window stays empty when time passes. -/
theorem HoldsRecent.idle (h : HoldsRecent T w ms now e pushed) (hnow : now ≤ now')
    (hlen : e.ringLen = 0) : HoldsRecent T w ms now' e pushed := by
  refine ⟨h.slot, h.inRing, ?_, h.sorted, fun s hs => UInt64.le_trans (h.past s hs) hnow, h.sum⟩
  rw [← recent_later h.sorted hnow, ← h.held, samples_eq_nil hlen]
  rfl

theorem holdsRecent_tick (hT : SumLaw T) (h : HoldsRecent T w ms now e pushed) (hnow : now ≤ now') :
    HoldsRecent T w ms now' (tickEntry A now' e).entry pushed := by
  have hkind : e.kind ≠ .clock ∧ e.kind ≠ .bar := by
    rcases h.slot with ⟨hkind, -⟩ | ⟨hkind, -⟩
    all_goals
      rw [hkind]
      decide
  have hbar : ∀ {e' : StateEntry N}, e'.kind = e.kind → e'.barTimeTick now' = (e', none) := by
    intro e' hsame
    rw [StateEntry.barTimeTick, if_pos (.inl (hsame ▸ hkind.2))]
  rw [tickEntry, if_neg hkind.1, tickWindow]
  dsimp only
  by_cases hopen : e.kind = .ring ∧ e.ringTimeWindow = true ∧ 0 < e.ringLen
  · rw [if_pos hopen, hbar (sameTimers_ringEvictTime e _).kind]
    have hms : e.ringWindowMs = ms := by
      rcases h.slot with ⟨hempty, -⟩ | ⟨-, -, hms, -⟩
      · rw [hopen.1] at hempty
        cases hempty
      · exact hms
    rw [hms]
    exact h.evict hT hnow hopen.1
  · rw [if_neg hopen, hbar rfl]
    apply h.idle hnow
    rcases h.slot with ⟨-, hlen, -⟩ | ⟨hring, htime, -⟩
    · exact hlen
    · by_contra hlen
      exact hopen ⟨hring, htime, Nat.pos_of_ne_zero hlen⟩

end Recent

/-! ## Runs -/

/-- What happens to the slot of a window. -/
inductive WindowEvent (N : Type) where
  | push (A : EvalAlloc → Bool) (now : UInt64) (x : N)
  | tick (A : EvalAlloc → Bool) (now : UInt64)

omit [Number N] in
def WindowEvent.now : WindowEvent N → UInt64
  | push _ now _ | tick _ now => now

/-- The slot, the samples that were pushed and the time of the last event. -/
structure WindowRun (N : Type) where
  entry : StateEntry N
  pushed : List (UInt64 × N)
  now : UInt64

namespace WindowRun

def step (w : Window) (r : WindowRun N) : WindowEvent N → WindowRun N
  | .push A now x =>
    let (e, ok) := windowSample A w now x r.entry
    ⟨e, recorded r.pushed (now, x) ok, now⟩
  | .tick A now => ⟨(tickEntry A now r.entry).entry, r.pushed, now⟩

def run (w : Window) (r : WindowRun N) (events : List (WindowEvent N)) : WindowRun N :=
  events.foldl (step w) r

/-- A slot that no evaluation has used yet. -/
def fresh (k : StateKey) : WindowRun N := ⟨freshEntry k, [], 0⟩

/-- The samples that belong in the window. -/
def held (w : Window) (r : WindowRun N) : List N :=
  if w.timeWindow then (recent w.ms r.now r.pushed).map Prod.snd
  else (r.pushed.map Prod.snd).rtake w.count

end WindowRun

/-- The window of a run keeps the last `n` samples, or those of the last `ms`. -/
structure Holds (T : N → List N → List N → Prop) (w : Window) (n : ℕ) (ms : UInt64)
    (r : WindowRun N) : Prop where
  last : w.timeWindow = false → HoldsLast T w.count n r.entry (r.pushed.map Prod.snd)
  recent : w.timeWindow = true → HoldsRecent T w ms r.now r.entry r.pushed

section Runs

variable {T : N → List N → List N → Prop} {w : Window} {n : ℕ} {ms : UInt64} {r : WindowRun N}

omit [Number N] in
theorem recorded_map (pushed : List (UInt64 × N)) (now : UInt64) (x : N) (ok : Bool) :
    (recorded pushed (now, x) ok).map Prod.snd = recorded (pushed.map Prod.snd) x ok := by
  cases ok with
  | false => rfl
  | true => exact List.map_append

theorem holds_step (hT : SumLaw T) (hn : w.timeWindow = false → 0 < n) (h : Holds T w n ms r)
    (event : WindowEvent N) (hnow : w.timeWindow = true → r.now ≤ event.now) :
    Holds T w n ms (r.step w event) := by
  cases event with
  | push A now x =>
    constructor
    · intro hw
      have hpush := holdsLast_windowSample (A := A) hT (hn hw) hw (h.last hw) now x
      rw [← recorded_map _ now] at hpush
      exact hpush
    · intro hw
      exact holdsRecent_windowSample hT hw (h.recent hw) (hnow hw) x
  | tick A now =>
    constructor
    · intro hw
      have hsame := tickEntry_last (A := A) (h.last hw) now
      change HoldsLast T w.count n (tickEntry A now r.entry).entry _
      rw [hsame]
      exact h.last hw
    · intro hw
      exact holdsRecent_tick hT (h.recent hw) (hnow hw)

/-- Every run keeps what its window holds. -/
theorem holds_run (hT : SumLaw T) (hn : w.timeWindow = false → 0 < n) (h : Holds T w n ms r)
    {events : List (WindowEvent N)}
    (htimes : w.timeWindow = true → (r.now :: events.map WindowEvent.now).Pairwise (· ≤ ·)) :
    Holds T w n ms (r.run w events) := by
  induction events generalizing r with
  | nil => exact h
  | cons event events ih =>
    apply ih
    · apply holds_step hT hn h
      intro hw
      exact List.rel_of_pairwise_cons (htimes hw) List.mem_cons_self
    · intro hw
      have hnow : (r.step w event).now = event.now := by
        cases event <;> rfl
      rw [hnow]
      exact (htimes hw).of_cons

theorem holds_fresh (hT : SumLaw T) (w : Window) (k : StateKey) :
    Holds T w w.count w.ms (WindowRun.fresh k) := by
  have hin : InRing (freshEntry k : StateEntry N) := ⟨le_rfl, fun h => absurd rfl h⟩
  constructor
  · intro _
    exact ⟨.inl ⟨rfl, rfl⟩, hin, .inr ⟨rfl, rfl, rfl⟩, (List.rtake_nil _).symm, hT.empty⟩
  · intro _
    exact ⟨.inl ⟨rfl, rfl, rfl⟩, hin, rfl, List.Pairwise.nil, by simp [WindowRun.fresh], hT.empty⟩

theorem times_fresh (k : StateKey) {events : List (WindowEvent N)}
    (htimes : (events.map WindowEvent.now).Pairwise (· ≤ ·)) :
    ((WindowRun.fresh k : WindowRun N).now :: events.map WindowEvent.now).Pairwise (· ≤ ·) := by
  apply List.Pairwise.cons _ htimes
  intro t _
  exact UInt64.zero_le

omit [Number N] in
/-- The contents of the slot of a run that started without samples. -/
theorem holds_contents (h : Holds T w w.count w.ms r) :
    r.entry.ringList = r.held w ∧ T r.entry.ringSum (r.pushed.map Prod.snd) r.entry.ringList := by
  unfold WindowRun.held
  cases hw : w.timeWindow with
  | false =>
    have hlast := h.last hw
    exact ⟨hlast.values, hlast.sum⟩
  | true =>
    have hrecent := h.recent hw
    rw [if_pos rfl, ringList_eq_samples hrecent.inRing, hrecent.held]
    refine ⟨rfl, ?_⟩
    rw [← hrecent.held]
    exact hrecent.sum

/-! ## Pushes that find memory -/

def WindowEvent.sample : WindowEvent N → Option (UInt64 × N)
  | .push _ now x => some (now, x)
  | .tick _ _ => none

def WindowEvent.HasMemory : WindowEvent N → Prop
  | .push A _ _ | .tick A _ => ∀ site, A site = true

omit [Number N] in
theorem ringReserve_isSome (hA : ∀ site, A site = true) (e : StateEntry N) (cap : ℕ)
    (withTimes : Bool) : ∃ e', e.ringReserve A cap withTimes = some e' := by
  unfold StateEntry.ringReserve
  by_cases hle : cap ≤ e.ringCap
  · exact ⟨e, if_pos hle⟩
  · have hfound : ¬(!A .ringValues || (withTimes && !A .ringTimes)) = true := by
      rw [hA, hA, Bool.not_true, Bool.and_false, Bool.or_false]
      exact Bool.false_ne_true
    rw [if_neg hle, if_neg hfound]
    exact ⟨_, rfl⟩

omit [Number N] in
theorem windowSlot_ok (hA : ∀ site, A site = true) {w : Window} {e : StateEntry N}
    (h : e.kind = .empty ∨ e.kind = .ring ∧ e.ringTimeWindow = w.timeWindow) :
    (windowSlot A w e).2 = true := by
  unfold windowSlot
  rcases h with hkind | ⟨hkind, htime⟩
  · rw [if_pos hkind]
    dsimp only
    split_ifs with hw
    · rfl
    · obtain ⟨e', he'⟩ := ringReserve_isSome hA
        { e with kind := .ring, ringTimeWindow := w.timeWindow, ringWindowMs := w.ms } w.count false
      rw [he']
  · have hne : e.kind ≠ .empty := by
      rw [hkind]
      decide
    rw [if_neg hne, hkind, htime, beq_self_eq_true, Bool.and_true]
    rfl

theorem windowPush_ok (hA : ∀ site, A site = true) (e : StateEntry N) (timeWindow : Bool)
    (count : ℕ) (ms now : UInt64) (x : N) : (e.windowPush A timeWindow count ms now x).2 = true := by
  have hpush : ∀ e : StateEntry N, ∃ e', e.ringPushTime A x now = some e' := by
    intro e
    unfold StateEntry.ringPushTime
    dsimp only
    split
    · obtain ⟨e', he'⟩ := ringReserve_isSome hA e (if e.ringCap = 0 then 16 else e.ringCap * 2) true
      rw [he']
      exact ⟨_, rfl⟩
    · exact ⟨_, rfl⟩
  unfold StateEntry.windowPush
  cases timeWindow with
  | true =>
    obtain ⟨e', he'⟩ := hpush (e.ringEvictTime
      (StateEntry.cutoff now (if e.ringWindowMs = 0 then ms else e.ringWindowMs)))
    dsimp only
    rw [if_pos rfl, he']
  | false =>
    rw [if_neg Bool.false_ne_true]
    split_ifs
    · obtain ⟨e', he'⟩ := ringReserve_isSome hA e count false
      rw [he']
    · rfl

theorem windowSample_ok (hA : ∀ site, A site = true) {e : StateEntry N}
    (h : e.kind = .empty ∨ e.kind = .ring ∧ e.ringTimeWindow = w.timeWindow) (now : UInt64) (x : N) :
    (windowSample A w now x e).2 = true := by
  have hslot := windowSlot_ok hA h
  unfold windowSample
  generalize windowSlot A w e = s at hslot ⊢
  obtain ⟨e₁, ok⟩ := s
  cases hslot
  exact windowPush_ok hA e₁ _ _ _ now x

/-- With memory for every push no sample is lost. -/
theorem pushed_run (hT : SumLaw T) (hn : w.timeWindow = false → 0 < n) (h : Holds T w n ms r)
    {events : List (WindowEvent N)}
    (htimes : w.timeWindow = true → (r.now :: events.map WindowEvent.now).Pairwise (· ≤ ·))
    (hA : ∀ event ∈ events, event.HasMemory) :
    (r.run w events).pushed = r.pushed ++ events.filterMap WindowEvent.sample := by
  induction events generalizing r with
  | nil => exact (List.append_nil _).symm
  | cons event events ih =>
    have hstep := @holds_run _ _ _ _ _ _ _ hT hn h [event] fun hw =>
      (htimes hw).sublist (List.Sublist.cons_cons _ (List.Sublist.cons_cons _ (List.nil_sublist _)))
    have hrest := ih (r := r.step w event) hstep
      (by
        intro hw
        have hnow : (r.step w event).now = event.now := by
          cases event <;> rfl
        rw [hnow]
        exact (htimes hw).of_cons)
      (fun event' hevent => hA event' (List.mem_cons_of_mem _ hevent))
    change ((r.step w event).run w events).pushed = _
    rw [hrest]
    cases event with
    | tick A now => rfl
    | push A now x =>
      have hslot : r.entry.kind = .empty ∨
          r.entry.kind = .ring ∧ r.entry.ringTimeWindow = w.timeWindow := by
        cases hw : w.timeWindow with
        | false => exact (h.last hw).slot.imp And.left id
        | true => exact (h.recent hw).slot.imp And.left fun hring => ⟨hring.1, hring.2.1⟩
      have hok := windowSample_ok (hA _ List.mem_cons_self) hslot now x
      change recorded r.pushed (now, x) (windowSample A w now x r.entry).2 ++ _ = _
      rw [hok]
      exact List.append_assoc _ [(now, x)] _

end Runs

end Ops

end Monoblok.Patchbay
