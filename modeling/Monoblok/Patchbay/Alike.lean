import Monoblok.Patchbay.Lookup
import Monoblok.Patchbay.Sizes

/-!
# Slots alike

Two slots that differ only in what no form can see: in the fields that do not
belong to their kind, and in where the samples of a ring lie in its arrays. Each
form and each tick does the same to both and leaves them alike.
-/

namespace Monoblok.Patchbay

open Number

variable {N : Type}

section Contents

variable [Number N]

/-! ## Rings -/

/-- The samples that stay when those from before the cutoff go, and their sum. -/
def evictSamples (cutoff : UInt64) : List (UInt64 × N) → N → List (UInt64 × N) × N
  | [], sum => ([], sum)
  | s :: rest, sum =>
    if cutoff ≤ s.1 then (s :: rest, sum) else evictSamples cutoff rest (fsub sum s.2)

/-- The loop goes by the samples alone. -/
theorem ringEvictLoop_samples (cutoff : UInt64) (n : ℕ) {e : StateEntry N} (hn : e.ringLen ≤ n)
    (hin : InRing e) :
    ((StateEntry.ringEvictLoop cutoff n e).samples, (StateEntry.ringEvictLoop cutoff n e).ringSum) =
      evictSamples cutoff e.samples e.ringSum := by
  induction n generalizing e with
  | zero =>
    change (e.samples, e.ringSum) = _
    rw [samples_eq_nil (Nat.le_zero.mp hn)]
    rfl
  | succ n ih =>
    unfold StateEntry.ringEvictLoop
    by_cases hlen : e.ringLen = 0
    · rw [if_pos (.inl hlen), samples_eq_nil hlen]
      rfl
    · have hfront := samples_front hin hlen (fsub e.ringSum (e.ringValues e.ringStart))
      rw [hfront, evictSamples]
      by_cases hfresh : cutoff ≤ e.ringTimes e.ringStart
      · rw [if_pos (.inr hfresh), if_pos hfresh, hfront]
      · have hin' : InRing { e with
            ringSum := fsub e.ringSum (e.ringValues e.ringStart)
            ringStart := (e.ringStart + 1) % e.ringCap
            ringLen := e.ringLen - 1 } :=
          ⟨le_trans (Nat.sub_le _ _) hin.1, fun hcap => Nat.mod_lt _ (Nat.pos_of_ne_zero hcap)⟩
        have hstale : ¬(e.ringLen = 0 ∨ cutoff ≤ e.ringTimes e.ringStart) := by
          rintro (h | h)
          · exact hlen h
          · exact hfresh h
        rw [if_neg hstale, if_neg hfresh]
        exact ih (by dsimp only; omega) hin'

/-- Rings with the same samples and the same sum. -/
structure SameRing (e e' : StateEntry N) : Prop where
  inRing : InRing e
  inRing' : InRing e'
  timeWindow : e'.ringTimeWindow = e.ringTimeWindow
  windowMs : e.ringTimeWindow = true → e'.ringWindowMs = e.ringWindowMs
  values : e'.ringList = e.ringList
  sum : e'.ringSum = e.ringSum
  samples : e.ringTimeWindow = true → e'.samples = e.samples
  cap : e.ringTimeWindow = false → e.ringCap ≠ 0 ∧ e'.ringCap = e.ringCap

namespace SameRing

variable {e e' e₁ e₁' : StateEntry N} {A : EvalAlloc → Bool}

omit [Number N] in
theorem len (h : SameRing e e') : e'.ringLen = e.ringLen := by
  rw [← length_ringList e', h.values, length_ringList]

omit [Number N] in
/-- Rings over time are alike if their samples and sums are. -/
theorem of_samples (hin : InRing e) (hin' : InRing e') (htime : e.ringTimeWindow = true)
    (htime' : e'.ringTimeWindow = true) (hms : e'.ringWindowMs = e.ringWindowMs)
    (hsamples : e'.samples = e.samples) (hsum : e'.ringSum = e.ringSum) : SameRing e e' where
  inRing := hin
  inRing' := hin'
  timeWindow := htime'.trans htime.symm
  windowMs _ := hms
  values := by rw [ringList_eq_samples hin', hsamples, ringList_eq_samples hin]
  sum := hsum
  samples := fun _ => hsamples
  cap := fun h => by simp [htime] at h

theorem evict (h : SameRing e e') (htime : e.ringTimeWindow = true) (cutoff : UInt64) :
    SameRing (e.ringEvictTime cutoff) (e'.ringEvictTime cutoff) := by
  obtain ⟨hkeep, hms⟩ := ringEvictLoop_window cutoff e.ringLen e
  obtain ⟨hkeep', hms'⟩ := ringEvictLoop_window cutoff e'.ringLen e'
  have hview := ringEvictLoop_samples cutoff e.ringLen le_rfl h.inRing
  have hview' := ringEvictLoop_samples cutoff e'.ringLen le_rfl h.inRing'
  rw [h.samples htime, h.sum, ← hview, Prod.mk.injEq] at hview'
  apply of_samples
  · exact ringEvictLoop_inRing _ _ h.inRing
  · exact ringEvictLoop_inRing _ _ h.inRing'
  · exact hkeep.trans htime
  · exact hkeep'.trans (h.timeWindow.trans htime)
  · exact hms'.trans ((h.windowMs htime).trans hms.symm)
  · exact hview'.1
  · exact hview'.2

omit [Number N] in
theorem sum_ringReserve {cap : ℕ} {withTimes : Bool} (h : e.ringReserve A cap withTimes = some e₁) :
    e₁.ringSum = e.ringSum := by
  unfold StateEntry.ringReserve at h
  split_ifs at h
  all_goals
    cases h
    rfl

theorem sum_ringPushTime {x : N} {t : UInt64} (h : e.ringPushTime A x t = some e₁) :
    e₁.ringSum = fadd e.ringSum x := by
  unfold StateEntry.ringPushTime at h
  obtain ⟨e₂, hroom, rfl⟩ := Option.map_eq_some_iff.mp h
  have hsum : e₂.ringSum = e.ringSum := by
    split_ifs at hroom
    · exact sum_ringReserve hroom
    · exact sum_ringReserve hroom
    · cases hroom
      rfl
  exact congrArg (fadd · x) hsum

theorem pushTime (h : SameRing e e') (htime : e.ringTimeWindow = true) {x : N} {t : UInt64}
    (hpush : e.ringPushTime A x t = some e₁) (hpush' : e'.ringPushTime A x t = some e₁') :
    SameRing e₁ e₁' := by
  obtain ⟨hlist, hin, -⟩ := @ringPushTime_spec _ _ _ _ sumLaw_true _ _ _ _ [] h.inRing trivial hpush
  obtain ⟨hlist', hin', -⟩ :=
    @ringPushTime_spec _ _ _ _ sumLaw_true _ _ _ _ [] h.inRing' trivial hpush'
  obtain ⟨hkeep, hms⟩ := ringPushTime_geometry hpush
  obtain ⟨hkeep', hms'⟩ := ringPushTime_geometry hpush'
  apply of_samples hin hin'
  · exact hkeep.trans htime
  · exact hkeep'.trans (h.timeWindow.trans htime)
  · exact hms'.trans ((h.windowMs htime).trans hms.symm)
  · rw [hlist', hlist, h.samples htime]
  · rw [sum_ringPushTime hpush', sum_ringPushTime hpush, h.sum]

/-- The sum after one more sample, which takes the place of the oldest in a full
ring. -/
theorem sum_ringPushCount (hin : InRing e) (hcap : e.ringCap ≠ 0) (x : N) :
    (e.ringPushCount x).ringSum =
      if e.ringList.length < e.ringCap then fadd e.ringSum x
      else fadd (fsub e.ringSum (e.ringList.headD (ofNat 0))) x := by
  unfold StateEntry.ringPushCount
  rw [length_ringList]
  split_ifs with hroom
  · rfl
  · have hlen : e.ringLen ≠ 0 := by
      have := hin.1
      omega
    have hfront := samples_front hin hlen e.ringSum
    rw [ringList_eq_samples hin, hfront]
    rfl

theorem pushCount (h : SameRing e e') (htime : e.ringTimeWindow = false) (x : N) :
    SameRing (e.ringPushCount x) (e'.ringPushCount x) := by
  obtain ⟨hcap, hcap'⟩ := h.cap htime
  have hzero' : e'.ringCap ≠ 0 := by rwa [hcap']
  obtain ⟨hin, hkept, hlist, -⟩ :=
    @ringPushCount_spec _ _ _ sumLaw_true e [] x h.inRing hcap trivial
  obtain ⟨hin', hkept', hlist', -⟩ :=
    @ringPushCount_spec _ _ _ sumLaw_true e' [] x h.inRing' hzero' trivial
  have hsame := ringPushCount_timeWindow (e := e) x
  have hsame' := ringPushCount_timeWindow (e := e') x
  constructor
  · exact hin
  · exact hin'
  · rw [hsame', hsame, h.timeWindow]
  · intro htime'
    rw [hsame, htime] at htime'
    cases htime'
  · rw [hlist', hlist, h.values, hcap']
  · rw [sum_ringPushCount h.inRing' hzero', sum_ringPushCount h.inRing hcap, h.values, h.sum, hcap']
  · intro htime'
    rw [hsame, htime] at htime'
    cases htime'
  · intro _
    rw [hkept', hkept]
    exact ⟨hcap, hcap'⟩

/-! ### What is read of a ring -/

omit [Number N] in
theorem first (h : SameRing e e') (hlen : e.ringLen ≠ 0) : e'.ringValueAt 0 = e.ringValueAt 0 := by
  have hhead : ∀ {e : StateEntry N}, e.ringLen ≠ 0 → e.ringList.head? = some (e.ringValueAt 0) := by
    intro e hlen
    obtain ⟨n, hn⟩ := Nat.exists_eq_succ_of_ne_zero hlen
    rw [StateEntry.ringList, hn, List.range_succ_eq_map]
    rfl
  have hfirst := hhead hlen
  have hfirst' : e'.ringList.head? = some (e'.ringValueAt 0) := by
    apply hhead
    rwa [h.len]
  rw [h.values, hfirst] at hfirst'
  exact (Option.some.inj hfirst').symm

theorem calcRing (h : SameRing e e') (what : StateEntry.WindowCalc) :
    e'.calcRing what = e.calcRing what := by
  unfold StateEntry.calcRing
  rw [h.len]
  by_cases hlen : e.ringLen = 0
  · rw [if_pos hlen, if_pos hlen]
  · rw [if_neg hlen, if_neg hlen]
    unfold StateEntry.ringVariance StateEntry.ringMean
    rw [h.len, h.sum, h.values, h.first hlen]

theorem percentileResult (h : SameRing e e') (p : N) :
    Patchbay.percentileResult A p e' = Patchbay.percentileResult A p e := by
  unfold Patchbay.percentileResult quantile
  rw [h.len, h.values]

theorem rateResult (h : SameRing e e') (ms : N) :
    Patchbay.rateResult ms e' = Patchbay.rateResult ms e := by
  unfold Patchbay.rateResult
  rw [h.len]

end SameRing

/-! ## Bars -/

/-- Bars with the same fields; only a bar over time has a window. -/
structure BarAlike (e e' : StateEntry N) : Prop where
  openEq : e'.barOpen = e.barOpen
  high : e'.barHigh = e.barHigh
  low : e'.barLow = e.barLow
  lastClose : e'.barLastClose = e.barLastClose
  count : e'.barCount = e.barCount
  cap : e'.barCap = e.barCap
  windowStart : e'.barWindowStartMs = e.barWindowStartMs
  timeWindow : e'.barTimeWindow = e.barTimeWindow
  windowMs : e.barTimeWindow = true → e'.barWindowMs = e.barWindowMs

namespace BarAlike

variable {e e' : StateEntry N}

omit [Number N] in
theorem openAt (h : BarAlike e e') (x : N) : BarAlike (e.barOpenAt x) (e'.barOpenAt x) :=
  ⟨rfl, rfl, rfl, h.lastClose, rfl, h.cap, h.windowStart, h.timeWindow, h.windowMs⟩

theorem extend (h : BarAlike e e') (x : N) : BarAlike (e.barExtend x) (e'.barExtend x) := by
  constructor
  · exact h.openEq
  · simp [StateEntry.barExtend, h.high]
  · simp [StateEntry.barExtend, h.low]
  · exact h.lastClose
  · simp [StateEntry.barExtend, h.count]
  · exact h.cap
  · exact h.windowStart
  · exact h.timeWindow
  · exact h.windowMs

omit [Number N] in
theorem closed (h : BarAlike e e') : e'.barClosed = e.barClosed := by
  simp [StateEntry.barClosed, h.openEq, h.high, h.low, h.lastClose]

theorem tickUpdate (h : BarAlike e e') (x : N) :
    (e'.barTickUpdate x).2 = (e.barTickUpdate x).2 ∧
      BarAlike (e.barTickUpdate x).1 (e'.barTickUpdate x).1 := by
  have hnext : BarAlike (if e.barCount = 0 then e.barOpenAt x else e.barExtend x)
      (if e'.barCount = 0 then e'.barOpenAt x else e'.barExtend x) := by
    rw [h.count]
    split_ifs
    · exact h.openAt x
    · exact h.extend x
  unfold StateEntry.barTickUpdate
  dsimp only
  generalize (if e.barCount = 0 then e.barOpenAt x else e.barExtend x) = b at hnext ⊢
  generalize (if e'.barCount = 0 then e'.barOpenAt x else e'.barExtend x) = b' at hnext ⊢
  by_cases hroom : b.barCount < b.barCap
  · have hroom' : b'.barCount < b'.barCap := by rwa [hnext.count, hnext.cap]
    rw [if_pos hroom, if_pos hroom']
    exact ⟨rfl, hnext⟩
  · have hroom' : ¬b'.barCount < b'.barCap := by rwa [hnext.count, hnext.cap]
    rw [if_neg hroom, if_neg hroom']
    constructor
    · simp [hnext.openEq, hnext.high, hnext.low]
    · exact ⟨hnext.openEq, hnext.high, hnext.low, hnext.lastClose, rfl, hnext.cap,
        hnext.windowStart, hnext.timeWindow, hnext.windowMs⟩

theorem timeUpdate (h : BarAlike e e') (htime : e.barTimeWindow = true) (now : UInt64) (x : N) :
    (e'.barTimeUpdate now x).2 = (e.barTimeUpdate now x).2 ∧
      BarAlike (e.barTimeUpdate now x).1 (e'.barTimeUpdate now x).1 := by
  have hextend := h.extend x
  have haligned : now / e'.barWindowMs * e'.barWindowMs = now / e.barWindowMs * e.barWindowMs := by
    rw [h.windowMs htime]
  unfold StateEntry.barTimeUpdate
  dsimp only
  rw [haligned]
  by_cases hempty : e.barCount = 0
  · rw [if_pos hempty, if_pos (h.count.trans hempty)]
    exact ⟨rfl, rfl, rfl, rfl, rfl, rfl, h.cap, rfl, h.timeWindow, h.windowMs⟩
  · have hempty' : ¬e'.barCount = 0 := by rwa [h.count]
    rw [if_neg hempty, if_neg hempty']
    by_cases hpast : e.barWindowStartMs ≠ now / e.barWindowMs * e.barWindowMs
    · have hpast' : e'.barWindowStartMs ≠ now / e.barWindowMs * e.barWindowMs := by
        rwa [h.windowStart]
      rw [if_pos hpast, if_pos hpast', h.closed]
      exact ⟨rfl, rfl, rfl, rfl, rfl, rfl, h.cap, rfl, h.timeWindow, h.windowMs⟩
    · have hpast' : ¬e'.barWindowStartMs ≠ now / e.barWindowMs * e.barWindowMs := by
        rwa [h.windowStart]
      rw [if_neg hpast, if_neg hpast']
      exact ⟨rfl, hextend.openEq, hextend.high, hextend.low, rfl, hextend.count, h.cap,
        h.windowStart, h.timeWindow, h.windowMs⟩

omit [Number N] in
theorem timeTick (h : BarAlike e e') (hkind : e'.kind = e.kind) (now : UInt64) :
    (e'.barTimeTick now).2 = (e.barTimeTick now).2 ∧
      BarAlike (e.barTimeTick now).1 (e'.barTimeTick now).1 := by
  unfold StateEntry.barTimeTick
  by_cases hidle : e.kind ≠ .bar ∨ e.barTimeWindow = false ∨ e.barCount = 0
  · have hidle' : e'.kind ≠ .bar ∨ e'.barTimeWindow = false ∨ e'.barCount = 0 := by
      rwa [hkind, h.timeWindow, h.count]
    rw [if_pos hidle, if_pos hidle']
    exact ⟨rfl, h⟩
  · have hidle' : ¬(e'.kind ≠ .bar ∨ e'.barTimeWindow = false ∨ e'.barCount = 0) := by
      rwa [hkind, h.timeWindow, h.count]
    have htime : e.barTimeWindow = true := by
      simp only [not_or, Bool.not_eq_false] at hidle
      exact hidle.2.1
    have hpast : now - e'.barWindowStartMs < e'.barWindowMs ↔
        now - e.barWindowStartMs < e.barWindowMs := by
      rw [h.windowStart, h.windowMs htime]
    rw [if_neg hidle, if_neg hidle', h.closed]
    by_cases hyoung : now - e.barWindowStartMs < e.barWindowMs
    · rw [if_pos hyoung, if_pos (hpast.mpr hyoung)]
      exact ⟨rfl, h⟩
    · rw [if_neg hyoung, if_neg (mt hpast.mp hyoung)]
      exact ⟨rfl, h.openEq, h.high, h.low, h.lastClose, rfl, h.cap, rfl, h.timeWindow, h.windowMs⟩

end BarAlike

theorem key_barUpdate (timeWindow : Bool) (now : UInt64) (x : N) (e : StateEntry N) :
    (if timeWindow then e.barTimeUpdate now x else e.barTickUpdate x).1.key = e.key := by
  unfold StateEntry.barTimeUpdate StateEntry.barTickUpdate StateEntry.barOpenAt StateEntry.barExtend
  dsimp only
  split_ifs <;> rfl

end Contents

/-! ## Slots -/

/-- The contents of two slots of the kind of the first; an empty slot and a clock
are only like themselves. -/
def SameContents (e e' : StateEntry N) : Prop :=
  match e.kind with
  | .empty => False
  | .number => e'.number = e.number
  | .bytes => e'.bytes = e.bytes
  | .ring => SameRing e e'
  | .bar => BarAlike e e'
  | .clock => False

/-- Slots of one key and kind with the same contents, of no clock form. -/
structure SameSlot (e e' : StateEntry N) : Prop where
  key : e'.key = e.key
  kind : e'.kind = e.kind
  op : e.op ∉ clockOps
  idle : e.clockArmed = false
  idle' : e'.clockArmed = false
  contents : SameContents e e'

inductive SlotAlike (e : StateEntry N) : StateEntry N → Prop
  | refl : SlotAlike e e
  | same {e' : StateEntry N} (h : SameSlot e e') : SlotAlike e e'

namespace SameSlot

variable {e e' e₁ e₁' : StateEntry N} {A : EvalAlloc → Bool}

theorem not_empty (h : SameSlot e e') : e.kind ≠ .empty := by
  intro hkind
  have hcontents := h.contents
  rw [SameContents, hkind] at hcontents
  exact hcontents

theorem not_clock (h : SameSlot e e') : e.kind ≠ .clock := by
  intro hkind
  have hcontents := h.contents
  rw [SameContents, hkind] at hcontents
  exact hcontents

theorem number (h : SameSlot e e') (hkind : e.kind = .number) : e'.number = e.number := by
  have hcontents := h.contents
  rwa [SameContents, hkind] at hcontents

theorem bytes (h : SameSlot e e') (hkind : e.kind = .bytes) : e'.bytes = e.bytes := by
  have hcontents := h.contents
  rwa [SameContents, hkind] at hcontents

theorem ring (h : SameSlot e e') (hkind : e.kind = .ring) : SameRing e e' := by
  have hcontents := h.contents
  rwa [SameContents, hkind] at hcontents

theorem bar (h : SameSlot e e') (hkind : e.kind = .bar) : BarAlike e e' := by
  have hcontents := h.contents
  rwa [SameContents, hkind] at hcontents

/-- Steps that keep keys, kinds and clocks of both. -/
theorem step (h : SameSlot e e') (hkey : e₁.key = e.key) (hkey' : e₁'.key = e'.key)
    (htimers : SameTimers e e₁) (htimers' : SameTimers e' e₁') (hcontents : SameContents e₁ e₁') :
    SameSlot e₁ e₁' where
  key := by rw [hkey', h.key, hkey]
  kind := by rw [htimers'.kind, h.kind, htimers.kind]
  op := by
    have hop : e₁.op = e.op := congrArg StateKey.op hkey
    rw [hop]
    exact h.op
  idle := (congrArg Timers.clockArmed htimers.timers).trans h.idle
  idle' := (congrArg Timers.clockArmed htimers'.timers).trans h.idle'
  contents := hcontents

theorem ofRing (hkind : e.kind = .ring) (h : SameRing e e') : SameContents e e' := by
  rw [SameContents, hkind]
  exact h

theorem setNumber (h : SameSlot e e') (n : N) : SameSlot (e.setNumber n) (e'.setNumber n) :=
  ⟨h.key, rfl, h.op, h.idle, h.idle', rfl⟩

end SameSlot

/-! ## Forms -/

/-- The same result, and slots alike. -/
def AlikeStep {α : Type} (r r' : SlotStep N α) : Prop :=
  r'.result = r.result ∧ SlotAlike r.entry r'.entry

section Forms

variable [Number N] {e e' : StateEntry N} {A : EvalAlloc → Bool} {now : UInt64}

omit [Number N] in
theorem SameSlot.alike_setNumber (h : SameSlot e e') {α : Type} (n : N) (s s' : Bool)
    (r : Except EvalError α) : AlikeStep ⟨e.setNumber n, s, r⟩ ⟨e'.setNumber n, s', r⟩ :=
  ⟨rfl, .same (h.setNumber n)⟩

omit [Number N] in
theorem SameSlot.alike_kept (h : SameSlot e e') {α : Type} (s s' : Bool) (r : Except EvalError α) :
    AlikeStep ⟨e, s, r⟩ ⟨e', s', r⟩ :=
  ⟨rfl, .same h⟩

theorem SameSlot.statefulChanged (h : SameSlot e e') (v : Value N) (boolMode : Bool) :
    AlikeStep (statefulChanged A v boolMode e) (statefulChanged A v boolMode e') := by
  have hbytes : ∀ bytes : Bytes, (e'.kind != .bytes || e'.bytes != bytes) =
      (e.kind != .bytes || e.bytes != bytes) := by
    intro bytes
    by_cases hkind : e.kind = .bytes
    · rw [h.kind, h.bytes hkind]
    · have hne : (e.kind != .bytes) = true := bne_iff_ne.mpr hkind
      simp [h.kind, hne]
  have hnumber : ∀ n : N, (e'.kind != .number || !feq e'.number n) =
      (e.kind != .number || !feq e.number n) := by
    intro n
    by_cases hkind : e.kind = .number
    · rw [h.kind, h.number hkind]
    · have hne : (e.kind != .number) = true := bne_iff_ne.mpr hkind
      simp [h.kind, hne]
  unfold Patchbay.statefulChanged
  split
  · rename_i n
    rw [hnumber]
    exact h.alike_setNumber n _ _ _
  · split
    · exact h.alike_kept _ _ _
    · rename_i bytes _
      rw [hbytes]
      split_ifs
      · unfold StateEntry.setBytes
        split_ifs
        · exact ⟨rfl, .same ⟨h.key, rfl, h.op, h.idle, h.idle', rfl⟩⟩
        · exact h.alike_kept _ _ _
      · exact h.alike_kept _ _ _

theorem SameSlot.holdOff (h : SameSlot e e') (windowMs : N) (v : Value N) :
    AlikeStep (holdOff now windowMs v e) (holdOff now windowMs v e') := by
  unfold Patchbay.holdOff
  rw [h.kind]
  cases hkind : e.kind with
  | empty => exact absurd hkind h.not_empty
  | number =>
    rw [h.number hkind]
    dsimp only
    split_ifs
    · exact h.alike_kept _ _ _
    · exact h.alike_setNumber _ _ _ _
  | _ => exact h.alike_kept _ _ _

theorem SameSlot.levelChange (h : SameSlot e e') (cur : Bool) :
    AlikeStep (levelChange cur e) (levelChange cur e') := by
  unfold Patchbay.levelChange
  rw [h.kind]
  cases hkind : e.kind with
  | empty => exact absurd hkind h.not_empty
  | number =>
    rw [h.number hkind]
    exact h.alike_setNumber _ _ _ _
  | _ => exact h.alike_kept _ _ _

theorem SameSlot.edge (h : SameSlot e e') (rising cur : Bool) :
    AlikeStep (edge rising cur e) (edge rising cur e') := by
  unfold Patchbay.edge
  rw [h.kind]
  cases hkind : e.kind with
  | empty => exact absurd hkind h.not_empty
  | number =>
    rw [h.number hkind]
    exact h.alike_setNumber _ _ _ _
  | _ => exact h.alike_kept _ _ _

theorem SameSlot.deadband (h : SameSlot e e') (threshold x : N) :
    AlikeStep (deadband threshold x e) (deadband threshold x e') := by
  have hpass : (e'.kind != .number || fle threshold (fabs (fsub x e'.number))) =
      (e.kind != .number || fle threshold (fabs (fsub x e.number))) := by
    by_cases hkind : e.kind = .number
    · rw [h.kind, h.number hkind]
    · have hne : (e.kind != .number) = true := bne_iff_ne.mpr hkind
      simp [h.kind, hne]
  unfold Patchbay.deadband
  rw [hpass]
  split_ifs
  · exact h.alike_setNumber _ _ _ _
  · exact h.alike_kept _ _ _

theorem SameSlot.delta (h : SameSlot e e') (x : N) : AlikeStep (delta x e) (delta x e') := by
  have hprev : (if e'.kind = .number then e'.number else x) =
      if e.kind = .number then e.number else x := by
    by_cases hkind : e.kind = .number
    · rw [h.kind, h.number hkind]
    · simp [h.kind, hkind]
  unfold Patchbay.delta
  rw [hprev]
  exact h.alike_setNumber _ _ _ _

theorem SameSlot.countNext (h : SameSlot e e') : AlikeStep (countNext e) (countNext e') := by
  have hlast : (if e'.kind = .number then e'.number else ofNat 0) =
      if e.kind = .number then e.number else ofNat 0 := by
    by_cases hkind : e.kind = .number
    · rw [h.kind, h.number hkind]
    · simp [h.kind, hkind]
  unfold Patchbay.countNext
  rw [hlast]
  exact h.alike_setNumber _ _ _ _

theorem SameSlot.barSample (h : SameSlot e e') (timeWindow : Bool) (count : UInt32)
    (windowMs : UInt64) (x : N) :
    AlikeStep (barSample timeWindow count windowMs now x e)
      (barSample timeWindow count windowMs now x e') := by
  have hempty : ¬e'.kind = .empty := by
    rw [h.kind]
    exact h.not_empty
  unfold Patchbay.barSample
  rw [if_neg h.not_empty, if_neg hempty]
  by_cases hkind : e.kind = .bar
  · have hbar := h.bar hkind
    have hkind' := h.kind.trans hkind
    dsimp only
    rw [hkind, hkind', hbar.timeWindow]
    by_cases htime : e.barTimeWindow ≠ timeWindow
    · rw [if_pos (.inr htime), if_pos (.inr htime)]
      exact h.alike_kept _ _ _
    · have hfits : ¬(StateKind.bar ≠ StateKind.bar ∨ e.barTimeWindow ≠ timeWindow) := by
        rintro (hne | hne)
        · exact hne rfl
        · exact htime hne
      rw [if_neg hfits, if_neg hfits]
      have hnext : (if timeWindow then e'.barTimeUpdate now x else e'.barTickUpdate x).2 =
          (if timeWindow then e.barTimeUpdate now x else e.barTickUpdate x).2 ∧
          BarAlike (if timeWindow then e.barTimeUpdate now x else e.barTickUpdate x).1
            (if timeWindow then e'.barTimeUpdate now x else e'.barTickUpdate x).1 := by
        cases timeWindow with
        | true => exact hbar.timeUpdate (by simpa using htime) now x
        | false => exact hbar.tickUpdate x
      obtain ⟨hkept, -, hidle, -⟩ := barUpdate_spec timeWindow now x e
      obtain ⟨hkept', -, hidle', -⟩ := barUpdate_spec timeWindow now x e'
      have hkey := key_barUpdate timeWindow now x e
      have hkey' := key_barUpdate timeWindow now x e'
      generalize (if timeWindow then e.barTimeUpdate now x else e.barTickUpdate x) = r
        at hnext hkept hidle hkey ⊢
      generalize (if timeWindow then e'.barTimeUpdate now x else e'.barTickUpdate x) = r'
        at hnext hkept' hidle' hkey' ⊢
      obtain ⟨hclose, hbar'⟩ := hnext
      refine ⟨congrArg Except.ok hclose, .same ?_⟩
      constructor
      · rw [hkey', hkey, h.key]
      · rw [hkept', hkept, h.kind]
      · have hop : r.1.op = e.op := congrArg StateKey.op hkey
        rw [hop]
        exact h.op
      · exact hidle.trans h.idle
      · exact hidle'.trans h.idle'
      · rw [SameContents, hkept, hkind]
        exact hbar'
  · rw [if_pos (.inl hkind), if_pos (.inl (by rwa [h.kind]))]
    exact h.alike_kept _ _ _

/-! ### Windows -/

omit [Number N] in
theorem SameSlot.afterRing (h : SameSlot e e') {e₁ e₁' : StateEntry N} (hkind : e.kind = .ring)
    (hheld : e₁.held = e.held) (hheld' : e₁'.held = e'.held) (htimers : SameTimers e e₁)
    (htimers' : SameTimers e' e₁') (hring : SameRing e₁ e₁') : SameSlot e₁ e₁' := by
  apply h.step (StateEntry.key_of_held hheld) (StateEntry.key_of_held hheld') htimers htimers'
  exact SameSlot.ofRing (htimers.kind.trans hkind) hring

omit [Number N] in
/-- The window of a slot that is not empty: the slot as it is, if the window fits. -/
theorem windowSlot_there (w : Window) (hempty : e.kind ≠ .empty) :
    windowSlot A w e = (e, decide (e.kind = .ring) && e.ringTimeWindow == w.timeWindow) := by
  unfold windowSlot
  rw [if_neg hempty]

omit [Number N] in
theorem SameSlot.windowFits (h : SameSlot e e') (w : Window) :
    (decide (e'.kind = .ring) && e'.ringTimeWindow == w.timeWindow) =
      (decide (e.kind = .ring) && e.ringTimeWindow == w.timeWindow) := by
  by_cases hkind : e.kind = .ring
  · rw [h.kind, (h.ring hkind).timeWindow]
  · simp [h.kind, hkind]

/-- With memory a sample goes to both rings over time. -/
theorem SameSlot.pushTime (h : SameSlot e e') (hA : ∀ site, A site = true)
    (hkind : e.kind = .ring) (htime : e.ringTimeWindow = true) (x : N) (t : UInt64) :
    ∃ e₁ e₁', e.ringPushTime A x t = some e₁ ∧ e'.ringPushTime A x t = some e₁' ∧
      SameRing e₁ e₁' ∧ SameSlot e₁ e₁' := by
  obtain ⟨e₁, hpush⟩ := ringPushTime_isSome hA e x t
  obtain ⟨e₁', hpush'⟩ := ringPushTime_isSome hA e' x t
  have hring := (h.ring hkind).pushTime htime hpush hpush'
  exact ⟨e₁, e₁', hpush, hpush', hring, h.afterRing hkind (StateEntry.held_ringPushTime hpush)
    (StateEntry.held_ringPushTime hpush') (sameTimers_ringPushTime hpush)
    (sameTimers_ringPushTime hpush') hring⟩

theorem SameSlot.evict (h : SameSlot e e') (hkind : e.kind = .ring)
    (htime : e.ringTimeWindow = true) (cutoff : UInt64) :
    SameRing (e.ringEvictTime cutoff) (e'.ringEvictTime cutoff) ∧
      SameSlot (e.ringEvictTime cutoff) (e'.ringEvictTime cutoff) := by
  have hring := (h.ring hkind).evict htime cutoff
  exact ⟨hring, h.afterRing hkind (StateEntry.held_ringEvictTime e cutoff)
    (StateEntry.held_ringEvictTime e' cutoff) (sameTimers_ringEvictTime e cutoff)
    (sameTimers_ringEvictTime e' cutoff) hring⟩

theorem SameSlot.pushCount (h : SameSlot e e') (hkind : e.kind = .ring)
    (htime : e.ringTimeWindow = false) (x : N) :
    SameRing (e.ringPushCount x) (e'.ringPushCount x) ∧
      SameSlot (e.ringPushCount x) (e'.ringPushCount x) := by
  have hring := (h.ring hkind).pushCount htime x
  exact ⟨hring, h.afterRing hkind (StateEntry.held_ringPushCount e x)
    (StateEntry.held_ringPushCount e' x) (sameTimers_ringPushCount e x) (sameTimers_ringPushCount e' x) hring⟩

/-- A sample for both slots, or for none. -/
theorem SameSlot.windowSample (h : SameSlot e e') (hA : ∀ site, A site = true) (now : UInt64)
    (w : Window) (x : N) :
    (windowSample A w now x e = (e, false) ∧ windowSample A w now x e' = (e', false)) ∨
      ∃ e₁ e₁', windowSample A w now x e = (e₁, true) ∧ windowSample A w now x e' = (e₁', true) ∧
        SameRing e₁ e₁' ∧ SameSlot e₁ e₁' := by
  have hempty : e'.kind ≠ .empty := by
    rw [h.kind]
    exact h.not_empty
  unfold Patchbay.windowSample
  rw [windowSlot_there w h.not_empty, windowSlot_there w hempty, h.windowFits w]
  cases hfits : decide (e.kind = .ring) && e.ringTimeWindow == w.timeWindow with
  | false => exact .inl ⟨rfl, rfl⟩
  | true =>
    right
    rw [Bool.and_eq_true, decide_eq_true_eq, beq_iff_eq] at hfits
    obtain ⟨hkind, htime⟩ := hfits
    dsimp only
    unfold StateEntry.windowPush
    cases hw : w.timeWindow with
    | true =>
      rw [hw] at htime
      have hring := h.ring hkind
      obtain ⟨-, hstale⟩ := h.evict hkind htime
        (StateEntry.cutoff now (if e.ringWindowMs = 0 then w.ms else e.ringWindowMs))
      have hkeep := (ringEvictLoop_window
        (StateEntry.cutoff now (if e.ringWindowMs = 0 then w.ms else e.ringWindowMs))
        e.ringLen e).1
      obtain ⟨e₁, e₁', hpush, hpush', hring₁, hslot₁⟩ := hstale.pushTime hA
        ((sameTimers_ringEvictTime e _).kind.trans hkind) (hkeep.trans htime) x now
      refine ⟨e₁, e₁', ?_, ?_, hring₁, hslot₁⟩
      · simp only [if_true]
        rw [hpush]
      · simp only [if_true]
        rw [hring.windowMs htime, hpush']
    | false =>
      rw [hw] at htime
      obtain ⟨hcap, hcap'⟩ := (h.ring hkind).cap htime
      have hzero' : e'.ringCap ≠ 0 := by rwa [hcap']
      obtain ⟨hring₁, hslot₁⟩ := h.pushCount hkind htime x
      refine ⟨_, _, ?_, ?_, hring₁, hslot₁⟩
      · simp [hcap]
      · simp [hzero']

theorem SameSlot.windowStep (h : SameSlot e e') (hA : ∀ site, A site = true) (w : Window) (x : N)
    {f : StateEntry N → Except EvalError (Value N)} (hf : ∀ e e', SameRing e e' → f e' = f e) :
    AlikeStep (windowStep A w now x f e) (windowStep A w now x f e') := by
  unfold Patchbay.windowStep
  obtain ⟨hfail, hfail'⟩ | ⟨e₁, e₁', hdone, hdone', hring, hslot⟩ := h.windowSample hA now w x
  · rw [hfail, hfail']
    exact h.alike_kept _ _ _
  · rw [hdone, hdone']
    exact ⟨hf e₁ e₁' hring, .same hslot⟩

theorem SameSlot.throttle (h : SameSlot e e') (hA : ∀ site, A site = true) (w : Window) (max : N)
    (v : Value N) : AlikeStep (throttle A w now max v e) (throttle A w now max v e') := by
  have hempty : e'.kind ≠ .empty := by
    rw [h.kind]
    exact h.not_empty
  unfold Patchbay.throttle
  rw [windowSlot_there w h.not_empty, windowSlot_there w hempty, h.windowFits w]
  cases hfits : decide (e.kind = .ring) && e.ringTimeWindow == w.timeWindow with
  | false => exact h.alike_kept _ _ _
  | true =>
    rw [Bool.and_eq_true, decide_eq_true_eq, beq_iff_eq] at hfits
    obtain ⟨hkind, htime⟩ := hfits
    dsimp only
    cases hw : w.timeWindow with
    | true =>
      rw [hw] at htime
      obtain ⟨hring, hstale⟩ := h.evict hkind htime (StateEntry.cutoff now w.ms)
      have hkeep := (ringEvictLoop_window (StateEntry.cutoff now w.ms) e.ringLen e).1
      obtain ⟨e₁, e₁', hpush, hpush', -, hslot₁⟩ := hstale.pushTime hA
        ((sameTimers_ringEvictTime e _).kind.trans hkind) (hkeep.trans htime) (ofNat 1) now
      simp only [if_true]
      rw [hring.len, hpush, hpush']
      split_ifs
      · exact hstale.alike_kept _ _ _
      · exact ⟨rfl, .same hslot₁⟩
    | false =>
      rw [hw] at htime
      obtain ⟨-, hslot₁⟩ := h.pushCount hkind htime
        (if flt e.ringSum (ofNat (toU64 max).toNat) then ofNat 1 else ofNat 0)
      simp only [Bool.false_eq_true, if_false]
      rw [(h.ring hkind).sum]
      exact ⟨rfl, .same hslot₁⟩

/-! ### Every form and every tick -/

omit [Number N] in
theorem alikeStep_self {α : Type} {f : StateEntry N → SlotStep N α} : AlikeStep (f e) (f e) :=
  ⟨rfl, .refl⟩

/-- A form does the same to slots alike, looked up by its own operation. -/
theorem SlotForm.alike {α : Type} {op : Bytes} {f : StateEntry N → SlotStep N α}
    (hform : SlotForm A now op f) (hA : ∀ site, A site = true) (hop : e.op = op)
    (h : SlotAlike e e') : AlikeStep (f e) (f e') := by
  cases h with
  | refl => exact alikeStep_self
  | same h =>
    have hclock : op ∉ clockOps := hop ▸ h.op
    cases hform with
    | squelch v => exact h.statefulChanged v false
    | changed v => exact h.statefulChanged v true
    | holdOff windowMs v => exact h.holdOff windowMs v
    | risingEdge cur => exact h.edge true cur
    | fallingEdge cur => exact h.edge false cur
    | transition cur => exact h.levelChange cur
    | deadband threshold x => exact h.deadband threshold x
    | delta x => exact h.delta x
    | count => exact h.countNext
    | windowCalc hop hw x what =>
      exact h.windowStep hA _ x fun _ _ hring => congrArg Except.ok (hring.calcRing what)
    | percentile hop hw x p =>
      exact h.windowStep hA _ x fun _ _ hring => hring.percentileResult p
    | rate hms => exact h.windowStep hA _ _ fun _ _ hring => hring.rateResult _
    | throttle hw max v => exact h.throttle hA _ max v
    | bar hargs x => exact h.barSample _ _ _ x
    | debounce hms subject payload => exact absurd (by simp [clockOps]) hclock
    | sample hms subject payload => exact absurd (by simp [clockOps]) hclock
    | aggregate hmetric hms subject x => exact absurd (by simp [clockOps]) hclock
    | onSilence hms payload body => exact absurd (by simp [clockOps]) hclock
    | dropout hms lost found => exact absurd (by simp [clockOps]) hclock

theorem SlotAlike.tickClock (h : SlotAlike e e') : AlikeStep (tickClock A now e) (tickClock A now e') := by
  cases h with
  | refl => exact alikeStep_self
  | same h =>
    unfold Patchbay.tickClock
    simp only [h.idle, h.idle', Bool.not_false, Bool.true_or, if_true]
    exact h.alike_kept _ _ _

omit [Number N] in
theorem barTimeTick_keeps (e : StateEntry N) (now : UInt64) :
    (e.barTimeTick now).1.kind = e.kind ∧ (e.barTimeTick now).1.clockArmed = e.clockArmed := by
  unfold StateEntry.barTimeTick
  split_ifs <;> exact ⟨rfl, rfl⟩

omit [Number N] in
theorem SameSlot.barTimeTick (h : SameSlot e e') (now : UInt64) :
    (e'.barTimeTick now).2 = (e.barTimeTick now).2 ∧
      SameSlot (e.barTimeTick now).1 (e'.barTimeTick now).1 := by
  by_cases hkind : e.kind = .bar
  · obtain ⟨hclose, hbar⟩ := (h.bar hkind).timeTick h.kind now
    obtain ⟨hkept, hidle⟩ := barTimeTick_keeps e now
    obtain ⟨hkept', hidle'⟩ := barTimeTick_keeps e' now
    have hkey := StateEntry.key_of_held (StateEntry.held_barTimeTick e now)
    have hkey' := StateEntry.key_of_held (StateEntry.held_barTimeTick e' now)
    refine ⟨hclose, ?_⟩
    constructor
    · rw [hkey', hkey, h.key]
    · rw [hkept', hkept, h.kind]
    · have hop : (e.barTimeTick now).1.op = e.op := congrArg StateKey.op hkey
      rw [hop]
      exact h.op
    · exact hidle.trans h.idle
    · exact hidle'.trans h.idle'
    · rw [SameContents, hkept, hkind]
      exact hbar
  · have hkind' : e'.kind ≠ .bar := by rwa [h.kind]
    have hkept : e.barTimeTick now = (e, none) := if_pos (.inl hkind)
    have hkept' : e'.barTimeTick now = (e', none) := if_pos (.inl hkind')
    rw [hkept, hkept']
    exact ⟨rfl, h⟩

theorem SlotAlike.tickWindow (h : SlotAlike e e') : AlikeStep (tickWindow now e) (tickWindow now e') := by
  cases h with
  | refl => exact alikeStep_self
  | same h =>
    have hstale : SameSlot
        (if e.kind = .ring ∧ e.ringTimeWindow = true ∧ 0 < e.ringLen then
          e.ringEvictTime (StateEntry.cutoff now e.ringWindowMs) else e)
        (if e'.kind = .ring ∧ e'.ringTimeWindow = true ∧ 0 < e'.ringLen then
          e'.ringEvictTime (StateEntry.cutoff now e'.ringWindowMs) else e') := by
      by_cases hkind : e.kind = .ring
      · have hring := h.ring hkind
        rw [h.kind, hring.timeWindow, hring.len]
        split_ifs with hold
        · rw [hring.windowMs hold.2.1]
          exact (h.evict hkind hold.2.1 _).2
        · exact h
      · have hkind' : e'.kind ≠ .ring := by rwa [h.kind]
        rw [if_neg fun hold => hkind hold.1, if_neg fun hold => hkind' hold.1]
        exact h
    obtain ⟨hclose, hslot⟩ := hstale.barTimeTick now
    exact ⟨congrArg Except.ok hclose, .same hslot⟩

end Forms

/-! ## What a sweep reads -/

section Sweeps

variable {e e' : StateEntry N}

theorem SlotAlike.key (h : SlotAlike e e') : e'.key = e.key := by
  cases h with
  | refl => rfl
  | same h => exact h.key

theorem SlotAlike.kind (h : SlotAlike e e') : e'.kind = e.kind := by
  cases h with
  | refl => rfl
  | same h => exact h.kind

/-- The time of the oldest sample. -/
theorem SameRing.oldest (h : SameRing e e') (htime : e.ringTimeWindow = true)
    (hlen : 0 < e.ringLen) : e'.ringTimes e'.ringStart = e.ringTimes e.ringStart := by
  have hhead : ∀ {e : StateEntry N}, InRing e → 0 < e.ringLen →
      e.samples.head?.map Prod.fst = some (e.ringTimes e.ringStart) := by
    intro e hin hlen
    rw [samples_front hin hlen.ne' e.ringSum]
    rfl
  have hfirst := hhead h.inRing hlen
  have hfirst' := hhead h.inRing' (h.len ▸ hlen)
  rw [h.samples htime, hfirst] at hfirst'
  exact (Option.some.inj hfirst').symm

theorem SlotAlike.entryDeadline (h : SlotAlike e e') : entryDeadline e' = entryDeadline e := by
  cases h with
  | refl => rfl
  | same h =>
    unfold Patchbay.entryDeadline
    rw [h.kind]
    cases hkind : e.kind with
    | ring =>
      have hring := h.ring hkind
      rw [hring.timeWindow, hring.len]
      by_cases hold : StateKind.ring = .ring ∧ e.ringTimeWindow = true ∧ 0 < e.ringLen
      · rw [if_pos hold, if_pos hold, hring.oldest hold.2.1 hold.2.2, hring.windowMs hold.2.1]
      · rw [if_neg hold, if_neg hold]
        simp
    | bar =>
      have hbar := h.bar hkind
      rw [hbar.timeWindow, hbar.count, hbar.windowStart]
      by_cases htime : e.barTimeWindow = true
      · rw [hbar.windowMs htime]
        simp
      · simp [htime]
    | clock => exact absurd hkind h.not_clock
    | _ => simp

end Sweeps

end Monoblok.Patchbay
