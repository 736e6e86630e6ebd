import Monoblok.Patchbay.Extended
import Monoblok.Patchbay.Linked
import Monoblok.Snapshot.Restored

/-!
# Rings without room

A slot becomes a ring before its arrays are there, and a ring without room can come
back from a snapshot. The operations below stop where the code would take a remainder
by a capacity of zero or write to an array of no places. Where they do not stop they
are the operations of the forms.
-/

namespace Monoblok.Patchbay

open Number

variable {N : Type}

/-! ## Checked operations -/

namespace Checked

/-- A place in the ring, which needs a capacity. -/
def ringPlace (e : StateEntry N) (i : ℕ) : Option ℕ :=
  if e.ringCap = 0 then none else some (i % e.ringCap)

variable [Number N]

def ringPushCount (e : StateEntry N) (x : N) : Option (StateEntry N) :=
  if e.ringLen < e.ringCap then do
    let idx ← ringPlace e (e.ringStart + e.ringLen)
    some { e with
      ringValues := Function.update e.ringValues idx x
      ringLen := e.ringLen + 1
      ringSum := fadd e.ringSum x }
  else do
    let next ← ringPlace e (e.ringStart + 1)
    some { e with
      ringValues := Function.update e.ringValues e.ringStart x
      ringSum := fadd (fsub e.ringSum (e.ringValues e.ringStart)) x
      ringStart := next }

def ringEvictLoop (cutoff : UInt64) : ℕ → StateEntry N → Option (StateEntry N)
  | 0, e => some e
  | n + 1, e =>
    if e.ringLen = 0 ∨ cutoff ≤ e.ringTimes e.ringStart then some e
    else do
      let next ← ringPlace e (e.ringStart + 1)
      ringEvictLoop cutoff n
        { e with
          ringSum := fsub e.ringSum (e.ringValues e.ringStart)
          ringStart := next
          ringLen := e.ringLen - 1 }

def ringEvictTime (e : StateEntry N) (cutoff : UInt64) : Option (StateEntry N) :=
  ringEvictLoop cutoff e.ringLen e

def ringPushTime (A : EvalAlloc → Bool) (e : StateEntry N) (x : N) (t : UInt64) :
    Option (Option (StateEntry N)) :=
  let room :=
    if e.ringLen = e.ringCap then
      e.ringReserve A (if e.ringCap = 0 then 16 else e.ringCap * 2) true
    else some e
  match room with
  | none => some none
  | some e => do
    let idx ← ringPlace e (e.ringStart + e.ringLen)
    some (some { e with
      ringValues := Function.update e.ringValues idx x
      ringTimes := Function.update e.ringTimes idx t
      ringLen := e.ringLen + 1
      ringSum := fadd e.ringSum x })

def windowPush (A : EvalAlloc → Bool) (e : StateEntry N) (timeWindow : Bool) (count : ℕ)
    (ms now : UInt64) (x : N) : Option (StateEntry N × Bool) :=
  if timeWindow then do
    let configured := if e.ringWindowMs = 0 then ms else e.ringWindowMs
    let e ← ringEvictTime e (StateEntry.cutoff now configured)
    match ← ringPushTime A e x now with
    | none => some (e, false)
    | some e => some (e, true)
  else
    match if e.ringCap = 0 then e.ringReserve A count false else some e with
    | none => some (e, false)
    | some e => (ringPushCount e x).map fun e => (e, true)

def windowSample (A : EvalAlloc → Bool) (w : Window) (now : UInt64) (x : N)
    (e : StateEntry N) : Option (StateEntry N × Bool) :=
  match windowSlot A w e with
  | (e, false) => some (e, false)
  | (e, true) => windowPush A e w.timeWindow w.count w.ms now x

def windowStep (A : EvalAlloc → Bool) (w : Window) (now : UInt64) (x : N)
    (f : StateEntry N → Except EvalError (Value N)) (e : StateEntry N) :
    Option (SlotStep N (Value N)) :=
  (windowSample A w now x e).map fun r =>
    if r.2 then ⟨r.1, false, f r.1⟩ else .fail r.1 .oom

def throttle (A : EvalAlloc → Bool) (w : Window) (now : UInt64) (max : N) (v : Value N)
    (e : StateEntry N) : Option (SlotStep N (Value N)) :=
  match windowSlot A w e with
  | (e, false) => some (.fail e .oom)
  | (e, true) =>
    if w.timeWindow then do
      let e ← ringEvictTime e (StateEntry.cutoff now w.ms)
      if (toU64 max).toNat ≤ e.ringLen then some (.suppress e .nil)
      else
        match ← ringPushTime A e (ofNat 1) now with
        | none => some (.fail e .oom)
        | some e => some (.done e v)
    else do
      let pass := flt e.ringSum (ofNat (toU64 max).toNat)
      let e ← ringPushCount e (if pass then ofNat 1 else ofNat 0)
      some ⟨e, !pass, .ok (if pass then v else .nil)⟩

def aggregateSample (A : EvalAlloc → Bool) (metric : MetricKind) (ms now : UInt64)
    (subject : Bytes) (x : N) (e : StateEntry N) : Option (SlotStep N (Value N)) :=
  let e :=
    if e.kind = .empty then
      { e with
        clockKind := .aggregate
        clockIntervalMs := ms
        clockDeadlineMs := now + ms
        clockArmed := true }
    else e
  let e := { e with metricKind := metric }
  match e.setEmitSubject A subject with
  | none => some (.fail e .oom)
  | some e => do
    match ← ringPushTime A e x now with
    | none => some (.fail e .oom)
    | some e => some (.done { e with kind := .clock } .nil)

def tickWindow (now : UInt64) (e : StateEntry N) :
    Option (SlotStep N (Option (StateEntry.BarClose N))) := do
  let e ←
    if e.kind = .ring ∧ e.ringTimeWindow = true ∧ 0 < e.ringLen then
      ringEvictTime e (StateEntry.cutoff now e.ringWindowMs)
    else some e
  let (e, close) := e.barTimeTick now
  some (.done e close)

end Checked

variable [Number N]

/-! ## Where they stop -/

/-- The samples of a ring have room. -/
def WithinCap (e : StateEntry N) : Prop := e.ringLen ≤ e.ringCap

section Operations

variable {A : EvalAlloc → Bool} {e : StateEntry N}

omit [Number N] in
theorem ringPlace_room (hcap : e.ringCap ≠ 0) (i : ℕ) :
    Checked.ringPlace e i = some (i % e.ringCap) :=
  if_neg hcap

/-- A push to a ring of the last samples needs a capacity. -/
theorem checked_ringPushCount (e : StateEntry N) (x : N) :
    Checked.ringPushCount e x = if e.ringCap = 0 then none else some (e.ringPushCount x) := by
  unfold Checked.ringPushCount StateEntry.ringPushCount
  by_cases hcap : e.ringCap = 0
  · simp [hcap, Checked.ringPlace]
  · simp only [ringPlace_room hcap, hcap, if_false, Option.bind_eq_bind, Option.bind_some]
    split_ifs <;> rfl

theorem withinCap_ringPushCount (he : WithinCap e) (x : N) : WithinCap (e.ringPushCount x) := by
  unfold StateEntry.ringPushCount
  split_ifs with hlt
  · exact hlt
  · exact he

/-- An eviction drops samples only, so that it needs none. -/
theorem checked_ringEvictLoop (cutoff : UInt64) (n : ℕ) (he : WithinCap e) :
    Checked.ringEvictLoop cutoff n e = some (StateEntry.ringEvictLoop cutoff n e) ∧
      WithinCap (StateEntry.ringEvictLoop cutoff n e) := by
  induction n generalizing e with
  | zero => exact ⟨rfl, he⟩
  | succ n ih =>
    unfold Checked.ringEvictLoop StateEntry.ringEvictLoop
    by_cases hfresh : e.ringLen = 0 ∨ cutoff ≤ e.ringTimes e.ringStart
    · simp only [hfresh, if_true]
      exact ⟨trivial, he⟩
    · have hlen : e.ringLen ≠ 0 := fun h => hfresh (.inl h)
      have hcap : e.ringCap ≠ 0 := by
        unfold WithinCap at he
        omega
      simp only [hfresh, if_false, ringPlace_room hcap, Option.bind_eq_bind, Option.bind_some]
      apply ih
      exact le_trans (Nat.sub_le _ _) he

theorem checked_ringEvictTime (he : WithinCap e) (cutoff : UInt64) :
    Checked.ringEvictTime e cutoff = some (e.ringEvictTime cutoff) ∧
      WithinCap (e.ringEvictTime cutoff) :=
  checked_ringEvictLoop cutoff e.ringLen he

omit [Number N] in
theorem withinCap_ringReserve {e' : StateEntry N} {cap : ℕ} {withTimes : Bool} (he : WithinCap e)
    (h : e.ringReserve A cap withTimes = some e') :
    WithinCap e' ∧ cap ≤ e'.ringCap ∧ e'.ringLen = e.ringLen := by
  unfold StateEntry.ringReserve at h
  split_ifs at h with hcap
  · cases h
    exact ⟨he, hcap, rfl⟩
  all_goals
    cases h
    exact ⟨le_trans he (Nat.le_of_not_le hcap), le_rfl, rfl⟩

/-- A push to a ring of a time window makes room first. -/
theorem checked_ringPushTime (he : WithinCap e) (x : N) (t : UInt64) :
    Checked.ringPushTime A e x t = some (e.ringPushTime A x t) ∧
      ∀ e', e.ringPushTime A x t = some e' → WithinCap e' := by
  unfold Checked.ringPushTime StateEntry.ringPushTime
  dsimp only
  generalize hroom : (if e.ringLen = e.ringCap then
    e.ringReserve A (if e.ringCap = 0 then 16 else e.ringCap * 2) true else some e) = room
  cases room with
  | none => simp
  | some e₁ =>
    have hlt : e₁.ringLen < e₁.ringCap := by
      split_ifs at hroom with hfull hcap
      · obtain ⟨-, hle, hlen⟩ := withinCap_ringReserve he hroom
        omega
      · obtain ⟨-, hle, hlen⟩ := withinCap_ringReserve he hroom
        omega
      · cases hroom
        exact lt_of_le_of_ne he hfull
    have hcap : e₁.ringCap ≠ 0 := by omega
    simp only [ringPlace_room hcap, Option.bind_eq_bind, Option.bind_some, Option.map_some,
      Option.some.injEq, true_and]
    rintro e' rfl
    exact hlt

omit [Number N] in
theorem withinCap_windowSlot (he : WithinCap e) (w : Window) : WithinCap (windowSlot A w e).1 := by
  have hring : WithinCap { e with
      kind := .ring, ringTimeWindow := w.timeWindow, ringWindowMs := w.ms } := he
  unfold windowSlot
  split_ifs with hempty htime
  · exact hring
  · dsimp only
    split
    · exact hring
    · rename_i hreserve
      exact (withinCap_ringReserve hring hreserve).1
  · exact he

omit [Number N] in
theorem ringReserve_cap {e' : StateEntry N} {cap : ℕ} {withTimes : Bool}
    (h : e.ringReserve A cap withTimes = some e') : e'.ringCap = max e.ringCap cap := by
  unfold StateEntry.ringReserve at h
  split_ifs at h with hcap
  · cases h
    exact (max_eq_left hcap).symm
  all_goals
    cases h
    exact (max_eq_right (Nat.le_of_not_le hcap)).symm

omit [Number N] in
theorem ringReserve_none {cap : ℕ} {withTimes : Bool} (h : e.ringReserve A cap withTimes = none) :
    e.ringCap < cap := by
  unfold StateEntry.ringReserve at h
  split_ifs at h with hcap
  exact Nat.lt_of_not_le hcap

/-- What passes for a ring of the last samples. -/
def CountRing (e : StateEntry N) : Prop := e.kind = .ring ∧ e.ringTimeWindow = false

omit [Number N] in
/-- The slot of a window of samples is ready and without room: as it was, or new and made
for a window of no samples. -/
theorem windowSlot_bare {w : Window} (hw : w.timeWindow = false) :
    (windowSlot A w e).2 = true ∧ (windowSlot A w e).1.ringCap = 0 ↔
      e.ringCap = 0 ∧ (e.kind = .empty ∧ w.count = 0 ∨ CountRing e) := by
  by_cases hempty : e.kind = .empty
  · have hring : ¬ CountRing e := by simp [CountRing, hempty]
    simp only [windowSlot, hempty, hw, if_true, Bool.false_eq_true, if_false, hring, or_false,
      true_and]
    generalize hreserve : StateEntry.ringReserve A _ w.count false = room
    cases room with
    | none =>
      have hlt := ringReserve_none hreserve
      dsimp only at hlt
      simp only [Bool.false_eq_true, false_and, false_iff]
      omega
    | some e₁ =>
      have hcap := ringReserve_cap hreserve
      dsimp only at hcap
      simp only [true_and, hcap]
      omega
  · simp only [windowSlot, hempty, if_false, false_and, false_or, hw, CountRing,
      Bool.and_eq_true, decide_eq_true_eq, beq_iff_eq]
    exact and_comm

/-- A push to a window of samples looks at the capacity first; a window of no samples
gets none. -/
theorem checked_windowPush (he : WithinCap e) (timeWindow : Bool) (count : ℕ) (ms now : UInt64)
    (x : N) :
    Checked.windowPush A e timeWindow count ms now x =
        (if timeWindow = false ∧ e.ringCap = 0 ∧ count = 0 then none
          else some (e.windowPush A timeWindow count ms now x)) ∧
      WithinCap (e.windowPush A timeWindow count ms now x).1 := by
  unfold Checked.windowPush StateEntry.windowPush
  cases timeWindow with
  | true =>
    obtain ⟨hevict, hfits⟩ := checked_ringEvictTime he
      (StateEntry.cutoff now (if e.ringWindowMs = 0 then ms else e.ringWindowMs))
    obtain ⟨hpush, hpushed⟩ := checked_ringPushTime (A := A) hfits x now
    simp only [if_true, hevict, hpush, Option.bind_eq_bind, Option.bind_some,
      Bool.true_eq_false, false_and, if_false]
    generalize StateEntry.ringPushTime A _ x now = pushed at hpushed ⊢
    cases pushed with
    | none => exact ⟨rfl, hfits⟩
    | some e₁ => exact ⟨rfl, hpushed e₁ rfl⟩
  | false =>
    simp only [Bool.false_eq_true, if_false, true_and]
    generalize hroom : (if e.ringCap = 0 then e.ringReserve A count false else some e) = room
    cases room with
    | none =>
      have hbare : ¬(e.ringCap = 0 ∧ count = 0) := by
        rintro ⟨hcap, rfl⟩
        simp only [hcap, if_true] at hroom
        exact Nat.not_lt_zero _ (ringReserve_none hroom)
      simp only [hbare, if_false]
      exact ⟨trivial, he⟩
    | some e₁ =>
      have hready : WithinCap e₁ ∧ (e₁.ringCap = 0 ↔ e.ringCap = 0 ∧ count = 0) := by
        by_cases hcap : e.ringCap = 0
        · simp only [hcap, if_true] at hroom
          refine ⟨(withinCap_ringReserve he hroom).1, ?_⟩
          have hgrown := ringReserve_cap hroom
          omega
        · simp only [hcap, if_false, Option.some.injEq] at hroom
          subst hroom
          simp [he, hcap]
      simp only [checked_ringPushCount, hready.2]
      refine ⟨?_, withinCap_ringPushCount hready.1 x⟩
      split_ifs <;> rfl

theorem withinCap_windowSample (he : WithinCap e) (w : Window) (now : UInt64) (x : N) :
    WithinCap (windowSample A w now x e).1 := by
  have hslot := withinCap_windowSlot (A := A) he w
  unfold windowSample
  generalize windowSlot A w e = r at hslot ⊢
  obtain ⟨e₁, ok⟩ := r
  cases ok with
  | false => exact hslot
  | true => exact (checked_windowPush hslot w.timeWindow w.count w.ms now x).2

theorem withinCap_windowStep (he : WithinCap e) (w : Window) (now : UInt64) (x : N)
    (f : StateEntry N → Except EvalError (Value N)) :
    WithinCap (windowStep A w now x f e).entry := by
  have hsample := withinCap_windowSample (A := A) he w now x
  unfold windowStep
  generalize windowSample A w now x e = r at hsample ⊢
  obtain ⟨e₁, ok⟩ := r
  cases ok <;> exact hsample

/-- A form of the last samples pushes to a slot without room: `throttle` to any, the others
to one for a window of no samples. -/
def Bare (w : Window) (isThrottle : Bool) (e : StateEntry N) : Prop :=
  w.timeWindow = false ∧ e.ringCap = 0 ∧
    (e.kind = .empty ∧ w.count = 0 ∨ CountRing e ∧ (isThrottle = true ∨ w.count = 0))

theorem checked_windowStep (he : WithinCap e) (w : Window) (now : UInt64) (x : N)
    (f : StateEntry N → Except EvalError (Value N)) :
    (Bare w false e → Checked.windowStep A w now x f e = none) ∧
      (¬ Bare w false e →
        Checked.windowStep A w now x f e = some (windowStep A w now x f e)) := by
  have hslot := withinCap_windowSlot (A := A) he w
  have hbare : Bare w false e ↔ w.timeWindow = false ∧
      ((windowSlot A w e).2 = true ∧ (windowSlot A w e).1.ringCap = 0) ∧ w.count = 0 := by
    unfold Bare
    by_cases hw : w.timeWindow = false
    · simp only [hw, windowSlot_bare hw, true_and, Bool.false_eq_true, false_or]
      tauto
    · simp [hw]
  rw [hbare]
  unfold Checked.windowStep windowStep Checked.windowSample windowSample
  generalize windowSlot A w e = r at hslot ⊢
  obtain ⟨e₁, ok⟩ := r
  cases ok with
  | false => simp [SlotStep.fail]
  | true =>
    obtain ⟨hpush, -⟩ := checked_windowPush (A := A) hslot w.timeWindow w.count w.ms now x
    dsimp only at hpush ⊢
    rw [hpush]
    constructor
    · rintro ⟨hw, ⟨-, hcap⟩, hcount⟩
      simp [hw, hcap, hcount]
    · intro hroom
      have hroom : ¬(w.timeWindow = false ∧ e₁.ringCap = 0 ∧ w.count = 0) := by tauto
      simp only [hroom, if_false, Option.map_some]
      generalize StateEntry.windowPush A e₁ w.timeWindow w.count w.ms now x = pushed
      obtain ⟨e₂, ok⟩ := pushed
      cases ok <;> rfl

theorem withinCap_throttle (he : WithinCap e) (w : Window) (now : UInt64) (max : N) (v : Value N) :
    WithinCap (throttle A w now max v e).entry := by
  have hslot := withinCap_windowSlot (A := A) he w
  unfold throttle
  generalize windowSlot A w e = r at hslot ⊢
  obtain ⟨e₁, ok⟩ := r
  cases ok with
  | false => exact hslot
  | true =>
    obtain ⟨-, hfits⟩ := checked_ringEvictTime hslot (StateEntry.cutoff now w.ms)
    obtain ⟨-, hpushed⟩ := checked_ringPushTime (A := A) hfits (ofNat 1) now
    dsimp only
    split_ifs
    · exact hfits
    · split
      · exact hfits
      · rename_i e₂ hsome
        exact hpushed e₂ hsome
    all_goals exact withinCap_ringPushCount hslot _

theorem checked_throttle (he : WithinCap e) (w : Window) (now : UInt64) (max : N) (v : Value N) :
    (Bare w true e → Checked.throttle A w now max v e = none) ∧
      (¬ Bare w true e →
        Checked.throttle A w now max v e = some (throttle A w now max v e)) := by
  have hslot := withinCap_windowSlot (A := A) he w
  have hbare : Bare w true e ↔ w.timeWindow = false ∧
      (windowSlot A w e).2 = true ∧ (windowSlot A w e).1.ringCap = 0 := by
    unfold Bare
    by_cases hw : w.timeWindow = false
    · simp [hw, windowSlot_bare hw]
    · simp [hw]
  rw [hbare]
  unfold Checked.throttle throttle
  generalize windowSlot A w e = r at hslot ⊢
  obtain ⟨e₁, ok⟩ := r
  cases ok with
  | false => simp
  | true =>
    obtain ⟨hevict, hfits⟩ := checked_ringEvictTime hslot (StateEntry.cutoff now w.ms)
    obtain ⟨hpush, -⟩ := checked_ringPushTime (A := A) hfits (ofNat 1) now
    dsimp only at hevict hpush ⊢
    constructor
    · -- the form does not look at the capacity before it pushes
      rintro ⟨hw, -, hcap⟩
      simp [hw, checked_ringPushCount, hcap]
    · intro hroom
      by_cases hw : w.timeWindow = true
      · simp only [hw, if_true, hevict, Option.bind_eq_bind, Option.bind_some, hpush]
        split_ifs
        · rfl
        · generalize StateEntry.ringPushTime A _ (ofNat 1 : N) now = pushed
          cases pushed <;> rfl
      · have hcap : e₁.ringCap ≠ 0 := by
          intro hcap
          exact hroom ⟨Bool.eq_false_iff.mpr hw, rfl, hcap⟩
        simp only [hw, Bool.false_eq_true, if_false, checked_ringPushCount, hcap,
          Option.bind_eq_bind, Option.bind_some]

theorem checked_aggregateSample (he : WithinCap e) (metric : MetricKind) (ms now : UInt64)
    (subject : Bytes) (x : N) :
    Checked.aggregateSample A metric ms now subject x e =
        some (aggregateSample A metric ms now subject x e) ∧
      WithinCap (aggregateSample A metric ms now subject x e).entry := by
  unfold Checked.aggregateSample aggregateSample
  extract_lets e₁ e₂
  have hfits : WithinCap e₂ := by
    change WithinCap e₁
    unfold e₁
    split_ifs <;> exact he
  unfold StateEntry.setEmitSubject
  by_cases hA : A .emitSubject = true
  · have hset : WithinCap { e₂ with emitSubject := subject } := hfits
    obtain ⟨hpush, hpushed⟩ := checked_ringPushTime (A := A) hset x now
    simp only [hA, if_true, hpush, Option.bind_eq_bind, Option.bind_some]
    generalize StateEntry.ringPushTime A _ x now = pushed at hpushed ⊢
    cases pushed with
    | none => exact ⟨rfl, hset⟩
    | some e₃ => exact ⟨rfl, hpushed e₃ rfl⟩
  · simp only [hA]
    exact ⟨rfl, hfits⟩

theorem checked_tickWindow (he : WithinCap e) (now : UInt64) :
    Checked.tickWindow now e = some (tickWindow now e) := by
  obtain ⟨hevict, -⟩ := checked_ringEvictTime he (StateEntry.cutoff now e.ringWindowMs)
  unfold Checked.tickWindow tickWindow
  split_ifs
  · simp only [hevict, Option.bind_eq_bind, Option.bind_some]
  · simp only [Option.bind_eq_bind, Option.bind_some]

end Operations

/-! ## Runs of a slot -/

/-- What can happen to a slot of windows: an evaluation of one of the forms, with the
allocations that succeed in it, a tick, or a snapshot that brings another slot. -/
inductive RingOp (N : Type) where
  | window (A : EvalAlloc → Bool) (w : Window) (now : UInt64) (x : N)
      (f : StateEntry N → Except EvalError (Value N))
  | throttle (A : EvalAlloc → Bool) (w : Window) (now : UInt64) (max : N) (v : Value N)
  | aggregate (A : EvalAlloc → Bool) (metric : MetricKind) (ms now : UInt64) (subject : Bytes)
      (x : N)
  | tick (A : EvalAlloc → Bool) (now : UInt64)
  | load (e' : StateEntry N)

namespace RingOp

def step (e : StateEntry N) : RingOp N → StateEntry N
  | window A w now x f => (windowStep A w now x f e).entry
  | throttle A w now max v => (Patchbay.throttle A w now max v e).entry
  | aggregate A metric ms now subject x => (aggregateSample A metric ms now subject x e).entry
  | tick A now => (tickEntry A now e).entry
  | load e' => e'

/-- The same with the checked operations; a clock ticks without its ring. -/
def checked (e : StateEntry N) : RingOp N → Option (StateEntry N)
  | window A w now x f => (Checked.windowStep A w now x f e).map SlotStep.entry
  | throttle A w now max v => (Checked.throttle A w now max v e).map SlotStep.entry
  | aggregate A metric ms now subject x =>
    (Checked.aggregateSample A metric ms now subject x e).map SlotStep.entry
  | tick A now =>
    if e.kind = .clock then some (tickClock A now e).entry
    else (Checked.tickWindow now e).map SlotStep.entry
  | load e' => some e'

def run : StateEntry N → List (RingOp N) → StateEntry N
  | e, [] => e
  | e, op :: ops => run (step e op) ops

def checkedRun : StateEntry N → List (RingOp N) → Option (StateEntry N)
  | e, [] => some e
  | e, op :: ops => (checked e op).bind fun e' => checkedRun e' ops

/-- The call has the window that its arguments have, and a snapshot brings one of the
slots it leaves behind. -/
def Occurs : RingOp N → Prop
  | window _ w _ _ _ => ∃ args rest : List (Value N), parseWindow args = some (w, rest)
  | throttle _ w _ _ _ => ∃ args rest : List (Value N), parseWindow args = some (w, rest)
  | load e => ∃ bytes r rules usesClock, e ∈ Snapshot.restoredSlots bytes r rules usesClock
  | _ => True

/-- The operation does not push to a ring without room. -/
def Roomy (e : StateEntry N) : RingOp N → Prop
  | window _ w _ _ _ => ¬ Bare w false e
  | throttle _ w _ _ _ => ¬ Bare w true e
  | _ => True

/-- So it is at every step of a run. -/
def RoomyRun : StateEntry N → List (RingOp N) → Prop
  | _, [] => True
  | e, op :: ops => Roomy e op ∧ RoomyRun (step e op) ops

end RingOp

open RingOp

/-- An aggregate that is out begins anew without samples. -/
theorem withinCap_tickAggregate {e : StateEntry N} (he : WithinCap e) (A : EvalAlloc → Bool) :
    WithinCap (tickAggregate A e).entry := by
  unfold tickAggregate
  split_ifs with hlen
  · exact he
  · cases metricValue e with
    | none => exact he
    | some v =>
      dsimp only
      cases (coercePayload A v).bind (e.setBytes A) with
      | none => exact he
      | some e₁ => exact Nat.zero_le _

theorem withinCap_tickEntry {e : StateEntry N} (he : WithinCap e) (A : EvalAlloc → Bool)
    (now : UInt64) : WithinCap (tickEntry A now e).entry := by
  unfold tickEntry
  by_cases hclock : e.kind = .clock
  · simp only [hclock, if_true, tickClock]
    split_ifs
    · exact he
    · cases e.clockKind with
      | aggregate => exact withinCap_tickAggregate he A
      | _ => exact he
  · obtain ⟨-, hevict⟩ := checked_ringEvictTime he (StateEntry.cutoff now e.ringWindowMs)
    simp only [hclock, if_false, tickWindow, StateEntry.barTimeTick]
    split_ifs <;> assumption

theorem withinCap_loaded {e : StateEntry N} (h : (RingOp.load e).Occurs) : WithinCap e := by
  obtain ⟨bytes, r, rules, usesClock, he⟩ := h
  obtain ⟨k, s, hs, rfl⟩ := Snapshot.exists_restore he
  exact (Snapshot.inRing_restore k hs).1

theorem withinCap_step {e : StateEntry N} {op : RingOp N} (h : op.Occurs) (he : WithinCap e) :
    WithinCap (step e op) := by
  cases op with
  | window A w now x f => exact withinCap_windowStep he w now x f
  | throttle A w now max v => exact withinCap_throttle he w now max v
  | aggregate A metric ms now subject x =>
    exact (checked_aggregateSample he metric ms now subject x).2
  | tick A now => exact withinCap_tickEntry he A now
  | load e' => exact withinCap_loaded h

/-- An operation stops exactly where it pushes to a ring without room. -/
theorem checked_step {e : StateEntry N} (he : WithinCap e) (op : RingOp N) :
    (¬ Roomy e op → checked e op = none) ∧ (Roomy e op → checked e op = some (step e op)) := by
  cases op with
  | window A w now x f =>
    obtain ⟨hstops, hruns⟩ := checked_windowStep (A := A) he w now x f
    constructor
    · intro hbare
      simp [checked, hstops (not_not.mp hbare)]
    · intro hroomy
      simp [checked, step, hruns hroomy]
  | throttle A w now max v =>
    obtain ⟨hstops, hruns⟩ := checked_throttle (A := A) he w now max v
    constructor
    · intro hbare
      simp [checked, hstops (not_not.mp hbare)]
    · intro hroomy
      simp [checked, step, hruns hroomy]
  | aggregate A metric ms now subject x =>
    obtain ⟨hchecked, -⟩ := checked_aggregateSample (A := A) he metric ms now subject x
    simp [checked, step, Roomy, hchecked]
  | tick A now =>
    have hchecked := checked_tickWindow he now
    simp only [checked, step, Roomy, hchecked, tickEntry]
    split_ifs <;> simp
  | load e' => simp [checked, step, Roomy]

theorem checkedRun_of_ops {e : StateEntry N} {ops : List (RingOp N)} (he : WithinCap e)
    (hops : ∀ op ∈ ops, op.Occurs) :
    (¬ RoomyRun e ops → checkedRun e ops = none) ∧
      (RoomyRun e ops → checkedRun e ops = some (run e ops)) := by
  induction ops generalizing e with
  | nil => simp [RoomyRun, checkedRun, run]
  | cons op ops ih =>
    have hop := hops op (by simp)
    obtain ⟨hstops, hruns⟩ := checked_step he op
    obtain ⟨ihstops, ihruns⟩ := ih (withinCap_step hop he) fun o ho => hops o (by simp [ho])
    by_cases hroomy : Roomy e op
    · simp only [RoomyRun, checkedRun, run, hroomy, hruns hroomy, Option.bind_some, true_and]
      exact ⟨ihstops, ihruns⟩
    · simp [RoomyRun, checkedRun, hroomy, hstops hroomy]

/-- From a new slot, a run of windows, `rate`, `throttle`, `aggregate!`, ticks and loads
takes no remainder by zero if and only if none of its steps pushes to a ring without
room; it is then the run of the code. -/
theorem rings_never_divide_by_zero (k : StateKey) (ops : List (RingOp N))
    (hops : ∀ op ∈ ops, op.Occurs) :
    ((checkedRun (freshEntry k) ops).isSome ↔ RoomyRun (freshEntry k) ops) ∧
      ∀ e, checkedRun (freshEntry k) ops = some e → e = run (freshEntry k) ops := by
  have hfresh : WithinCap (freshEntry k : StateEntry N) := le_rfl
  obtain ⟨hstops, hruns⟩ := checkedRun_of_ops hfresh hops
  by_cases hroomy : RoomyRun (freshEntry k) ops
  · simp [hroomy, hruns hroomy, eq_comm]
  · simp [hroomy, hstops hroomy]

/-- An evaluation of `(throttle 4 1 true)`. -/
def throttleOnce (A : EvalAlloc → Bool) (now : UInt64) : RingOp (Extended ℚ) :=
  .throttle A ⟨false, 4, 0⟩ now (.fin 1) (.bool true)

theorem throttleOnce_occurs (A : EvalAlloc → Bool) (now : UInt64) :
    (throttleOnce A now).Occurs :=
  ⟨[.number (.fin 4), .number (.fin 1), .bool true], _, rfl⟩

/-- With memory at the second evaluation only, it takes a remainder by zero. -/
theorem throttle_divides_by_zero :
    ¬ ∀ (k : StateKey) (ops : List (RingOp (Extended ℚ))), (∀ op ∈ ops, op.Occurs) →
      (checkedRun (freshEntry k) ops).isSome := by
  intro hclaim
  have hruns := hclaim ⟨0, lit "throttle/t", lit "a"⟩
    [throttleOnce (fun site => site ≠ .ringValues) 1, throttleOnce (fun _ => true) 2] (by
      intro op hop
      simp only [List.mem_cons, List.not_mem_nil, or_false] at hop
      rcases hop with rfl | rfl <;> exact throttleOnce_occurs _ _)
  exact absurd hruns (by decide +kernel)

/-- Six evaluations fill the four places and go round, a tick between them. -/
def throttleRound : List (RingOp (Extended ℚ)) :=
  [throttleOnce (fun _ => true) 1, throttleOnce (fun _ => true) 2, throttleOnce (fun _ => true) 3,
    .tick (fun _ => true) 3, throttleOnce (fun _ => false) 4, throttleOnce (fun _ => false) 5,
    throttleOnce (fun _ => false) 6]

theorem throttle_with_memory :
    (checkedRun (freshEntry ⟨0, lit "throttle/t", lit "a"⟩) throttleRound).isSome ∧
      (run (freshEntry ⟨0, lit "throttle/t", lit "a"⟩) throttleRound).ringStart = 2 := by
  have hops : ∀ op ∈ throttleRound, op.Occurs := by
    intro op hop
    simp only [throttleRound, List.mem_cons, List.not_mem_nil, or_false] at hop
    rcases hop with rfl | rfl | rfl | rfl | rfl | rfl | rfl
    all_goals first | exact throttleOnce_occurs _ _ | trivial
  refine ⟨(rings_never_divide_by_zero _ _ hops).1.mpr ?_, by decide +kernel⟩
  have hcaps : ∀ n ∈ [1, 2, 3, 4, 5, 6],
      (run (freshEntry ⟨0, lit "throttle/t", lit "a"⟩) (throttleRound.take n)).ringCap ≠ 0 := by
    decide +kernel
  refine ⟨by simp [throttleOnce, Roomy, Bare, CountRing, freshEntry], ?_, ?_, trivial, ?_, ?_, ?_,
    trivial⟩
  · exact fun h => hcaps 1 (by decide) h.2.1
  · exact fun h => hcaps 2 (by decide) h.2.1
  · exact fun h => hcaps 4 (by decide) h.2.1
  · exact fun h => hcaps 5 (by decide) h.2.1
  · exact fun h => hcaps 6 (by decide) h.2.1

end Monoblok.Patchbay
