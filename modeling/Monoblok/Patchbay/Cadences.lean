import Monoblok.Patchbay.Emitters
import Monoblok.Patchbay.WindowForms

/-!
# Emitters with a cadence

`sample!` and `aggregate!` fire at the first message's time and an interval, two intervals
and so on: the one with the latest message, the other with a metric of the samples since
it fired last, if there are any.
-/

namespace Monoblok.Patchbay

open Number

variable {N : Type} [Number N] {V : Type}

/-! ## The cadence -/

/-- A slot that has fired `k` times, or let the time to fire pass with nothing to say. -/
structure Cadence (n last : UInt64) (e : StateEntry N) (start k : ℕ) : Prop where
  kind : e.kind = .clock
  armed : e.clockArmed = true
  interval : e.clockIntervalMs = n
  deadline : e.clockDeadlineMs.toNat = start + (k + 1) * n.toNat
  since : start + k * n.toNat ≤ last.toNat

section Cadence

variable {n last : UInt64} {e : StateEntry N} {start k : ℕ}

omit [Number N] in
theorem Cadence.isArmed (h : Cadence n last e start k) : e.Armed := ⟨h.kind, h.armed⟩

omit [Number N] in
theorem Cadence.later {last' : UInt64} (h : Cadence n last e start k) (hle : last ≤ last') :
    Cadence n last' e start k :=
  ⟨h.kind, h.armed, h.interval, h.deadline, h.since.trans (UInt64.le_iff_toNat_le.mp hle)⟩

omit [Number N] in
/-- A new message comes after the times to fire that are past. -/
theorem Cadence.not_before {a : Incoming V} (h : Cadence n last e start k) (hn : 0 < n.toNat)
    (htime : last ≤ a.now) (hearly : a.early = true → a.now = e.clockDeadlineMs) {i : ℕ}
    (hi : i ≤ k) : ¬a.Before (start + i * n.toNat) := by
  have htime' := UInt64.le_iff_toNat_le.mp htime
  have hpast : start + i * n.toNat ≤ last.toNat :=
    (Nat.add_le_add_left (Nat.mul_le_mul_right _ hi) _).trans h.since
  rintro (hlt | ⟨hyes, heq⟩)
  · omega
  · have hdeadline := h.deadline
    rw [← hearly hyes, heq] at hdeadline
    have hmul : i * n.toNat < (k + 1) * n.toNat :=
      Nat.mul_lt_mul_of_pos_right (Nat.lt_succ_of_le hi) hn
    omega

omit [Number N] in
/-- Before the next time to fire comes, all those before it have been. -/
theorem Cadence.rounds (h : Cadence n last e start k) (hlt : last < e.clockDeadlineMs) :
    (last.toNat - start) / n.toNat = k := by
  have hlt' := UInt64.lt_iff_toNat_lt.mp hlt
  rw [h.deadline] at hlt'
  have hsince := h.since
  apply Nat.div_eq_of_lt_le
  · omega
  · omega

/-- A message that comes before the next time to fire comes before the one after it. -/
theorem Incoming.Before.mono {a : Incoming V} {d d' : ℕ} (h : a.Before d) (hle : d ≤ d') :
    a.Before d' := by
  rcases h with hlt | ⟨hearly, heq⟩
  · exact .inl (lt_of_lt_of_le hlt hle)
  · rcases lt_or_eq_of_le hle with hlt | hsame
    · exact .inl (heq ▸ hlt)
    · exact .inr ⟨hearly, heq.trans hsame⟩

omit [Number N] in
/-- The slot moves on to its next time to fire. -/
theorem Cadence.next {now : UInt64} {e' : StateEntry N} (h : Cadence n last e start k)
    (hnow : now = e.clockDeadlineMs) (hroom : now.toNat + n.toNat < 2 ^ 64)
    (hkind : e'.kind = .clock) (harmed : e'.clockArmed = e.clockArmed)
    (hinterval : e'.clockIntervalMs = e.clockIntervalMs)
    (hdeadline : e'.clockDeadlineMs = e.clockDeadlineMs + e.clockIntervalMs) :
    Cadence n now e' start (k + 1) := by
  have hold : now.toNat = start + (k + 1) * n.toNat := by
    rw [hnow]
    exact h.deadline
  refine ⟨hkind, harmed.trans h.armed, hinterval.trans h.interval, ?_, hold.ge⟩
  rw [hdeadline, h.interval, ← hnow, InTime.toNat_add hroom (UInt64.le_refl now), hold]
  ring

end Cadence

/-! ## The latest message -/

/-- The latest message before a time. -/
def latest (first : Incoming V) (messages : List (Incoming V)) (deadline : ℕ) : Incoming V :=
  (messages.filter fun a => a.Before deadline).getLastD first

/-- What `sample!` has emitted by a time: the latest message at each time to fire. -/
def sampled (n time : ℕ) : List (Incoming Bytes) → List Emission
  | [] => []
  | first :: rest =>
    (List.range ((time - first.now.toNat) / n)).map fun i =>
      let deadline := first.now.toNat + (i + 1) * n
      let a := latest first (first :: rest) deadline
      ⟨deadline, a.subject, a.value⟩

/-- A slot of `sample!` that has taken a message. -/
structure HoldsLatest (n last : UInt64) (e : StateEntry N) (first : Incoming Bytes)
    (messages : List (Incoming Bytes)) (sent : List Emission) (k : ℕ) : Prop where
  cadence : Cadence n last e first.now.toNat k
  clock : e.clockKind = .sample
  before : ∀ a ∈ messages, a.Before (first.now.toNat + (k + 1) * n.toNat)
  subject : e.emitSubject = (messages.getLastD first).subject
  payload : e.bytes = (messages.getLastD first).value
  emits : sent = (List.range k).map fun i =>
    let deadline := first.now.toNat + (i + 1) * n.toNat
    let a := latest first messages deadline
    ⟨deadline, a.subject, a.value⟩

theorem latest_concat {first a : Incoming V} {messages : List (Incoming V)} {deadline : ℕ}
    (h : ¬a.Before deadline) : latest first (messages ++ [a]) deadline =
      latest first messages deadline := by
  simp [latest, List.filter_append, h]

theorem latest_of_before {first : Incoming V} {messages : List (Incoming V)} {deadline : ℕ}
    (h : ∀ a ∈ messages, a.Before deadline) :
    latest first messages deadline = messages.getLastD first := by
  rw [latest, List.filter_eq_self.mpr]
  intro a ha
  exact decide_eq_true (h a ha)

omit [Number N] in
theorem holdsLatest_first {n : UInt64} {A : EvalAlloc → Bool} {a : Incoming Bytes}
    {e : StateEntry N} (hn : 0 < n.toNat) (hzero : e.clockDeadlineMs = 0) (hms : a.ms = n)
    (hroom : a.now.toNat + n.toNat < 2 ^ 64) (hok : (sampleArm A a e).result.isOk = true) :
    HoldsLatest n a.now (sampleArm A a e).entry a [a] [] 0 := by
  have hentry := retainPublish_ok hok
  unfold sampleArm at hentry ⊢
  rw [hentry]
  have hsum := InTime.toNat_add hroom (UInt64.le_refl a.now)
  refine ⟨⟨rfl, rfl, hms, ?_, by simp⟩, rfl, ?_, rfl, rfl, rfl⟩
  · simp [hzero, hms, hsum]
  · intro b hb
    rw [List.mem_singleton.mp hb]
    left
    omega

omit [Number N] in
theorem holdsLatest_message {n last : UInt64} {A : EvalAlloc → Bool} {first a : Incoming Bytes}
    {e : StateEntry N} {messages : List (Incoming Bytes)} {sent : List Emission} {k : ℕ}
    (h : HoldsLatest n last e first messages sent k) (hn : 0 < n.toNat) (hms : a.ms = n)
    (htime : last ≤ a.now) (hdue : a.Before e.clockDeadlineMs.toNat)
    (hearly : a.early = true → a.now = e.clockDeadlineMs)
    (hok : (sampleArm A a e).result.isOk = true) :
    HoldsLatest n a.now (sampleArm A a e).entry first (messages ++ [a]) sent k := by
  have hentry := retainPublish_ok hok
  unfold sampleArm at hentry ⊢
  have hcadence := h.cadence.later htime
  have hdeadline : e.clockDeadlineMs ≠ 0 := by
    intro hzero
    have hpos := h.cadence.deadline
    rw [hzero, UInt64.toNat_zero] at hpos
    have hmul : 0 < (k + 1) * n.toNat := Nat.mul_pos (Nat.succ_pos k) hn
    omega
  rw [hentry]
  refine ⟨⟨rfl, rfl, hms, ?_, hcadence.since⟩, rfl, ?_, by simp, by simp, ?_⟩
  · simpa [hdeadline] using h.cadence.deadline
  · intro b hb
    rcases List.mem_append.mp hb with hb | hb
    · exact h.before b hb
    · rw [List.mem_singleton.mp hb, ← h.cadence.deadline]
      exact hdue
  · rw [h.emits]
    apply List.map_congr_left
    intro i hi
    have hlt := List.mem_range.mp hi
    simp only [latest_concat (h.cadence.not_before hn htime hearly hlt)]

theorem holdsLatest_tick {n last now : UInt64} {A : EvalAlloc → Bool} {first : Incoming Bytes}
    {e : StateEntry N} {messages : List (Incoming Bytes)} {sent : List Emission} {k : ℕ}
    {fires : Fired N ⊕ Option (StateEntry.BarClose N)}
    (h : HoldsLatest n last e first messages sent k) (hroom : now.toNat + n.toNat < 2 ^ 64)
    (htime : last ≤ now) (hdue : now ≤ e.clockDeadlineMs)
    (hok : (tickEntry A now e).result = .ok fires) :
    ∃ k', HoldsLatest n now (tickEntry A now e).entry first messages
      (sent ++ emitted now fires) k' := by
  by_cases hwait : now < e.clockDeadlineMs
  · obtain ⟨hentry, hsent⟩ := unsent_early A h.cadence.kind (.inr hwait) hok sent
    rw [hentry, hsent]
    exact ⟨k, h.cadence.later htime, h.clock, h.before, h.subject, h.payload, h.emits⟩
  · have hat : now = e.clockDeadlineMs := UInt64.le_antisymm hdue (UInt64.not_lt.mp hwait)
    have htick : tickEntry A now e =
        ⟨nextDeadline e, false, .ok (.inl (.publish e.emitSubject e.bytes))⟩ := by
      rw [tickEntry_clock A now h.cadence.kind, tickClock,
        if_neg (by simp [h.cadence.armed, hwait]), h.clock]
      rfl
    rw [htick] at hok ⊢
    cases hok
    refine ⟨k + 1, h.cadence.next hat hroom h.cadence.kind rfl rfl rfl, h.clock, ?_, h.subject,
      h.payload, ?_⟩
    · intro a ha
      apply (h.before a ha).mono
      have hmul : (k + 1) * n.toNat ≤ (k + 1 + 1) * n.toNat :=
        Nat.mul_le_mul_right n.toNat (Nat.le_succ (k + 1))
      omega
    · have hnow : now.toNat = first.now.toNat + (k + 1) * n.toNat := by
        rw [hat]
        exact h.cadence.deadline
      rw [List.range_succ, List.map_append, ← h.emits, List.map_singleton]
      simp only [latest_of_before h.before, ← h.subject, ← h.payload, emitted, hnow]

/-- The invariant of a slot of `sample!`. -/
def HoldsSamples (n last : UInt64) (e : StateEntry N) (messages : List (Incoming Bytes))
    (sent : List Emission) : Prop :=
  e.kind = .empty ∧ e.clockDeadlineMs = 0 ∧ messages = [] ∧ sent = [] ∨
    ∃ first rest k, messages = first :: rest ∧ HoldsLatest n last e first messages sent k

theorem holdsSamples_of_driven {n last : UInt64} {e : StateEntry N}
    {messages : List (Incoming Bytes)} {sent : List Emission}
    (h : Driven sampleArm last e messages sent) (hn : 0 < n.toNat)
    (hms : ∀ a ∈ messages, a.ms = n) (hroom : last.toNat + n.toNat < 2 ^ 64) :
    HoldsSamples n last e messages sent := by
  induction h with
  | fresh k => exact .inl ⟨rfl, rfl, rfl, rfl⟩
  | @message last e messages sent _ A a time due early ok ih =>
    have hms' := fun b hb => hms b (List.mem_append_left _ hb)
    have hroom' : last.toNat + n.toNat < 2 ^ 64 :=
      lt_of_le_of_lt (Nat.add_le_add_right (UInt64.le_iff_toNat_le.mp time) _) hroom
    rcases ih hms' hroom' with ⟨-, hzero, rfl, rfl⟩ | ⟨first, rest, k, rfl, h⟩
    · exact .inr ⟨a, [], 0, rfl, holdsLatest_first hn hzero (hms a (by simp)) hroom ok⟩
    · refine .inr ⟨first, rest ++ [a], k, rfl, ?_⟩
      exact holdsLatest_message h hn (hms a (by simp)) time
        (due (inTime_of_interval hn hms' hroom') h.cadence.isArmed) (fun hyes => (early hyes).2) ok
  | @tick last e messages sent _ A now time due fired ok ih =>
    have hroom' : last.toNat + n.toNat < 2 ^ 64 :=
      lt_of_le_of_lt (Nat.add_le_add_right (UInt64.le_iff_toNat_le.mp time) _) hroom
    rcases ih hms hroom' with ⟨hkind, hzero, rfl, rfl⟩ | ⟨first, rest, k, rfl, h⟩
    · rw [tickEntry_empty A now hkind, tickEntry_unclocked A now (by simp [hkind]) ok]
      exact .inl ⟨hkind, hzero, rfl, rfl⟩
    · obtain ⟨k', h'⟩ := holdsLatest_tick h hroom time
        (due (inTime_of_interval hn hms hroom') h.cadence.isArmed) ok
      exact .inr ⟨first, rest, k', rfl, h'⟩

/-- A slot of `sample!` emits the latest message at each of its times to fire. -/
theorem sample_emits {n last : UInt64} {e : StateEntry N} {messages : List (Incoming Bytes)}
    {sent : List Emission} (h : Driven sampleArm last e messages sent) (hn : 0 < n.toNat)
    (hms : ∀ a ∈ messages, a.ms = n) (hroom : last.toNat + n.toNat < 2 ^ 64)
    (hcaught : e.Armed → last < e.clockDeadlineMs) :
    sent = sampled n.toNat last.toNat messages := by
  rcases holdsSamples_of_driven h hn hms hroom with
    ⟨-, -, rfl, rfl⟩ | ⟨first, rest, k, rfl, h⟩
  · rfl
  · rw [sampled, h.cadence.rounds (hcaught h.cadence.isArmed)]
    exact h.emits

/-! ## The metric of the samples in between -/

/-- A message comes after the `i`-th time to fire and before the next. The first time to
fire is the one after the first message. -/
def counted (n start i : ℕ) (a : Incoming V) : Bool :=
  decide (a.Before (start + (i + 1) * n)) && (i == 0 || !decide (a.Before (start + i * n)))

/-- Each message is counted once. -/
theorem existsUnique_counted {n start : ℕ} (hn : 0 < n) (a : Incoming V) :
    ∃! i, counted n start i a = true := by
  have hsome : ∃ i, a.Before (start + (i + 1) * n) := by
    refine ⟨a.now.toNat, .inl ?_⟩
    have hmul := Nat.le_mul_of_pos_right (a.now.toNat + 1) hn
    omega
  classical
  refine ⟨Nat.find hsome, ?_, ?_⟩
  · have hfind := Nat.find_spec hsome
    rcases hcase : Nat.find hsome with _ | i
    · simpa [counted, hcase] using hfind
    · have hnot : ¬a.Before (start + (i + 1) * n) := Nat.find_min hsome (by omega)
      simp [counted, hnot, hcase ▸ hfind]
  · intro i hi
    simp only [counted, Bool.and_eq_true, decide_eq_true_eq, Bool.or_eq_true, beq_iff_eq,
      Bool.not_eq_true', decide_eq_false_iff_not] at hi
    apply le_antisymm
    · rcases hi.2 with rfl | hnot
      · exact Nat.zero_le _
      · by_contra hlt
        apply hnot
        apply (Nat.find_spec hsome).mono
        have hmul : (Nat.find hsome + 1) * n ≤ i * n :=
          Nat.mul_le_mul_right n (Nat.succ_le_of_lt (not_le.mp hlt))
        omega
    · exact Nat.find_min' hsome hi.1

/-- The metric of a list that is not empty, as the ring of the slot computes it. -/
def metricOver (metric : MetricKind) (ms : UInt64) (xs : List N) : Option (Value N) :=
  let sum := xs.foldl fadd (ofNat 0)
  let first := xs.headD (ofNat 0)
  match metric with
  | .avg => some (.number (fdiv sum (ofNat xs.length)))
  | .sum => some (.number sum)
  | .min => some (.number (xs.tail.foldl (fun acc x => if flt x acc then x else acc) first))
  | .max => some (.number (xs.tail.foldl (fun acc x => if flt acc x then x else acc) first))
  | .count => some (.number (ofNat xs.length))
  | .rate => some (.number (fdiv (fmul (ofNat xs.length) (ofNat 1000)) (ofNat ms.toNat)))
  | .none => none

/-- The text of the metric of some messages. -/
def metricText (n : UInt64) (taken : List (Incoming (MetricKind × N)))
    (a : Incoming (MetricKind × N)) : Option Bytes :=
  (metricOver a.value.1 n (taken.map fun b => b.value.2)).bind (coercePayload fun _ => true)

/-- What `aggregate!` has emitted by a time: at each time to fire the metric of the messages
since the one before, if there are any, by the metric and to the subject of the last. -/
def aggregated (n : UInt64) (time : ℕ) :
    List (Incoming (MetricKind × N)) → List (ℕ × Bytes × Option Bytes)
  | [] => []
  | first :: rest =>
    (List.range ((time - first.now.toNat) / n.toNat)).filterMap fun i =>
      let taken := (first :: rest).filter (counted n.toNat first.now.toNat i)
      taken.getLast?.map fun a =>
        (first.now.toNat + (i + 1) * n.toNat, a.subject, metricText n taken a)

def Emission.parts (s : Emission) : ℕ × Bytes × Option Bytes := (s.time, s.subject, some s.payload)

/-- `aggregate!` -/
def aggregateArm : Arm N (MetricKind × N) := fun A a =>
  aggregateSample A a.value.1 a.ms a.now a.subject a.value.2

/-! ## The ring of a slot of `aggregate!` -/

/-- The ring holds the samples that are yet to be emitted. -/
structure HoldsTaken (e : StateEntry N) (xs : List N) : Prop where
  inRing : InRing e
  values : e.ringList = xs
  sum : e.ringSum = xs.foldl fadd (ofNat 0)

section Ring

variable {A : EvalAlloc → Bool} {e e' : StateEntry N} {xs : List N} {x : N} {t : UInt64}

theorem ringPushTime_sum (h : e.ringPushTime A x t = some e') :
    e'.ringSum = fadd e.ringSum x ∧ e'.emitSubject = e.emitSubject := by
  unfold StateEntry.ringPushTime at h
  obtain ⟨e₁, hroom, rfl⟩ := Option.map_eq_some_iff.mp h
  have hroom' : e₁.ringSum = e.ringSum ∧ e₁.emitSubject = e.emitSubject := by
    by_cases hfull : e.ringLen = e.ringCap
    · rw [if_pos hfull] at hroom
      unfold StateEntry.ringReserve at hroom
      split_ifs at hroom
      all_goals
        cases hroom
        exact ⟨rfl, rfl⟩
    · rw [if_neg hfull] at hroom
      cases hroom
      exact ⟨rfl, rfl⟩
  exact ⟨congrArg (fadd · x) hroom'.1, hroom'.2⟩

theorem HoldsTaken.push (h : HoldsTaken e xs) (hpush : e.ringPushTime A x t = some e') :
    HoldsTaken e' (xs ++ [x]) := by
  obtain ⟨hsamples, hin, -⟩ := ringPushTime_spec (p := []) sumLaw_true h.inRing trivial hpush
  refine ⟨hin, ?_, ?_⟩
  · rw [ringList_eq_samples hin, hsamples, List.map_append, ← ringList_eq_samples h.inRing,
      h.values]
    rfl
  · rw [(ringPushTime_sum hpush).1, h.sum, List.foldl_concat]

theorem HoldsTaken.length (h : HoldsTaken e xs) : e.ringLen = xs.length := by
  rw [← h.values, length_ringList]

theorem metricValue_eq (h : HoldsTaken e xs) (hne : xs ≠ []) :
    metricValue e = metricOver e.metricKind e.clockIntervalMs xs := by
  have hlen := h.length
  have hpos : xs.length ≠ 0 := fun hzero => hne (List.length_eq_zero_iff.mp hzero)
  have hfirst : e.ringValueAt 0 = xs.headD (ofNat 0) := by
    obtain ⟨m, hm⟩ : ∃ m, e.ringLen = m + 1 := ⟨e.ringLen - 1, by omega⟩
    rw [← h.values, StateEntry.ringList, hm, List.range_succ_eq_map]
    rfl
  unfold metricValue metricOver StateEntry.calcRing
  cases e.metricKind <;>
    simp [hlen, hpos, StateEntry.ringMean, h.values, h.sum, hfirst]

end Ring

theorem HoldsTaken.congr_ring {e d : StateEntry N} {xs : List N} (h : HoldsTaken e xs)
    (hvalues : d.ringValues = e.ringValues) (hcap : d.ringCap = e.ringCap)
    (hlen : d.ringLen = e.ringLen) (hstart : d.ringStart = e.ringStart)
    (hsum : d.ringSum = e.ringSum) : HoldsTaken d xs := by
  have hin : InRing d := ⟨by rw [hcap, hlen]; exact h.inRing.1, by
    rw [hcap, hstart]
    exact h.inRing.2⟩
  refine ⟨hin, ?_, hsum.trans h.sum⟩
  rw [ringList_eq_window hin, hvalues, hcap, hlen, hstart, ← ringList_eq_window h.inRing, h.values]

/-- A sample that is taken. -/
theorem aggregateSample_ok {A : EvalAlloc → Bool} {metric : MetricKind} {ms now : UInt64}
    {subject : Bytes} {x : N} {e : StateEntry N}
    (h : (aggregateSample A metric ms now subject x e).result.isOk = true) :
    ∃ e', StateEntry.ringPushTime A
        { (if e.kind = .empty then
            { e with
              clockKind := .aggregate
              clockIntervalMs := ms
              clockDeadlineMs := now + ms
              clockArmed := true }
          else e : StateEntry N) with
          metricKind := metric
          emitSubject := subject } x now = some e' ∧
      (aggregateSample A metric ms now subject x e).entry = { e' with kind := .clock } := by
  unfold aggregateSample StateEntry.setEmitSubject at h ⊢
  by_cases hsubject : A .emitSubject = true
  · simp only [hsubject, if_true] at h ⊢
    generalize StateEntry.ringPushTime A _ x now = pushed at h ⊢
    cases pushed with
    | none => simp [SlotStep.fail, Except.isOk, Except.toBool] at h
    | some e' => exact ⟨e', rfl, rfl⟩
  · simp [hsubject, SlotStep.fail, Except.isOk, Except.toBool] at h

/-- The emission for the messages of one interval. -/
def intervalPart (n : UInt64) (first : Incoming (MetricKind × N))
    (messages : List (Incoming (MetricKind × N))) (i : ℕ) : Option (ℕ × Bytes × Option Bytes) :=
  let taken := messages.filter (counted n.toNat first.now.toNat i)
  taken.getLast?.map fun a =>
    (first.now.toNat + (i + 1) * n.toNat, a.subject, metricText n taken a)

/-- A slot of `aggregate!` that has taken a message. Those since it fired last are in its
ring. -/
structure HoldsInterval (n last : UInt64) (e : StateEntry N) (first : Incoming (MetricKind × N))
    (messages : List (Incoming (MetricKind × N))) (sent : List Emission) (k : ℕ) : Prop where
  cadence : Cadence n last e first.now.toNat k
  clock : e.clockKind = .aggregate
  before : ∀ a ∈ messages, a.Before (first.now.toNat + (k + 1) * n.toNat)
  ring : HoldsTaken e
    ((messages.filter (counted n.toNat first.now.toNat k)).map fun a => a.value.2)
  recent : ∀ a, (messages.filter (counted n.toNat first.now.toNat k)).getLast? = some a →
    e.emitSubject = a.subject ∧ e.metricKind = a.value.1
  emits : sent.map Emission.parts = (List.range k).filterMap (intervalPart n first messages)

omit [Number N] in
/-- A new message is counted in the interval that has begun last. -/
theorem Cadence.counted_iff {n last : UInt64} {e : StateEntry N} {start k : ℕ} {a : Incoming V}
    (h : Cadence n last e start k) (hn : 0 < n.toNat) (htime : last ≤ a.now)
    (hearly : a.early = true → a.now = e.clockDeadlineMs)
    (hdue : a.Before (start + (k + 1) * n.toNat)) {i : ℕ} (hi : i ≤ k) :
    counted n.toNat start i a = true ↔ i = k := by
  have hnot : ∀ {j}, j ≤ k → ¬a.Before (start + j * n.toNat) :=
    fun hj => h.not_before hn htime hearly hj
  simp only [counted, Bool.and_eq_true, decide_eq_true_eq, Bool.or_eq_true, beq_iff_eq,
    Bool.not_eq_true', decide_eq_false_iff_not]
  constructor
  · rintro ⟨hbefore, -⟩
    by_contra hne
    exact hnot (Nat.succ_le_of_lt (lt_of_le_of_ne hi hne)) hbefore
  · rintro rfl
    exact ⟨hdue, .inr (hnot hi)⟩

theorem intervalPart_concat {n : UInt64} {first a : Incoming (MetricKind × N)}
    {messages : List (Incoming (MetricKind × N))} {i : ℕ}
    (h : counted n.toNat first.now.toNat i a = false) :
    intervalPart n first (messages ++ [a]) i = intervalPart n first messages i := by
  simp [intervalPart, List.filter_append, h]

theorem holdsInterval_message {n last : UInt64} {A : EvalAlloc → Bool}
    {first a : Incoming (MetricKind × N)} {e : StateEntry N}
    {messages : List (Incoming (MetricKind × N))} {sent : List Emission} {k : ℕ}
    (h : HoldsInterval n last e first messages sent k) (hn : 0 < n.toNat) (htime : last ≤ a.now)
    (hdue : a.Before e.clockDeadlineMs.toNat)
    (hearly : a.early = true → a.now = e.clockDeadlineMs)
    (hok : (aggregateArm A a e).result.isOk = true) :
    HoldsInterval n a.now (aggregateArm A a e).entry first (messages ++ [a]) sent k := by
  have hnotEmpty : e.kind ≠ .empty := by
    rw [h.cadence.kind]
    decide
  obtain ⟨e', hpush, hentry⟩ := aggregateSample_ok hok
  rw [if_neg hnotEmpty] at hpush
  have htimers := (sameTimers_ringPushTime hpush).timers
  rw [StateEntry.timers, StateEntry.timers, Timers.mk.injEq] at htimers
  obtain ⟨-, -, -, -, hclock, hmetric, harmed, hinterval, hdeadline⟩ := htimers
  dsimp only at hclock hmetric harmed hinterval hdeadline
  have hcadence := h.cadence.later htime
  rw [h.cadence.deadline] at hdue
  have hcounted := fun {i : ℕ} (hi : i ≤ k) => h.cadence.counted_iff hn htime hearly hdue hi
  have hlast : counted n.toNat first.now.toNat k a = true := (hcounted le_rfl).mpr rfl
  unfold aggregateArm
  rw [hentry]
  refine ⟨⟨rfl, harmed.trans hcadence.armed, hinterval.trans hcadence.interval, ?_,
    hcadence.since⟩, hclock.trans h.clock, ?_, ?_, ?_, ?_⟩
  · rw [← hcadence.deadline]
    exact congrArg UInt64.toNat hdeadline
  · intro b hb
    rcases List.mem_append.mp hb with hb | hb
    · exact h.before b hb
    · rw [List.mem_singleton.mp hb]
      exact hdue
  · have hset : HoldsTaken { e with metricKind := a.value.1, emitSubject := a.subject }
        ((messages.filter (counted n.toNat first.now.toNat k)).map fun a => a.value.2) :=
      h.ring.congr_ring rfl rfl rfl rfl rfl
    have hpushed := (hset.push hpush).congr_ring (d := { e' with kind := .clock }) rfl rfl rfl
      rfl rfl
    simpa [List.filter_append, hlast] using hpushed
  · intro b hb
    obtain rfl : a = b := by simpa [List.filter_append, hlast] using hb
    exact ⟨(ringPushTime_sum hpush).2, hmetric⟩
  · rw [h.emits]
    apply List.filterMap_congr
    intro i hi
    have hlt := List.mem_range.mp hi
    have hother : counted n.toNat first.now.toNat i a = false := by
      cases hcase : counted n.toNat first.now.toNat i a with
      | false => rfl
      | true => exact absurd ((hcounted hlt.le).mp hcase) hlt.ne
    exact (intervalPart_concat hother).symm

theorem holdsInterval_first {n : UInt64} {A : EvalAlloc → Bool} {a : Incoming (MetricKind × N)}
    {e : StateEntry N} (hempty : e.kind = .empty) (hring : HoldsTaken e []) (hn : 0 < n.toNat)
    (hms : a.ms = n) (hroom : a.now.toNat + n.toNat < 2 ^ 64)
    (hok : (aggregateArm A a e).result.isOk = true) :
    HoldsInterval n a.now (aggregateArm A a e).entry a [a] [] 0 := by
  obtain ⟨e', hpush, hentry⟩ := aggregateSample_ok hok
  rw [if_pos hempty] at hpush
  have htimers := (sameTimers_ringPushTime hpush).timers
  rw [StateEntry.timers, StateEntry.timers, Timers.mk.injEq] at htimers
  obtain ⟨-, -, -, -, hclock, hmetric, harmed, hinterval, hdeadline⟩ := htimers
  dsimp only at hclock hmetric harmed hinterval hdeadline
  have hsum := InTime.toNat_add hroom (UInt64.le_refl a.now)
  have hcounted : counted n.toNat a.now.toNat 0 a = true := by
    have hlt : a.Before (a.now.toNat + n.toNat) := .inl (by omega)
    simp [counted, hlt]
  unfold aggregateArm
  rw [hentry]
  refine ⟨⟨rfl, harmed, hinterval.trans hms, ?_, by simp⟩, hclock, ?_, ?_, ?_, rfl⟩
  · change e'.clockDeadlineMs.toNat = _
    rw [hdeadline, hms, hsum]
    simp
  · intro b hb
    rw [List.mem_singleton.mp hb]
    exact .inl (by omega)
  · have hset : HoldsTaken { e with
        clockKind := .aggregate
        clockIntervalMs := a.ms
        clockDeadlineMs := a.now + a.ms
        clockArmed := true
        metricKind := a.value.1
        emitSubject := a.subject } [] := hring.congr_ring rfl rfl rfl rfl rfl
    have hpushed := (hset.push hpush).congr_ring (d := { e' with kind := .clock }) rfl rfl rfl
      rfl rfl
    simpa [hcounted] using hpushed
  · intro b hb
    obtain rfl : a = b := by simpa [hcounted] using hb
    exact ⟨(ringPushTime_sum hpush).2, hmetric⟩

theorem coercePayload_memory {A : EvalAlloc → Bool} {v : Value N} {text : Bytes}
    (h : coercePayload A v = some text) : coercePayload (fun _ => true) v = some text := by
  cases v with
  | number n =>
    have hunfold : ∀ B : EvalAlloc → Bool, coercePayload B (.number n) =
        if B .arena then shortestText n [15, 16, 17] else none := fun _ => rfl
    rw [hunfold] at h ⊢
    split_ifs at h
    exact h
  | _ => exact h

/-- The tick at the deadline of a slot with samples in its ring. -/
theorem tickAggregate_ok {A : EvalAlloc → Bool} {e : StateEntry N} (hlen : e.ringLen ≠ 0)
    {fires : Fired N} (hok : (tickAggregate A e).result = .ok fires) :
    ∃ v text, metricValue e = some v ∧ coercePayload A v = some text ∧
      tickAggregate A e = ⟨nextDeadline { e with
        bytes := text, kind := .clock, ringLen := 0, ringStart := 0, ringSum := ofNat 0 }, false,
        .ok (.publish e.emitSubject text)⟩ := by
  unfold tickAggregate StateEntry.setBytes at hok ⊢
  rw [if_neg hlen] at hok ⊢
  cases hvalue : metricValue e with
  | none =>
    rw [hvalue] at hok
    cases hok
  | some v =>
    rw [hvalue] at hok
    dsimp only at hok ⊢
    cases htext : coercePayload A v with
    | none =>
      rw [htext] at hok
      cases hok
    | some text =>
      rw [htext, Option.bind_some] at hok
      by_cases hbytes : A .bytes = true
      · refine ⟨v, text, rfl, htext, ?_⟩
        simp only [hbytes, if_true, Option.bind_some]
        rfl
      · rw [if_neg hbytes] at hok
        cases hok

/-- A message that is before a time to fire is counted there at the latest. -/
theorem not_counted_of_before {n start k : ℕ} {a : Incoming V}
    (h : a.Before (start + (k + 1) * n)) : counted n start (k + 1) a = false := by
  simp [counted, h]

theorem holdsInterval_tick {n last now : UInt64} {A : EvalAlloc → Bool}
    {first : Incoming (MetricKind × N)} {e : StateEntry N}
    {messages : List (Incoming (MetricKind × N))} {sent : List Emission} {k : ℕ}
    {fires : Fired N ⊕ Option (StateEntry.BarClose N)}
    (h : HoldsInterval n last e first messages sent k) (hroom : now.toNat + n.toNat < 2 ^ 64)
    (htime : last ≤ now) (hdue : now ≤ e.clockDeadlineMs)
    (hok : (tickEntry A now e).result = .ok fires) :
    ∃ k', HoldsInterval n now (tickEntry A now e).entry first messages
      (sent ++ emitted now fires) k' := by
  have hkind := h.cadence.kind
  by_cases hwait : now < e.clockDeadlineMs
  · obtain ⟨hentry, hsent⟩ := unsent_early A hkind (.inr hwait) hok sent
    rw [hentry, hsent]
    exact ⟨k, h.cadence.later htime, h.clock, h.before, h.ring, h.recent, h.emits⟩
  have hat : now = e.clockDeadlineMs := UInt64.le_antisymm hdue (UInt64.not_lt.mp hwait)
  have hnow : now.toNat = first.now.toNat + (k + 1) * n.toNat := by
    rw [hat]
    exact h.cadence.deadline
  have hclock : tickClock A now e = tickAggregate A e := by
    rw [tickClock, if_neg (by simp [h.cadence.armed, hwait]), h.clock]
  have hbefore : ∀ a ∈ messages, a.Before (first.now.toNat + (k + 1 + 1) * n.toNat) := by
    intro a ha
    apply (h.before a ha).mono
    have hmul : (k + 1) * n.toNat ≤ (k + 1 + 1) * n.toNat :=
      Nat.mul_le_mul_right n.toNat (Nat.le_succ (k + 1))
    omega
  -- no message is counted in the interval that begins now
  have hnext : messages.filter (counted n.toNat first.now.toNat (k + 1)) = [] := by
    apply List.filter_eq_nil_iff.mpr
    intro a ha
    simp [not_counted_of_before (h.before a ha)]
  have hrange : (List.range (k + 1)).filterMap (intervalPart n first messages) =
      sent.map Emission.parts ++ (intervalPart n first messages k).toList := by
    rw [List.range_succ, List.filterMap_append, ← h.emits]
    cases hpart : intervalPart n first messages k <;> simp [hpart]
  rw [tickEntry_clock A now hkind, hclock] at hok ⊢
  by_cases hlen : e.ringLen = 0
  · -- nothing to say
    have htaken : messages.filter (counted n.toNat first.now.toNat k) = [] := by
      have hzero := h.ring.length.symm.trans hlen
      simpa using hzero
    have hempty : tickAggregate A e = .done (nextDeadline e) .nothing := by
      rw [tickAggregate, if_pos hlen]
    rw [hempty] at hok ⊢
    cases hok
    have hnone : emitted now (.inl .nothing : Fired N ⊕ Option (StateEntry.BarClose N)) = [] := rfl
    rw [hnone, List.append_nil]
    refine ⟨k + 1, h.cadence.next hat hroom hkind rfl rfl rfl, h.clock, hbefore, ?_, ?_, ?_⟩
    · have hring := h.ring.congr_ring (d := nextDeadline e) rfl rfl rfl rfl rfl
      rw [htaken] at hring
      rwa [hnext]
    · simp [hnext]
    · rw [hrange]
      simp [intervalPart, htaken]
  · -- the ring becomes an emission
    have htaken : messages.filter (counted n.toNat first.now.toNat k) ≠ [] := by
      intro hnil
      have hzero := h.ring.length
      rw [hnil] at hzero
      exact hlen hzero
    obtain ⟨a, ha⟩ : ∃ a, (messages.filter (counted n.toNat first.now.toNat k)).getLast? = some a :=
      ⟨_, List.getLast?_eq_some_getLast htaken⟩
    obtain ⟨hsubject, hmetric⟩ := h.recent a ha
    have hresult : ∃ fires', (tickAggregate A e).result = .ok fires' := by
      cases hcase : (tickAggregate A e).result with
      | error err =>
        rw [hcase] at hok
        cases hok
      | ok fires' => exact ⟨fires', rfl⟩
    obtain ⟨fires', hfires⟩ := hresult
    obtain ⟨v, text, hvalue, htext, htick⟩ := tickAggregate_ok hlen hfires
    rw [htick] at hok ⊢
    cases hok
    have hpart : intervalPart n first messages k = some (now.toNat, e.emitSubject, some text) := by
      have hover : metricText n (messages.filter (counted n.toNat first.now.toNat k)) a =
          some text := by
        have hmap : (messages.filter (counted n.toNat first.now.toNat k)).map
            (fun b => b.value.2) ≠ [] := by simpa using htaken
        have hsame := metricValue_eq h.ring hmap
        rw [hvalue, hmetric, h.cadence.interval] at hsame
        rw [metricText, ← hsame]
        exact coercePayload_memory htext
      simp only [intervalPart, ha, Option.map_some, hover, hsubject, hnow]
    refine ⟨k + 1, h.cadence.next hat hroom rfl rfl rfl rfl, h.clock, hbefore, ?_, ?_, ?_⟩
    · rw [hnext]
      refine ⟨⟨Nat.zero_le _, fun hcap => Nat.pos_of_ne_zero hcap⟩, rfl, rfl⟩
    · simp [hnext]
    · rw [hrange, hpart, List.map_append]
      rfl

/-- The invariant of a slot of `aggregate!`. -/
def HoldsIntervals (n last : UInt64) (e : StateEntry N)
    (messages : List (Incoming (MetricKind × N))) (sent : List Emission) : Prop :=
  e.kind = .empty ∧ HoldsTaken e [] ∧ messages = [] ∧ sent = [] ∨
    ∃ first rest k, messages = first :: rest ∧ HoldsInterval n last e first messages sent k

theorem holdsIntervals_of_driven {n last : UInt64} {e : StateEntry N}
    {messages : List (Incoming (MetricKind × N))} {sent : List Emission}
    (h : Driven aggregateArm last e messages sent) (hn : 0 < n.toNat)
    (hms : ∀ a ∈ messages, a.ms = n) (hroom : last.toNat + n.toNat < 2 ^ 64) :
    HoldsIntervals n last e messages sent := by
  induction h with
  | fresh k =>
    exact .inl ⟨rfl, ⟨⟨le_rfl, fun hcap => absurd rfl hcap⟩, rfl, rfl⟩, rfl, rfl⟩
  | @message last e messages sent _ A a time due early ok ih =>
    have hms' := fun b hb => hms b (List.mem_append_left _ hb)
    have hroom' : last.toNat + n.toNat < 2 ^ 64 :=
      lt_of_le_of_lt (Nat.add_le_add_right (UInt64.le_iff_toNat_le.mp time) _) hroom
    rcases ih hms' hroom' with ⟨hempty, hring, rfl, rfl⟩ | ⟨first, rest, k, rfl, h⟩
    · have hfirst := holdsInterval_first hempty hring hn (hms a (by simp)) hroom ok
      exact .inr ⟨a, [], 0, rfl, hfirst⟩
    · refine .inr ⟨first, rest ++ [a], k, rfl, ?_⟩
      exact holdsInterval_message h hn time
        (due (inTime_of_interval hn hms' hroom') h.cadence.isArmed) (fun hyes => (early hyes).2) ok
  | @tick last e messages sent _ A now time due fired ok ih =>
    have hroom' : last.toNat + n.toNat < 2 ^ 64 :=
      lt_of_le_of_lt (Nat.add_le_add_right (UInt64.le_iff_toNat_le.mp time) _) hroom
    rcases ih hms hroom' with ⟨hempty, hring, rfl, rfl⟩ | ⟨first, rest, k, rfl, h⟩
    · have hsame := tickEntry_empty A now hempty
      rw [tickEntry_unclocked A now (by simp [hempty]) ok, hsame]
      exact .inl ⟨hempty, hring, rfl, rfl⟩
    · obtain ⟨k', h'⟩ := holdsInterval_tick h hroom time
        (due (inTime_of_interval hn hms hroom') h.cadence.isArmed) ok
      exact .inr ⟨first, rest, k', rfl, h'⟩

/-- A slot of `aggregate!` emits the metric of the samples of each of its intervals. -/
theorem aggregate_emits {n last : UInt64} {e : StateEntry N}
    {messages : List (Incoming (MetricKind × N))} {sent : List Emission}
    (h : Driven aggregateArm last e messages sent) (hn : 0 < n.toNat)
    (hms : ∀ a ∈ messages, a.ms = n) (hroom : last.toNat + n.toNat < 2 ^ 64)
    (hcaught : e.Armed → last < e.clockDeadlineMs) :
    sent.map Emission.parts = aggregated n last.toNat messages := by
  rcases holdsIntervals_of_driven h hn hms hroom with
    ⟨-, -, rfl, rfl⟩ | ⟨first, rest, k, rfl, h⟩
  · rfl
  · rw [aggregated, h.cadence.rounds (hcaught h.cadence.isArmed)]
    exact h.emits

end Monoblok.Patchbay
