import Mathlib.Data.List.SplitBy
import Monoblok.Patchbay.Exact
import Monoblok.Patchbay.Windows

/-!
# Emitters on a clock

A slot of `debounce!`, `sample!` or `aggregate!` is driven by event time when it is ticked
at its deadline before it takes a message that comes later. Its messages then determine
what it emits.

A tick may itself publish messages. One that comes in this way at the very deadline of a
slot which the tick has not reached yet is early: it is taken before the slot fires.
-/

namespace Monoblok.Patchbay

open Number

variable {N : Type} [Number N] {V : Type}

/-! ## Driven slots -/

/-- A message that a slot takes. -/
structure Incoming (V : Type) where
  now : UInt64
  ms : UInt64
  early : Bool
  subject : Bytes
  value : V

/-- A message comes before a deadline in the order in which the slot sees the two. -/
def Incoming.Before (a : Incoming V) (deadline : ℕ) : Prop :=
  a.now.toNat < deadline ∨ a.early = true ∧ a.now.toNat = deadline

instance (a : Incoming V) (deadline : ℕ) : Decidable (a.Before deadline) :=
  inferInstanceAs (Decidable (a.now.toNat < deadline ∨ a.early = true ∧ a.now.toNat = deadline))

structure Emission where
  time : ℕ
  subject : Bytes
  payload : Bytes
  deriving DecidableEq

/-- What a tick publishes for a slot. -/
def emitted (now : UInt64) : Fired N ⊕ Option (StateEntry.BarClose N) → List Emission
  | .inl (.publish subject payload) => [⟨now.toNat, subject, payload⟩]
  | _ => []

def StateEntry.Armed (e : StateEntry N) : Prop := e.kind = .clock ∧ e.clockArmed = true

instance (e : StateEntry N) : Decidable e.Armed :=
  inferInstanceAs (Decidable (e.kind = .clock ∧ e.clockArmed = true))

/-- The intervals of the messages have not come to 0 when they were converted, and lead
to no time past the last one. -/
def InTime (now : UInt64) (messages : List (Incoming V)) : Prop :=
  ∀ a ∈ messages, a.ms ≠ 0 ∧ now.toNat + a.ms.toNat < 2 ^ 64

/-- A form of an emitter on its slot. -/
abbrev Arm (N V : Type) := (EvalAlloc → Bool) → Incoming V → StateEntry N → SlotStep N (Value N)

/-- A slot that comes from a fresh one by messages and ticks at times that do not go back,
with its messages and what it has emitted. No step comes after a deadline of the slot
without a tick at it. -/
inductive Driven (arm : Arm N V) :
    UInt64 → StateEntry N → List (Incoming V) → List Emission → Prop
  | fresh (k : StateKey) : Driven arm 0 (freshEntry k) [] []
  | message {last : UInt64} {e : StateEntry N} {messages : List (Incoming V)}
      {sent : List Emission} (h : Driven arm last e messages sent)
      (A : EvalAlloc → Bool) (a : Incoming V) (time : last ≤ a.now)
      (due : InTime last messages → e.Armed → a.Before e.clockDeadlineMs.toNat)
      (early : a.early = true → e.Armed ∧ a.now = e.clockDeadlineMs)
      (ok : (arm A a e).result.isOk = true) :
      Driven arm a.now (arm A a e).entry (messages ++ [a]) sent
  | tick {last : UInt64} {e : StateEntry N} {messages : List (Incoming V)}
      {sent : List Emission} (h : Driven arm last e messages sent)
      (A : EvalAlloc → Bool) (now : UInt64) (time : last ≤ now)
      (due : InTime last messages → e.Armed → now ≤ e.clockDeadlineMs)
      {fired : Fired N ⊕ Option (StateEntry.BarClose N)}
      (ok : (tickEntry A now e).result = .ok fired) :
      Driven arm now (tickEntry A now e).entry messages (sent ++ emitted now fired)

theorem InTime.earlier {now now' : UInt64} {messages : List (Incoming V)} (h : InTime now' messages)
    (hle : now ≤ now') : InTime now messages := by
  intro a ha
  obtain ⟨hms, hfits⟩ := h a ha
  rw [UInt64.le_iff_toNat_le] at hle
  exact ⟨hms, by omega⟩

theorem InTime.init {now : UInt64} {messages : List (Incoming V)} {a : Incoming V}
    (h : InTime now (messages ++ [a])) : InTime now messages :=
  fun b hb => h b (List.mem_append_left _ hb)

/-- All messages of an emitter wait for the same interval, and there is room for it. -/
theorem inTime_of_interval {n t : UInt64} {messages : List (Incoming V)} (hn : 0 < n.toNat)
    (hms : ∀ a ∈ messages, a.ms = n) (hroom : t.toNat + n.toNat < 2 ^ 64) : InTime t messages := by
  intro a ha
  rw [hms a ha]
  refine ⟨fun hzero => ?_, hroom⟩
  rw [hzero, UInt64.toNat_zero] at hn
  exact absurd hn (Nat.lt_irrefl 0)

theorem InTime.toNat_add {now t ms : UInt64} (h : now.toNat + ms.toNat < 2 ^ 64) (hle : t ≤ now) :
    (t + ms).toNat = t.toNat + ms.toNat := by
  rw [UInt64.le_iff_toNat_le] at hle
  rw [UInt64.toNat_add, Nat.mod_eq_of_lt (by omega)]

/-! ## Ticks of clocks -/

theorem tickEntry_clock (A : EvalAlloc → Bool) (now : UInt64) {e : StateEntry N}
    (hkind : e.kind = .clock) :
    tickEntry A now e = ⟨(tickClock A now e).entry, (tickClock A now e).suppressed,
      (tickClock A now e).result.map .inl⟩ := by
  rw [tickEntry, if_pos hkind]

/-- A clock that is not due stays as it is. -/
theorem tickEntry_early (A : EvalAlloc → Bool) {now : UInt64} {e : StateEntry N}
    (hkind : e.kind = .clock) (hwait : e.clockArmed = false ∨ now < e.clockDeadlineMs) :
    tickEntry A now e = ⟨e, false, .ok (.inl .nothing)⟩ := by
  rw [tickEntry_clock A now hkind, tickClock, if_pos (by simpa using hwait)]
  rfl

/-- So the tick leaves what was sent as it is. -/
theorem unsent_early (A : EvalAlloc → Bool) {now : UInt64} {e : StateEntry N}
    (hkind : e.kind = .clock) (hwait : e.clockArmed = false ∨ now < e.clockDeadlineMs)
    {fires : Fired N ⊕ Option (StateEntry.BarClose N)}
    (hok : (tickEntry A now e).result = .ok fires) (sent : List Emission) :
    (tickEntry A now e).entry = e ∧ sent ++ emitted now fires = sent := by
  have htick := tickEntry_early A hkind hwait
  rw [htick] at hok ⊢
  cases hok
  exact ⟨rfl, List.append_nil sent⟩

/-- The tick of a slot that is no clock emits nothing. -/
theorem tickEntry_unclocked (A : EvalAlloc → Bool) (now : UInt64) {e : StateEntry N}
    (hkind : e.kind ≠ .clock) {fired : Fired N ⊕ Option (StateEntry.BarClose N)}
    (hok : (tickEntry A now e).result = .ok fired) : emitted now fired = [] := by
  rw [tickEntry, if_neg hkind] at hok
  change Except.map Sum.inr (tickWindow now e).result = _ at hok
  cases hresult : (tickWindow now e).result with
  | error err =>
    rw [hresult] at hok
    cases hok
  | ok close =>
    rw [hresult] at hok
    cases hok
    rfl

/-- The tick of an empty slot leaves it as it is. -/
theorem tickEntry_empty (A : EvalAlloc → Bool) (now : UInt64) {e : StateEntry N}
    (hkind : e.kind = .empty) : (tickEntry A now e).entry = e := by
  rw [tickEntry, if_neg (by simp [hkind]), tickWindow, if_neg (by simp [hkind]),
    StateEntry.barTimeTick, if_pos (by simp [hkind])]
  rfl

/-! ## Retained messages -/

omit [Number N] in
/-- A message that is retained replaces the one before, and moves the deadline or leaves it. -/
theorem retainPublish_ok {A : EvalAlloc → Bool} {kind : ClockKind} {ms now : UInt64}
    {subject payload : Bytes} {reset : Bool} {e : StateEntry N}
    (h : (retainPublish A kind ms now subject payload reset e).result.isOk = true) :
    (retainPublish A kind ms now subject payload reset e).entry =
      { e with
        kind := .clock
        clockKind := kind
        clockIntervalMs := ms
        clockArmed := true
        clockDeadlineMs :=
          if reset || e.clockDeadlineMs == 0 then now + ms else e.clockDeadlineMs
        emitSubject := subject
        bytes := payload } := by
  unfold retainPublish StateEntry.setEmitSubject StateEntry.setBytes at h ⊢
  by_cases hsubject : A .emitSubject = true
  · by_cases hbytes : A .bytes = true
    · simp only [hsubject, hbytes, if_true]
      rfl
    · simp [hsubject, hbytes, SlotStep.fail, Except.isOk, Except.toBool] at h
  · simp [hsubject, SlotStep.fail, Except.isOk, Except.toBool] at h

/-- `debounce!` -/
def debounceArm : Arm N Bytes := fun A a =>
  retainPublish A .debounce a.ms a.now a.subject a.value true

/-- `sample!` -/
def sampleArm : Arm N Bytes := fun A a =>
  retainPublish A .sample a.ms a.now a.subject a.value false

/-! ## Quiet time -/

/-- Two messages in a row with less than an interval between them. -/
def joined (n : ℕ) (a b : Incoming V) : Bool := decide (b.Before (a.now.toNat + n))

/-- The last message of a run, when it has been quiet for long enough at a time. -/
def settled (n time : ℕ) (run : List (Incoming Bytes)) : Option Emission :=
  run.getLast?.bind fun a =>
    if a.now.toNat + n ≤ time then some ⟨a.now.toNat + n, a.subject, a.value⟩ else none

/-- What `debounce!` has emitted by a time: one message for each maximal run of messages
with less than the interval from one to the next. -/
def debounced (n time : ℕ) (messages : List (Incoming Bytes)) : List Emission :=
  (messages.splitBy (joined n)).filterMap (settled n time)

/-- One more element either goes on with the last run or begins a new one. -/
theorem splitBy_concat {α : Type*} {r : α → α → Bool} {l : List α} {groups : List (List α)}
    {group : List α} {a : α} (h : l.splitBy r = groups ++ [group ++ [a]]) (b : α) :
    (l ++ [b]).splitBy r =
      if r a b then groups ++ [(group ++ [a]) ++ [b]] else groups ++ [group ++ [a]] ++ [[b]] := by
  obtain ⟨hflat, hne, hchains, hbreaks⟩ := List.splitBy_eq_iff.mp h
  have hlast : l.getLast? = some a := by
    rw [hflat, List.flatten_append]
    simp
  cases hr : r a b with
  | false =>
    rw [if_neg (by simp), List.splitBy_append_cons, h]
    · rfl
    · intro x hx
      obtain rfl : a = x := Option.some.inj (hlast.symm.trans hx)
      exact hr
  | true =>
    rw [if_pos rfl, List.splitBy_eq_iff]
    refine ⟨?_, ?_, ?_, ?_⟩
    · rw [hflat]
      simp
    · simpa using hne
    · intro run hrun
      rcases List.mem_append.mp hrun with hrun | hrun
      · exact hchains run (List.mem_append_left _ hrun)
      · rw [List.mem_singleton.mp hrun]
        apply List.IsChain.append (hchains _ (by simp)) (by simp)
        simpa using hr
    · rw [List.isChain_append] at hbreaks ⊢
      refine ⟨hbreaks.1, by simp, fun x hx y hy => ?_⟩
      obtain ⟨hx', hy', hbreak⟩ := hbreaks.2.2 x hx (group ++ [a]) (by simp)
      obtain rfl : (group ++ [a]) ++ [b] = y := by simpa using hy
      refine ⟨hx', by simp, ?_⟩
      rwa [List.head_append_of_ne_nil hy']

/-- What is emitted for runs that are over. -/
def fired (n : ℕ) (runs : List (List (Incoming Bytes))) : List Emission :=
  runs.filterMap fun run =>
    run.getLast?.map fun a => ⟨a.now.toNat + n, a.subject, a.value⟩

/-- The runs have been quiet for an interval. -/
def Quiet (n time : ℕ) (runs : List (List (Incoming Bytes))) : Prop :=
  ∀ run ∈ runs, ∀ a, run.getLast? = some a → a.now.toNat + n ≤ time

theorem fired_of_quiet {n time : ℕ} {runs : List (List (Incoming Bytes))} (h : Quiet n time runs) :
    runs.filterMap (settled n time) = fired n runs := by
  apply List.filterMap_congr
  intro run hrun
  rw [settled]
  cases hlast : run.getLast? with
  | none => rfl
  | some a => simp [h run hrun a hlast]

/-- A slot of `debounce!` that has taken a message: it waits for the last run to end, or
has emitted for it. -/
structure HoldsLastRun (n last : UInt64) (e : StateEntry N) (messages : List (Incoming Bytes))
    (sent : List Emission) (runs : List (List (Incoming Bytes))) (run : List (Incoming Bytes))
    (a : Incoming Bytes) : Prop where
  split : messages.splitBy (joined n.toNat) = runs ++ [run ++ [a]]
  kind : e.kind = .clock
  clock : e.clockKind = .debounce
  deadline : e.clockDeadlineMs = a.now + n
  subject : e.emitSubject = a.subject
  payload : e.bytes = a.value
  since : a.now ≤ last
  quiet : Quiet n.toNat last.toNat runs
  waits : e.clockArmed = true → sent = fired n.toNat runs
  ended : e.clockArmed = false →
    a.now.toNat + n.toNat ≤ last.toNat ∧ sent = fired n.toNat (runs ++ [run ++ [a]])

/-- The invariant of a slot of `debounce!`. -/
def HoldsRuns (n last : UInt64) (e : StateEntry N) (messages : List (Incoming Bytes))
    (sent : List Emission) : Prop :=
  e.kind = .empty ∧ messages = [] ∧ sent = [] ∨
    ∃ runs run a, HoldsLastRun n last e messages sent runs run a

omit [Number N] in
theorem quiet_later {n time time' : ℕ} {runs : List (List (Incoming Bytes))}
    (h : Quiet n time runs) (hle : time ≤ time') : Quiet n time' runs :=
  fun run hrun a ha => (h run hrun a ha).trans hle

theorem quiet_concat {n time : ℕ} {runs : List (List (Incoming Bytes))}
    {run : List (Incoming Bytes)} {a : Incoming Bytes} (h : Quiet n time runs)
    (ha : a.now.toNat + n ≤ time) : Quiet n time (runs ++ [run ++ [a]]) := by
  intro run' hrun b hb
  rcases List.mem_append.mp hrun with hrun | hrun
  · exact h run' hrun b hb
  · rw [List.mem_singleton.mp hrun] at hb
    obtain rfl : a = b := by simpa using hb
    exact ha

omit [Number N] in
/-- The slot right after a message. -/
theorem holdsLastRun_message {n : UInt64} {A : EvalAlloc → Bool} {a : Incoming Bytes}
    {e : StateEntry N} {messages : List (Incoming Bytes)} {sent : List Emission}
    {runs : List (List (Incoming Bytes))} {run : List (Incoming Bytes)} (hms : a.ms = n)
    (hok : (debounceArm A a e).result.isOk = true)
    (hsplit : messages.splitBy (joined n.toNat) = runs ++ [run ++ [a]])
    (hquiet : Quiet n.toNat a.now.toNat runs) (hsent : sent = fired n.toNat runs) :
    HoldsLastRun n a.now (debounceArm A a e).entry messages sent runs run a := by
  have hentry := retainPublish_ok hok
  unfold debounceArm at hentry ⊢
  rw [hentry]
  exact ⟨hsplit, rfl, rfl, by simp [hms], rfl, rfl, UInt64.le_refl _, hquiet, fun _ => hsent,
    fun h => by cases h⟩

omit [Number N] in
theorem holdsRuns_message {n last : UInt64} {A : EvalAlloc → Bool} {a : Incoming Bytes}
    {e : StateEntry N} {messages : List (Incoming Bytes)} {sent : List Emission}
    (h : HoldsRuns n last e messages sent) (hroom : last.toNat + n.toNat < 2 ^ 64) (hms : a.ms = n)
    (htime : last ≤ a.now) (hdue : e.Armed → a.Before e.clockDeadlineMs.toNat)
    (hearly : a.early = true → e.Armed) (hok : (debounceArm A a e).result.isOk = true) :
    HoldsRuns n a.now (debounceArm A a e).entry (messages ++ [a]) sent := by
  have htime' := UInt64.le_iff_toNat_le.mp htime
  rcases h with ⟨-, rfl, rfl⟩ | ⟨runs, run, b, h⟩
  · refine .inr ⟨[], [], a, holdsLastRun_message hms hok ?_ ?_ rfl⟩
    · simp [List.splitBy, List.splitBy.loop]
    · exact fun run hrun => by cases hrun
  have hsum := InTime.toNat_add hroom h.since
  have hquiet := quiet_later h.quiet htime'
  by_cases harmed : e.clockArmed = true
  · -- the message comes before the deadline, so it goes on with the last run
    have hbefore := hdue ⟨h.kind, harmed⟩
    rw [h.deadline, hsum] at hbefore
    have hsplit := splitBy_concat h.split a
    rw [joined, if_pos (decide_eq_true hbefore)] at hsplit
    exact .inr ⟨runs, run ++ [b], a, holdsLastRun_message hms hok hsplit hquiet (h.waits harmed)⟩
  · -- the last run is over, so the message begins a new one
    obtain ⟨hover, hsent⟩ := h.ended (by simpa using harmed)
    have hlate : ¬a.Before (b.now.toNat + n.toNat) := by
      rintro (hlt | ⟨hyes, -⟩)
      · omega
      · exact harmed (hearly hyes).2
    have hsplit := splitBy_concat h.split a
    rw [joined, if_neg (by simpa using hlate)] at hsplit
    refine .inr ⟨runs ++ [run ++ [b]], [], a, holdsLastRun_message hms hok hsplit ?_ hsent⟩
    exact quiet_concat hquiet (hover.trans htime')

theorem holdsRuns_tick {n last now : UInt64} {A : EvalAlloc → Bool} {e : StateEntry N}
    {messages : List (Incoming Bytes)} {sent : List Emission}
    {fires : Fired N ⊕ Option (StateEntry.BarClose N)} (h : HoldsRuns n last e messages sent)
    (hroom : now.toNat + n.toNat < 2 ^ 64) (htime : last ≤ now)
    (hdue : e.Armed → now ≤ e.clockDeadlineMs) (hok : (tickEntry A now e).result = .ok fires) :
    HoldsRuns n now (tickEntry A now e).entry messages (sent ++ emitted now fires) := by
  have htime' := UInt64.le_iff_toNat_le.mp htime
  rcases h with ⟨hkind, rfl, rfl⟩ | ⟨runs, run, a, h⟩
  · rw [tickEntry_empty A now hkind, tickEntry_unclocked A now (by simp [hkind]) hok]
    exact .inl ⟨hkind, rfl, rfl⟩
  have hquiet := quiet_later h.quiet htime'
  by_cases hwait : e.clockArmed = false ∨ now < e.clockDeadlineMs
  · obtain ⟨hentry, hsent⟩ := unsent_early A h.kind hwait hok sent
    rw [hentry, hsent]
    refine .inr ⟨runs, run, a, ⟨h.split, h.kind, h.clock, h.deadline, h.subject, h.payload,
      UInt64.le_trans h.since htime, hquiet, h.waits, fun hover => ?_⟩⟩
    exact (h.ended hover).imp_left fun hle => hle.trans htime'
  · -- the slot is due, and no later than it should be
    obtain ⟨harmed, hnow⟩ := not_or.mp hwait
    have harmed' : e.clockArmed = true := by simpa using harmed
    have hat : now = e.clockDeadlineMs :=
      UInt64.le_antisymm (hdue ⟨h.kind, harmed'⟩) (UInt64.not_lt.mp hnow)
    have hsum : now.toNat = a.now.toNat + n.toNat := by
      rw [hat, h.deadline]
      exact InTime.toNat_add hroom (UInt64.le_trans h.since htime)
    have htick : tickEntry A now e =
        ⟨{ e with clockArmed := false }, false, .ok (.inl (.publish a.subject a.value))⟩ := by
      rw [tickEntry_clock A now h.kind, tickClock, if_neg (by simpa using hwait), h.clock,
        ← h.subject, ← h.payload]
      rfl
    rw [htick] at hok ⊢
    cases hok
    refine .inr ⟨runs, run, a, ⟨h.split, h.kind, h.clock, h.deadline, h.subject, h.payload,
      UInt64.le_trans h.since htime, hquiet, (fun hyes => by cases hyes), fun _ => ⟨hsum.ge, ?_⟩⟩⟩
    rw [h.waits harmed', fired, fired, List.filterMap_append]
    simp [emitted, hsum]

theorem holdsRuns_of_driven {n last : UInt64} {e : StateEntry N} {messages : List (Incoming Bytes)}
    {sent : List Emission} (h : Driven debounceArm last e messages sent) (hn : 0 < n.toNat)
    (hms : ∀ a ∈ messages, a.ms = n) (hroom : last.toNat + n.toNat < 2 ^ 64) :
    HoldsRuns n last e messages sent := by
  induction h with
  | fresh k => exact .inl ⟨rfl, rfl, rfl⟩
  | message _ A a time due early ok ih =>
    have hms' := fun b hb => hms b (List.mem_append_left _ hb)
    have hroom' := by
      have hle := UInt64.le_iff_toNat_le.mp time
      exact lt_of_le_of_lt (Nat.add_le_add_right hle n.toNat) hroom
    exact holdsRuns_message (ih hms' hroom') hroom' (hms a (by simp)) time
      (due (inTime_of_interval hn hms' hroom')) (fun hyes => (early hyes).1) ok
  | tick _ A now time due ok ih =>
    have hroom' := by
      have hle := UInt64.le_iff_toNat_le.mp time
      exact lt_of_le_of_lt (Nat.add_le_add_right hle n.toNat) hroom
    exact holdsRuns_tick (ih hms hroom') hroom time (due (inTime_of_interval hn hms hroom')) ok

/-- A slot of `debounce!` emits for each run of messages that has been quiet for the
interval, once and at the end of the interval. -/
theorem debounce_emits {n last : UInt64} {e : StateEntry N} {messages : List (Incoming Bytes)}
    {sent : List Emission} (h : Driven debounceArm last e messages sent) (hn : 0 < n.toNat)
    (hms : ∀ a ∈ messages, a.ms = n) (hroom : last.toNat + n.toNat < 2 ^ 64)
    (hcaught : e.Armed → last < e.clockDeadlineMs) :
    sent = debounced n.toNat last.toNat messages := by
  rcases holdsRuns_of_driven h hn hms hroom with ⟨-, rfl, rfl⟩ | ⟨runs, run, a, h⟩
  · simp [debounced]
  rw [debounced, h.split]
  by_cases harmed : e.clockArmed = true
  · have hlt := UInt64.lt_iff_toNat_lt.mp (hcaught ⟨h.kind, harmed⟩)
    rw [h.deadline, InTime.toNat_add hroom h.since] at hlt
    rw [List.filterMap_append, fired_of_quiet h.quiet, h.waits harmed]
    simp [settled, hlt]
  · obtain ⟨hover, hsent⟩ := h.ended (by simpa using harmed)
    rw [fired_of_quiet (quiet_concat h.quiet hover), hsent]

end Monoblok.Patchbay
