import Monoblok.Lib.Runs
import Monoblok.Patchbay.Related
import Monoblok.Patchbay.Whole
import Monoblok.Router.Publish
import Monoblok.Server.Conn
import Monoblok.Snapshot.Format

/-!
# The patchbay timer

The one timer `server.c` keeps for the deadlines of its program, through the
start of the server and the callbacks of its loop. The code points it at the
earliest deadline by hand, after whatever may have moved that deadline.

Times are milliseconds of the loop clock; the program runs on that clock plus an
offset, which is zero until a JetStream catch-up is over.
-/

namespace Monoblok.Clock

open Patchbay Snapshot

/-- The clocks as a callback reads them: the loop time before the rules run and
before the timer is set, and the wall clock. -/
structure Clocks where
  before : UInt64
  after : UInt64
  wallMs : ℤ

structure Server (N : Type) where
  machine : Machine N World
  loopTime : UInt64
  clockOffsetMs : ℤ
  /-- The loop time at which the active timer is due. -/
  timer : Option UInt64
  timerStarted : Bool
  clientPubsEnabled : Bool
  closing : Bool

/-- What the server runs on, which may answer differently at every callback. `publish` is
`mb_router_publish_with_reply` with the callbacks it makes. -/
structure Host (N : Type) where
  alloc : EvalAlloc → Bool
  readJson : Bytes → Option (Json N)
  rewritten : Bytes → Bytes → Bytes
  drawn : ℕ → Bytes → Bytes → TextOrigin × TextOrigin
  publish : World → Message → World × Bool
  fuel : ℕ

variable {N : Type}

def Host.env (H : Host N) : Env N World where
  alloc := H.alloc
  readJson := H.readJson
  rewritten := H.rewritten
  drawn := H.drawn
  route w subject payload := H.publish w ⟨subject, payload, []⟩
  fuel := H.fuel

def uint64Max : UInt64 := 0xffffffffffffffff

def addClockOffset (nowMs : UInt64) (offsetMs : ℤ) : UInt64 :=
  if 0 ≤ offsetMs then
    let add := UInt64.ofNat offsetMs.toNat
    if uint64Max - add < nowMs then uint64Max else nowMs + add
  else
    let sub := UInt64.ofNat (-offsetMs).toNat
    if sub < nowMs then nowMs - sub else 0

namespace Server

/-- `uv_update_time`; the clock behind it does not go back. -/
def updateTime (s : Server N) (time : UInt64) : Server N :=
  { s with loopTime := if s.loopTime < time then time else s.loopTime }

def patchbayNow (s : Server N) : UInt64 := addClockOffset s.loopTime s.clockOffsetMs

/-- `uv_timer_start`, which stops at the largest time. -/
def startTimer (s : Server N) (timeout : UInt64) : Server N :=
  let due := s.loopTime + timeout
  { s with timer := some (if due < timeout then uint64Max else due) }

def reschedulePatchbayClock (s : Server N) (time : UInt64) : Server N :=
  if !s.timerStarted then s
  else
    match nextClockDeadline s.machine.program with
    | none => { s with timer := none }
    | some deadline =>
      let s := s.updateTime time
      s.startTimer (if deadline ≤ s.patchbayNow then 0 else deadline - s.patchbayNow)

def run {α : Type} (s : Server N) (m : MachineM N World α) : Option (α × Server N) :=
  (m s.machine).map fun x => (x.1, { s with machine := x.2 })

end Server

/-! ## Callbacks -/

section Callbacks

variable [Number N] (H : Host N)

def clientPublish (t : Clocks) (m : Message) (s : Server N) :
    Option (ClientPublishStatus × Server N) :=
  if !s.clientPubsEnabled then some (.disabled, s)
  else if subjectHasLvcPrefix m.subject then some (.lvcReadOnly, s)
  else if subjectHasStatsPrefix m.subject then some (.statsReadOnly, s)
  else
    let (w, routed) := H.publish s.machine.world m
    let s := { s with machine.world := w }
    if !routed then some (.routerFailed, s)
    else do
      let s := s.updateTime t.before
      let (ok, s) ← s.run (evalPublish H.env ⟨s.patchbayNow, t.wallMs, false⟩ m.subject m.payload)
      if ok then pure (.ok, s.reschedulePatchbayClock t.after) else pure (.patchbayFailed, s)

/-- A message of a core import. -/
def importIngress (t : Clocks) (subject payload : Bytes) (s : Server N) : Option (Server N) :=
  if s.closing then some s
  else do
    let s := s.updateTime t.before
    let (_, s) ← s.run (evalPublish H.env ⟨s.patchbayNow, t.wallMs, false⟩ subject payload)
    pure (s.reschedulePatchbayClock t.after)

/-- A message of a stream, with the time of its event. -/
structure StreamMsg where
  subject : Bytes
  payload : Bytes
  nowMs : UInt64
  wallMs : ℤ

def jetstreamIngress (time : UInt64) (m : StreamMsg) (replaying : Bool) (s : Server N) :
    Option (Server N) :=
  if s.closing then some s
  else do
    let (_, s) ← s.run (tickUntil H.env ⟨m.nowMs, m.wallMs, replaying⟩)
    let (_, s) ← s.run (evalPublish H.env ⟨m.nowMs, m.wallMs, replaying⟩ m.subject m.payload)
    pure (if replaying then s else s.reschedulePatchbayClock time)

def onPatchbayTimer (t : Clocks) (s : Server N) : Option (Server N) := do
  let s := s.updateTime t.before
  let (_, s) ← s.run (tick H.env ⟨s.patchbayNow, t.wallMs, false⟩)
  pure (s.reschedulePatchbayClock t.after)

/-- The loop stops a timer before it calls it. -/
def fireTimer (t : Clocks) (s : Server N) : Option (Server N) :=
  match s.timer with
  | none => some s
  | some due => if s.loopTime < due then some s else onPatchbayTimer H t { s with timer := none }

/-! ## Start -/

/-- A server without rules. -/
def noProgram : Program N := ⟨[], [], [], false⟩

def loadSnapshot (r : Router) (program : Option (Program N)) : Option Bytes → Option (Loading N)
  | none => some ⟨r, program, ⟨0, 0⟩⟩
  | some bs => snapshotLoad bs r program

/-- `mb_server_init` on a router with its cache configured. -/
def serverInit (w : World) (program : Option (Program N)) (snapshot : Option Bytes)
    (clientPubsEnabled : Bool) (time : UInt64) : Option (Server N) := do
  let l ← loadSnapshot w.router program snapshot
  let p := l.program.getD noProgram
  pure ⟨⟨p, { w with router := l.router }⟩, time, 0, none, p.usesClockTimer, clientPubsEnabled,
    false⟩

def liveClockOffset (wallMs : ℤ) (loopTime : UInt64) : ℤ :=
  if 0 ≤ wallMs ∧ (loopTime.toNat : ℤ) ≤ wallMs ∧ wallMs - loopTime.toNat ≤ 2 ^ 63 - 1 then
    wallMs - loopTime.toNat
  else 0

/-- The part of `main` after the messages of the streams have been caught up with. -/
def switchToLive (t : Clocks) (s : Server N) : Option (Server N) := do
  let s := s.updateTime t.before
  let s := { s with clockOffsetMs := liveClockOffset t.wallMs s.loopTime }
  let (_, s) ← s.run (tickUntil H.env ⟨UInt64.ofInt t.wallMs, t.wallMs, true⟩)
  pure s

/-- The messages that were waiting in the streams, then the switch. -/
def catchUp (t : Clocks) (ms : List (Host N × StreamMsg)) (s : Server N) : Option (Server N) := do
  let s ← ms.foldlM (fun s x => jetstreamIngress x.1 t.before x.2 true s) s
  switchToLive H t s

/-! ## Runs -/

inductive Event where
  | clientPublish (t : Clocks) (m : Message)
  | importIngress (t : Clocks) (subject payload : Bytes)
  | jetstreamIngress (time : UInt64) (m : StreamMsg)
  | timer (t : Clocks)
  /-- Another callback, which leaves the program and its timer alone. -/
  | other (time : UInt64) (w : World)
  | signal

def step (s : Server N) (x : Host N × Event) : Option (Server N) :=
  match x.2 with
  | .clientPublish t m => (clientPublish x.1 t m s).map Prod.snd
  | .importIngress t subject payload => importIngress x.1 t subject payload s
  | .jetstreamIngress time m => jetstreamIngress x.1 time m false s
  | .timer t => fireTimer x.1 t s
  | .other time w => some { s.updateTime time with machine.world := w }
  | .signal => some { s with closing := true }

end Callbacks

/-! ## The timer and the deadlines -/

/-- A program with a deadline has the timer running, due no later than that
deadline or now. -/
def Armed (s : Server N) : Prop :=
  ∀ d, nextClockDeadline s.machine.program = some d →
    ∃ due, s.timer = some due ∧
      (addClockOffset due s.clockOffsetMs).toNat ≤ max s.patchbayNow.toNat d.toNat

/-- The timer was set up if the program needs one. -/
def TimerReady (s : Server N) : Prop := s.timerStarted = s.machine.program.usesClockTimer

theorem toNat_addClockOffset (nowMs : UInt64) (offsetMs : ℤ) :
    (addClockOffset nowMs offsetMs).toNat =
      if 0 ≤ offsetMs then
        min (2 ^ 64 - 1) (nowMs.toNat + (UInt64.ofNat offsetMs.toNat).toNat)
      else nowMs.toNat - (UInt64.ofNat (-offsetMs).toNat).toNat := by
  have hnow := nowMs.toNat_lt
  unfold addClockOffset
  split
  · have hadd := (UInt64.ofNat offsetMs.toNat).toNat_lt
    generalize UInt64.ofNat offsetMs.toNat = add at hadd ⊢
    have hmax : (uint64Max - add).toNat = 2 ^ 64 - 1 - add.toNat := by
      rw [UInt64.toNat_sub_of_le _ _ (UInt64.le_iff_toNat_le.mpr (by
        change add.toNat ≤ 2 ^ 64 - 1
        omega))]
      rfl
    dsimp only
    split
    · rename_i h
      rw [UInt64.lt_iff_toNat_lt, hmax] at h
      change 2 ^ 64 - 1 = _
      omega
    · rename_i h
      rw [UInt64.lt_iff_toNat_lt, hmax] at h
      rw [UInt64.toNat_add]
      omega
  · generalize UInt64.ofNat (-offsetMs).toNat = sub
    dsimp only
    split
    · rename_i h
      rw [UInt64.toNat_sub_of_le _ _ (UInt64.le_of_lt h)]
    · rename_i h
      rw [UInt64.lt_iff_toNat_lt] at h
      change 0 = _
      omega

theorem patchbayNow_updateTime (s : Server N) (time : UInt64) :
    s.patchbayNow.toNat ≤ (s.updateTime time).patchbayNow.toNat := by
  have hle : s.loopTime.toNat ≤ (s.updateTime time).loopTime.toNat := by
    unfold Server.updateTime
    dsimp only
    split
    · rename_i h
      exact (UInt64.lt_iff_toNat_lt.mp h).le
    · exact le_rfl
  have hoffset : (s.updateTime time).clockOffsetMs = s.clockOffsetMs := rfl
  unfold Server.patchbayNow
  rw [toNat_addClockOffset, toNat_addClockOffset, hoffset]
  by_cases hpos : 0 ≤ s.clockOffsetMs
  · rw [if_pos hpos, if_pos hpos]
    omega
  · rw [if_neg hpos, if_neg hpos]
    omega

theorem Armed.updateTime {s : Server N} (h : Armed s) (time : UInt64) :
    Armed (s.updateTime time) := by
  intro d hd
  obtain ⟨due, hdue, hle⟩ := h d hd
  exact ⟨due, hdue, hle.trans (max_le_max_right _ (patchbayNow_updateTime s time))⟩

theorem toNat_startTimer (s : Server N) (timeout : UInt64) :
    ∃ due, (s.startTimer timeout).timer = some due ∧
      due.toNat = min (2 ^ 64 - 1) (s.loopTime.toNat + timeout.toNat) := by
  have hloop := s.loopTime.toNat_lt
  have htimeout := timeout.toNat_lt
  refine ⟨_, rfl, ?_⟩
  split
  · rename_i h
    rw [UInt64.lt_iff_toNat_lt, UInt64.toNat_add] at h
    change 2 ^ 64 - 1 = _
    omega
  · rename_i h
    rw [UInt64.lt_iff_toNat_lt, UInt64.toNat_add] at h
    rw [UInt64.toNat_add]
    omega

/-- A timer started for the time left until a deadline is due by then. -/
theorem armed_startTimer {s : Server N} {d : UInt64}
    (hd : nextClockDeadline s.machine.program = some d) :
    Armed (s.startTimer (if d ≤ s.patchbayNow then 0 else d - s.patchbayNow)) := by
  intro d' hd'
  obtain rfl : d = d' := Option.some.inj (hd.symm.trans hd')
  obtain ⟨due, hdue, heq⟩ :=
    toNat_startTimer s (if d ≤ s.patchbayNow then 0 else d - s.patchbayNow)
  refine ⟨due, hdue, ?_⟩
  have hnow : s.patchbayNow.toNat = _ := toNat_addClockOffset s.loopTime s.clockOffsetMs
  have htimeout : (if d ≤ s.patchbayNow then 0 else d - s.patchbayNow).toNat =
      d.toNat - s.patchbayNow.toNat := by
    split
    · rename_i h
      rw [UInt64.le_iff_toNat_le] at h
      change 0 = _
      omega
    · rename_i h
      rw [UInt64.toNat_sub_of_le _ _ (UInt64.le_of_lt (UInt64.not_le.mp h))]
  have hd := d.toNat_lt
  change (addClockOffset due s.clockOffsetMs).toNat ≤ max s.patchbayNow.toNat d.toNat
  rw [toNat_addClockOffset, heq, htimeout]
  by_cases hpos : 0 ≤ s.clockOffsetMs
  · rw [if_pos hpos] at hnow ⊢
    omega
  · rw [if_neg hpos] at hnow ⊢
    omega

/-- Whatever the timer was set to before. -/
theorem armed_reschedulePatchbayClock {s : Server N} (h : TimerReady s) (time : UInt64) :
    Armed (s.reschedulePatchbayClock time) := by
  unfold Server.reschedulePatchbayClock
  split
  · rename_i hoff
    intro d hd
    have hclock : s.machine.program.usesClockTimer = false := by
      rw [← h]
      simpa using hoff
    simp [nextClockDeadline, hclock] at hd
  · split
    · rename_i hnone
      intro d hd
      cases hnone.symm.trans hd
    · rename_i deadline hsome
      exact armed_startTimer (s := s.updateTime time) hsome

theorem TimerReady.reschedulePatchbayClock {s : Server N} (h : TimerReady s) (time : UInt64) :
    TimerReady (s.reschedulePatchbayClock time) := by
  unfold Server.reschedulePatchbayClock
  split
  · exact h
  · split <;> exact h

section Steps

variable [Number N] {H : Host N} {s s' : Server N}

/-- A server whose timer is as it should be. -/
structure Ready (s : Server N) : Prop where
  timerReady : TimerReady s
  armed : Armed s

omit [Number N] in
theorem Ready.of_reschedule {s : Server N} (h : TimerReady s) (time : UInt64) :
    Ready (s.reschedulePatchbayClock time) :=
  ⟨h.reschedulePatchbayClock time, armed_reschedulePatchbayClock h time⟩

omit [Number N] in
/-- Evaluations leave the timer set up. -/
theorem TimerReady.run {α : Type} {m : MachineM N World α} {a : α}
    (hm : ∀ p, Relational.Respects (Running p) m) (h : TimerReady s)
    (hrun : s.run m = some (a, s')) : TimerReady s' := by
  unfold Server.run at hrun
  obtain ⟨⟨a', m'⟩, hsome, heq⟩ := Option.map_eq_some_iff.mp hrun
  cases heq
  have hkept := Relational.Respects.invariant
    (I := fun m => SameSource m.program s.machine.program) (hm _) ⟨rfl, rfl, rfl, rfl⟩ hsome
  exact h.trans hkept.clock.symm

theorem TimerReady.evalPublish {t : Moment} {subject payload : Bytes} {ok : Bool}
    (h : TimerReady s)
    (hrun : s.run (Patchbay.evalPublish H.env t subject payload) = some (ok, s')) :
    TimerReady s' :=
  h.run (fun p => respects_evalPublish (compatible_running H.env p) t subject payload) hrun

theorem TimerReady.tickUntil {t : Moment} {ok : Bool} (h : TimerReady s)
    (hrun : s.run (Patchbay.tickUntil H.env t) = some (ok, s')) : TimerReady s' :=
  h.run (fun p => respects_tickUntil (compatible_running H.env p) t) hrun

theorem TimerReady.tick {t : Moment} {ok : Bool} (h : TimerReady s)
    (hrun : s.run (Patchbay.tick H.env t) = some (ok, s')) : TimerReady s' :=
  h.run (fun p => respects_tick (compatible_running H.env p) t) hrun

/-- A client message that is let through to the rules. -/
def ReachesRules (H : Host N) (m : Message) (s : Server N) : Prop :=
  s.clientPubsEnabled = true ∧ subjectHasLvcPrefix m.subject = false ∧
    subjectHasStatsPrefix m.subject = false ∧ (H.publish s.machine.world m).2 = true

/-- The rules that a message reaches go through. -/
def RulesSucceed (H : Host N) (t : Clocks) (m : Message) (s : Server N) : Prop :=
  ReachesRules H m s → ∀ x,
    evalPublish H.env ⟨(s.updateTime t.before).patchbayNow, t.wallMs, false⟩ m.subject m.payload
      ⟨s.machine.program, (H.publish s.machine.world m).1⟩ = some x → x.1 = true

theorem ready_clientPublish {t : Clocks} {m : Message} {status : ClientPublishStatus}
    (h : Ready s) (hrules : RulesSucceed H t m s)
    (hrun : clientPublish H t m s = some (status, s')) : Ready s' := by
  unfold clientPublish at hrun
  split_ifs at hrun with hpubs hlvc hstats
  · cases hrun
    exact h
  · cases hrun
    exact h
  · cases hrun
    exact h
  · cases hpub : H.publish s.machine.world m with
    | mk w routed =>
      rw [hpub] at hrun
      dsimp only at hrun
      have hready : TimerReady { s with machine.world := w } := h.timerReady
      cases routed with
      | false =>
        cases hrun
        exact ⟨hready, h.armed⟩
      | true =>
        simp only [Bool.not_true, Bool.false_eq_true, if_false, Option.bind_eq_bind,
          Option.bind_eq_some_iff] at hrun
        obtain ⟨⟨ok, s₁⟩, heval, hrest⟩ := hrun
        have hready₁ : TimerReady s₁ :=
          TimerReady.evalPublish (s := ({ s with machine.world := w } : Server N).updateTime t.before)
            hready heval
        cases ok with
        | true =>
          cases hrest
          exact .of_reschedule hready₁ t.after
        | false =>
          -- the rules are the ones the condition speaks of
          unfold Server.run at heval
          obtain ⟨x, hx, hok⟩ := Option.map_eq_some_iff.mp heval
          have hreach : ReachesRules H m s := by
            refine ⟨by simpa using hpubs, by simpa using hlvc, by simpa using hstats, ?_⟩
            rw [hpub]
          have htrue := hrules hreach x (by rw [hpub]; exact hx)
          rw [Prod.mk.injEq, htrue] at hok
          cases hok.1

theorem ready_importIngress {t : Clocks} {subject payload : Bytes} (h : Ready s)
    (hrun : importIngress H t subject payload s = some s') : Ready s' := by
  unfold importIngress at hrun
  split_ifs at hrun with hclosing
  · cases hrun
    exact h
  · simp only [Option.bind_eq_bind, Option.bind_eq_some_iff] at hrun
    obtain ⟨⟨ok, s₁⟩, heval, hrest⟩ := hrun
    cases hrest
    exact .of_reschedule
      (TimerReady.evalPublish (s := s.updateTime t.before) h.timerReady heval) t.after

/-- A stream message does nothing on a server that is closing, and otherwise is
evaluated behind the ticks before it. -/
theorem jetstreamIngress_cases {time : UInt64} {m : StreamMsg} {replaying : Bool}
    (hrun : jetstreamIngress H time m replaying s = some s') :
    (s.closing = true ∧ s' = s) ∨
      ∃ ok s₁ ok' s₂, s.run (tickUntil H.env ⟨m.nowMs, m.wallMs, replaying⟩) = some (ok, s₁) ∧
        s₁.run (evalPublish H.env ⟨m.nowMs, m.wallMs, replaying⟩ m.subject m.payload) =
          some (ok', s₂) ∧
        s' = if replaying then s₂ else s₂.reschedulePatchbayClock time := by
  unfold jetstreamIngress at hrun
  by_cases hclosing : s.closing = true
  · rw [if_pos hclosing] at hrun
    exact .inl ⟨hclosing, (Option.some.inj hrun).symm⟩
  · rw [if_neg hclosing] at hrun
    simp only [Option.bind_eq_bind, Option.bind_eq_some_iff] at hrun
    obtain ⟨⟨ok, s₁⟩, htick, ⟨ok', s₂⟩, heval, hrest⟩ := hrun
    exact .inr ⟨ok, s₁, ok', s₂, htick, heval, (Option.some.inj hrest).symm⟩

theorem ready_jetstreamIngress {time : UInt64} {m : StreamMsg} (h : Ready s)
    (hrun : jetstreamIngress H time m false s = some s') : Ready s' := by
  obtain ⟨-, rfl⟩ | ⟨ok, s₁, ok', s₂, htick, heval, rfl⟩ := jetstreamIngress_cases hrun
  · exact h
  · exact .of_reschedule ((h.timerReady.tickUntil htick).evalPublish heval) time

theorem ready_fireTimer {t : Clocks} (h : Ready s) (hrun : fireTimer H t s = some s') :
    Ready s' := by
  unfold fireTimer at hrun
  split at hrun
  · cases hrun
    exact h
  · split_ifs at hrun with hdue
    · cases hrun
      exact h
    · simp only [onPatchbayTimer, Option.bind_eq_bind, Option.bind_eq_some_iff] at hrun
      obtain ⟨⟨ok, s₁⟩, htick, hrest⟩ := hrun
      cases hrest
      exact .of_reschedule
        (TimerReady.tick (s := ({ s with timer := none } : Server N).updateTime t.before)
          h.timerReady htick) t.after

/-- No client message whose rules fail. -/
def Safe (s : Server N) (x : Host N × Event) : Prop :=
  match x.2 with
  | .clientPublish t m => RulesSucceed x.1 t m s
  | _ => True

/-- Every callback leaves the timer armed. -/
theorem ready_step {x : Host N × Event} (h : Ready s) (hsafe : Safe s x)
    (hrun : step s x = some s') : Ready s' := by
  obtain ⟨H, e⟩ := x
  cases e with
  | clientPublish t m =>
    obtain ⟨⟨status, s₁⟩, hpub, rfl⟩ := Option.map_eq_some_iff.mp hrun
    exact ready_clientPublish h hsafe hpub
  | importIngress t subject payload => exact ready_importIngress h hrun
  | jetstreamIngress time m => exact ready_jetstreamIngress h hrun
  | timer t => exact ready_fireTimer h hrun
  | other time w =>
    cases hrun
    exact ⟨h.timerReady, h.armed.updateTime time⟩
  | signal =>
    cases hrun
    exact ⟨h.timerReady, h.armed⟩

/-! ## From the start on -/

/-- A server before the loop runs: nothing has touched its timer. -/
structure Untouched (s : Server N) : Prop where
  timerReady : TimerReady s
  timer : s.timer = none

omit [Number N] in
theorem Untouched.armed_iff (h : Untouched s) :
    Armed s ↔ nextClockDeadline s.machine.program = none := by
  constructor
  · intro harmed
    cases hd : nextClockDeadline s.machine.program with
    | none => rfl
    | some d =>
      obtain ⟨due, hdue, -⟩ := harmed d hd
      rw [h.timer] at hdue
      cases hdue
  · intro hnone d hd
    rw [hnone] at hd
    cases hd

theorem untouched_serverInit {w : World} {program : Option (Program N)} {snapshot : Option Bytes}
    {clientPubs : Bool} {time : UInt64}
    (h : serverInit w program snapshot clientPubs time = some s) : Untouched s := by
  simp only [serverInit, Option.bind_eq_bind, Option.bind_eq_some_iff, Option.pure_def,
    Option.some.injEq] at h
  obtain ⟨l, -, rfl⟩ := h
  exact ⟨rfl, rfl⟩

omit [Number N] in
theorem Untouched.run {α : Type} {m : MachineM N World α} {a : α}
    (hm : ∀ p, Relational.Respects (Running p) m) (h : Untouched s)
    (hrun : s.run m = some (a, s')) : Untouched s' := by
  have hready := h.timerReady.run hm hrun
  unfold Server.run at hrun
  obtain ⟨x, -, heq⟩ := Option.map_eq_some_iff.mp hrun
  cases heq
  exact ⟨hready, h.timer⟩

theorem untouched_replay {time : UInt64} {m : StreamMsg} (h : Untouched s)
    (hrun : jetstreamIngress H time m true s = some s') : Untouched s' := by
  obtain ⟨-, rfl⟩ | ⟨ok, s₁, ok', s₂, htick, heval, rfl⟩ := jetstreamIngress_cases hrun
  · exact h
  · apply Untouched.run _ (Untouched.run _ h htick) heval
    · exact fun p => respects_evalPublish (compatible_running H.env p) _ _ _
    · exact fun p => respects_tickUntil (compatible_running H.env p) _

theorem untouched_catchUp {t : Clocks} {ms : List (Host N × StreamMsg)} (h : Untouched s)
    (hrun : catchUp H t ms s = some s') : Untouched s' := by
  simp only [catchUp, Option.bind_eq_bind, Option.bind_eq_some_iff] at hrun
  obtain ⟨s₁, hreplay, hlive⟩ := hrun
  have h₁ : Untouched s₁ := by
    clear hlive
    induction ms generalizing s with
    | nil =>
      cases hreplay
      exact h
    | cons m ms ih =>
      rw [List.foldlM_cons, Option.bind_eq_bind, Option.bind_eq_some_iff] at hreplay
      obtain ⟨s₂, hm, hreplay⟩ := hreplay
      exact ih (untouched_replay h hm) hreplay
  simp only [switchToLive, Option.bind_eq_bind, Option.bind_eq_some_iff] at hlive
  obtain ⟨⟨ok, s₂⟩, htick, hrest⟩ := hlive
  cases hrest
  have hswitched : Untouched { s₁.updateTime t.before with
      clockOffsetMs := liveClockOffset t.wallMs (s₁.updateTime t.before).loopTime } :=
    ⟨h₁.timerReady, h₁.timer⟩
  exact hswitched.run (fun p => respects_tickUntil (compatible_running H.env p) _) htick

/-- The start of a server: with the messages of its streams caught up with, if it
imports any. -/
def startUp (H : Host N) (w : World) (program : Option (Program N)) (snapshot : Option Bytes)
    (clientPubs : Bool) (time : UInt64) (streams : Option (Clocks × List (Host N × StreamMsg))) :
    Option (Server N) := do
  let s ← serverInit w program snapshot clientPubs time
  match streams with
  | none => pure s
  | some (t, ms) => catchUp H t ms s

theorem untouched_startUp {w : World} {program : Option (Program N)} {snapshot : Option Bytes}
    {clientPubs : Bool} {time : UInt64} {streams : Option (Clocks × List (Host N × StreamMsg))}
    (h : startUp H w program snapshot clientPubs time streams = some s) : Untouched s := by
  rw [startUp, Option.bind_eq_bind, Option.bind_eq_some_iff] at h
  obtain ⟨s₁, hinit, h⟩ := h
  cases streams with
  | none =>
    cases h
    exact untouched_serverInit hinit
  | some x => exact untouched_catchUp (untouched_serverInit hinit) h

/-- The timer is armed when the loop starts exactly if the program has no
deadline then; from there on it stays armed as long as no client message fails in
the rules. -/
theorem timer_stays_armed {w : World} {program : Option (Program N)} {snapshot : Option Bytes}
    {clientPubs : Bool} {time : UInt64} {streams : Option (Clocks × List (Host N × StreamMsg))}
    {s₀ : Server N} (hstart : startUp H w program snapshot clientPubs time streams = some s₀) :
    (Armed s₀ ↔ nextClockDeadline s₀.machine.program = none) ∧
      (nextClockDeadline s₀.machine.program = none →
        ∀ events s, Runs.AlongSome step Safe s₀ events → events.foldlM step s₀ = some s →
          Armed s) := by
  have h₀ := untouched_startUp hstart
  refine ⟨h₀.armed_iff, ?_⟩
  intro hquiet events s halong hrun
  have hready : Ready s₀ := ⟨h₀.timerReady, h₀.armed_iff.mpr hquiet⟩
  exact (halong.invariant (fun _ _ _ h hsafe hstep => ready_step h hsafe hstep) hready hrun).armed

end Steps

/-! ## Two programs with a bar -/

/-- A host with memory, whose router has no callbacks. -/
def plainHost : Host ℤ where
  alloc _ := true
  readJson _ := none
  rewritten := writtenOver
  drawn := payloadDrawn
  publish w m := ((publishWithReply Alloc.succeeds w m).world, (publishWithReply Alloc.succeeds w m).ok)
  fuel := 10

def emptyWorld : World := ⟨routerInit, fun _ => ⟨[], 0, 0, 0, false, none, none, true, true⟩⟩

def barForm : Value ℤ :=
  .list [.symbol (lit "bar!"), .keyword (lit "ms"), .number 1000, .symbol (lit "payload-float")]

/-- A bar over one second of `a`. -/
def barProgram : Program ℤ := loadProgram [⟨lit "a", barForm, false⟩] true

/-- The same bar before a form that always fails. -/
def failingProgram : Program ℤ :=
  loadProgram [⟨lit "a", .list [.symbol (lit "do"), barForm, .list [.symbol (lit "none")]], false⟩]
    true

def oneMessage : List (Host ℤ × Event) :=
  [(plainHost, .clientPublish ⟨5, 6, 1000⟩ ⟨lit "a", lit "1", []⟩)]

/-- The server after it started without a snapshot and got one message. -/
def afterOneMessage (p : Program ℤ) : Option (Server ℤ) := do
  let s ← startUp plainHost emptyWorld (some p) none true 1 none
  oneMessage.foldlM step s

/-- Deadline and timer of a server. -/
def timing (s : Server ℤ) : Option UInt64 × Option UInt64 :=
  (nextClockDeadline s.machine.program, s.timer)

theorem not_armed_of_timing {s : Server ℤ} {d : UInt64} (h : timing s = (some d, none)) :
    ¬ Armed s := by
  rw [timing, Prod.mk.injEq] at h
  intro harmed
  obtain ⟨due, hdue, -⟩ := harmed d h.1
  rw [h.2] at hdue
  cases hdue

/-- A start from a snapshot with an open bar, and a message whose rule fails after
it opened one: a deadline, and no timer. -/
theorem open_bar_not_armed :
    (∃ s bs s', afterOneMessage barProgram = some s ∧
      snapshotBuild s.machine.world.router (some s.machine.program) = some bs ∧
      startUp plainHost emptyWorld (some barProgram) (some bs) true 1 none = some s' ∧ ¬ Armed s') ∧
    ∃ s, afterOneMessage failingProgram = some s ∧ ¬ Armed s := by
  constructor
  · have hrun : ((afterOneMessage barProgram).bind fun s =>
        (snapshotBuild s.machine.world.router (some s.machine.program)).bind fun bs =>
          (startUp plainHost emptyWorld (some barProgram) (some bs) true 1 none).map timing) =
        some (some 1000, none) := by decide +kernel
    obtain ⟨s, hs, hrun⟩ := Option.bind_eq_some_iff.mp hrun
    obtain ⟨bs, hbs, hrun⟩ := Option.bind_eq_some_iff.mp hrun
    obtain ⟨s', hs', ht⟩ := Option.map_eq_some_iff.mp hrun
    exact ⟨s, bs, s', hs, hbs, hs', not_armed_of_timing ht⟩
  · have hrun : (afterOneMessage failingProgram).map timing = some (some 1000, none) := by
      decide +kernel
    obtain ⟨s, hs, ht⟩ := Option.map_eq_some_iff.mp hrun
    exact ⟨s, hs, not_armed_of_timing ht⟩

theorem bar_timer_armed : ∃ s₀ s, startUp plainHost emptyWorld (some barProgram) none true 1 none =
      some s₀ ∧ oneMessage.foldlM step s₀ = some s ∧
    timing s = (some 1000, some 1000) ∧ Armed s := by
  have hrun : ((startUp plainHost emptyWorld (some barProgram) none true 1 none).bind fun s =>
      (oneMessage.foldlM step s).map fun s' =>
        (nextClockDeadline s.machine.program, timing s',
          (evalPublish plainHost.env ⟨(s.updateTime 5).patchbayNow, 1000, false⟩ (lit "a") (lit "1")
            ⟨s.machine.program,
              (plainHost.publish s.machine.world ⟨lit "a", lit "1", []⟩).1⟩).map Prod.fst)) =
      some (none, (some 1000, some 1000), some true) := by decide +kernel
  obtain ⟨s₀, hstart, hrun⟩ := Option.bind_eq_some_iff.mp hrun
  obtain ⟨s, hs, hrun⟩ := Option.map_eq_some_iff.mp hrun
  rw [Prod.mk.injEq, Prod.mk.injEq] at hrun
  obtain ⟨hquiet, ht, hok⟩ := hrun
  have hsafe : Safe s₀ (plainHost, .clientPublish ⟨5, 6, 1000⟩ ⟨lit "a", lit "1", []⟩) := by
    intro _ x hx
    have hfst := congrArg (Option.map Prod.fst) hx
    exact Option.some.inj (hfst.symm.trans hok)
  exact ⟨s₀, s, hstart, hs, ht,
    (timer_stays_armed hstart).2 hquiet oneMessage s ⟨hsafe, fun _ _ => trivial⟩ hs⟩

end Monoblok.Clock
