import Monoblok.Server.InOrder
import Monoblok.Server.Rx

/-!
# Replies of a client connection

The receive path of a connection without TLS together with its output. A reply is
appended to `out`; it leaves with the next kick, and a connection that closes is
not kicked any more. So the line that tells a client why its connection is closed
stays behind.
-/

namespace Monoblok.Output

open Relation Reading

variable {τ : Type}

/-- The server behind a connection, apart from the output of the connection.
`granted` is the number of appends in a row that find memory; `subscribe` gives
the cached messages it replays, `publish` what it does to this connection. -/
structure Backend (τ : Type) where
  connectAuthMatches : Bytes → Bool
  serverClosing : τ → Bool
  lvcEnabled : τ → Bool
  granted : τ → ℕ
  subscribe : τ → OutputState → Bytes → Bytes → Bytes → τ × List Bytes × Bool
  unsubscribe : τ → Bytes → Option ℕ → τ
  publish : τ → OutputState → Bytes → Bytes → Bytes → τ × List Call × ClientPublishStatus
  removeAllFor : τ → τ

/-- The appends of `mb_write_err`. -/
def errPieces (msg : Bytes) : List Bytes := [lit "-ERR '", msg, lit "'\r\n"]

/-- Appends up to the first that finds no memory, and whether all did. -/
def appendPieces (granted : ℕ) (o : OutputState) (pieces : List Bytes) : OutputState × Bool :=
  (o.append (pieces.take granted).flatten, pieces.length ≤ granted)

/-- What a connection calls, with its output. -/
def wireOps (B : Backend τ) : ConnOps (τ × OutputState) where
  connectAuthMatches := B.connectAuthMatches
  serverClosing s := B.serverClosing s.1
  lvcEnabled s := B.lvcEnabled s.1
  writeErr s msg :=
    let r := appendPieces (B.granted s.1) s.2 (errPieces msg)
    ((s.1, r.1), r.2)
  writePong s :=
    let r := appendPieces (B.granted s.1) s.2 [lit "PONG\r\n"]
    ((s.1, r.1), r.2)
  subscribeQueue s subject queue sid :=
    let r := B.subscribe s.1 s.2 subject queue sid
    ((r.1, s.2.append r.2.1.flatten), r.2.2)
  unsubscribe s sid maxMsgs := (B.unsubscribe s.1 sid maxMsgs, s.2)
  clientPublish s subject payload replyTo :=
    let r := B.publish s.1 s.2 subject payload replyTo
    let o := s.2.processRx r.2.1
    ((r.1, o), r.2.2, o.closing)
  removeAllFor s := (B.removeAllFor s.1, s.2.beginClose)

abbrev PlainConn (τ : Type) := Conn (τ × OutputState)

section Steps

variable (B : Backend τ) (c : PlainConn τ)

/-- The session hears of an output that has closed the connection. -/
def hear (o : OutputState) : PlainConn τ :=
  let k : Session (τ × OutputState) := { c.toSession with server := (c.server.1, o) }
  { c with toSession := if o.closing && !c.closing then evict (wireOps B) k else k }

/-- `read_cb` with data. -/
def receive (memory : Bool) (chunk : Bytes) (k : Kick) : PlainConn τ :=
  if !memory then { c with toSession := evict (wireOps B) c.toSession }
  else
    let c := processRx (wireOps B) { c with rx := c.rx ++ chunk }
    if c.closing then c else hear B c (c.server.2.kickWrite k)

end Steps

/-- What happens to a connection; `server` is anything the rest of the server does. -/
inductive PlainEvent (τ : Type) where
  | read (memory : Bool) (chunk : Bytes) (k : Kick)
  | readError
  | router (c : Call)
  | written (ok : Bool) (w : Written)
  | server (f : τ → τ)

def plainStep (B : Backend τ) (c : PlainConn τ) : PlainEvent τ → PlainConn τ
  | .read memory chunk k => if c.closing then c else receive B c memory chunk k
  | .readError => if c.closing then c else { c with toSession := evict (wireOps B) c.toSession }
  | .router call => hear B c (c.server.2.call call)
  | .written ok w => hear B c (Output.step c.server.2 (.written ok w))
  | .server f => { c with server := (f c.server.1, c.server.2) }

/-- A connection that has just been created. -/
def plainCreate (B : Backend τ) (w : τ) (authorized : Bool) (fields : Bytes) (reading : Bool)
    (k : Kick) : PlainConn τ :=
  hear B (Conn.fresh (w, ⟨[], [], [], 0, [], .off, false, false, []⟩) authorized)
    (OutputState.create false fields reading k)

def plainRun (B : Backend τ) (c : PlainConn τ) (events : List (PlainEvent τ)) : PlainConn τ :=
  events.foldl (plainStep B) c

/-! ## Violations -/

/-- An operation or an error on which `handle_op` or `process_rx` closes. -/
def Refused (B : Backend τ) (k : Session (τ × OutputState)) : RxEvent → Prop
  | .op op => k.authorized = false ∧ authorizes (wireOps B) op = false
  | .rejected _ => False
  | .violation => True

/-- In a read that brings `chunk` the connection, still open, comes to a violation, and
has memory for the line that says so. -/
def Violates (B : Backend τ) (c : PlainConn τ) (chunk : Bytes) : Prop :=
  ∃ st : State UInt8 RxEvent (Session (τ × OutputState)),
    ReflTransGen (fun a b => (rxReader (wireOps B)).take a = some b)
      (Conn.view { c with rx := c.rx ++ chunk } 0) st ∧
    st.ctl.closing = false ∧ (∃ e n, rxNext st.buf = some (e, n) ∧ Refused B st.ctl e) ∧
    3 ≤ B.granted st.ctl.server.1

/-- When the connection was closed, all that had been appended had been handed to
`uv_write`. -/
def Flushed (log : List OutputEvent) : Prop :=
  ∀ before after, log = before ++ .closed :: after →
    (tallyOf before).toSocket = (tallyOf before).appended

/-- A read on which the connection closes for a violation leaves no reply behind. -/
def RepliesDelivered (B : Backend τ) (c : PlainConn τ) (chunk : Bytes) (k : Kick) : Prop :=
  Violates B c chunk → Flushed (plainStep B c (.read true chunk k)).server.2.log

/-! ## The output while the connection is open -/

/-- An open session has an open output, in order. -/
def SessionOk (line : Bytes) (k : Session (τ × OutputState)) : Prop :=
  k.closing = false → k.server.2.closing = false ∧ Core false line k.server.2

variable {B : Backend τ} {line : Bytes}

theorem closing_evict (k : Session (τ × OutputState)) : (evict (wireOps B) k).closing = true :=
  Monoblok.beginClose_closing (wireOps B) k

theorem sessionOk_evict (k : Session (τ × OutputState)) : SessionOk line (evict (wireOps B) k) := by
  intro hopen
  rw [closing_evict] at hopen
  cases hopen

theorem sessionOk_hear {c : PlainConn τ} {o : OutputState} (ho : c.closing = false → Good false line o) :
    SessionOk line (hear B c o).toSession := by
  unfold hear
  dsimp only
  split_ifs with hclosing
  · exact sessionOk_evict _
  · intro hopen
    have hopen : c.closing = false := hopen
    rw [hopen, Bool.not_false, Bool.and_true] at hclosing
    exact ⟨Bool.eq_false_iff.mpr hclosing, (ho hopen).core hclosing⟩

/-- A session after appends to its output. -/
theorem SessionOk.append {k : Session (τ × OutputState)} (h : SessionOk line k) (w : τ) (bytes : Bytes) :
    SessionOk line { k with server := (w, k.server.2.append bytes) } := by
  intro hopen
  obtain ⟨ho, hcore⟩ := h hopen
  exact ⟨ho, hcore.append bytes⟩

theorem SessionOk.writeErr {k : Session (τ × OutputState)} (h : SessionOk line k) (msg : Bytes) :
    SessionOk line (writeErrOrClose (wireOps B) k msg) := by
  unfold writeErrOrClose
  dsimp only
  split_ifs
  · exact h.append k.server.1 _
  · exact sessionOk_evict _

theorem SessionOk.beginClose (k : Session (τ × OutputState)) :
    SessionOk line (Monoblok.beginClose (wireOps B) k) := by
  intro hopen
  rw [Monoblok.beginClose_closing] at hopen
  cases hopen

theorem SessionOk.handlePub {k : Session (τ × OutputState)} (h : SessionOk line k)
    (subject replyTo payload : Bytes) :
    SessionOk line (handlePub (wireOps B) k subject replyTo payload) := by
  unfold Monoblok.handlePub
  dsimp only
  have hpublished : SessionOk line
      (if ((wireOps B).clientPublish k.server subject payload replyTo).2.2 then
        evict (wireOps B)
          { k with server := ((wireOps B).clientPublish k.server subject payload replyTo).1 }
      else { k with server := ((wireOps B).clientPublish k.server subject payload replyTo).1 }) := by
    split_ifs with hclosed
    · exact sessionOk_evict _
    · intro hopen
      refine ⟨Bool.eq_false_iff.mpr hclosed, ?_⟩
      exact (good_processRx _ (.inr (h hopen).2)).core hclosed
  split
  · exact hpublished
  · exact hpublished.writeErr _

theorem SessionOk.handleOp {k : Session (τ × OutputState)} (h : SessionOk line k) (op : Op) :
    SessionOk line (handleOp (wireOps B) k op) := by
  unfold Monoblok.handleOp
  split_ifs
  · exact .beginClose _
  · exact h
  · exact h.writeErr _
  · cases op with
    | connect json => exact h
    | ping =>
      dsimp only
      split_ifs
      · exact h.append k.server.1 _
      · exact sessionOk_evict _
    | sub subject queue sid =>
      dsimp only
      split_ifs
      · exact h.writeErr _
      · exact h.append _ _
      · exact (h.append _ _).writeErr _
    | unsub sid maxMsgs => exact h
    | pub subject replyTo payload => exact h.handlePub subject replyTo payload

theorem SessionOk.rxStep {k : Session (τ × OutputState)} (h : SessionOk line k) (e : RxEvent) :
    SessionOk line (rxStep (wireOps B) k e) := by
  cases e with
  | op op => exact h.handleOp op
  | rejected msg => exact h.writeErr msg
  | violation => exact .beginClose _

/-- The states a read goes through. -/
theorem SessionOk.taken {a b : State UInt8 RxEvent (Session (τ × OutputState))} (h : SessionOk line a.ctl)
    (hreach : ReflTransGen (fun a b => (rxReader (wireOps B)).take a = some b) a b) :
    SessionOk line b.ctl := by
  induction hreach with
  | refl => exact h
  | tail _ htake ih =>
    obtain ⟨-, e, n, -, rfl⟩ := Reader.take_eq_some htake
    exact ih.rxStep e

theorem sessionOk_processRx {c : PlainConn τ} (hopen : c.closing = false)
    (h : SessionOk line c.toSession) : SessionOk line (processRx (wireOps B) c).toSession := by
  have hspec := processRx_spec (S := wireOps B) hopen
  rw [hspec.session]
  exact @SessionOk.taken _ _ _ (c.view 0) _ h (Reader.drainLoop_reaches _ _)

theorem sessionOk_step {c : PlainConn τ} (h : SessionOk line c.toSession) (e : PlainEvent τ) :
    SessionOk line (plainStep B c e).toSession := by
  have hgood : ∀ o, (Good false line c.server.2 → Good false line o) → c.closing = false →
      Good false line o := fun o ho hopen => ho (.inr (h hopen).2)
  cases e with
  | read memory chunk k =>
    unfold plainStep
    dsimp only
    split_ifs with hclosing
    · exact h
    unfold receive
    split_ifs with hmemory
    · exact sessionOk_evict _
    have hread : SessionOk line (processRx (wireOps B) { c with rx := c.rx ++ chunk }).toSession :=
      @sessionOk_processRx _ B line { c with rx := c.rx ++ chunk }
        (Bool.eq_false_iff.mpr hclosing) h
    dsimp only
    split_ifs with hafter
    · exact hread
    · exact sessionOk_hear fun hopen => good_kickWrite k (hread hopen).2
  | readError =>
    unfold plainStep
    dsimp only
    split_ifs
    · exact h
    · exact sessionOk_evict _
  | router call => exact sessionOk_hear (hgood _ (good_call call))
  | written ok w => exact sessionOk_hear (hgood _ (good_step (.written ok w)))
  | server f => exact h

theorem sessionOk_create (w : τ) (authorized : Bool) (fields : Bytes) (reading : Bool) (k : Kick) :
    SessionOk (OutputState.infoLine fields) (plainCreate B w authorized fields reading k).toSession :=
  sessionOk_hear fun _ => good_create false fields reading k

theorem sessionOk_run {c : PlainConn τ} (h : SessionOk line c.toSession)
    (events : List (PlainEvent τ)) : SessionOk line (plainRun B c events).toSession := by
  unfold plainRun
  induction events generalizing c with
  | nil => exact h
  | cons e events ih => exact ih (sessionOk_step h e)

/-! ## The reply to a violation -/

/-- What a violation leaves: the line that names it, and the connection closed. -/
theorem refused_step {k : Session (τ × OutputState)} {e : RxEvent} (hopen : k.closing = false)
    (houtput : k.server.2.closing = false) (hmemory : 3 ≤ B.granted k.server.1)
    (h : Refused B k e) :
    (rxStep (wireOps B) k e).closing = true ∧ ∃ msg,
      (rxStep (wireOps B) k e).server.2.log =
        (k.server.2.log ++ [.appended (errPieces msg).flatten]) ++ [.closed] := by
  have hviolation : ∀ msg, (Monoblok.beginClose (wireOps B)
      (writeErrOrClose (wireOps B) k msg)).closing = true ∧
        (Monoblok.beginClose (wireOps B) (writeErrOrClose (wireOps B) k msg)).server.2.log =
          (k.server.2.log ++ [.appended (errPieces msg).flatten]) ++ [.closed] := by
    intro msg
    refine ⟨Monoblok.beginClose_closing _ _, ?_⟩
    have hall : (errPieces msg).take (B.granted k.server.1) = errPieces msg :=
      List.take_of_length_le hmemory
    have hwritten : writeErrOrClose (wireOps B) k msg =
        { k with server := (k.server.1, k.server.2.append (errPieces msg).flatten) } := by
      have hsuccess : decide ((errPieces msg).length ≤ B.granted k.server.1) = true :=
        decide_eq_true hmemory
      unfold writeErrOrClose wireOps appendPieces
      dsimp only
      rw [hall, if_pos hsuccess]
    rw [hwritten]
    unfold Monoblok.beginClose
    dsimp only
    rw [hopen, if_neg Bool.false_ne_true]
    unfold wireOps OutputState.beginClose OutputState.append OutputState.record
    dsimp only
    rw [houtput, if_neg Bool.false_ne_true]
  cases e with
  | op op =>
    obtain ⟨hunauthorized, hrefused⟩ := h
    have hstep : rxStep (wireOps B) k (.op op) = authViolation (wireOps B) k := by
      unfold rxStep Monoblok.handleOp
      dsimp only
      rw [hunauthorized, hrefused]
      rfl
    rw [hstep]
    exact ⟨(hviolation _).1, _, (hviolation _).2⟩
  | rejected msg => exact h.elim
  | violation => exact ⟨(hviolation _).1, _, (hviolation _).2⟩

/-- A read that comes to a violation ends there, and its output with it. -/
theorem violates_log {c : PlainConn τ} {chunk : Bytes} (k : Kick)
    (hc : SessionOk line c.toSession) (h : Violates B c chunk) :
    ∃ o msg, Core false line o ∧
      (plainStep B c (.read true chunk k)).server.2.log =
        (o.log ++ [.appended (errPieces msg).flatten]) ++ [.closed] := by
  obtain ⟨st, hreach, hopen, ⟨e, n, hnext, hrefused⟩, hmemory⟩ := h
  have hstart : c.closing = false := by
    -- a reader that has stopped takes nothing
    by_contra hclosing
    have hstop : (rxReader (wireOps B)).take (Conn.view { c with rx := c.rx ++ chunk } 0) = none := by
      unfold Reader.take
      exact if_pos (Bool.eq_true_of_not_eq_false hclosing)
    rcases ReflTransGen.cases_head hreach with heq | ⟨mid, htake, -⟩
    · rw [← heq] at hopen
      exact hclosing hopen
    · rw [hstop] at htake
      cases htake
  obtain ⟨houtput, hcore⟩ := @SessionOk.taken _ B line (Conn.view { c with rx := c.rx ++ chunk } 0) st hc
    hreach hopen
  obtain ⟨hclosed, msg, hlog⟩ := refused_step hopen houtput hmemory hrefused
  have htake := Reader.take_of_next (R := rxReader (wireOps B)) (s := st) hopen hnext
  have hlast : (rxReader (wireOps B)).take
      ⟨rxStep (wireOps B) st.ctl e, st.pos + n, st.buf.drop n, st.log ++ [e]⟩ = none := by
    unfold Reader.take
    exact if_pos hclosed
  have hdrain := Reader.final_unique (Reader.drainLoop_reaches _ _) (hreach.tail htake)
    (Reader.take_drain (rxReader_lawful (wireOps B)) _) hlast
  have hspec := processRx_spec (S := wireOps B) (c := { c with rx := c.rx ++ chunk }) hstart
  have hsession : (processRx (wireOps B) { c with rx := c.rx ++ chunk }).toSession =
      rxStep (wireOps B) st.ctl e :=
    hspec.session.trans (congrArg State.ctl hdrain)
  refine ⟨st.ctl.server.2, msg, hcore, ?_⟩
  have hstep : plainStep B c (.read true chunk k) =
      processRx (wireOps B) { c with rx := c.rx ++ chunk } := by
    unfold plainStep receive
    dsimp only
    rw [hstart, if_neg Bool.false_ne_true, Bool.not_true, if_neg Bool.false_ne_true, hsession, hclosed, if_pos rfl]
  rw [hstep, hsession]
  exact hlog

/-- The line is still in the output when the connection closes. -/
theorem not_flushed {o : OutputState} {msg : Bytes} (h : Core false line o) :
    ¬Flushed ((o.log ++ [.appended (errPieces msg).flatten]) ++ [.closed]) := by
  intro hflushed
  have htally : tallyOf (o.log ++ [.appended (errPieces msg).flatten]) =
      o.tally.add (.appended (errPieces msg).flatten) := List.foldl_append
  have hsame := hflushed _ [] rfl
  rw [htally] at hsame
  have hlen := congrArg List.length hsame
  have haccounted := congrArg List.length h.accounted
  have hpos : 6 ≤ (errPieces msg).flatten.length := by
    have hhead : (lit "-ERR '").length = 6 := by decide
    simp only [errPieces, List.flatten_cons, List.length_append, hhead]
    omega
  dsimp only [Tally.add] at hlen
  simp only [List.length_append] at hlen haccounted
  omega

/-- In any run of a connection without TLS, whatever the server and the socket do: the
replies of the next read are out before the connection closes for a violation if and
only if the read does not come to one. -/
theorem replies_delivered_iff (B : Backend τ) (w : τ) (authorized : Bool) (fields : Bytes)
    (reading : Bool) (k : Kick) (events : List (PlainEvent τ)) (chunk : Bytes) (kick : Kick) :
    RepliesDelivered B (plainRun B (plainCreate B w authorized fields reading k) events) chunk kick ↔
      ¬Violates B (plainRun B (plainCreate B w authorized fields reading k) events) chunk := by
  have hc := @sessionOk_run τ B _ _ (@sessionOk_create τ B w authorized fields reading k) events
  generalize plainRun B (plainCreate B w authorized fields reading k) events = c at hc
  constructor
  · intro hdelivered hviolates
    obtain ⟨o, msg, hcore, hlog⟩ := violates_log kick hc hviolates
    have hflushed := hdelivered hviolates
    rw [hlog] at hflushed
    exact not_flushed hcore hflushed
  · intro hnot hviolates
    exact absurd hviolates hnot

/-- A server that wants a token. -/
def tokenBackend : Backend Unit where
  connectAuthMatches json := json == lit "\x7b\"auth_token\":\"t\"\x7d"
  serverClosing _ := false
  lvcEnabled _ := false
  granted _ := 3
  subscribe w _ _ _ _ := (w, [], true)
  unsubscribe w _ _ := w
  publish w _ _ _ _ := (w, [], .ok)
  removeAllFor w := w

/-- A client that sends `PING` first is not told why it is cut off. -/
theorem ping_first_not_told :
    ¬RepliesDelivered tokenBackend (plainCreate tokenBackend () false (lit "1") true ⟨[], true⟩)
      (lit "PING\r\n") ⟨[], true⟩ := by
  intro hdelivered
  have hviolates : Violates tokenBackend
      (plainCreate tokenBackend () false (lit "1") true ⟨[], true⟩) (lit "PING\r\n") :=
    ⟨_, .refl, by decide, ⟨.op .ping, 6, by decide, by decide, by decide⟩, by decide⟩
  obtain ⟨o, msg, hcore, hlog⟩ := violates_log ⟨[], true⟩
    (@sessionOk_create _ tokenBackend () false (lit "1") true ⟨[], true⟩) hviolates
  have hflushed := hdelivered hviolates
  rw [hlog] at hflushed
  exact not_flushed hcore hflushed

end Monoblok.Output
