import Monoblok.Lib.Reader
import Monoblok.Proto.Parse
import Monoblok.Router.Match

/-!
# The receive path of a client connection

`handle_op` and `process_rx` of `conn.c`. The server behind a connection (its
router, its rules, the connection's output buffer) is a parameter `ConnOps σ`
with one field per call the connection makes; everything the receive path
itself decides is written out.

A connection also carries what it has done so far: the number of bytes taken
from the stream, the operations and errors handled, and the stream positions at
which `mb_parse_client_op` was called. The code never reads these.
-/

namespace Monoblok

open Tokens Reading

inductive ClientPublishStatus where
  | ok
  | disabled
  | lvcReadOnly
  | statsReadOnly
  | routerFailed
  | patchbayFailed
  deriving DecidableEq, Repr

/-- What a connection calls. The writers return `false` when the output buffer
cannot grow; the last component of `clientPublish` says that the router closed
this very connection as a slow consumer. -/
structure ConnOps (σ : Type*) where
  connectAuthMatches : Bytes → Bool
  serverClosing : σ → Bool
  lvcEnabled : σ → Bool
  writeErr : σ → Bytes → σ × Bool
  writePong : σ → σ × Bool
  subscribeQueue : σ → Bytes → Bytes → Bytes → σ × Bool
  unsubscribe : σ → Bytes → Option ℕ → σ
  clientPublish : σ → Bytes → Bytes → Bytes → σ × ClientPublishStatus × Bool
  removeAllFor : σ → σ

/-- `evicted` records that the connection was closed for another reason than
what its client sent: as a slow consumer or because a buffer could not grow. -/
structure Session (σ : Type*) where
  server : σ
  authorized : Bool
  closing : Bool
  evicted : Bool

inductive RxEvent where
  | op (op : Op)
  | rejected (msg : Bytes)
  | violation
  deriving DecidableEq, Repr

structure Conn (σ : Type*) extends Session σ where
  rx : Bytes
  consumed : ℕ
  log : List RxEvent
  calls : List ℕ

def maxRx : ℕ := maxControlLine + maxPayload + 64

section Handling

variable {σ : Type*} (S : ConnOps σ)

def beginClose (k : Session σ) : Session σ :=
  if k.closing then k else { k with closing := true, server := S.removeAllFor k.server }

def evict (k : Session σ) : Session σ := { beginClose S k with evicted := true }

def writeErrOrClose (k : Session σ) (msg : Bytes) : Session σ :=
  let (server, ok) := S.writeErr k.server msg
  if ok then { k with server := server } else evict S { k with server := server }

def authViolation (k : Session σ) : Session σ :=
  beginClose S (writeErrOrClose S k (lit "Authorization Violation"))

def opMutatesServerState : Op → Bool
  | .sub .. | .unsub .. | .pub .. => true
  | .connect _ | .ping => false

/-- The reply to a `PUB` that was not routed. -/
def publishError : ClientPublishStatus → Option Bytes
  | .ok => none
  | .disabled => some (lit "Client Publish Disabled")
  | .lvcReadOnly => some (lit "$LVC is read-only")
  | .statsReadOnly => some (lit "$STATS is read-only")
  | .routerFailed => some (lit "Publish Failed")
  | .patchbayFailed => some (lit "Patchbay Failed")

def handlePub (k : Session σ) (subject replyTo payload : Bytes) : Session σ :=
  let (server, status, closed) := S.clientPublish k.server subject payload replyTo
  let k := { k with server := server }
  let k := if closed then evict S k else k
  match publishError status with
  | none => k
  | some msg => writeErrOrClose S k msg

def authorizes : Op → Bool
  | .connect json => S.connectAuthMatches json
  | _ => false

def handleOp (k : Session σ) (op : Op) : Session σ :=
  if !k.authorized then
    if !authorizes S op then authViolation S k else { k with authorized := true }
  else if S.serverClosing k.server && opMutatesServerState op then
    writeErrOrClose S k (lit "Server Shutting Down")
  else
    match op with
    | .connect _ => k
    | .ping =>
      let (server, ok) := S.writePong k.server
      if ok then { k with server := server } else evict S { k with server := server }
    | .sub subject queue sid =>
      if subjectHasLvcPrefix subject && !S.lvcEnabled k.server then
        writeErrOrClose S k (lit "$LVC is disabled")
      else
        let (server, ok) := S.subscribeQueue k.server subject queue sid
        if ok then { k with server := server }
        else writeErrOrClose S { k with server := server } (lit "Subscribe Failed")
    | .unsub sid maxMsgs => { k with server := S.unsubscribe k.server sid maxMsgs }
    | .pub subject replyTo payload => handlePub S k subject replyTo payload

/-- Runs one step of the session and records what it was. -/
def Conn.handle (c : Conn σ) (e : RxEvent) (f : Session σ → Session σ) : Conn σ :=
  { c with toSession := f c.toSession, log := c.log ++ [e] }

/-- The loop of `process_rx`. It returns no cursor where the code returns from
the function because the connection is closing. Every round moves the cursor. -/
def processLoop : ℕ → Conn σ → ℕ → Conn σ × Option ℕ
  | 0, c, cursor => (c, some cursor)
  | fuel + 1, c, cursor =>
    if c.rx.length ≤ cursor then (c, some cursor)
    else
      let c := { c with calls := c.calls ++ [c.consumed + cursor] }
      let reject (msg : Bytes) : Conn σ × Option ℕ :=
        let c := c.handle (.rejected msg) (writeErrOrClose S · msg)
        if c.closing then (c, none)
        else if lf ∈ c.rx.drop cursor then
          processLoop fuel c (cursor + (first lf (c.rx.drop cursor)).length + 1)
        else (c, some cursor)
      match parseClientOp (c.rx.drop cursor) with
      | .needMore => (c, some cursor)
      | .controlLineTooLong | .malformed | .payloadTooLarge =>
        (c.handle .violation
          (fun k => beginClose S (writeErrOrClose S k (lit "Protocol Violation"))), none)
      | .unknown => reject (lit "Unknown Protocol Operation")
      | .invalidArgs => reject (lit "Invalid Operation")
      | .ok op n =>
        let c := c.handle (.op op) (handleOp S · op)
        if c.closing then (c, none) else processLoop fuel c (cursor + n)

def Conn.consume (c : Conn σ) (n : ℕ) : Conn σ :=
  { c with rx := c.rx.drop n, consumed := c.consumed + n }

/-- The cap on unread input at the end of `process_rx`. -/
def Conn.capRx (c : Conn σ) : Conn σ :=
  if maxRx < c.rx.length then { c with toSession := beginClose S c.toSession } else c

def processRx (c : Conn σ) : Conn σ :=
  match processLoop S (c.rx.length + 1) c 0 with
  | (c, none) => c
  | (c, some cursor) => (c.consume cursor).capRx S

/-- One read: what happened to the server since the previous read, whether the
connection was closed meanwhile, and the bytes that arrived. -/
structure Arrival (σ : Type*) where
  env : σ → σ × Bool
  chunk : Bytes

def read (c : Conn σ) (a : Arrival σ) : Conn σ :=
  if c.closing then c
  else
    let (server, closed) := a.env c.server
    if closed then { c with toSession := evict S { c.toSession with server := server } }
    else processRx S { c with server := server, rx := c.rx ++ a.chunk }

def readAll (c : Conn σ) (as : List (Arrival σ)) : Conn σ := as.foldl (read S) c

/-- A connection that has read nothing yet. -/
def Conn.fresh (server : σ) (authorized : Bool) : Conn σ :=
  ⟨⟨server, authorized, false, false⟩, [], 0, [], []⟩

/-! ## The loop as a reader of the stream -/

/-- What the front of the input decides, and how far the loop moves on it. -/
def rxNext (buf : Bytes) : Option (RxEvent × ℕ) :=
  match parseClientOp buf with
  | .needMore => none
  | .controlLineTooLong | .malformed | .payloadTooLarge => some (.violation, 0)
  | .unknown => some (.rejected (lit "Unknown Protocol Operation"), (first lf buf).length + 1)
  | .invalidArgs => some (.rejected (lit "Invalid Operation"), (first lf buf).length + 1)
  | .ok op n => some (.op op, n)

def rxStep (k : Session σ) : RxEvent → Session σ
  | .op op => handleOp S k op
  | .rejected msg => writeErrOrClose S k msg
  | .violation => beginClose S (writeErrOrClose S k (lit "Protocol Violation"))

def rxReader : Reader UInt8 RxEvent (Session σ) := ⟨rxNext, rxStep S, Session.closing⟩

/-- The connection in the middle of `process_rx`. -/
def Conn.view (c : Conn σ) (cursor : ℕ) : State UInt8 RxEvent (Session σ) :=
  ⟨c.toSession, c.consumed + cursor, c.rx.drop cursor, c.log⟩

theorem beginClose_closing (k : Session σ) : (beginClose S k).closing = true := by
  unfold beginClose
  split_ifs with h
  · exact h
  · rfl

theorem rxNext_nil : rxNext [] = none := by decide

theorem rxNext_of_rejected {buf : Bytes} {msg : Bytes} {n : ℕ}
    (h : rxNext buf = some (.rejected msg, n)) :
    n = (first lf buf).length + 1 ∧ (first lf buf).length < buf.length := by
  unfold rxNext at h
  split at h
  all_goals cases h
  all_goals
    exact ⟨rfl, (parseClientOp_line (b := buf) (by simp [*]) (by simp [*])).1⟩

theorem rxReader_lawful : (rxReader S).Lawful where
  consumed_le {l e n} h := by
    cases e with
    | op op =>
      simp only [rxReader, rxNext] at h
      split at h
      all_goals cases h
      exact (parseClientOp_ok ‹_›).2
    | rejected msg =>
      obtain ⟨rfl, hlt⟩ := rxNext_of_rejected h
      exact hlt
    | violation =>
      simp only [rxReader, rxNext] at h
      split at h
      all_goals cases h
      all_goals exact Nat.zero_le _
  productive {l e n} h := by
    cases e with
    | op op =>
      simp only [rxReader, rxNext] at h
      split at h
      all_goals cases h
      have := (parseClientOp_ok ‹_›).1
      exact .inl (by omega)
    | rejected msg =>
      obtain ⟨rfl, -⟩ := rxNext_of_rejected h
      exact .inl (Nat.succ_pos _)
    | violation => exact .inr fun k => beginClose_closing S _
  stable {l v} r h := by
    have hmore : parseClientOp l ≠ .needMore := by
      intro hm
      simp [rxReader, rxNext, hm] at h
    have hparse := parseClientOp_append r hmore
    have hfirst : ∀ msg n, rxNext l = some (.rejected msg, n) → first lf (l ++ r) = first lf l :=
      fun msg n hl => first_append (rxNext_of_rejected hl).2.ne
    simp only [rxReader] at h ⊢
    unfold rxNext at h hfirst ⊢
    rw [hparse]
    cases hp : parseClientOp l <;> simp only [hp] at h hfirst ⊢
    all_goals first
      | exact h
      | rw [hfirst _ _ rfl]; exact h

/-- What a run of the loop from `cursor` leaves behind, in terms of the reader. -/
structure LoopSpec (fuel : ℕ) (c : Conn σ) (cursor : ℕ) (r : Conn σ × Option ℕ) : Prop where
  session : r.1.toSession = ((rxReader S).drainLoop fuel (c.view cursor)).ctl
  log : r.1.log = ((rxReader S).drainLoop fuel (c.view cursor)).log
  calls : r.1.calls = c.calls ++ (rxReader S).visits fuel (c.view cursor)
  closing : r.2 = none → r.1.closing = true
  view : ∀ cur, r.2 = some cur →
    r.1.closing = false ∧ r.1.view cur = (rxReader S).drainLoop fuel (c.view cursor)

variable {S}

theorem LoopSpec.stay {n p : ℕ} {c : Conn σ} {l : List ℕ} (hopen : c.closing = false)
    (htake : (rxReader S).take (c.view p) = none)
    (hvisits : (rxReader S).visits n (c.view p) = l) :
    LoopSpec S n c p ({ c with calls := c.calls ++ l }, some p) := by
  have hdrain : (rxReader S).drainLoop n (c.view p) = c.view p := by
    cases n with
    | zero => rfl
    | succ n => rw [Reader.drainLoop, htake]
  refine ⟨?_, ?_, ?_, by simp, ?_⟩
  · rw [hdrain]; rfl
  · rw [hdrain]; rfl
  · rw [hvisits]
  · intro cur hcur
    cases hcur
    exact ⟨hopen, hdrain.symm⟩

/-- One event was handled and the connection went down. -/
theorem LoopSpec.closed {fuel : ℕ} {c : Conn σ} {cursor n : ℕ} {e : RxEvent}
    (hopen : c.closing = false) (hlt : cursor < c.rx.length)
    (hnext : rxNext (c.rx.drop cursor) = some (e, n)) (hclosed : (rxStep S c.toSession e).closing) :
    LoopSpec S (fuel + 1) c cursor
      (Conn.handle { c with calls := c.calls ++ [c.consumed + cursor] } e (rxStep S · e), none) := by
  have htake := Reader.take_of_next (R := rxReader S) (s := c.view cursor) hopen hnext
  have hnone : ∀ t : State UInt8 RxEvent (Session σ), t.ctl = rxStep S c.toSession e →
      (rxReader S).take t = none := by
    intro t ht
    simp [Reader.take, rxReader, ht, hclosed]
  have hdrain : (rxReader S).drainLoop (fuel + 1) (c.view cursor) =
      ⟨rxStep S c.toSession e, c.consumed + cursor + n, (c.rx.drop cursor).drop n, c.log ++ [e]⟩ := by
    rw [Reader.drainLoop, htake]
    cases fuel with
    | zero => rfl
    | succ fuel =>
      simp only
      rw [Reader.drainLoop, hnone _ rfl]
      rfl
  have hvisits : (rxReader S).visits (fuel + 1) (c.view cursor) = [c.consumed + cursor] := by
    have hne : (c.rx.drop cursor).isEmpty = false := by
      rw [List.isEmpty_eq_false_iff, Ne, List.drop_eq_nil_iff]
      omega
    rw [Reader.visits, htake]
    cases fuel with
    | zero => simp [Conn.view, rxReader, hopen, hne, Reader.visits]
    | succ fuel => simp [Conn.view, rxReader, hopen, hne, Reader.visits, hclosed]
  refine ⟨?_, ?_, ?_, fun _ => hclosed, by simp⟩
  · rw [hdrain]; rfl
  · rw [hdrain]; rfl
  · rw [hvisits]; rfl

/-- One event was handled and the loop went on behind it. -/
theorem LoopSpec.next {fuel : ℕ} {c : Conn σ} {cursor n : ℕ} {e : RxEvent} {r : Conn σ × Option ℕ}
    (hopen : c.closing = false) (hlt : cursor < c.rx.length)
    (hnext : rxNext (c.rx.drop cursor) = some (e, n))
    (hr : LoopSpec S fuel
      (Conn.handle { c with calls := c.calls ++ [c.consumed + cursor] } e (rxStep S · e))
      (cursor + n) r) :
    LoopSpec S (fuel + 1) c cursor r := by
  have htake := Reader.take_of_next (R := rxReader S) (s := c.view cursor) hopen hnext
  have hview : (Conn.handle { c with calls := c.calls ++ [c.consumed + cursor] } e
        (rxStep S · e)).view (cursor + n) =
      ⟨rxStep S c.toSession e, c.consumed + cursor + n, (c.rx.drop cursor).drop n, c.log ++ [e]⟩ := by
    simp [Conn.view, Conn.handle, List.drop_drop, Nat.add_assoc]
  have hdrain : (rxReader S).drainLoop (fuel + 1) (c.view cursor) = (rxReader S).drainLoop fuel
      ((Conn.handle { c with calls := c.calls ++ [c.consumed + cursor] } e
        (rxStep S · e)).view (cursor + n)) := by
    rw [Reader.drainLoop, htake, hview]
    rfl
  have hvisits : (rxReader S).visits (fuel + 1) (c.view cursor) =
      (c.consumed + cursor) :: (rxReader S).visits fuel
      ((Conn.handle { c with calls := c.calls ++ [c.consumed + cursor] } e
        (rxStep S · e)).view (cursor + n)) := by
    have hne : (c.rx.drop cursor).isEmpty = false := by
      rw [List.isEmpty_eq_false_iff, Ne, List.drop_eq_nil_iff]
      omega
    rw [Reader.visits, htake, hview]
    simp [Conn.view, rxReader, hopen, hne]
  refine ⟨?_, ?_, ?_, hr.closing, ?_⟩
  · rw [hdrain]; exact hr.session
  · rw [hdrain]; exact hr.log
  · rw [hvisits, hr.calls]
    simp [Conn.handle]
  · rw [hdrain]; exact hr.view

theorem LoopSpec.handled {fuel : ℕ} {c : Conn σ} {cursor n : ℕ} {e : RxEvent}
    (ih : ∀ (c : Conn σ) (cursor : ℕ), c.closing = false →
      LoopSpec S fuel c cursor (processLoop S fuel c cursor))
    (hopen : c.closing = false) (hlt : cursor < c.rx.length)
    (hnext : rxNext (c.rx.drop cursor) = some (e, n)) :
    LoopSpec S (fuel + 1) c cursor
      (let c := Conn.handle { c with calls := c.calls ++ [c.consumed + cursor] } e (rxStep S · e)
        if c.closing then (c, none) else processLoop S fuel c (cursor + n)) := by
  dsimp only
  split_ifs with hc
  · exact LoopSpec.closed hopen hlt hnext hc
  · exact LoopSpec.next hopen hlt hnext (ih _ _ (by simpa using hc))

theorem processLoop_spec (fuel : ℕ) (c : Conn σ) (cursor : ℕ) (hopen : c.closing = false) :
    LoopSpec S fuel c cursor (processLoop S fuel c cursor) := by
  induction fuel generalizing c cursor with
  | zero =>
    refine ⟨rfl, rfl, by simp [processLoop, Reader.visits], by simp [processLoop], ?_⟩
    intro cur hcur
    cases hcur
    exact ⟨hopen, rfl⟩
  | succ fuel ih =>
    unfold processLoop
    by_cases hlt : c.rx.length ≤ cursor
    · have hnil : c.rx.drop cursor = [] := List.drop_eq_nil_of_le hlt
      have h := LoopSpec.stay (S := S) (n := fuel + 1) (p := cursor) (l := []) hopen
        (by simp [Reader.take, rxReader, Conn.view, hnil, rxNext_nil])
        (by simp [Reader.visits, Conn.view, hnil])
      simpa [hlt] using h
    · rw [if_neg hlt]
      have hlt : cursor < c.rx.length := by omega
      have hne : (c.rx.drop cursor).isEmpty = false := by
        rw [List.isEmpty_eq_false_iff, Ne, List.drop_eq_nil_iff]
        omega
      -- the resynchronisation always finds the newline that ended the bad line
      have hreject : ∀ msg n, rxNext (c.rx.drop cursor) = some (.rejected msg, n) →
          lf ∈ c.rx.drop cursor ∧ n = (first lf (c.rx.drop cursor)).length + 1 := by
        intro msg n h
        obtain ⟨hn, hfirst⟩ := rxNext_of_rejected h
        refine ⟨?_, hn⟩
        by_contra hmem
        exact hfirst.ne (congrArg List.length (first_eq_self hmem))
      dsimp only
      cases hp : parseClientOp (c.rx.drop cursor) with
      | needMore =>
        have hnext : rxNext (c.rx.drop cursor) = none := by simp [rxNext, hp]
        have htake : (rxReader S).take (c.view cursor) = none := by
          simp [Reader.take, rxReader, Conn.view, hnext]
        have hvisits : (rxReader S).visits (fuel + 1) (c.view cursor) = [c.consumed + cursor] := by
          rw [Reader.visits, htake]
          simp [rxReader, Conn.view, hopen, hne]
        exact LoopSpec.stay hopen htake hvisits
      | ok op n =>
        have hnext : rxNext (c.rx.drop cursor) = some (.op op, n) := by simp [rxNext, hp]
        exact LoopSpec.handled ih hopen hlt hnext
      | unknown =>
        have hnext : rxNext (c.rx.drop cursor) = some (.rejected (lit "Unknown Protocol Operation"),
            (first lf (c.rx.drop cursor)).length + 1) := by simp [rxNext, hp]
        have hmem := (hreject _ _ hnext).1
        have h := LoopSpec.handled ih hopen hlt hnext
        simp only [Conn.handle, rxStep, hmem, if_true, Nat.add_assoc] at h ⊢
        exact h
      | invalidArgs =>
        have hnext : rxNext (c.rx.drop cursor) = some (.rejected (lit "Invalid Operation"),
            (first lf (c.rx.drop cursor)).length + 1) := by simp [rxNext, hp]
        have hmem := (hreject _ _ hnext).1
        have h := LoopSpec.handled ih hopen hlt hnext
        simp only [Conn.handle, rxStep, hmem, if_true, Nat.add_assoc] at h ⊢
        exact h
      | malformed | payloadTooLarge | controlLineTooLong =>
        have hnext : rxNext (c.rx.drop cursor) = some (.violation, 0) := by simp [rxNext, hp]
        exact LoopSpec.closed hopen hlt hnext (beginClose_closing S _)

end Handling

end Monoblok
