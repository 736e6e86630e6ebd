import Monoblok.Lib.Trace
import Monoblok.Proto.Write
import Monoblok.Router.State

/-!
# The JetStream hand-off

`jetstream.c` fetches messages on a thread of its own and hands them one at a
time to the event loop, which processes them and reports back. A step below is a
section under the lock, or what a party does between two of them; the worker, the
callback of the loop and the close take turns in any order.

The callback and the close share a thread in the program. Here they may also run
across each other, which is more than the program can do.
-/

namespace Monoblok.Nats

open Trace

/-! ## Messages -/

structure MsgMetaData where
  /-- In nanoseconds. -/
  timestamp : ℤ
  streamSeq : UInt64
  numDelivered : UInt64
  deriving DecidableEq

/-- A message with what the NATS client tells of it; metadata comes with an error
status instead if it cannot be read. -/
structure NatsMsg where
  metaData : ℤ ⊕ MsgMetaData
  subject : Option Bytes
  payload : Option Bytes
  dataLen : ℤ
  data : ∀ p, payload = some p → p.length = dataLen
  deriving DecidableEq

/-- A message in memory, at an address of its own. -/
structure MsgRef where
  address : ℕ
  msg : NatsMsg
  deriving DecidableEq

/-! ## The stream -/

/-- The fields the two threads share, and the counters. -/
structure JsStream where
  pendingMsg : Option MsgRef
  pendingReady : Bool
  pendingInProcess : Bool
  pendingDone : Bool
  pendingOk : Bool
  closing : Bool
  received : UInt64
  processed : UInt64
  acked : UInt64
  redelivered : UInt64
  failed : UInt64
  lastStreamSeq : UInt64
  lastEventNowMs : UInt64
  lastEventWallMs : ℤ
  lastStatus : ℤ

/-- What is done with messages. -/
inductive HandoffEvent where
  | fetched (m : MsgRef)
  | handled (m : MsgRef) (subject payload : Bytes) (nowMs : UInt64) (wallMs : ℤ) (ok : Bool)
  | acked (m : MsgRef)
  | processed (m : MsgRef) (ok : Bool)
  | destroyed (m : MsgRef)
  | reported (m : MsgRef) (consumed ok : Bool)
  deriving DecidableEq

/-- How the handler and the server answer. -/
structure Answers where
  handlerOk : Bool
  /-- `NATS_OK` is 0. -/
  ackStatus : ℤ

namespace JsStream

def setStatus (status : ℤ) (st : JsStream) : Bool × JsStream :=
  if status = 0 then (true, st) else (false, { st with lastStatus := status })

def subjectAllowed (subject : Bytes) : Bool :=
  subjectValid subject false && !subjectHasLvcPrefix subject && !subjectHasStatsPrefix subject

def eventTimeFromMsg (msg : NatsMsg) (st : JsStream) : Option (MsgMetaData × ℤ) × JsStream :=
  match msg.metaData with
  | .inl status => (none, { st with lastStatus := status })
  | .inr info =>
    if info.timestamp ≤ 0 then (none, st)
    else
      let wallMs := info.timestamp.tdiv 1000000
      let wallMs := if st.lastEventWallMs ≠ 0 ∧ wallMs < st.lastEventWallMs then
        st.lastEventWallMs else wallMs
      if wallMs < 0 then (none, st) else (some (info, wallMs), st)

def fail (st : JsStream) : Bool × JsStream := (false, { st with failed := st.failed + 1 })

/-- The part of `js_stream_process_msg` from the call of the handler on. -/
def deliver (answers : Answers) (m : MsgRef) (info : MsgMetaData) (wallMs : ℤ)
    (subject payload : Bytes) (st : JsStream) : List HandoffEvent × Bool × JsStream :=
  let nowMs := UInt64.ofInt wallMs
  let handled := HandoffEvent.handled m subject payload nowMs wallMs answers.handlerOk
  let st := if 1 < info.numDelivered then { st with redelivered := st.redelivered + 1 } else st
  if !answers.handlerOk then ([handled], st.fail)
  else
    let (acked, st) := st.setStatus answers.ackStatus
    if !acked then ([handled], st.fail)
    else
      ([handled, .acked m], true,
        { st with
          acked := st.acked + 1
          processed := st.processed + 1
          lastStreamSeq := info.streamSeq
          lastEventNowMs := nowMs
          lastEventWallMs := wallMs })

def processMsg (answers : Answers) (m : MsgRef) (st : JsStream) :
    List HandoffEvent × Bool × JsStream :=
  let st := { st with received := st.received + 1 }
  match st.eventTimeFromMsg m.msg with
  | (none, st) => ([], st.fail)
  | (some (info, wallMs), st) =>
    match m.msg.subject with
    | none => ([], st.fail)
    | some subject =>
      if m.msg.dataLen < 0 ∨ (m.msg.payload = none ∧ m.msg.dataLen ≠ 0) ∨
          maxPayload < m.msg.dataLen.toNat then ([], st.fail)
      else if !subjectAllowed subject then ([], st.fail)
      else st.deliver answers m info wallMs subject (m.msg.payload.getD [])

/-- The worker leaves a message for the loop. -/
def post (m : MsgRef) (st : JsStream) : JsStream :=
  { st with
    pendingMsg := some m
    pendingReady := true
    pendingDone := false
    pendingOk := false
    pendingInProcess := false }

/-- The worker takes its message back. -/
def reclaim (st : JsStream) : JsStream :=
  { st with pendingMsg := none, pendingReady := false }

/-- The loop takes the message that was left for it. -/
def take (st : JsStream) : JsStream :=
  { st with pendingMsg := none, pendingReady := false, pendingInProcess := true }

end JsStream

/-! ## Steps -/

/-- Where the worker is in `js_stream_thread_main` and `js_stream_handoff_msg`.
`rest` is what is left of the fetched list; a worker in `uv_cond_wait` is asleep
until a broadcast, or wakes by itself. -/
inductive WorkerPoint where
  | unstarted
  | checking
  | fetching
  | listing (rest : List (Option MsgRef))
  | awaitingRoom (m : MsgRef) (rest : List (Option MsgRef)) (asleep : Bool)
  | awaitingResult (m : MsgRef) (rest : List (Option MsgRef)) (asleep : Bool)
  | returned (m : MsgRef) (rest : List (Option MsgRef)) (consumed ok : Bool)
  | freeing (rest : List (Option MsgRef))
  | ended

/-- Where the loop is in `on_js_async`. -/
inductive LoopPoint where
  | idle
  | processing (m : MsgRef)
  | finishing (ok : Bool)

/-- Where the loop is in `js_stream_close`. -/
inductive ClosePoint where
  | opened
  | joining
  | closed
  deriving DecidableEq

structure HandoffState where
  stream : JsStream
  worker : WorkerPoint
  loop : LoopPoint
  close : ClosePoint
  /-- Where the next message is put. -/
  nextAddress : ℕ

/-- What a fetch comes back with. -/
inductive FetchResult where
  | timeout
  | failed (status : ℤ)
  | messages (list : List (Option NatsMsg))

inductive HandoffAction where
  | startLive
  | checkClosing
  | fetch (result : FetchResult)
  | handOff (asyncOk : Bool)
  | wakeUp
  | recheck (asyncOk : Bool)
  | afterHandOff
  | freeList
  | onAsync
  | process (answers : Answers)
  | finish
  | beginClose
  | finishClose

/-- `uv_cond_broadcast`. -/
def WorkerPoint.broadcast : WorkerPoint → WorkerPoint
  | .awaitingRoom m rest _ => .awaitingRoom m rest false
  | .awaitingResult m rest _ => .awaitingResult m rest false
  | point => point

/-- The messages of a fetched list, put in memory. -/
def allocate : ℕ → List (Option NatsMsg) → List (Option MsgRef)
  | _, [] => []
  | address, none :: list => none :: allocate address list
  | address, some msg :: list => some ⟨address, msg⟩ :: allocate (address + 1) list

namespace HandoffState

variable (s : HandoffState)

def fetch (result : FetchResult) : List HandoffEvent × HandoffState :=
  match result with
  | .timeout => ([], { s with worker := .checking })
  | .failed status =>
    ([], { s with worker := .checking, stream := { s.stream with lastStatus := status } })
  | .messages list =>
    let refs := allocate s.nextAddress list
    ((refs.filterMap id).map .fetched,
      { s with worker := .listing refs, nextAddress := s.nextAddress + list.length })

/-- The way out of `js_stream_handoff_msg`. -/
def report (m : MsgRef) (rest : List (Option MsgRef)) (consumed ok : Bool) :
    List HandoffEvent × HandoffState :=
  ([.reported m consumed ok], { s with worker := .returned m rest consumed ok })

/-- A round of the second loop of `js_stream_handoff_msg`. -/
def awaitResult (m : MsgRef) (rest : List (Option MsgRef)) : List HandoffEvent × HandoffState :=
  if s.stream.pendingDone then s.report m rest true s.stream.pendingOk
  else if s.stream.closing ∧ s.stream.pendingReady ∧ s.stream.pendingMsg = some m ∧
      !s.stream.pendingInProcess then
    { s with stream := s.stream.reclaim }.report m rest false false
  else ([], { s with worker := .awaitingResult m rest true })

/-- The first loop of `js_stream_handoff_msg` and what follows it. -/
def enter (asyncOk : Bool) (m : MsgRef) (rest : List (Option MsgRef)) :
    List HandoffEvent × HandoffState :=
  if !s.stream.closing && (s.stream.pendingReady || s.stream.pendingInProcess) then
    ([], { s with worker := .awaitingRoom m rest true })
  else if s.stream.closing then s.report m rest false false
  else if !asyncOk then
    { s with stream := (s.stream.post m).reclaim }.report m rest false false
  else { s with stream := s.stream.post m }.awaitResult m rest

/-- The first section of `on_js_async`. -/
def onAsync : HandoffState :=
  match if s.stream.pendingReady then s.stream.pendingMsg else none with
  | none => s
  | some m => { s with stream := s.stream.take, loop := .processing m }

def process (answers : Answers) (m : MsgRef) : List HandoffEvent × HandoffState :=
  let r := s.stream.processMsg answers m
  (r.1 ++ [.processed m r.2.1, .destroyed m],
    { s with stream := r.2.2, loop := .finishing r.2.1 })

/-- The second section of `on_js_async`. -/
def finish (ok : Bool) : HandoffState :=
  { s with
    stream := { s.stream with pendingInProcess := false, pendingOk := ok, pendingDone := true }
    worker := s.worker.broadcast
    loop := .idle }

/-- The section of `js_stream_close`. -/
def beginClose : HandoffState :=
  { s with
    stream := { s.stream with closing := true }
    worker := s.worker.broadcast
    close := .joining }

/-- `js_stream_close` from the end of the join on. -/
def finishClose : List HandoffEvent × HandoffState :=
  (s.stream.pendingMsg.toList.map .destroyed,
    { s with stream := { s.stream with pendingMsg := none }, close := .closed })

/-- A step, with what is done with messages in it; it has to be the turn of the
step. -/
def step (a : HandoffAction) (s : HandoffState) : Option (List HandoffEvent × HandoffState) :=
  match a with
  | .startLive =>
    match s.worker, s.close with
    | .unstarted, .opened => some ([], { s with worker := .checking })
    | _, _ => none
  | .checkClosing =>
    match s.worker with
    | .checking => some ([], { s with worker := if s.stream.closing then .ended else .fetching })
    | _ => none
  | .fetch result =>
    match s.worker with
    | .fetching => some (s.fetch result)
    | _ => none
  | .handOff asyncOk =>
    match s.worker with
    | .listing [] => some ([], { s with worker := .freeing [] })
    | .listing (none :: rest) => some ([], { s with worker := .listing rest })
    | .listing (some m :: rest) => some (s.enter asyncOk m rest)
    | _ => none
  | .wakeUp =>
    match s.worker with
    | .awaitingRoom _ _ _ => some ([], { s with worker := s.worker.broadcast })
    | .awaitingResult _ _ _ => some ([], { s with worker := s.worker.broadcast })
    | _ => none
  | .recheck asyncOk =>
    match s.worker with
    | .awaitingRoom m rest false => some (s.enter asyncOk m rest)
    | .awaitingResult m rest false => some (s.awaitResult m rest)
    | _ => none
  | .afterHandOff =>
    match s.worker with
    | .returned m rest consumed ok =>
      if ok then some ([], { s with worker := .listing rest })
      else
        some (if consumed then [] else [.destroyed m], { s with worker := .freeing rest })
    | _ => none
  | .freeList =>
    match s.worker with
    | .freeing rest => some ((rest.filterMap id).map .destroyed, { s with worker := .checking })
    | _ => none
  | .onAsync =>
    match s.loop, s.close with
    | .idle, .opened => some ([], s.onAsync)
    | .idle, .joining => some ([], s.onAsync)
    | _, _ => none
  | .process answers =>
    match s.loop with
    | .processing m => some (s.process answers m)
    | _ => none
  | .finish =>
    match s.loop with
    | .finishing ok => some ([], s.finish ok)
    | _ => none
  | .beginClose =>
    match s.close with
    | .opened => some ([], s.beginClose)
    | _ => none
  | .finishClose =>
    match s.close, s.worker with
    | .joining, .unstarted => some s.finishClose
    | .joining, .ended => some s.finishClose
    | _, _ => none

/-- A stream that has been connected. -/
def start (stream : JsStream) : HandoffState where
  stream := { stream with
    pendingMsg := none
    pendingReady := false
    pendingInProcess := false
    pendingDone := false
    pendingOk := false
    closing := false }
  worker := .unstarted
  loop := .idle
  close := .opened
  nextAddress := 0

end HandoffState

end Monoblok.Nats
