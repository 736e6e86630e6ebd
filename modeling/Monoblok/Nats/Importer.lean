import Monoblok.Lib.Circular
import Monoblok.Lib.Trace
import Monoblok.Proto.Write
import Monoblok.Router.State

/-!
# The import ring

`importer.c` takes messages from a NATS server on a thread of its own and queues
them in a ring of reusable slots, from which the event loop hands them to the
program. A step below is a section under the lock, or what the loop does between
two of them; the worker and the loop take turns in any order.

Counters wrap. Memory for a slot or for the scratch buffer may run out at any
time.
-/

namespace Monoblok.Nats

open Circular Trace

/-! ## Slots and buffers -/

/-- A copy into a block of memory. -/
def copyInto (mem : Bytes) (off : ℕ) (src : Bytes) : Bytes :=
  mem.take off ++ src ++ mem.drop (off + src.length)

/-- A slot; its bytes are the subject followed by the payload. -/
structure ImportSlot where
  bytes : Bytes
  cap : ℕ
  subjectLen : ℕ
  payloadLen : ℕ

def ImportSlot.total (slot : ImportSlot) : ℕ := slot.subjectLen + slot.payloadLen

def slotReserve (memory : Bool) (slot : ImportSlot) (needed : ℕ) : Option ImportSlot :=
  if needed ≤ slot.cap then some slot
  else if memory then
    some { slot with
      bytes := slot.bytes ++ List.replicate (needed - slot.cap) 0
      cap := needed }
  else none

/-- The doubling loop of `mb_buf_reserve`. -/
def bufGrow (need : ℕ) : ℕ → ℕ → ℕ
  | 0, _ => need
  | fuel + 1, next =>
    if need ≤ next then next
    else if sizeMax / 2 < next then need
    else bufGrow need fuel (next * 2)

/-- The memory of the cleared scratch buffer with room for `total` bytes. -/
def scratchReserve (memory : Bool) (scratch : Bytes) (total : ℕ) : Option Bytes :=
  if sizeMax < total then none
  else if total ≤ scratch.length then some scratch
  else if memory then
    let cap := bufGrow total 64 (if scratch.length = 0 then 1024 else scratch.length)
    some (scratch ++ List.replicate (cap - scratch.length) 0)
  else none

/-! ## The importer -/

structure Importer where
  ring : ℕ → ImportSlot
  ringCap : ℕ
  head : ℕ
  len : ℕ
  pendingReceived : UInt64
  pendingDropped : UInt64
  received : UInt64
  processed : UInt64
  dropped : UInt64
  failed : UInt64
  drainScratch : Bytes
  asyncStarted : Bool
  closing : Bool
  /-- The loop has been woken and has not yet looked. -/
  woken : Bool

/-- A message as the NATS client gives it. -/
structure Incoming where
  subject : Option Bytes
  payload : Option Bytes
  payloadLen : ℕ
  data : ∀ p, payload = some p → p.length = payloadLen

/-- What becomes of messages: one is dropped, queued, lost for want of scratch
memory, or handed to the handler, which reports how it went. -/
inductive ImportEvent where
  | dropped
  | queued (subject payload : Bytes)
  | skipped
  | handed (subject payload : Bytes) (ok : Bool)
  deriving DecidableEq

namespace Importer

/-- `uv_async_send`, from the worker. -/
def wake (m : Importer) : Importer :=
  if !m.closing && m.asyncStarted then { m with woken := true } else m

def recordDrop (m : Importer) : Importer :=
  wake { m with
    pendingReceived := m.pendingReceived + 1
    pendingDropped := m.pendingDropped + 1 }

/-- The section of `import_queue_msg`. -/
def queue (memory : Bool) (subject payload : Bytes) (m : Importer) : ImportEvent × Importer :=
  let m := { m with pendingReceived := m.pendingReceived + 1 }
  if m.closing ∨ m.ringCap ≤ m.len then
    (.dropped, wake { m with pendingDropped := m.pendingDropped + 1 })
  else
    let idx := place m.ringCap m.head m.len
    match slotReserve memory (m.ring idx) (subject.length + payload.length) with
    | none => (.dropped, wake { m with pendingDropped := m.pendingDropped + 1 })
    | some slot =>
      let bytes := copyInto slot.bytes 0 subject
      let bytes := if payload.length ≠ 0 then copyInto bytes subject.length payload else bytes
      let slot := { slot with
        bytes := bytes
        subjectLen := subject.length
        payloadLen := payload.length }
      let m := { m with ring := Function.update m.ring idx slot, len := m.len + 1 }
      (.queued subject payload, if m.asyncStarted then { m with woken := true } else m)

/-- `import_queue_msg`: what may not be published at all is dropped at once. -/
def queueMsg (memory : Bool) (msg : Incoming) (m : Importer) : ImportEvent × Importer :=
  match msg.subject with
  | none => (.dropped, m.recordDrop)
  | some subject =>
    if (msg.payload = none ∧ msg.payloadLen ≠ 0) ∨ maxPayload < msg.payloadLen then
      (.dropped, m.recordDrop)
    else if !subjectValid subject false || subjectHasLvcPrefix subject ||
        subjectHasStatsPrefix subject || sizeMax - subject.length < msg.payloadLen then
      (.dropped, m.recordDrop)
    else m.queue memory subject (msg.payload.getD [])

def flushPendingCounters (m : Importer) : Importer :=
  { m with
    received := m.received + m.pendingReceived
    dropped := m.dropped + m.pendingDropped
    pendingReceived := 0
    pendingDropped := 0 }

/-- The head of the ring moves on. -/
def advance (m : Importer) : Importer :=
  { m with head := place m.ringCap m.head 1, len := m.len - 1 }

end Importer

/-! ## Steps -/

/-- Where the loop is in `mb_importer_drain`. -/
inductive DrainPoint where
  | idle
  | looping
  | measured (total : ℕ)
  | reserved
  | short
  | copied (subjectLen payloadLen : ℕ)
  deriving DecidableEq

structure ImportState where
  importer : Importer
  point : DrainPoint

/-- The steps of the worker, a dropped or a queued message, and those of the loop. -/
inductive ImportAction where
  | recordDrop
  | message (memory : Bool) (msg : Incoming)
  | startDrain
  | measure
  | reserve (memory : Bool)
  | copy
  | giveUp
  | handle (ok : Bool)
  | beginClose

namespace ImportState

variable (s : ImportState)

/-- The first section of a round. -/
def measure : ImportState :=
  let m := s.importer.flushPendingCounters
  if m.len = 0 then ⟨m, .idle⟩ else ⟨m, .measured (m.ring m.head).total⟩

def reserve (memory : Bool) (total : ℕ) : ImportState :=
  match scratchReserve memory s.importer.drainScratch total with
  | some scratch => ⟨{ s.importer with drainScratch := scratch }, .reserved⟩
  | none => ⟨s.importer, .short⟩

/-- The section of a round without scratch memory. -/
def giveUp : List ImportEvent × ImportState :=
  let m := s.importer.flushPendingCounters
  if m.len ≠ 0 then
    ([.skipped], ⟨{ m.advance with failed := m.failed + 1 }, .looping⟩)
  else ([], ⟨m, .looping⟩)

/-- The section that copies the first slot. -/
def copy : ImportState :=
  let m := s.importer.flushPendingCounters
  if m.len = 0 then ⟨m, .looping⟩
  else
    let slot := m.ring m.head
    ⟨{ m.advance with
        drainScratch := copyInto m.drainScratch 0 (slot.bytes.take slot.total) },
      .copied slot.subjectLen slot.payloadLen⟩

def handle (ok : Bool) (subjectLen payloadLen : ℕ) : List ImportEvent × ImportState :=
  let m := s.importer
  let subject := m.drainScratch.take subjectLen
  let payload := (m.drainScratch.drop subjectLen).take payloadLen
  ([.handed subject payload ok],
    ⟨if ok then { m with processed := m.processed + 1 } else { m with failed := m.failed + 1 },
      .looping⟩)

/-- The first section of `mb_importer_close`. -/
def beginClose : ImportState :=
  ⟨Importer.flushPendingCounters { s.importer with closing := true }, .idle⟩

/-- A step, with what becomes of messages in it; it has to be the turn of the
step. -/
def step (a : ImportAction) (s : ImportState) : Option (List ImportEvent × ImportState) :=
  match a, s.point with
  | .recordDrop, _ => some ([.dropped], { s with importer := s.importer.recordDrop })
  | .message memory msg, _ =>
    let r := s.importer.queueMsg memory msg
    some ([r.1], { s with importer := r.2 })
  | .startDrain, .idle => some ([], ⟨{ s.importer with woken := false }, .looping⟩)
  | .measure, .looping => some ([], s.measure)
  | .reserve memory, .measured total => some ([], s.reserve memory total)
  | .copy, .reserved => some ([], s.copy)
  | .giveUp, .short => some s.giveUp
  | .handle ok, .copied subjectLen payloadLen => some (s.handle ok subjectLen payloadLen)
  | .beginClose, .idle => some ([], s.beginClose)
  | _, _ => none

/-- An importer that has just started. -/
def start (ringCap : ℕ) : ImportState where
  importer := ⟨fun _ => ⟨[], 0, 0, 0⟩, ringCap, 0, 0, 0, 0, 0, 0, 0, 0, [], true, false, false⟩
  point := .idle

end ImportState

end Monoblok.Nats
