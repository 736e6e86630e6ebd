import Monoblok.Router.State

/-!
# The output of a client connection

The write side of `conn.c`, with and without TLS. Four buffers are swapped on the
way from the router to the socket, and one function moves them on from every
callback there is.

OpenSSL is met through its answers, which a callback gets as a script: whatever
the library does is one. `SSL_write` takes some of the bytes it is offered, from
the front. What `process_rx` and the router do to this connection is a script as
well: bytes are appended, writes are kicked, or the connection is closed.

The log is bookkeeping; the code does not read it.
-/

namespace Monoblok.Output

/-- The state of TLS on a connection. -/
inductive TlsState where
  | off
  | info
  | handshake
  | ready
  deriving DecidableEq, Repr

/-- What happens to bytes on their way. -/
inductive OutputEvent where
  /-- to `out`, by the router or in reply -/
  | appended (bytes : Bytes)
  /-- a `uv_write` of what was in `out` -/
  | socket (bytes : Bytes)
  /-- taken by `SSL_write` -/
  | encrypted (bytes : Bytes)
  /-- drained from the write BIO -/
  | drained (bytes : Bytes)
  /-- a `uv_write` of what was drained -/
  | records (bytes : Bytes)
  | completed
  | closed
  deriving DecidableEq, Repr

structure OutputState where
  out : Bytes
  inFlight : Bytes
  tlsPlain : Bytes
  tlsPlainOff : ℕ
  tlsOut : Bytes
  tlsState : TlsState
  writePending : Bool
  closing : Bool
  log : List OutputEvent
  deriving DecidableEq, Repr

/-! ## Scripts -/

/-- What `tls_drain_wbio` reads, up to a failure if it fails. -/
structure Drain where
  chunks : List Bytes
  ok : Bool

/-- The answer to a call of OpenSSL, and what is in the write BIO after it. -/
inductive SslWrite where
  | taken (n : ℕ)
  | want
  | failed

structure Encrypt where
  answer : SslWrite
  drain : Drain

/-- What a kick meets: the answers of `SSL_write`, wanting more after the last one,
and that of `uv_write`. -/
structure Kick where
  writes : List Encrypt
  uvOk : Bool

inductive Call where
  | append (bytes : Bytes)
  | kick (k : Kick)
  | close

/-- The answer of `SSL_read`; `memory` is for the bytes it gives, `script` is what
`process_rx` does with them. -/
inductive SslRead where
  | data (memory : Bool) (script : List Call)
  | want
  | failed

structure Decrypt where
  answer : SslRead
  drain : Drain

inductive SslHandshake where
  | done
  | want
  | failed

structure Handshake where
  answer : SslHandshake
  drain : Drain
  reads : List Decrypt

/-- What `tls_start` meets. -/
structure Start where
  allocated : Bool
  reading : Bool
  handshake : Handshake
  kick : Kick

/-- What the callback of a write meets. -/
structure Written where
  start : Start
  handshake : Handshake
  kick : Kick

/-- What a read with data meets. -/
structure Feed where
  memory : Bool
  script : List Call
  bioOk : Bool
  handshake : Handshake
  kick : Kick

namespace OutputState

variable (s : OutputState)

def record (e : OutputEvent) : OutputState := { s with log := s.log ++ [e] }

def append (bytes : Bytes) : OutputState := { s with out := s.out ++ bytes }.record (.appended bytes)

/-- `mb_conn_begin_close`. -/
def beginClose : OutputState := if s.closing then s else { s with closing := true }.record .closed

def addPending (a b : ℕ) : ℕ := if sizeMax - b < a then sizeMax else a + b

def pendingBytes : ℕ :=
  let pending := addPending (addPending s.out.length s.inFlight.length) s.tlsOut.length
  if s.tlsPlainOff < s.tlsPlain.length then
    addPending pending (s.tlsPlain.length - s.tlsPlainOff)
  else pending

def uintMax : ℕ := 2 ^ 32 - 1

def intMax : ℕ := 2 ^ 31 - 1

/-! ## TLS records -/

def drainChunk (s : OutputState) (chunk : Bytes) : OutputState :=
  { s with tlsOut := s.tlsOut ++ chunk }.record (.drained chunk)

def tlsDrainWbio (d : Drain) : Bool × OutputState :=
  let s := d.chunks.foldl drainChunk s
  if d.ok then (true, s) else (false, s.beginClose)

/-- The top of the loop of `tls_encrypt_pending`: bytes of `out` take the place of
those that have been encrypted. Says whether there are any. -/
def refill : Bool × OutputState :=
  if s.tlsPlainOff = s.tlsPlain.length then
    let s := { s with tlsPlain := [], tlsPlainOff := 0 }
    if s.out.isEmpty then (false, s) else (true, { s with out := s.tlsPlain, tlsPlain := s.out })
  else (true, s)

/-- `SSL_write` takes `n + 1` bytes, or all it is offered. -/
def sslWrite (n : ℕ) : ℕ × OutputState :=
  let chunk := min (s.tlsPlain.length - s.tlsPlainOff) intMax
  let n := min (n + 1) chunk
  (n, s.record (.encrypted ((s.tlsPlain.drop s.tlsPlainOff).take n)))

/-- The loop of `tls_encrypt_pending`. -/
def encryptLoop (s : OutputState) : List Encrypt → Bool × OutputState
  | [] => (true, s.refill.2)
  | w :: writes =>
    let (more, s) := s.refill
    if !more then (true, s)
    else
      match w.answer with
      | .taken n =>
        let (n, s) := s.sslWrite n
        let (ok, s) := s.tlsDrainWbio w.drain
        if !ok then (false, s)
        else encryptLoop { s with tlsPlainOff := s.tlsPlainOff + n } writes
      | .want => s.tlsDrainWbio w.drain
      | .failed =>
        let (ok, s) := s.tlsDrainWbio w.drain
        if !ok then (false, s) else (false, s.beginClose)

def tlsEncryptPending (writes : List Encrypt) : Bool × OutputState :=
  if s.tlsState ≠ .ready then (true, s) else encryptLoop s writes

/-! ## Writing -/

/-- `uv_write` of what is in flight. -/
def uvWrite (uvOk : Bool) (e : OutputEvent) : OutputState :=
  if uintMax < s.inFlight.length then s.beginClose
  else if uvOk then { s with writePending := true }.record e
  else s.beginClose

/-- `write_socket_from` with `out`. -/
def writeOut (uvOk : Bool) : OutputState :=
  if s.closing || s.writePending || s.out.isEmpty then s
  else { s with out := s.inFlight, inFlight := s.out }.uvWrite uvOk (.socket s.out)

/-- `write_socket_from` with `tls_out`. -/
def writeTlsOut (uvOk : Bool) : OutputState :=
  if s.closing || s.writePending || s.tlsOut.isEmpty then s
  else { s with tlsOut := s.inFlight, inFlight := s.tlsOut }.uvWrite uvOk (.records s.tlsOut)

def kickWrite (k : Kick) : OutputState :=
  if s.closing then s
  else if maxPending < s.pendingBytes then s.beginClose
  else if s.writePending then s
  else
    match s.tlsState with
    | .off => s.writeOut k.uvOk
    | .info => s.writeOut k.uvOk
    | .handshake => s.writeTlsOut k.uvOk
    | .ready =>
      let (ok, s) := s.tlsEncryptPending k.writes
      if !ok then s else s.writeTlsOut k.uvOk

/-! ## Reading -/

def call (s : OutputState) : Call → OutputState
  | .append bytes => s.append bytes
  | .kick k => s.kickWrite k
  | .close => s.beginClose

/-- `process_rx`, and what it calls, as far as this connection is concerned. -/
def processRx (script : List Call) : OutputState := script.foldl call s

def tlsDrainPlain (s : OutputState) : List Decrypt → Bool × OutputState
  | [] => (true, s)
  | r :: reads =>
    let (ok, s) := s.tlsDrainWbio r.drain
    if !ok then (false, s)
    else
      match r.answer with
      | .data memory script =>
        if !memory then (false, s.beginClose)
        else
          let s := s.processRx script
          if s.closing then (false, s) else tlsDrainPlain s reads
      | .want => (true, s)
      | .failed => (false, s.beginClose)

def tlsDriveHandshake (h : Handshake) : Bool × OutputState :=
  if s.tlsState ≠ .handshake then (true, s)
  else
    let (ok, s) := s.tlsDrainWbio h.drain
    if !ok then (false, s)
    else
      match h.answer with
      | .done => tlsDrainPlain { s with tlsState := .ready } h.reads
      | .want => (true, s)
      | .failed => (false, s.beginClose)

def tlsFeedEncrypted (bioOk : Bool) (h : Handshake) : Bool × OutputState :=
  if !bioOk then (false, s.beginClose)
  else
    match s.tlsState with
    | .handshake => s.tlsDriveHandshake h
    | .ready => tlsDrainPlain s h.reads
    | _ => (true, s)

def tlsStart (t : Start) : OutputState :=
  if !t.allocated then s.beginClose
  else
    let s := { s with tlsState := .handshake }
    if !t.reading then s.beginClose
    else
      let (ok, s) := s.tlsDriveHandshake t.handshake
      if !ok then s else s.kickWrite t.kick

/-! ## Callbacks -/

def writeCb (ok : Bool) (w : Written) : OutputState :=
  let s := s.record .completed
  if !ok || s.closing then { s with writePending := false }.beginClose
  else
    let s := { s with inFlight := [], writePending := false }
    match s.tlsState with
    | .info => s.tlsStart w.start
    | .handshake =>
      let (ok, s) := s.tlsDriveHandshake w.handshake
      if ok && !s.closing then s.kickWrite w.kick else s
    | _ => s.kickWrite w.kick

/-- `read_cb` with data. -/
def readCb (f : Feed) : OutputState :=
  match s.tlsState with
  | .info => s.beginClose
  | .off =>
    if !f.memory then s.beginClose
    else
      let s := s.processRx f.script
      if s.closing then s else s.kickWrite f.kick
  | _ =>
    let (ok, s) := s.tlsFeedEncrypted f.bioOk f.handshake
    if ok && !s.closing then s.kickWrite f.kick else s

/-- What `mb_write_info` writes, with the fields behind the first name left open. -/
def infoLine (fields : Bytes) : Bytes :=
  lit "INFO \x7b\"server_id\":" ++ fields ++ lit "\x7d\r\n"

/-- `mb_conn_create` from `mb_write_info` on: without TLS it starts to read before it
kicks the write. -/
def create (tls : Bool) (fields : Bytes) (reading : Bool) (k : Kick) : OutputState :=
  let s : OutputState := ⟨[], [], [], 0, [], if tls then .info else .off, false, false, []⟩
  let s := s.append (infoLine fields)
  if !tls && !reading then s.beginClose else s.kickWrite k

end OutputState

/-- What happens to a connection from outside. -/
inductive OutputAction where
  | call (c : Call)
  | written (ok : Bool) (w : Written)
  | read (f : Feed)
  | readError

/-- A step; libuv calls back for a write that was started, and does not read for a
connection that is closing. -/
def step (s : OutputState) : OutputAction → OutputState
  | .call c => s.call c
  | .written ok w => if s.writePending then s.writeCb ok w else s
  | .read f => if s.closing then s else s.readCb f
  | .readError => if s.closing then s else s.beginClose

def run (s : OutputState) (actions : List OutputAction) : OutputState := actions.foldl step s

end Monoblok.Output
