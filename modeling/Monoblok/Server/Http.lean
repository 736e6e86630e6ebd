import Monoblok.Router.Publish
import Monoblok.Server.HttpRequest

/-!
# HTTP connections

The connections of `http.c` and the callbacks that move them: reads, write
completions and closes, next to everything else the server does with the
router. A `GET /sub/…` turns its connection into an event stream, which is fed
by the router through the writer that `handle_get` installs.

Three fields of a connection are bookkeeping: what has gone to the socket, what
had been put out when its stream began (its header is in place from then on),
and the number of publishes.
-/

namespace Monoblok.Http

/-! ## Event streams -/

/-- Appends in a row, up to the first that finds no memory. -/
def appendAll (ok : ℕ → Bool) : ℕ → Bytes → List Bytes → Bytes × Bool
  | _, out, [] => (out, true)
  | i, out, piece :: pieces =>
    if piece.isEmpty then appendAll ok (i + 1) out pieces
    else if !ok i then (out, false)
    else
      match bufAppend out piece with
      | none => (out, false)
      | some out => appendAll ok (i + 1) out pieces

def hexDigit (n : UInt8) : UInt8 := if n < 10 then 0x30 + n else 0x61 + (n - 10)

/-- The escape of a byte in a JSON string, as `append_json_string` appends it. -/
def jsonPieces (c : UInt8) : List Bytes :=
  if c == 0x22 || c == 0x5c then [[0x5c], [c]]
  else if c == lf then [lit "\\n"]
  else if c == cr then [lit "\\r"]
  else if c == tab then [lit "\\t"]
  else if c == 0x08 then [lit "\\b"]
  else if c == 0x0c then [lit "\\f"]
  else if c < 0x20 then [lit "\\u00" ++ [hexDigit (c >>> 4), hexDigit (c &&& 0xf)]]
  else [[c]]

def jsonStringLen : ℕ → Bytes → Option ℕ
  | total, [] => some total
  | total, c :: cs => do
    let total ←
      if c == 0x22 || c == 0x5c || c == lf || c == cr || c == tab || c == 0x08 || c == 0x0c then
        addSize total 2
      else if c < 0x20 then addSize total 6
      else addSize total 1
    jsonStringLen total cs

def sliceHasNul (s : Bytes) : Bool := s.contains 0

def eventHead : Bytes := lit "event: msg\ndata: \x7b\"subject\":\""
def eventMiddle : Bytes := lit "\",\"payload\":\""
def eventTail : Bytes := lit "\"\x7d\n\n"

def sseMsgLen : MsgLenFn := fun pre subject _ _ payload =>
  if sliceHasNul payload then some 0
  else do
    let n ← addSize (eventHead.length + eventMiddle.length + eventTail.length) pre.length
    let n ← jsonStringLen n subject
    jsonStringLen n payload

def eventPieces (pre subject payload : Bytes) : List Bytes :=
  [eventHead, pre] ++ subject.flatMap jsonPieces ++ [eventMiddle] ++ payload.flatMap jsonPieces ++
    [eventTail]

def sseWriteMsg : WriteMsgFn := fun ok out pre subject _ _ payload =>
  if sliceHasNul payload then (out, true)
  else appendAll ok 0 out (eventPieces pre subject payload)

def sseHeader : Bytes :=
  lit "HTTP/1.1 200 OK\r\n" ++ lit "Server: monoblok\r\n" ++
    lit "Content-Type: text/event-stream\r\n" ++ lit "Cache-Control: no-cache\r\n" ++
    lit "Connection: keep-alive\r\n" ++ lit "\r\n"

/-! ## State -/

structure HttpConn where
  rx : Bytes
  inFlight : Bytes
  writePending : Bool
  closeAfterWrite : Bool
  closing : Bool
  sse : Bool
  sent : Bytes
  streamStart : Option Bytes
  published : ℕ
  deriving DecidableEq, Repr

def newConn : HttpConn := ⟨[], [], false, false, false, false, [], none, 0⟩

/-- What a connection of the router belongs to. -/
inductive Peer where
  | free
  | nats
  | http (conn : HttpConn)
  deriving DecidableEq, Repr

structure Server where
  world : World
  peers : ConnId → Peer

structure Config where
  auth : AuthConfig
  lvcEnabled : Bool
  clientPubsEnabled : Bool
  deriving DecidableEq, Repr

/-- The requests for memory of one callback. -/
inductive Mem where
  | rx
  | response (i : ℕ)
  | sseHeader
  | path (i : ℕ)
  | base64 (i : ℕ)
  deriving DecidableEq, Repr

/-- What a callback meets outside this file: memory, `uv_write`, the messages
the patchbay program publishes in answer to a client's, and what a kick does to
the output of a NATS connection (`none` when it is closed as too slow). -/
structure Env where
  mem : Mem → Bool
  alloc : Alloc
  uvWrite : ConnId → Bool
  emits : List (Alloc × Message)
  patchbayOk : Bool
  natsKick : ConnId → Bytes → Option Bytes

def Server.setOut (S : Server) (c : ConnId) (out : Bytes) : Server :=
  { S with world := S.world.updateConn c fun x => { x with out := out } }

def Server.setHttp (S : Server) (c : ConnId) (h : HttpConn) : Server :=
  { S with peers := Function.update S.peers c (.http h) }

def Server.out (S : Server) (c : ConnId) : Bytes := (S.world.conns c).out

/-! ## Closing and writing -/

/-- The part of a close that concerns the router. -/
def Server.dropConn (S : Server) (c : ConnId) : Server :=
  { S with world := removeAllFor (S.world.updateConn c fun x => { x with closed := true }) c }

/-- `http_conn_begin_close` and, for a NATS connection, `mb_conn_begin_close`. -/
def beginClose (S : Server) (c : ConnId) : Server :=
  match S.peers c with
  | .http h => if h.closing then S else (S.setHttp c { h with closing := true }).dropConn c
  | .nats => S.dropConn c
  | .free => S

def pendingBytes (S : Server) (c : ConnId) (h : HttpConn) : ℕ :=
  min sizeMax ((S.out c).length + h.inFlight.length)

def uintMax : ℕ := 2 ^ 32 - 1

/-- `write_socket`: the output goes to the socket as one write. -/
def writeSocket (env : Env) (S : Server) (c : ConnId) (h : HttpConn) : Server :=
  if h.closing || h.writePending || (S.out c).isEmpty then S
  else
    let h' := { h with
      inFlight := S.out c
      sent := h.sent ++ S.out c }
    let S := (S.setOut c h.inFlight).setHttp c h'
    if uintMax < h'.inFlight.length then beginClose S c
    else if env.uvWrite c then S.setHttp c { h' with writePending := true }
    else beginClose S c

def kickWrite (env : Env) (S : Server) (c : ConnId) : Server :=
  match S.peers c with
  | .http h =>
    if h.closing then S
    else if maxPending < pendingBytes S c h then beginClose S c
    else if h.writePending then S
    else writeSocket env S c h
  | .nats =>
    match env.natsKick c (S.out c) with
    | some out => S.setOut c out
    | none => beginClose S c
  | .free => S

def writeCb (env : Env) (S : Server) (c : ConnId) (ok : Bool) : Server :=
  match S.peers c with
  | .http h =>
    if !h.writePending then S
    else
      let S := S.setHttp c { h with writePending := false }
      if !ok || h.closing then beginClose S c
      else
        let h := { h with
          writePending := false
          inFlight := [] }
        let S := S.setHttp c h
        if h.closeAfterWrite && (S.out c).isEmpty then beginClose S c else kickWrite env S c
  | _ => S

/-! ## Publishing -/

/-- A publish with the callbacks it triggers. -/
def routerPublish (env : Env) (A : Alloc) (S : Server) (m : Message) : Server × Bool :=
  let r := publishWithReply A S.world m
  let S := r.closed.foldl beginClose { S with world := r.world }
  let S := r.kicked.foldl
    (fun S c => if (S.world.conns c).closed then S else kickWrite env S c) S
  (S, r.ok)

inductive PublishStatus where
  | ok
  | disabled
  | lvcReadOnly
  | statsReadOnly
  | routerFailed
  | patchbayFailed
  deriving DecidableEq, Repr

def publishEmits (env : Env) (S : Server) : Server :=
  env.emits.foldl (fun S x => (routerPublish env x.1 S x.2).1) S

/-- `mb_server_client_publish`. -/
def clientPublish (cfg : Config) (env : Env) (S : Server) (m : Message) : Server × PublishStatus :=
  if !cfg.clientPubsEnabled then (S, .disabled)
  else if subjectHasLvcPrefix m.subject then (S, .lvcReadOnly)
  else if subjectHasStatsPrefix m.subject then (S, .statsReadOnly)
  else
    match routerPublish env env.alloc S m with
    | (S, false) => (S, .routerFailed)
    | (S, true) =>
      (publishEmits env S, if env.patchbayOk then .ok else .patchbayFailed)

/-! ## Responses -/

structure Response where
  code : ℕ
  reason : Bytes
  extraHeader : Bytes
  body : Bytes
  deriving DecidableEq, Repr

/-- The appends of `write_response_bytes`; no caller gives another type. -/
def Response.pieces (r : Response) : List Bytes :=
  [lit "HTTP/1.1 ", decimal r.code, [space], r.reason,
    lit "\r\nServer: monoblok\r\nConnection: close\r\nContent-Length: ", decimal r.body.length,
    lit "\r\nContent-Type: ", lit "text/plain; charset=utf-8", lit "\r\n", r.extraHeader,
    lit "\r\n", r.body]

/-- `respond_and_close` for a connection in state `h`. -/
def respondAndClose (env : Env) (S : Server) (c : ConnId) (h : HttpConn) (r : Response) : Server :=
  match appendAll (fun i => env.mem (.response i)) 0 (S.out c) r.pieces with
  | (out, false) => beginClose ((S.setOut c out).setHttp c h) c
  | (out, true) =>
    kickWrite env ((S.setOut c out).setHttp c { h with closeAfterWrite := true }) c

def badRequest (body : String) : Response := ⟨400, lit "Bad Request", [], lit body⟩

def headersTooLarge : Response :=
  ⟨431, lit "Request Header Fields Too Large", [], lit "headers too large\n"⟩

def lvcDisabled : Response := ⟨409, lit "Conflict", [], lit "$LVC is disabled\n"⟩

def unauthorized (cfg : Config) : Response :=
  ⟨401, lit "Unauthorized", authHeader cfg.auth, lit "unauthorized\n"⟩

def publishResponse : PublishStatus → Response
  | .ok => ⟨202, lit "Accepted", [], []⟩
  | .disabled => ⟨403, lit "Forbidden", [], lit "client publish disabled\n"⟩
  | .lvcReadOnly => ⟨409, lit "Conflict", [], lit "$LVC is read-only\n"⟩
  | .statsReadOnly => ⟨409, lit "Conflict", [], lit "$STATS is read-only\n"⟩
  | .routerFailed => ⟨500, lit "Internal Server Error", [], lit "publish failed\n"⟩
  | .patchbayFailed => ⟨500, lit "Internal Server Error", [], lit "patchbay failed\n"⟩

/-! ## Requests -/

section Requests

variable (cfg : Config) (env : Env) (S : Server) (c : ConnId) (h : HttpConn)

def authorized (req : Request) : Bool :=
  requestAuthorized (fun i => env.mem (.base64 i)) cfg.auth req

def subjectOf (req : Request) (pre : Bytes) (allowWildcards : Bool) : Option Bytes :=
  decodeSubjectPath (fun i => env.mem (.path i)) req.target pre allowWildcards

def handleLatest (req : Request) : Server :=
  match subjectOf env req (lit "/latest/") false with
  | none => respondAndClose env S c h (badRequest "invalid latest path\n")
  | some subject =>
    if subjectHasLvcPrefix subject then
      respondAndClose env S c h (badRequest "use the unprefixed subject\n")
    else if !cfg.lvcEnabled then respondAndClose env S c h lvcDisabled
    else
      match lvcLatest S.world.router subject with
      | none => respondAndClose env S c h ⟨404, lit "Not Found", [], lit "not cached\n"⟩
      | some payload =>
        respondAndClose env S c h ⟨200, lit "OK", lit "Cache-Control: no-cache\r\n", payload⟩

/-- The router's side of a connection once it has the writer of a stream. -/
def withSseWriter : Server :=
  { S with world := S.world.updateConn c fun x =>
      { x with
        msgLenFn := some sseMsgLen
        writeMsgFn := some sseWriteMsg } }

/-- The end of `handle_get`: the header, then the subscription, which may replay
cached values. -/
def openStream (subject : Bytes) : Server :=
  let S := withSseWriter S c
  match env.mem .sseHeader, bufAppend (S.out c) sseHeader with
  | true, some out =>
    let start := h.sent ++ S.out c
    let S := S.setOut c out
    match subscribeQueue env.alloc S.world c subject [] (lit "sse") with
    | (world, false) =>
      respondAndClose env ({ S with world := world }.setOut c []) c h
        ⟨500, lit "Internal Server Error", [], lit "subscribe failed\n"⟩
    | (world, true) =>
      kickWrite env
        ({ S with world := world }.setHttp c
          { h with
            rx := []
            sse := true
            streamStart := some start }) c
  | _, _ => beginClose (S.setHttp c { h with sse := true }) c

def handleGet (req : Request) : Server :=
  if req.contentLength.getD 0 ≠ 0 then
    respondAndClose env S c h (badRequest "GET body is not supported\n")
  else if !authorized cfg env req then respondAndClose env S c h (unauthorized cfg)
  else if sliceHasPrefix req.target (lit "/latest/") then handleLatest cfg env S c h req
  else if !sliceHasPrefix req.target (lit "/sub/") then
    respondAndClose env S c h (badRequest "invalid GET path\n")
  else
    match subjectOf env req (lit "/sub/") true with
    | none => respondAndClose env S c h (badRequest "invalid subscription path\n")
    | some subject =>
      if subjectHasLvcPrefix subject && !cfg.lvcEnabled then respondAndClose env S c h lvcDisabled
      else openStream env S c h subject

/-- The state of a connection after a callback has run other code. -/
def reload : HttpConn :=
  match S.peers c with
  | .http h => h
  | _ => h

def handlePost (req : Request) (body : Bytes) : Server :=
  if !authorized cfg env req then respondAndClose env S c h (unauthorized cfg)
  else if !(req.contentType.map contentTypeAllowed).getD false then
    respondAndClose env S c h
      ⟨415, lit "Unsupported Media Type", [], lit "use text/plain or application/json\n"⟩
  else
    match subjectOf env req (lit "/pub/") false with
    | none => respondAndClose env S c h (badRequest "invalid publish path\n")
    | some subject =>
      if sliceHasNul body then
        respondAndClose env S c h (badRequest "binary payloads are not supported\n")
      else
        let S := S.setHttp c { h with published := h.published + 1 }
        let (S, status) := clientPublish cfg env S ⟨subject, body, []⟩
        respondAndClose env S c (reload S c h) (publishResponse status)

/-- `process_request` on a connection whose input is `h.rx`. -/
def processRequest : Server :=
  match findHeaderEnd h.rx with
  | none =>
    if maxHeader < h.rx.length then respondAndClose env S c h headersTooLarge
    else S.setHttp c h
  | some headerEnd =>
    if maxHeader < headerEnd then respondAndClose env S c h headersTooLarge
    else
      match parseHeaders (h.rx.take headerEnd) with
      | none => respondAndClose env S c h (badRequest "bad request\n")
      | some req =>
        if req.hasTransferEncoding then
          respondAndClose env S c h (badRequest "transfer encoding is not supported\n")
        else
          match req.method, req.contentLength with
          | .get, _ => handleGet cfg env S c h req
          | .post, none =>
            respondAndClose env S c h
              ⟨411, lit "Length Required", [], lit "Content-Length is required\n"⟩
          | .post, some n =>
            if maxPayload < n then
              respondAndClose env S c h ⟨413, lit "Payload Too Large", [], lit "payload too large\n"⟩
            else if h.rx.length - headerEnd < n then S.setHttp c h
            else handlePost cfg env S c h req ((h.rx.drop headerEnd).take n)

end Requests

/-! ## Callbacks -/

def maxRx : ℕ := maxHeader + maxPayload

/-- `read_cb` with data; libuv does not call it once the connection closes. -/
def readCb (cfg : Config) (env : Env) (S : Server) (c : ConnId) (chunk : Bytes) : Server :=
  match S.peers c with
  | .http h =>
    if h.closing || chunk.isEmpty then S
    else if h.sse then beginClose S c
    else if maxRx < h.rx.length + chunk.length then
      respondAndClose env S c h ⟨413, lit "Payload Too Large", [], lit "request too large\n"⟩
    else if !env.mem .rx then beginClose S c
    else processRequest cfg env S c { h with rx := h.rx ++ chunk }
  | _ => S

/-- A connection of the router as `calloc` and its creator leave it. -/
def freshRouterConn : RouterConn := ⟨[], 0, 0, 0, false, none, none, true, true⟩

inductive Event where
  | accept (c : ConnId) (http : Bool)
  | read (env : Env) (c : ConnId) (chunk : Bytes)
  | close (c : ConnId)
  | written (env : Env) (c : ConnId) (ok : Bool)
  /-- a publish by a NATS client, a timer, an import or the statistics -/
  | publish (env : Env) (m : Message)
  | natsSubscribe (A : Alloc) (c : ConnId) (subject queue sid : Bytes)
  | natsUnsubscribe (c : ConnId) (sid : Bytes) (maxMsgs : Option ℕ)
  /-- a NATS connection answers its client or writes -/
  | natsOut (c : ConnId) (out : Bytes)

def step (cfg : Config) (S : Server) : Event → Server
  | .accept c http =>
    match S.peers c with
    | .free =>
      { world := S.world.updateConn c fun _ => freshRouterConn
        peers := Function.update S.peers c (if http then .http newConn else .nats) }
    | _ => S
  | .read env c chunk => readCb cfg env S c chunk
  | .close c => beginClose S c
  | .written env c ok => writeCb env S c ok
  | .publish env m => publishEmits env (routerPublish env env.alloc S m).1
  | .natsSubscribe A c subject queue sid =>
    match S.peers c with
    | .nats => { S with world := (subscribeQueue A S.world c subject queue sid).1 }
    | _ => S
  | .natsUnsubscribe c sid maxMsgs =>
    match S.peers c with
    | .nats => { S with world := unsubscribe S.world c sid maxMsgs }
    | _ => S
  | .natsOut c out =>
    match S.peers c with
    | .nats => S.setOut c out
    | _ => S

def run (cfg : Config) (S : Server) (events : List Event) : Server := events.foldl (step cfg) S

end Monoblok.Http
