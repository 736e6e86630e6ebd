import Monoblok.Nats.Bridge
import Monoblok.Nats.Fifo
import Monoblok.Nats.Headers
import Monoblok.Nats.JetStream

/-!
# Several servers at one NATS server

What the bridge of a server has handed over reaches the importers, its own among
them. An importer with `origin-header` lets no message with an `x-monoblok`
header through, so that nothing goes round between servers. A step below is a
message from outside, a call of the router of one server, a message that comes to
one importer, or a turn of the loop of one server; they come in any order, and
the NATS server may deliver a message late, again, or not at all, but as it was
sent. A host name of white space only is nothing once it has been read, so the
importers cannot tell such a server's messages from those from outside.
-/

namespace Monoblok.Nats

open Trace

/-! ## The importer -/

/-- `import_has_origin_header`, with `last_status`. -/
def importHasOriginHeader (originHeader : Bool) (get : HeaderGet) (lastStatus : Status) :
    Bool × Status :=
  if !originHeader then (false, lastStatus)
  else
    match get with
    | .ok value => (value.any fun v => !(cString v).isEmpty, lastStatus)
    | .notFound => (false, lastStatus)
    | .failed status => (false, status)

/-- The message as `import_queue_msg` is given it. -/
def incomingOf (msg : NatsMsg) : Incoming where
  subject := msg.subject
  payload := msg.payload
  payloadLen := msg.dataLen.toNat
  data := by
    intro p hp
    have := msg.data p hp
    omega

/-- `import_handle_nats_msg`: what the worker does with a message. -/
def importHandleNatsMsg (originHeader memory : Bool) (get : HeaderGet) (msg : NatsMsg)
    (lastStatus : Status) : ImportAction × Status :=
  let (origin, lastStatus) := importHasOriginHeader originHeader get lastStatus
  if origin ∨ msg.dataLen < 0 then (.recordDrop, lastStatus)
  else (.message memory (incomingOf msg), lastStatus)

/-! ## The servers -/

variable {ι : Type*}

/-- A message at the NATS server, with the bytes of its headers if it has any and the server it
is from if it is from one. -/
structure Wire (ι : Type*) where
  subject : Bytes
  payload : Bytes
  hdr : Option Bytes
  source : Option ι
  deriving DecidableEq

/-- An order in which `natsStrHashIter_Next` goes through the headers of a message. -/
structure HeaderOrder where
  arrange : List (Bytes × Bytes) → List (Bytes × Bytes)
  perm : ∀ headers, (arrange headers).Perm headers

/-- What the client of a server sends for a message it has taken. -/
def wireOf (order : HeaderOrder) (i : ι) (message : Outgoing) : Wire ι where
  subject := message.subject
  payload := message.payload
  hdr :=
    if message.headers.isEmpty then none
    else some (natsMsgHeaderEncode (order.arrange message.headers))
  source := some i

structure Peer where
  world : World
  bridge : Bridge
  /-- `origin_header` of the importer. -/
  originHeader : Bool
  importer : ImportState
  lastStatus : Status

structure Federation (ι : Type*) where
  peers : ι → Peer
  broker : List (Wire ι)

/-- The message that `natsMsg_createWithPadding` makes of it: the subject is a C string, and the
payload is there even if it is empty. It has no metadata. -/
def natsMsgOf (wire : Wire ι) : NatsMsg where
  metaData := .inl 0
  subject := some (cString wire.subject)
  payload := some wire.payload
  dataLen := wire.payload.length
  data := fun _ h => by cases h; rfl

/-- What the client tells of the header of the origin. -/
def Wire.originGet (wire : Wire ι) (failure : Option Status) : HeaderGet :=
  natsMsgHeaderGet wire.hdr failure originHeaderName

/-- The headers could be read. -/
def HeaderGet.wasRead : HeaderGet → Bool
  | .failed _ => false
  | _ => true

inductive FederationAction (ι : Type*) where
  | outside (subject payload : Bytes) (hdr : Option Bytes)
  | publish (i : ι) (call : RouterCall) (order : HeaderOrder)
  | deliver (i : ι) (k : ℕ) (memory : Bool) (failure : Option Status)
  | turn (i : ι) (a : ImportAction)

inductive FederationEvent (ι : Type*) where
  | arrived (i : ι) (wire : Wire ι) (read : Bool)
  | became (i : ι) (e : ImportEvent)

/-- Whether a step is the loop's. -/
def ImportAction.isLoop : ImportAction → Bool
  | .recordDrop => false
  | .message _ _ => false
  | _ => true

namespace Federation

variable [DecidableEq ι] (F : Federation ι)

def setPeer (i : ι) (p : Peer) : Federation ι := { F with peers := Function.update F.peers i p }

/-- A step of the importer of one server. -/
def importStep (i : ι) (a : ImportAction) (lastStatus : Status) :
    Option (List (FederationEvent ι) × Federation ι) :=
  (ImportState.step a (F.peers i).importer).map fun x =>
    (x.1.map (.became i),
      F.setPeer i { F.peers i with importer := x.2, lastStatus := lastStatus })

/-- A step, with the messages that arrive and what becomes of them. -/
def step (a : FederationAction ι) (F : Federation ι) :
    Option (List (FederationEvent ι) × Federation ι) :=
  match a with
  | .outside subject payload hdr =>
    some ([], { F with broker := F.broker ++ [⟨subject, payload, hdr, none⟩] })
  | .publish i call order =>
    let p := F.peers i
    let x := bridgedStep (p.world, p.bridge, []) call
    let F' := F.setPeer i { p with world := x.1, bridge := x.2.1 }
    some ([], { F' with broker := F.broker ++ x.2.2.map (wireOf order i) })
  | .deliver i k memory failure =>
    F.broker[k]?.bind fun wire =>
      let p := F.peers i
      let get := wire.originGet failure
      let x := importHandleNatsMsg p.originHeader memory get (natsMsgOf wire) p.lastStatus
      (F.importStep i x.1 x.2).map fun y => (.arrived i wire get.wasRead :: y.1, y.2)
  | .turn i a => if a.isLoop then F.importStep i a (F.peers i).lastStatus else none

end Federation

/-! ## What may go through -/

/-- The message has an origin header that is not empty. -/
def HeaderGet.marks : HeaderGet → Bool
  | .ok value => value.any fun v => !(cString v).isEmpty
  | _ => false

def Wire.marked (w : Wire ι) : Bool := (w.originGet none).marks

/-- Something is left of a host name without the white space around it. -/
def visible (host : Bytes) : Bool := (cString host).any fun c => !isSpace c

/-- The message is from a bridge with `origin-header` on a host with a name that can be seen. -/
def Wire.fromMarking (config : ι → Option BridgeConfig) (hostname : ι → Option Bytes)
    (w : Wire ι) : Bool :=
  w.source.any fun i =>
    (config i).any BridgeConfig.originHeader && visible (originHeaderValueOf (hostname i))

section Events

variable [DecidableEq ι]

def FederationEvent.arrived? (i : ι) : FederationEvent ι → Option (Wire ι × Bool)
  | .arrived j wire read => if j = i then some (wire, read) else none
  | .became _ _ => none

def FederationEvent.became? (i : ι) : FederationEvent ι → Option ImportEvent
  | .arrived _ _ _ => none
  | .became j e => if j = i then some e else none

/-- The messages that came to an importer, each with whether its headers could be
read. -/
def arrivedAt (i : ι) (c : List (FederationEvent ι)) : List (Wire ι × Bool) :=
  c.filterMap (FederationEvent.arrived? i)

def becameAt (i : ι) (c : List (FederationEvent ι)) : List ImportEvent :=
  c.filterMap (FederationEvent.became? i)

/-- The messages that came to an importer and that it is to let through. -/
def letThrough (originHeader : Bool) (arrivals : List (Wire ι × Bool)) : List Message :=
  (arrivals.filter fun x => !(originHeader && x.2 && x.1.marked)).map fun x =>
    (cString x.1.subject, x.1.payload)

/-- The messages that an importer has handed to the program. -/
def handedAt (i : ι) (c : List (FederationEvent ι)) : List Message :=
  (takenOf (becameAt i c)).reduceOption

end Events

/-! ## Bridges -/

/-- A bridge with `origin-header` puts the header on every message. -/
structure Marking (config : Option BridgeConfig) (host : Bytes) (b : Bridge) : Prop where
  configured : b.config = config
  value : b.started = true → ∀ cfg, config = some cfg → cfg.originHeader = true →
    b.originHeaderValue = some host

theorem marking_bridgeStart {a : StartAnswers} {config : Option BridgeConfig} {u u' : NatsUsers}
    {b : Bridge} {ok : Bool} (h : bridgeStart a config u = (b, u', ok)) :
    Marking config (originHeaderValueOf a.hostname) b := by
  cases config with
  | none =>
    cases h
    exact ⟨rfl, fun hstarted => by cases hstarted⟩
  | some cfg =>
    simp only [bridgeStart] at h
    split_ifs at h with hpresent hcreate hset hconnect horigin
    · cases h
      exact ⟨rfl, fun hstarted => by cases hstarted⟩
    · cases h
      exact ⟨rfl, fun hstarted => by cases hstarted⟩
    · cases h
      exact ⟨rfl, fun hstarted => by cases hstarted⟩
    · cases h
      exact ⟨rfl, fun _ cfg' hcfg horigin' => rfl⟩
    · cases h
      refine ⟨rfl, fun _ cfg' hcfg horigin' => ?_⟩
      cases hcfg
      exact absurd horigin' horigin
    · cases h
      exact ⟨rfl, fun hstarted => by cases hstarted⟩

/-- What a publish leaves alone, and what it hands over. -/
structure Published (b : Bridge) (x : Bridge × Option Outgoing) : Prop where
  config : x.1.config = b.config
  started : x.1.started = b.started
  origin : x.1.originHeaderValue = b.originHeaderValue
  headers : ∀ message, x.2 = some message → b.started = true ∧ ∃ cfg a options,
    b.config = some cfg ∧ message.headers = (bridgeHeaders a b cfg options).map Prod.fst

theorem published_nothing {b b' : Bridge} (hconfig : b'.config = b.config)
    (hstarted : b'.started = b.started) (horigin : b'.originHeaderValue = b.originHeaderValue) :
    Published b (b', none) :=
  ⟨hconfig, hstarted, horigin, fun _ h => by cases h⟩

theorem Published.ite {b : Bridge} {x y : Bridge × Option Outgoing} {p : Prop} [Decidable p]
    (hx : Published b x) (hy : Published b y) : Published b (if p then x else y) := by
  split_ifs
  · exact hx
  · exact hy

theorem published_bridgePublish (a : SendAnswers) (b : Bridge) (subject payload : Bytes)
    (options : PublishOptions) : Published b (bridgePublish a b subject payload options) := by
  unfold bridgePublish
  split
  · exact published_nothing rfl rfl rfl
  · rename_i cfg hcfg
    split_ifs with hidle hlong
    · exact published_nothing rfl rfl rfl
    · exact published_nothing rfl rfl rfl
    · split
      · exact published_nothing rfl rfl rfl
      · apply Published.ite
        · refine ⟨rfl, rfl, rfl, ?_⟩
          intro message hmessage
          cases hmessage
          simp only [Bool.or_eq_true, Bool.not_eq_true', not_or, Bool.not_eq_false] at hidle
          exact ⟨hidle.1.1, cfg, a, options, hcfg, rfl⟩
        · exact published_nothing rfl rfl rfl

theorem Marking.published {config : Option BridgeConfig} {host : Bytes} {b : Bridge}
    {x : Bridge × Option Outgoing} (h : Marking config host b) (hx : Published b x) :
    Marking config host x.1 := by
  constructor
  · exact hx.config.trans h.configured
  · intro hstarted
    rw [hx.origin]
    exact h.value (hx.started.symm.trans hstarted)

/-- The headers of a bridge have plain names, each of its own. -/
theorem bridgeHeaders_plain (a : SendAnswers) (b : Bridge) (cfg : BridgeConfig)
    (options : PublishOptions) :
    (∀ x ∈ (bridgeHeaders a b cfg options).map Prod.fst, PlainKey x.1) ∧
      (((bridgeHeaders a b cfg options).map Prod.fst).map Prod.fst).Nodup := by
  have horigin : PlainKey originHeaderName := by decide
  have hreplay : PlainKey replayHeaderName := by decide
  have hts : PlainKey assumedTsHeaderName := by decide
  have hnames : [originHeaderName, replayHeaderName, assumedTsHeaderName].Nodup := by decide
  simp only [List.nodup_cons, List.mem_cons, List.not_mem_nil, or_false, not_or] at hnames
  unfold bridgeHeaders
  cases b.originHeaderValue <;> cases cfg.replayHeader <;> cases options.replaying <;>
    cases options.hasAssumedTsMs <;> simp [horigin, hreplay, hts, hnames]

/-- A value that can be seen is there on arrival. -/
theorem marks_trimmedValue {host : Bytes} (h : visible host = true) :
    (HeaderGet.ok (some (trimmedValue host))).marks = true := by
  have hzero : cString (trimmedValue host) = trimmedValue host := by
    apply cString_of_ne_zero
    intro c hc
    exact (mem_encodedValue ((List.dropWhile_sublist isSpace).subset
      ((trimRight_sublist _).subset hc))).1
  have hne : trimmedValue host ≠ [] := by
    rw [Ne, trimmedValue_eq_nil_iff]
    intro hall
    obtain ⟨c, hc, hspace⟩ := List.any_eq_true.mp h
    simp [hall c hc] at hspace
  simpa [HeaderGet.marks, hzero] using hne

/-- A message from a bridge with `origin-header` is marked. -/
theorem Marking.marked {config : ι → Option BridgeConfig} {hostname : ι → Option Bytes} {i : ι}
    {b : Bridge} {x : Bridge × Option Outgoing}
    (h : Marking (config i) (originHeaderValueOf (hostname i)) b) (hx : Published b x)
    {message : Outgoing} (hmessage : x.2 = some message) (order : HeaderOrder)
    (hfrom : (wireOf order i message).fromMarking config hostname = true) :
    (wireOf order i message).marked = true := by
  obtain ⟨hstarted, cfg, a, options, hcfg, hheaders⟩ := hx.headers message hmessage
  have hconfig : config i = some cfg := h.configured.symm.trans hcfg
  obtain ⟨horigin, hvisible⟩ : cfg.originHeader = true ∧
      visible (originHeaderValueOf (hostname i)) = true := by
    simpa [Wire.fromMarking, wireOf, hconfig] using hfrom
  have hvalue := h.value hstarted cfg hconfig horigin
  obtain ⟨hplain, hnodup⟩ := bridgeHeaders_plain a b cfg options
  have hmem : (originHeaderName, originHeaderValueOf (hostname i)) ∈ message.headers := by
    rw [hheaders]
    simp [bridgeHeaders, hvalue]
  rw [← hheaders] at hplain hnodup
  have hperm := order.perm message.headers
  have hget := natsMsgHeaderGet_encode (fun y hy => hplain y (hperm.mem_iff.mp hy))
    ((hperm.map Prod.fst).nodup_iff.mpr hnodup) (hperm.mem_iff.mpr hmem)
  have hne : message.headers.isEmpty = false :=
    List.isEmpty_eq_false_iff.mpr (List.ne_nil_of_mem hmem)
  simp only [Wire.marked, Wire.originGet, wireOf, hne, Bool.false_eq_true, if_false, hget]
  exact marks_trimmedValue hvisible

theorem bridgedStep_published (w : World) (b : Bridge) (call : RouterCall) :
    ∃ x, Published b x ∧ (bridgedStep (w, b, []) call).2.1 = x.1 ∧
      (bridgedStep (w, b, []) call).2.2 = x.2.toList := by
  unfold bridgedStep
  dsimp only
  split_ifs
  · exact ⟨_, published_bridgePublish _ b _ _ _, rfl, rfl⟩
  · exact ⟨(b, none), published_nothing rfl rfl rfl, rfl, rfl⟩

/-! ## Importers -/

theorem queue_event (memory : Bool) (subject payload : Bytes) (m : Importer) :
    (m.queue memory subject payload).1 = .dropped ∨
      (m.queue memory subject payload).1 = .queued subject payload := by
  unfold Importer.queue
  dsimp only
  by_cases hfull : m.closing = true ∨ m.ringCap ≤ m.len
  · rw [if_pos hfull]
    exact .inl rfl
  · rw [if_neg hfull]
    split
    · exact .inl rfl
    · exact .inr rfl

theorem queueMsg_event (memory : Bool) (msg : Incoming) (m : Importer) :
    (m.queueMsg memory msg).1 = .dropped ∨
      ∃ subject, msg.subject = some subject ∧
        (m.queueMsg memory msg).1 = .queued subject (msg.payload.getD []) := by
  unfold Importer.queueMsg
  split
  · exact .inl rfl
  · rename_i subject hsubject
    split_ifs
    · exact .inl rfl
    · exact .inl rfl
    · exact (queue_event memory subject _ m).imp id fun h => ⟨subject, hsubject, h⟩

/-- The steps of the loop queue nothing. -/
theorem queuedOf_loop {a : ImportAction} {s s' : ImportState} {d : List ImportEvent}
    (ha : a.isLoop = true) (h : ImportState.step a s = some (d, s')) : queuedOf d = [] := by
  unfold ImportState.step at h
  split at h
  · cases ha
  · cases ha
  · cases h
    rfl
  · cases h
    rfl
  · cases h
    rfl
  · cases h
    rfl
  · unfold ImportState.giveUp at h
    dsimp only at h
    split_ifs at h <;> cases h <;> rfl
  · cases h
    rfl
  · cases h
    rfl
  · cases h

/-- The importer drops what the client tells it is marked. -/
theorem importHasOriginHeader_eq (originHeader : Bool) (wire : Wire ι) (failure : Option Status)
    (lastStatus : Status) :
    (importHasOriginHeader originHeader (wire.originGet failure) lastStatus).1 =
      (originHeader && (wire.originGet failure).wasRead && wire.marked) := by
  unfold importHasOriginHeader
  cases originHeader with
  | false => simp
  | true =>
    have hread : ∀ status, failure = some status →
        wire.originGet failure = .notFound ∧ wire.marked = false ∨
          wire.originGet failure = .failed status := by
      rintro status rfl
      cases hhdr : wire.hdr <;> simp [Wire.marked, Wire.originGet, natsMsgHeaderGet, hhdr,
        HeaderGet.marks]
    cases failure with
    | none =>
      rw [Wire.marked]
      cases wire.originGet none <;> simp [HeaderGet.wasRead, HeaderGet.marks]
    | some status =>
      rcases hread status rfl with ⟨hget, hmarked⟩ | hget
      · simp [hget, hmarked]
      · simp [hget, HeaderGet.wasRead]

/-- What comes of a delivered message: it is queued as it is, and only if it is
let through. -/
theorem queuedOf_deliver {originHeader memory : Bool} {wire : Wire ι} {failure : Option Status}
    {lastStatus : Status} {s s' : ImportState} {d : List ImportEvent}
    (h : ImportState.step (importHandleNatsMsg originHeader memory (wire.originGet failure)
      (natsMsgOf wire) lastStatus).1 s = some (d, s')) :
    (queuedOf d).Sublist (letThrough originHeader [(wire, (wire.originGet failure).wasRead)]) := by
  have hdrop : ∀ {d : List ImportEvent}, ImportState.step .recordDrop s = some (d, s') →
      queuedOf d = [] := by
    intro d h
    cases h
    rfl
  have hmarks := importHasOriginHeader_eq originHeader wire failure lastStatus
  unfold importHandleNatsMsg at h
  dsimp only at h
  split_ifs at h with horigin
  · rw [hdrop h]
    exact List.nil_sublist _
  · cases h
    rcases queueMsg_event memory (incomingOf (natsMsgOf wire)) s.importer
      with hevent | ⟨subject, hsubject, hevent⟩
    · rw [hevent]
      exact List.nil_sublist _
    · simp only [not_or, Bool.not_eq_true] at horigin
      rw [horigin.1] at hmarks
      have hlet : letThrough originHeader [(wire, (wire.originGet failure).wasRead)] =
          [(cString wire.subject, wire.payload)] := by
        simp only [letThrough, List.filter_cons, ← hmarks, Bool.not_false, if_true,
          List.filter_nil, List.map_cons, List.map_nil]
      cases hsubject
      rw [hevent, hlet]
      exact List.Sublist.refl _

/-! ## Runs -/

section Runs

variable [DecidableEq ι]

structure FederationInv (config : ι → Option BridgeConfig) (hostname : ι → Option Bytes)
    (origin : ι → Bool) (c : List (FederationEvent ι)) (F : Federation ι) : Prop where
  bridge : ∀ i, Marking (config i) (originHeaderValueOf (hostname i)) (F.peers i).bridge
  same : ∀ i, (F.peers i).originHeader = origin i
  broker : ∀ w ∈ F.broker, w.fromMarking config hostname = true → w.marked = true
  arrived : ∀ i, ∀ x ∈ arrivedAt i c, x.1 ∈ F.broker
  queue : ∀ i, ∃ cap, QueueInv cap (becameAt i c) (F.peers i).importer
  passed : ∀ i, (queuedOf (becameAt i c)).Sublist (letThrough (origin i) (arrivedAt i c))

theorem arrivedAt_append (i : ι) (c d : List (FederationEvent ι)) :
    arrivedAt i (c ++ d) = arrivedAt i c ++ arrivedAt i d := List.filterMap_append

theorem becameAt_append (i : ι) (c d : List (FederationEvent ι)) :
    becameAt i (c ++ d) = becameAt i c ++ becameAt i d := List.filterMap_append

theorem arrivedAt_became (i j : ι) (d : List ImportEvent) :
    arrivedAt i (d.map (.became j : ImportEvent → FederationEvent ι)) = [] := by
  unfold arrivedAt
  rw [List.filterMap_map]
  apply List.filterMap_eq_nil_iff.mpr
  intro e _
  rfl

theorem becameAt_became (i j : ι) (d : List ImportEvent) :
    becameAt i (d.map (.became j : ImportEvent → FederationEvent ι)) = if j = i then d else [] := by
  unfold becameAt
  rw [List.filterMap_map]
  split_ifs with h
  · have hsome : (FederationEvent.became? i ∘ FederationEvent.became j) = some := by
      funext e
      exact if_pos h
    rw [hsome, List.filterMap_some]
  · apply List.filterMap_eq_nil_iff.mpr
    intro e _
    exact if_neg h

omit [DecidableEq ι] in
theorem letThrough_append (originHeader : Bool) (x y : List (Wire ι × Bool)) :
    letThrough originHeader (x ++ y) = letThrough originHeader x ++ letThrough originHeader y := by
  simp [letThrough]

variable {config : ι → Option BridgeConfig} {hostname : ι → Option Bytes} {origin : ι → Bool}
  {c d : List (FederationEvent ι)} {F F' : Federation ι}

/-- A step of one importer. -/
theorem FederationInv.importStep {i : ι} {a : ImportAction} {lastStatus : Status}
    (arrived : List (FederationEvent ι)) (hF : FederationInv config hostname origin c F)
    (h : F.importStep i a lastStatus = some (d, F')) (hbecame : ∀ j, becameAt j arrived = [])
    (harrived : ∀ j, ∀ x ∈ arrivedAt j arrived, x.1 ∈ F.broker)
    (hpass : ∀ {e s'}, ImportState.step a (F.peers i).importer = some (e, s') →
      ∀ j, (if i = j then queuedOf e else []).Sublist (letThrough (origin j) (arrivedAt j arrived))) :
    FederationInv config hostname origin (c ++ (arrived ++ d)) F' := by
  obtain ⟨⟨e, s'⟩, hstep, heq⟩ := Option.map_eq_some_iff.mp h
  cases heq
  have hbecameAt : ∀ j, becameAt j (c ++ (arrived ++ e.map (.became i))) =
      becameAt j c ++ if i = j then e else [] := by
    intro j
    rw [becameAt_append, becameAt_append, hbecame j, List.nil_append, becameAt_became]
  constructor
  · intro j
    by_cases hj : j = i
    · subst hj
      simpa [Federation.setPeer] using hF.bridge j
    · simpa [Federation.setPeer, Function.update_of_ne hj] using hF.bridge j
  · intro j
    by_cases hj : j = i
    · subst hj
      simpa [Federation.setPeer] using hF.same j
    · simpa [Federation.setPeer, Function.update_of_ne hj] using hF.same j
  · exact hF.broker
  · intro j x hx
    rw [arrivedAt_append, arrivedAt_append, arrivedAt_became, List.append_nil] at hx
    exact (List.mem_append.mp hx).elim (hF.arrived j x) (harrived j x)
  · intro j
    obtain ⟨cap, hqueue⟩ := hF.queue j
    refine ⟨cap, ?_⟩
    rw [hbecameAt]
    by_cases hj : j = i
    · subst hj
      simpa [Federation.setPeer] using queueInv_step hqueue hstep
    · simpa [Federation.setPeer, Function.update_of_ne hj, Ne.symm hj] using hqueue
  · intro j
    have hqueued : queuedOf (if i = j then e else []) = if i = j then queuedOf e else [] := by
      split_ifs <;> rfl
    rw [hbecameAt, queuedOf_append, hqueued, arrivedAt_append, arrivedAt_append, arrivedAt_became,
      List.append_nil, letThrough_append]
    exact (hF.passed j).append (hpass hstep j)

theorem federationInv_step {a : FederationAction ι} (hF : FederationInv config hostname origin c F)
    (h : Federation.step a F = some (d, F')) : FederationInv config hostname origin (c ++ d) F' := by
  cases a with
  | outside subject payload hdr =>
    cases h
    rw [List.append_nil]
    refine ⟨hF.bridge, hF.same, ?_, fun j x hx => List.mem_append_left _ (hF.arrived j x hx),
      hF.queue, hF.passed⟩
    intro w hw hfrom
    rcases List.mem_append.mp hw with hw | hw
    · exact hF.broker w hw hfrom
    · rw [List.mem_singleton.mp hw] at hfrom
      cases hfrom
  | publish i call order =>
    obtain ⟨x, hx, hbridge, hsent⟩ := bridgedStep_published (F.peers i).world (F.peers i).bridge call
    cases h
    rw [List.append_nil]
    constructor
    · intro j
      by_cases hj : j = i
      · subst hj
        simpa [Federation.setPeer, hbridge] using (hF.bridge j).published hx
      · simpa [Federation.setPeer, Function.update_of_ne hj] using hF.bridge j
    · intro j
      by_cases hj : j = i
      · subst hj
        simpa [Federation.setPeer] using hF.same j
      · simpa [Federation.setPeer, Function.update_of_ne hj] using hF.same j
    · intro w hw hfrom
      rcases List.mem_append.mp hw with hw | hw
      · exact hF.broker w hw hfrom
      · obtain ⟨message, hmessage, rfl⟩ := List.mem_map.mp hw
        rw [hsent] at hmessage
        exact (hF.bridge i).marked hx (Option.mem_toList.mp hmessage) order hfrom
    · intro j x hx'
      exact List.mem_append_left _ (hF.arrived j x hx')
    · intro j
      by_cases hj : j = i
      · subst hj
        simpa [Federation.setPeer] using hF.queue j
      · simpa [Federation.setPeer, Function.update_of_ne hj] using hF.queue j
    · exact hF.passed
  | deliver i k memory failure =>
    obtain ⟨wire, hwire, h⟩ := Option.bind_eq_some_iff.mp h
    obtain ⟨⟨e, F₁⟩, hstep, heq⟩ := Option.map_eq_some_iff.mp h
    cases heq
    apply FederationInv.importStep [.arrived i wire (wire.originGet failure).wasRead] hF hstep
    · intro j
      rfl
    · intro j x hx
      simp only [arrivedAt, List.mem_filterMap, List.mem_singleton, exists_eq_left,
        FederationEvent.arrived?, Option.ite_none_right_eq_some, Option.some.injEq] at hx
      obtain ⟨-, rfl⟩ := hx
      exact List.mem_of_getElem? hwire
    · intro e s' himport j
      have hqueued := queuedOf_deliver himport
      rw [hF.same i] at hqueued
      split_ifs with hj
      · subst hj
        simpa [arrivedAt, FederationEvent.arrived?] using hqueued
      · exact List.nil_sublist _
  | turn i a =>
    unfold Federation.step at h
    dsimp only at h
    split_ifs at h with hloop
    apply FederationInv.importStep [] hF h
    · intro j
      rfl
    · intro j x hx
      cases hx
    · intro e s' himport j
      rw [queuedOf_loop hloop himport]
      split_ifs <;> exact List.nil_sublist _

/-- What is taken is a part of what was queued. -/
theorem reduceOption_sublist {taken : List (Option Message)} {done : List Message}
    (h : List.Forall₂ Fate taken done) : taken.reduceOption.Sublist done := by
  induction h with
  | nil => exact List.Sublist.refl _
  | cons hfate _ ih =>
    rcases hfate with rfl | rfl
    · exact ih.cons _
    · exact ih.cons_cons _

/-- Servers that have just started, some with a bridge; `hostname` is what `gethostname` tells
each of them. -/
structure Started (config : ι → Option BridgeConfig) (hostname : ι → Option Bytes)
    (F : Federation ι) : Prop where
  bridge : ∀ i, ∃ a u u' ok, a.hostname = hostname i ∧
    bridgeStart a (config i) u = ((F.peers i).bridge, u', ok)
  importer : ∀ i, ∃ cap, (F.peers i).importer = .start cap
  broker : F.broker = []

theorem federationInv_run (hF : Started config hostname F) {actions : List (FederationAction ι)}
    (hrun : collect Federation.step actions F = some (c, F')) :
    FederationInv config hostname (fun i => (F.peers i).originHeader) c F' := by
  have hstart : FederationInv config hostname (fun i => (F.peers i).originHeader) [] F := by
    constructor
    · intro i
      obtain ⟨a, u, u', ok, hhost, hbridge⟩ := hF.bridge i
      rw [← hhost]
      exact marking_bridgeStart hbridge
    · intro i
      rfl
    · intro w hw
      rw [hF.broker] at hw
      cases hw
    · intro i x hx
      cases hx
    · intro i
      obtain ⟨cap, himporter⟩ := hF.importer i
      rw [himporter]
      exact ⟨cap, queueInv_start cap⟩
    · intro i
      exact List.nil_sublist _
  have hinv := collect_invariant (fun _ _ _ _ _ hF hstep => federationInv_step hF hstep) hstart hrun
  rwa [List.nil_append] at hinv

/-- The messages that came to an importer, without those of the bridges with
`origin-header` whose headers it could read and whose host has a name to be seen. -/
def notGoneRound (config : ι → Option BridgeConfig) (hostname : ι → Option Bytes)
    (arrivals : List (Wire ι × Bool)) : List Message :=
  (arrivals.filter fun x => !(x.2 && x.1.fromMarking config hostname)).map fun x =>
    (cString x.1.subject, x.1.payload)

/-- In every run, an importer hands to the program an ordered part of what it is
to let through. If it has `origin-header`, this has nothing in it that a bridge
with `origin-header` has handed over, the server's own or another's, as long as
the headers can be read and the name of the sender's host is not all white space. -/
theorem nothing_goes_round (hF : Started config hostname F) {actions : List (FederationAction ι)}
    (hrun : collect Federation.step actions F = some (c, F')) (i : ι) :
    (handedAt i c).Sublist (letThrough (F.peers i).originHeader (arrivedAt i c)) ∧
      ((F.peers i).originHeader = true →
        (handedAt i c).Sublist (notGoneRound config hostname (arrivedAt i c))) := by
  have hinv := federationInv_run hF hrun
  have hhanded : (handedAt i c).Sublist (letThrough (F.peers i).originHeader (arrivedAt i c)) := by
    obtain ⟨cap, hqueue⟩ := hinv.queue i
    obtain ⟨done, hqueued, htaken⟩ := hqueue.order
    have hdone : done.Sublist (queuedOf (becameAt i c)) := by
      rw [hqueued]
      exact List.sublist_append_left _ _
    exact ((reduceOption_sublist htaken).trans hdone).trans (hinv.passed i)
  refine ⟨hhanded, fun horigin => ?_⟩
  rw [horigin] at hhanded
  have hless : (letThrough true (arrivedAt i c)) =
      letThrough true ((arrivedAt i c).filter fun x =>
        !(x.2 && x.1.fromMarking config hostname)) := by
    unfold letThrough
    rw [List.filter_filter]
    congr 1
    apply List.filter_congr
    intro x hx
    have hmarked := hinv.broker x.1 (hinv.arrived i x hx)
    cases x.2 <;> cases hfrom : x.1.fromMarking config hostname <;> simp_all
  rw [hless] at hhanded
  exact hhanded.trans (List.filter_sublist.map _)

end Runs

/-- Two servers with the same patchbay. -/
def twoPeers : Federation Bool where
  peers := fun _ =>
    { world := quietWorld
      bridge := { Bridge.zero with
        config := some ⟨true, [lit "a.>"], true, false⟩, conn := true
        originHeaderValue := some (lit "mill"), started := true }
      originHeader := true
      importer := .start 4
      lastStatus := natsOk }
  broker := []

/-- One of them publishes a message, which comes to both, and then one comes from
outside. -/
def roundTrip : List (FederationAction Bool) :=
  twoCalls.map (.publish false · ⟨id, fun _ => .refl _⟩) ++
    [.outside (lit "a.c") (lit "new") none, .deliver false 0 true none, .deliver true 0 true none,
      .deliver true 1 true none, .turn true .startDrain, .turn true .measure,
      .turn true (.reserve true), .turn true .copy, .turn true (.handle true)]

theorem nothing_goes_round_two : ∃ c F', collect Federation.step roundTrip twoPeers = some (c, F') ∧
    handedAt true c = [(lit "a.c", lit "new")] ∧ arrivedAt false c ≠ [] ∧
      ∀ i, (handedAt i c).Sublist
        (notGoneRound (fun _ => some ⟨true, [lit "a.>"], true, false⟩) (fun _ => some (lit "mill"))
          (arrivedAt i c)) := by
  have hstarted : Started (fun _ => some ⟨true, [lit "a.>"], true, false⟩)
      (fun _ => some (lit "mill")) twoPeers := by
    constructor
    · intro i
      exact ⟨⟨true, true, some (lit "mill"), true, true, true⟩, ⟨0, 0⟩, ⟨1, 0⟩, true, rfl, rfl⟩
    · intro i
      exact ⟨4, rfl⟩
    · rfl
  have hsome : (collect Federation.step roundTrip twoPeers).map
      (fun x => (handedAt true x.1, arrivedAt false x.1)) =
        some ([(lit "a.c", lit "new")],
          [(⟨lit "a.b", lit "hi",
            some (natsMsgHeaderEncode [(lit "x-monoblok", lit "mill")]), some false⟩, true)]) := by
    decide +kernel
  obtain ⟨⟨c, F'⟩, hrun, heq⟩ := Option.map_eq_some_iff.mp hsome
  rw [Prod.mk.injEq] at heq
  refine ⟨c, F', hrun, heq.1, ?_, fun i => (nothing_goes_round hstarted hrun i).2 rfl⟩
  rw [heq.2]
  simp

end Monoblok.Nats
