import Monoblok.Router.Publish

/-!
# The bridge

`bridge.c`: what the router has published on one of the export filters is also
handed to a NATS client. The client is a stranger that may refuse any of its
calls.

`mb_router_publish_with_reply_and_options` calls the bridge last and only for a
message it accepted, so that the router does not notice it.
-/

namespace Monoblok.Nats

/-! ## Configuration -/

/-- `pb_bridge_config`, as far as the bridge itself reads it. -/
structure BridgeConfig where
  present : Bool
  exports : List Bytes
  originHeader : Bool
  replayHeader : Bool
  deriving DecidableEq, Repr

/-- `mb_router_publish_options`. -/
structure PublishOptions where
  replaying : Bool
  hasAssumedTsMs : Bool
  assumedTsMs : ℤ
  deriving DecidableEq, Repr

/-- `natsStatus`; zero is `NATS_OK`. -/
abbrev Status := ℕ

def natsOk : Status := 0

def originHeaderName : Bytes := lit "x-monoblok"
def replayHeaderName : Bytes := lit "x-monoblok-replay"
def assumedTsHeaderName : Bytes := lit "x-monoblok-assumed-ts"

def intMax : ℕ := 2 ^ 31 - 1

/-- A C string ends at its first zero byte. -/
def cString (bytes : Bytes) : Bytes := bytes.takeWhile (· != 0)

/-- `mb_nats_origin_header_value` without a failing allocation, given what
`gethostname` writes to its 256 bytes. -/
def originHeaderValueOf (hostname : Option Bytes) : Bytes :=
  let host := cString ((hostname.getD []).take 255)
  if host.isEmpty then lit "unknown" else host

/-- A message the NATS client has taken. -/
structure Outgoing where
  subject : Bytes
  payload : Bytes
  headers : List (Bytes × Bytes)
  deriving DecidableEq, Repr

/-- `mb_bridge`; `conn` says whether there is a connection. -/
structure Bridge where
  config : Option BridgeConfig
  conn : Bool
  subjectScratchCap : ℕ
  originHeaderValue : Option Bytes
  published : UInt64
  dropped : UInt64
  lastStatus : Status
  started : Bool
  deriving DecidableEq, Repr

def Bridge.zero : Bridge := ⟨none, false, 0, none, 0, 0, natsOk, false⟩

/-! ## Start and close -/

/-- The answers on the way to a connection. -/
structure StartAnswers where
  createOptions : Bool
  setOptions : Bool
  hostname : Option Bytes
  originMemory : Bool
  connect : Bool
  headerSupport : Bool

/-- `g_nats_users`, and how often the NATS library has been closed. -/
structure NatsUsers where
  users : ℕ
  closes : ℕ
  deriving DecidableEq, Repr

def natsRetain (u : NatsUsers) : NatsUsers := { u with users := u.users + 1 }

def natsRelease (u : NatsUsers) : NatsUsers :=
  if u.users = 0 then u
  else if u.users - 1 = 0 then ⟨0, u.closes + 1⟩
  else { u with users := u.users - 1 }

def bridgeStart (a : StartAnswers) (config : Option BridgeConfig) (u : NatsUsers) :
    Bridge × NatsUsers × Bool :=
  let bridge := { Bridge.zero with config := config }
  match config with
  | none => (bridge, u, true)
  | some cfg =>
    if !cfg.present then (bridge, u, true)
    else if !a.createOptions then (bridge, u, false)
    else if !a.setOptions || (cfg.originHeader && !a.originMemory) then (bridge, u, false)
    else
      let u := natsRetain u
      if a.connect && (!(cfg.originHeader || cfg.replayHeader) || a.headerSupport) then
        ({ bridge with
            conn := true
            originHeaderValue :=
              if cfg.originHeader then some (originHeaderValueOf a.hostname) else none
            started := true }, u, true)
      else (bridge, natsRelease u, false)

/-! ## Publishing -/

def bridgeMatchesExport (cfg : BridgeConfig) (subject : Bytes) : Bool :=
  cfg.exports.any fun filter => subjectMatches filter subject

/-- The answers to the calls for one message. -/
structure SendAnswers where
  memory : Bool
  create : Status
  setOrigin : Status
  setReplay : Status
  setAssumedTs : Status
  publish : Status

/-- The first call that fails, of those that are made. -/
def firstFailure : List Status → Status
  | [] => natsOk
  | s :: rest => if s = natsOk then firstFailure rest else s

/-- The headers of a message, each with the answer to setting it. -/
def bridgeHeaders (a : SendAnswers) (b : Bridge) (cfg : BridgeConfig) (options : PublishOptions) :
    List ((Bytes × Bytes) × Status) :=
  let replay := cfg.replayHeader && options.replaying
  ((b.originHeaderValue.map fun value => ((originHeaderName, value), a.setOrigin)).toList ++
    (if replay then [((replayHeaderName, lit "true"), a.setReplay)] else [])) ++
    if replay && options.hasAssumedTsMs then
      [((assumedTsHeaderName, lit (toString options.assumedTsMs)), a.setAssumedTs)]
    else []

/-- `mb_bridge_publish_with_options`, with the message the client has taken. -/
def bridgePublish (a : SendAnswers) (b : Bridge) (subject payload : Bytes)
    (options : PublishOptions) : Bridge × Option Outgoing :=
  match b.config with
  | none => (b, none)
  | some cfg =>
    if !b.started || !b.conn || !bridgeMatchesExport cfg subject then (b, none)
    else if intMax < payload.length then ({ b with dropped := b.dropped + 1 }, none)
    else
      match arrayReserve a.memory b.subjectScratchCap (subject.length + 1) 1 64 with
      | none => ({ b with dropped := b.dropped + 1 }, none)
      | some cap =>
        let b := { b with subjectScratchCap := cap }
        let headers := bridgeHeaders a b cfg options
        let status :=
          if headers.isEmpty then a.publish
          else firstFailure (a.create :: headers.map Prod.snd ++ [a.publish])
        if status = natsOk then
          ({ b with published := b.published + 1 },
            some ⟨cString subject, payload, headers.map Prod.fst⟩)
        else ({ b with dropped := b.dropped + 1, lastStatus := status }, none)

/-! ## A router with a bridge -/

/-- One call of `mb_router_publish_with_reply_and_options`, from anywhere in the
server, with its surroundings. -/
structure RouterCall where
  alloc : Alloc
  callbacks : PublishResult → World
  message : Monoblok.Message
  options : PublishOptions
  answers : SendAnswers

/-- The router without a bridge. -/
def plainStep (w : World) (c : RouterCall) : World :=
  c.callbacks (publishWithReply c.alloc w c.message)

/-- A message that has been handed over is noted. -/
def bridgedStep (s : World × Bridge × List Outgoing) (c : RouterCall) :
    World × Bridge × List Outgoing :=
  let r := publishWithReply c.alloc s.1 c.message
  if r.ok then
    let x := bridgePublish c.answers s.2.1 c.message.subject c.message.payload c.options
    (c.callbacks r, x.1, s.2.2 ++ x.2.toList)
  else (c.callbacks r, s.2.1, s.2.2)

/-- The calls that the router accepts. -/
def acceptedCalls : World → List RouterCall → List RouterCall
  | _, [] => []
  | w, c :: cs =>
    (if (publishWithReply c.alloc w c.message).ok then [c] else []) ++
      acceptedCalls (plainStep w c) cs

/-! ## What is handed over -/

/-- What is to be handed over for a call. -/
def expectedMessage (cfg : BridgeConfig) (host : Bytes) (c : RouterCall) : Outgoing where
  subject := c.message.subject
  payload := c.message.payload
  headers :=
    (if cfg.originHeader then [(originHeaderName, host)] else []) ++
      if cfg.replayHeader && c.options.replaying then
        (replayHeaderName, lit "true") ::
          if c.options.hasAssumedTsMs then
            [(assumedTsHeaderName, lit (toString c.options.assumedTsMs))]
          else []
      else []

/-- The messages for the accepted calls on an export filter. -/
def expectedMessages (cfg : BridgeConfig) (host : Bytes) (w : World) (calls : List RouterCall) :
    List Outgoing :=
  ((acceptedCalls w calls).filter fun c => bridgeMatchesExport cfg c.message.subject).map
    (expectedMessage cfg host)

/-- A bridge with a connection. -/
structure Running (cfg : BridgeConfig) (host : Bytes) (b : Bridge) : Prop where
  config : b.config = some cfg
  conn : b.conn = true
  started : b.started = true
  origin : b.originHeaderValue = if cfg.originHeader then some host else none

theorem running_bridgeStart {a : StartAnswers} {cfg : BridgeConfig} {u u' : NatsUsers} {b : Bridge}
    (hpresent : cfg.present = true) (h : bridgeStart a (some cfg) u = (b, u', true)) :
    Running cfg (originHeaderValueOf a.hostname) b ∧ b.published = 0 ∧ b.dropped = 0 := by
  simp only [bridgeStart, hpresent, Bool.not_true, Bool.false_eq_true, if_false] at h
  split_ifs at h with hcreate hset hconnect
  all_goals cases h
  all_goals exact ⟨⟨rfl, rfl, rfl, by simp [*]⟩, rfl, rfl⟩

theorem originHeaderValueOf_ne_nil (hostname : Option Bytes) : originHeaderValueOf hostname ≠ [] := by
  unfold originHeaderValueOf
  dsimp only
  split_ifs with h
  · decide
  · simpa using h

theorem cString_of_valid {subject : Bytes} (h : subjectValid subject false = true) :
    cString subject = subject := by
  unfold subjectValid at h
  split_ifs at h with hbad
  simp only [Bool.or_eq_true, Bool.not_eq_true', not_or, Bool.not_eq_false] at hbad
  have htoken := hbad.2
  simp only [tokenValid, Bool.and_eq_true, List.all_eq_true, Bool.not_eq_true',
    Bool.or_eq_false_iff, decide_eq_false_iff_not] at htoken
  apply List.takeWhile_eq_self_iff.mpr
  intro c hc
  have hcontrol := (htoken.2 c hc).1
  rw [bne_iff_ne]
  rintro rfl
  exact hcontrol (by decide)

/-- The router accepts no message outside the subject grammar. -/
theorem subjectValid_of_ok {A : Alloc} {w : World} {m : Monoblok.Message}
    (h : (publishWithReply A w m).ok = true) : subjectValid m.subject false = true := by
  by_contra hvalid
  rw [publishWithReply, if_pos (by simpa using hvalid)] at h
  cases h

theorem bridgeHeaders_eq {cfg : BridgeConfig} {host : Bytes} {b : Bridge} (h : Running cfg host b)
    (a : SendAnswers) (c : RouterCall) :
    (bridgeHeaders a b cfg c.options).map Prod.fst = (expectedMessage cfg host c).headers := by
  unfold bridgeHeaders expectedMessage
  rw [h.origin]
  cases cfg.originHeader <;> cases cfg.replayHeader <;> cases c.options.replaying <;>
    cases c.options.hasAssumedTsMs <;> rfl

/-- What one message does to the bridge. -/
inductive Sent (cfg : BridgeConfig) (host : Bytes) (b : Bridge) (c : RouterCall) :
    Bridge × Option Outgoing → Prop
  | elsewhere (filtered : bridgeMatchesExport cfg c.message.subject = false) : Sent cfg host b c (b, none)
  | handed {b' : Bridge} (exported : bridgeMatchesExport cfg c.message.subject = true)
      (running : Running cfg host b') (published : b'.published = b.published + 1)
      (dropped : b'.dropped = b.dropped) : Sent cfg host b c (b', some (expectedMessage cfg host c))
  | dropped {b' : Bridge} (exported : bridgeMatchesExport cfg c.message.subject = true)
      (running : Running cfg host b') (published : b'.published = b.published)
      (dropped : b'.dropped = b.dropped + 1) : Sent cfg host b c (b', none)

theorem bridgePublish_sent {cfg : BridgeConfig} {host : Bytes} {b : Bridge}
    (h : Running cfg host b) {c : RouterCall} (hvalid : subjectValid c.message.subject false = true) :
    Sent cfg host b c
      (bridgePublish c.answers b c.message.subject c.message.payload c.options) := by
  obtain ⟨config, conn, cap, origin, published, dropped, lastStatus, started⟩ := b
  obtain ⟨rfl, rfl, rfl, horigin⟩ := h
  unfold bridgePublish
  simp only [Bool.not_true, Bool.false_or]
  by_cases hexport : bridgeMatchesExport cfg c.message.subject = true
  · simp only [hexport, Bool.not_true, Bool.false_eq_true, if_false]
    split_ifs with hlong
    · exact .dropped hexport ⟨rfl, rfl, rfl, horigin⟩ rfl rfl
    · split
      · exact .dropped hexport ⟨rfl, rfl, rfl, horigin⟩ rfl rfl
      · rename_i cap' hcap
        have hrunning : Running cfg host
            ⟨some cfg, true, cap', origin, published, dropped, lastStatus, true⟩ :=
          ⟨rfl, rfl, rfl, horigin⟩
        have hheaders := bridgeHeaders_eq hrunning c.answers c
        rw [hheaders, cString_of_valid hvalid]
        by_cases hstatus : (if (bridgeHeaders c.answers
            ⟨some cfg, true, cap', origin, published, dropped, lastStatus, true⟩ cfg
            c.options).isEmpty = true then c.answers.publish
          else firstFailure (c.answers.create :: (bridgeHeaders c.answers
            ⟨some cfg, true, cap', origin, published, dropped, lastStatus, true⟩ cfg
            c.options).map Prod.snd ++ [c.answers.publish])) = natsOk
        · rw [if_pos hstatus]
          exact .handed hexport ⟨rfl, rfl, rfl, horigin⟩ rfl rfl
        · rw [if_neg hstatus]
          exact .dropped hexport ⟨rfl, rfl, rfl, horigin⟩ rfl rfl
  · simp only [Bool.not_eq_true] at hexport
    simp only [hexport, Bool.not_false, if_true]
    exact .elsewhere hexport

/-- Every call for the message succeeds, and its size is within the client's. -/
structure RouterCall.Goes (c : RouterCall) : Prop where
  memory : c.answers.memory = true
  subject : c.message.subject.length < 2 ^ 62
  payload : c.message.payload.length ≤ intMax
  statuses : c.answers.create = natsOk ∧ c.answers.setOrigin = natsOk ∧
    c.answers.setReplay = natsOk ∧ c.answers.setAssumedTs = natsOk ∧ c.answers.publish = natsOk

theorem firstFailure_of_all {statuses : List Status} (h : ∀ s ∈ statuses, s = natsOk) :
    firstFailure statuses = natsOk := by
  induction statuses with
  | nil => rfl
  | cons s rest ih =>
    rw [firstFailure, if_pos (h s List.mem_cons_self)]
    exact ih fun s hs => h s (List.mem_cons_of_mem _ hs)

theorem arrayReserve_bytes (cap : ℕ) {needed : ℕ} (h : needed ≤ 2 ^ 62) :
    ∃ n, arrayReserve true cap needed 1 64 = some n := by
  unfold arrayReserve
  dsimp only
  by_cases hroom : needed ≤ cap
  · exact ⟨cap, if_pos hroom⟩
  · have hgrow := (growLoop_bounds (n := needed) 65 (growStart cap 64)).2
    have hstart : growStart cap 64 ≤ max cap 64 := by
      unfold growStart
      dsimp only
      split_ifs <;> omega
    have hmax : ¬ sizeMax / 1 < growLoop needed 65 (growStart cap 64) := by
      rw [sizeMax]
      omega
    rw [if_neg hroom, if_neg hmax, if_pos rfl]
    exact ⟨_, rfl⟩

theorem bridgePublish_goes {cfg : BridgeConfig} {host : Bytes} {b : Bridge}
    (h : Running cfg host b) {c : RouterCall} (hgoes : c.Goes)
    (hexport : bridgeMatchesExport cfg c.message.subject = true) :
    (bridgePublish c.answers b c.message.subject c.message.payload c.options).2.isSome = true := by
  obtain ⟨hcreate, horigin, hreplay, hts, hpublish⟩ := hgoes.statuses
  obtain ⟨config, conn, scratch, value, published, dropped, lastStatus, started⟩ := b
  obtain ⟨rfl, rfl, rfl, -⟩ := h
  have hroom : c.message.subject.length + 1 ≤ 2 ^ 62 := hgoes.subject
  obtain ⟨cap, hcap⟩ := arrayReserve_bytes scratch hroom
  have hstatuses : ∀ b' : Bridge,
      firstFailure (c.answers.create :: (bridgeHeaders c.answers b' cfg c.options).map Prod.snd ++
        [c.answers.publish]) = natsOk := by
    intro b'
    apply firstFailure_of_all
    intro s hs
    simp only [List.cons_append, List.mem_cons, List.mem_append, List.mem_map, List.not_mem_nil, or_false] at hs
    rcases hs with rfl | ⟨x, hx, rfl⟩ | rfl
    · exact hcreate
    · unfold bridgeHeaders at hx
      simp only [List.mem_append, Option.mem_toList, Option.map_eq_some_iff] at hx
      rcases hx with (⟨value, -, rfl⟩ | hx) | hx
      · exact horigin
      · split_ifs at hx
        · rw [List.mem_singleton.mp hx]
          exact hreplay
        · cases hx
      · split_ifs at hx
        · rw [List.mem_singleton.mp hx]
          exact hts
        · cases hx
    · exact hpublish
  rw [hpublish] at hstatuses
  unfold bridgePublish
  simp only [hexport, hgoes.memory, hcap, hpublish, hstatuses, not_lt.mpr hgoes.payload,
    Bool.not_true, Bool.or_self, Bool.false_eq_true, if_false, ite_self, if_true,
    Option.isSome_some]

/-! ## Runs -/

/-- A run of calls, with what the bridge makes of those that are accepted. -/
structure Exports (cfg : BridgeConfig) (host : Bytes) (w : World) (b : Bridge)
    (calls : List RouterCall) (w' : World) (b' : Bridge) (sent : List Outgoing) : Prop where
  world : w' = calls.foldl plainStep w
  running : Running cfg host b'
  order : sent.Sublist (expectedMessages cfg host w calls)
  published : b'.published = b.published + .ofNat sent.length
  total : b'.published + b'.dropped =
    b.published + b.dropped + .ofNat (expectedMessages cfg host w calls).length
  complete : (∀ c ∈ calls, c.Goes) → sent = expectedMessages cfg host w calls

theorem expectedMessages_cons (cfg : BridgeConfig) (host : Bytes) (w : World) (c : RouterCall)
    (calls : List RouterCall) :
    expectedMessages cfg host w (c :: calls) =
      (if (publishWithReply c.alloc w c.message).ok && bridgeMatchesExport cfg c.message.subject then
        [expectedMessage cfg host c] else []) ++
        expectedMessages cfg host (plainStep w c) calls := by
  unfold expectedMessages
  rw [acceptedCalls, List.filter_append, List.map_append]
  congr 1
  cases (publishWithReply c.alloc w c.message).ok <;>
    cases hexport : bridgeMatchesExport cfg c.message.subject <;> simp [hexport]

theorem exports_nil {cfg : BridgeConfig} {host : Bytes} {w : World} {b : Bridge}
    (h : Running cfg host b) : Exports cfg host w b [] w b [] where
  world := rfl
  running := h
  order := List.nil_sublist _
  published := by simp
  total := by simp [expectedMessages, acceptedCalls]
  complete := fun _ => rfl

/-- One call of a run. -/
theorem exports_step {cfg : BridgeConfig} {host : Bytes} {w : World} {b : Bridge}
    (h : Running cfg host b) (c : RouterCall) (before : List Outgoing) :
    ∃ b' sent, bridgedStep (w, b, before) c = (plainStep w c, b', before ++ sent) ∧
      Exports cfg host w b [c] (plainStep w c) b' sent := by
  have hexpected := expectedMessages_cons cfg host w c []
  have hnil : expectedMessages cfg host (plainStep w c) [] = [] := rfl
  rw [hnil, List.append_nil] at hexpected
  by_cases hok : (publishWithReply c.alloc w c.message).ok = true
  · have hsent := bridgePublish_sent h (c := c) (subjectValid_of_ok hok)
    have hgo := bridgePublish_goes h (c := c)
    unfold bridgedStep
    simp only [hok, if_true]
    generalize bridgePublish c.answers b c.message.subject c.message.payload c.options = x
      at hsent hgo ⊢
    cases hsent with
    | elsewhere hexport =>
      rw [hok, hexport] at hexpected
      refine ⟨b, [], rfl, rfl, h, List.nil_sublist _, by simp, by simp [hexpected], fun _ => ?_⟩
      simp [hexpected]
    | @handed b' hexport hrunning hpublished hdropped =>
      rw [hok, hexport] at hexpected
      refine ⟨b', [expectedMessage cfg host c], rfl, rfl, hrunning, ?_, ?_, ?_, fun _ => ?_⟩
      · simp [hexpected]
      · simp [hpublished]
      · simp [hexpected, hpublished, hdropped, add_right_comm]
      · simp [hexpected]
    | @dropped b' hexport hrunning hpublished hdropped =>
      rw [hok, hexport] at hexpected
      refine ⟨b', [], rfl, rfl, hrunning, List.nil_sublist _, ?_, ?_, fun hgoes => ?_⟩
      · simp [hpublished]
      · simp [hexpected, hpublished, hdropped, add_assoc]
      · have := hgo (hgoes c (by simp)) hexport
        simp at this
  · rw [Bool.not_eq_true] at hok
    refine ⟨b, [], ?_, rfl, h, List.nil_sublist _, by simp, ?_, fun _ => ?_⟩
    · simp [bridgedStep, plainStep, hok]
    · simp [hexpected, hok]
    · simp [hexpected, hok]

/-- Two runs, one after the other. -/
theorem Exports.trans {cfg : BridgeConfig} {host : Bytes} {w w₁ w₂ : World} {b b₁ b₂ : Bridge}
    {c : RouterCall} {calls : List RouterCall} {sent₁ sent₂ : List Outgoing}
    (h₁ : Exports cfg host w b [c] w₁ b₁ sent₁) (h₂ : Exports cfg host w₁ b₁ calls w₂ b₂ sent₂) :
    Exports cfg host w b (c :: calls) w₂ b₂ (sent₁ ++ sent₂) := by
  have hworld : w₁ = plainStep w c := h₁.world
  have hsplit : expectedMessages cfg host w (c :: calls) =
      expectedMessages cfg host w [c] ++ expectedMessages cfg host w₁ calls := by
    rw [expectedMessages_cons, expectedMessages_cons cfg host w c [], hworld]
    simp [expectedMessages, acceptedCalls]
  constructor
  · rw [h₂.world, hworld]
    rfl
  · exact h₂.running
  · rw [hsplit]
    exact h₁.order.append h₂.order
  · rw [h₂.published, h₁.published, List.length_append, UInt64.ofNat_add, add_assoc]
  · rw [h₂.total, h₁.total, hsplit, List.length_append, UInt64.ofNat_add, add_assoc]
  · intro hgoes
    rw [hsplit, h₁.complete, h₂.complete]
    · intro c' hc'
      exact hgoes c' (List.mem_cons_of_mem _ hc')
    · intro c' hc'
      rw [List.mem_singleton.mp hc']
      exact hgoes c List.mem_cons_self

theorem exports_run {cfg : BridgeConfig} {host : Bytes} (calls : List RouterCall) (w : World)
    {b : Bridge} (h : Running cfg host b) (before : List Outgoing) :
    ∃ w' b' sent, calls.foldl bridgedStep (w, b, before) = (w', b', before ++ sent) ∧
      Exports cfg host w b calls w' b' sent := by
  induction calls generalizing w b before with
  | nil => exact ⟨w, b, [], by simp, exports_nil h⟩
  | cons c calls ih =>
    obtain ⟨b₁, sent₁, hstep, h₁⟩ := exports_step (w := w) h c before
    obtain ⟨w₂, b₂, sent₂, hrest, h₂⟩ := ih (plainStep w c) h₁.running (before ++ sent₁)
    refine ⟨w₂, b₂, sent₁ ++ sent₂, ?_, h₁.trans h₂⟩
    rw [List.foldl_cons, hstep, hrest, List.append_assoc]

/-- The router does as it would without the bridge. The client takes messages
that the router accepted, on the export filters and in their order, and the two
counters tell how many there were. If all calls go well it takes all of them. -/
theorem bridge_hands_over_accepted {a : StartAnswers} {cfg : BridgeConfig} {u u' : NatsUsers}
    {b : Bridge} (hpresent : cfg.present = true) (hstart : bridgeStart a (some cfg) u = (b, u', true))
    (w : World) (calls : List RouterCall) :
    ∃ b' sent, calls.foldl bridgedStep (w, b, []) = (calls.foldl plainStep w, b', sent) ∧
      sent.Sublist (expectedMessages cfg (originHeaderValueOf a.hostname) w calls) ∧
      b'.published = .ofNat sent.length ∧
      b'.published + b'.dropped =
        .ofNat (expectedMessages cfg (originHeaderValueOf a.hostname) w calls).length ∧
      ((∀ c ∈ calls, c.Goes) →
        sent = expectedMessages cfg (originHeaderValueOf a.hostname) w calls) := by
  obtain ⟨hrunning, hpublished, hdropped⟩ := running_bridgeStart hpresent hstart
  obtain ⟨w', b', sent, hrun, h⟩ := exports_run calls w hrunning []
  obtain rfl := h.world
  refine ⟨b', sent, by simpa using hrun, h.order, ?_, ?_, h.complete⟩
  · simpa [hpublished] using h.published
  · simpa [hpublished, hdropped] using h.total

def quietWorld : World := ⟨routerInit, fun _ => ⟨[], 0, 0, 0, false, none, none, true, true⟩⟩

/-- Two messages, of which the second is on no export filter. -/
def twoCalls : List RouterCall :=
  [lit "a.b", lit "b"].map fun subject =>
    ⟨.succeeds, fun r => r.world, ⟨subject, lit "hi", []⟩, ⟨false, false, 0⟩,
      ⟨true, natsOk, natsOk, natsOk, natsOk, natsOk⟩⟩

theorem bridge_hands_over_first :
    ∃ b' sent, twoCalls.foldl bridgedStep (quietWorld,
        { Bridge.zero with
          config := some ⟨true, [lit "a.>"], true, false⟩, conn := true
          originHeaderValue := some (lit "mill"), started := true }, []) =
          (twoCalls.foldl plainStep quietWorld, b', sent) ∧
      sent = [⟨lit "a.b", lit "hi", [(lit "x-monoblok", lit "mill")]⟩] := by
  have hstart : bridgeStart ⟨true, true, some (lit "mill"), true, true, true⟩
      (some ⟨true, [lit "a.>"], true, false⟩) ⟨0, 0⟩ =
        ({ Bridge.zero with
          config := some ⟨true, [lit "a.>"], true, false⟩, conn := true
          originHeaderValue := some (lit "mill"), started := true }, ⟨1, 0⟩, true) := rfl
  obtain ⟨b', sent, hrun, -, -, -, hall⟩ :=
    bridge_hands_over_accepted rfl hstart quietWorld twoCalls
  refine ⟨b', sent, hrun, (hall ?_).trans (by decide +kernel)⟩
  intro c hc
  simp only [twoCalls, List.map_cons, List.map_nil, List.mem_cons, List.not_mem_nil, or_false] at hc
  rcases hc with rfl | rfl
  · exact ⟨rfl, by decide, by decide, by decide⟩
  · exact ⟨rfl, by decide, by decide, by decide⟩

end Monoblok.Nats
