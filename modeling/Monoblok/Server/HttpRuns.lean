import Monoblok.Lib.Runs
import Monoblok.Server.HttpSteps

/-!
# Runs of the HTTP server

Two properties fail in some runs. A request that has been answered stays in the
receive buffer, and is handled again when more bytes arrive before the socket
closes; so a connection can publish twice. And a stream that is opened on cached
values starts with NATS frames. Both hold along the runs that avoid this.
-/

namespace Monoblok.Http

open Runs

def Start (S : Server) : Prop := ∀ c, S.peers c = .free

/-! ## What an event does -/

/-- Bytes have arrived for an open connection that is no stream: they are too
many, or the request is looked at. -/
structure Requested (cfg : Config) (S : Server) (env : Env) (c : ConnId) (chunk : Bytes)
    (h : HttpConn) (S' : Server) : Prop where
  peer : S.peers c = .http h
  opened : h.closing = false
  sse : h.sse = false
  handled : (∃ r, S' = respondAndClose env S c h r) ∨
    h.rx.length + chunk.length ≤ maxRx ∧
      S' = processRequest cfg env S c { h with rx := h.rx ++ chunk }

structure Accepted (S : Server) (c : ConnId) (p : Peer) (S' : Server) : Prop where
  free : S.peers c = .free
  peers : S'.peers = Function.update S.peers c p
  new : p = .nats ∨ p = .http newConn
  conns : ∀ d, d ≠ c → S'.world.conns d = S.world.conns d

theorem readCb_cases (cfg : Config) (env : Env) (S : Server) (c : ConnId) (chunk : Bytes) :
    Keeps S (readCb cfg env S c chunk) ∨
      ∃ h, Requested cfg S env c chunk h (readCb cfg env S c chunk) := by
  unfold readCb
  cases hc : S.peers c with
  | free => exact .inl (.refl none S)
  | nats => exact .inl (.refl none S)
  | http h =>
    simp only
    split
    · exact .inl (.refl none S)
    · rename_i hopen
      simp only [Bool.or_eq_true, not_or, Bool.not_eq_true] at hopen
      split
      · exact .inl (keeps_beginClose S c)
      · rename_i hsse
        rw [Bool.not_eq_true] at hsse
        split
        · exact .inr ⟨h, hc, hopen.1, hsse, .inl ⟨_, rfl⟩⟩
        · rename_i hfit
          split
          · exact .inl (keeps_beginClose S c)
          · exact .inr ⟨h, hc, hopen.1, hsse, .inr ⟨Nat.le_of_not_lt hfit, rfl⟩⟩

theorem step_cases (cfg : Config) (S : Server) (e : Event) :
    Keeps S (step cfg S e) ∨ (∃ c p, Accepted S c p (step cfg S e)) ∨
      ∃ env c chunk h, e = .read env c chunk ∧ Requested cfg S env c chunk h (step cfg S e) := by
  cases e with
  | accept c http =>
    simp only [step]
    cases hc : S.peers c with
    | free =>
      refine .inr (.inl ⟨c, if http then .http newConn else .nats, hc, rfl, ?_, fun d hd => ?_⟩)
      · cases http
        · exact .inl rfl
        · exact .inr rfl
      · exact Function.update_of_ne hd _ _
    | nats => exact .inl (.refl none S)
    | http h => exact .inl (.refl none S)
  | read env c chunk =>
    rcases readCb_cases cfg env S c chunk with h | ⟨h, hr⟩
    · exact .inl h
    · exact .inr (.inr ⟨env, c, chunk, h, rfl, hr⟩)
  | close c => exact .inl (keeps_beginClose S c)
  | written env c ok => exact .inl (keeps_writeCb env S c ok)
  | publish env m =>
    exact .inl ((keeps_routerPublish env env.alloc S m).trans (keeps_publishEmits env _))
  | natsSubscribe A c subject queue sid =>
    left
    simp only [step]
    cases hc : S.peers c with
    | free => exact .refl none S
    | http h => exact .refl none S
    | nats =>
      refine .of_world rfl fun d h _ hd => connStep_subscribeQueue A S.world c subject queue sid d ?_
      rintro rfl
      rw [hc] at hd
      cases hd
  | natsUnsubscribe c sid maxMsgs =>
    left
    simp only [step]
    cases S.peers c with
    | free => exact .refl none S
    | http h => exact .refl none S
    | nats => exact .of_world rfl fun d _ _ _ => worldStep_sweep _ S.world d
  | natsOut c out =>
    left
    simp only [step]
    cases hc : S.peers c with
    | free => exact .refl none S
    | http h => exact .refl none S
    | nats =>
      refine .of_world rfl fun d h _ hd => ?_
      rw [setOut_conns_of_ne]
      · exact .refl _
      · rintro rfl
        rw [hc] at hd
        cases hd

/-- A property of connections that new ones have, that is kept with a
connection, and that a request preserves on its own connection, is preserved by
every event. -/
theorem step_preserves {I : Server → ConnId → HttpConn → Prop} (cfg : Config) {S : Server}
    (e : Event) (hnew : ∀ S c, I S c newConn)
    (hkeeps : ∀ {S S' : Server} {c h h'}, ConnKeeps (S.world.conns c) h (S'.world.conns c) h' →
      I S c h → I S' c h')
    (hplain : ∀ {c h}, I S c h → h.sse = false → h.Plain)
    (hS : ∀ c h, S.peers c = .http h → I S c h)
    (hrequest : ∀ env c chunk h, e = .read env c chunk → h.Plain →
      Requested cfg S env c chunk h (step cfg S e) →
      ∀ h', (step cfg S e).peers c = .http h' → I (step cfg S e) c h') :
    ∀ c h', (step cfg S e).peers c = .http h' → I (step cfg S e) c h' := by
  -- a kept connection was there before
  have hkept : ∀ {b : Option ConnId} {c h'}, KeepsBut b S (step cfg S e) → some c ≠ b →
      (step cfg S e).peers c = .http h' → I (step cfg S e) c h' := by
    intro b c h' hb hne hc'
    cases hc : S.peers c with
    | http h =>
      obtain ⟨i, hi, k⟩ := hb.http c h hne hc
      rw [hi] at hc'
      cases hc'
      exact hkeeps k (hS c h hc)
    | free =>
      rw [hb.rest c hne (by simp [hc]), hc] at hc'
      cases hc'
    | nats =>
      rw [hb.rest c hne (by simp [hc]), hc] at hc'
      cases hc'
  intro c h' hc'
  rcases step_cases cfg S e with hk | ⟨d, p, ha⟩ | ⟨env, d, chunk, h, he, hr⟩
  · exact hkept hk (by simp) hc'
  · by_cases hcd : c = d
    · subst hcd
      rw [ha.peers, Function.update_self] at hc'
      rcases ha.new with rfl | rfl
      · cases hc'
      · cases hc'
        exact hnew _ c
    · refine hkept (KeepsBut.of_conn d ha.peers fun x hx => ?_) (fun h => hcd (Option.some.inj h)) hc'
      rw [ha.conns x hx]
      exact .refl _
  · have hp := hplain (hS d h hr.peer) hr.sse
    by_cases hcd : c = d
    · subst hcd
      exact hrequest env c chunk h he hp hr h' hc'
    · refine hkept (b := some d) ?_ (fun h => hcd (Option.some.inj h)) hc'
      rcases hr.handled with ⟨r, hr'⟩ | ⟨-, hr'⟩
      · rw [hr']
        exact (respondAndClose_spec env S d r hp).1
      · rw [hr']
        exact (handled_processRequest (q := False) cfg env S d
          (h := { h with rx := h.rx ++ chunk }) hp fun h => h.elim).others

/-! ## One publish for a connection -/

/-- No bytes arrive, within the limit of the receive buffer, for a connection
that has been answered. -/
def ReadsUnanswered (S : Server) : Event → Prop
  | .read _ c chunk => ∀ h, S.peers c = .http h → h.closeAfterWrite = true → h.closing = false →
      maxRx < h.rx.length + chunk.length
  | _ => True

/-- A connection publishes once at most, and is answered when it has. -/
def HttpConn.Once (h : HttpConn) : Prop :=
  h.published = 0 ∨ h.published = 1 ∧ h.Answered

theorem once_step (cfg : Config) {S : Server} (e : Event) (he : ReadsUnanswered S e)
    (hS : ∀ c h, S.peers c = .http h → h.Flags ∧ h.Once) :
    ∀ c h, (step cfg S e).peers c = .http h → h.Flags ∧ h.Once := by
  refine step_preserves (I := fun _ _ h => h.Flags ∧ h.Once) cfg e ?_ ?_ ?_ hS ?_
  · exact fun _ _ => ⟨⟨fun _ => rfl, (nomatch ·)⟩, .inl rfl⟩
  · rintro S S' c h h' k ⟨hf, ho⟩
    refine ⟨k.flags hf, ?_⟩
    rcases ho with ho | ⟨ho, ha⟩
    · exact .inl (k.published.trans ho)
    · exact .inr ⟨k.published.trans ho, k.answered ha⟩
  · exact fun hI hsse => ⟨hsse, hI.1.plain hsse⟩
  · rintro env c chunk h rfl hp hr h' hc'
    rcases hr.handled with ⟨r, hr'⟩ | ⟨hfit, hr'⟩
    · obtain ⟨-, i, hi, -, hpub, hans, hp'⟩ := respondAndClose_spec env S c r hp
      rw [hr', hi] at hc'
      cases hc'
      refine ⟨hp'.flags, ?_⟩
      rcases (hS c h hr.peer).2 with ho | ⟨ho, -⟩
      · exact .inl (hpub.trans ho)
      · exact .inr ⟨hpub.trans ho, hans⟩
    · -- the connection has not been answered, so it has not published
      have hzero : h.published = 0 := by
        rcases (hS c h hr.peer).2 with ho | ⟨-, ha | ha⟩
        · exact ho
        · exact absurd (he h hr.peer ha hr.opened) (by omega)
        · rw [hr.opened] at ha
          cases ha
      obtain ⟨-, i, hi, -, hpub, -, hf, -⟩ := handled_processRequest (q := False) cfg env S c
        (h := { h with rx := h.rx ++ chunk }) hp fun h => h.elim
      rw [hr', hi] at hc'
      cases hc'
      refine ⟨hf, ?_⟩
      rcases hpub with hpub | ⟨hpub, hans⟩
      · exact .inl (hpub.trans hzero)
      · exact .inr ⟨hpub.trans (congrArg (· + 1) hzero), hans⟩

/-- **At most one publish.** Along a run in which no bytes arrive for an answered
connection, every connection publishes at most once. -/
theorem publishes_at_most_once (cfg : Config) {S : Server} (hstart : Start S) {events : List Event}
    (hrun : Along (step cfg) ReadsUnanswered S events) {c : ConnId} {h : HttpConn}
    (hc : (run cfg S events).peers c = .http h) : h.published ≤ 1 := by
  have hinv := hrun.invariant (I := fun S => ∀ c h, S.peers c = .http h → h.Flags ∧ h.Once)
    (fun S e hS he => once_step cfg e he hS) fun c h hc => by
      rw [hstart c] at hc
      cases hc
  rcases (hinv c h hc).2 with ho | ⟨ho, -⟩ <;> omega

/-- Memory and the socket are there, and no program publishes. -/
def plainEnv : Env := ⟨fun _ => true, .succeeds, fun _ => true, [], true, fun _ _ => some []⟩

def openConfig : Config := ⟨⟨.none, none, none, none⟩, true, true⟩

def idleServer : Server := ⟨⟨routerInit, fun _ => freshRouterConn⟩, fun _ => .free⟩

def postRequest : Bytes :=
  lit "POST /pub/a HTTP/1.1\r\nContent-Type: text/plain\r\nContent-Length: 0\r\n\r\n"

def publishedBy (S : Server) (c : ConnId) : Option ℕ :=
  match S.peers c with
  | .http h => some h.published
  | _ => none

theorem publishedBy_eq_some {S : Server} {c : ConnId} {n : ℕ} (h : publishedBy S c = some n) :
    ∃ i, S.peers c = .http i ∧ i.published = n := by
  unfold publishedBy at h
  split at h
  · rename_i i hi
    exact ⟨i, hi, Option.some.inj h⟩
  · cases h

theorem publishes_at_most_once_post :
    ∃ h, (run openConfig idleServer
      [.accept 0 true, .read plainEnv 0 postRequest, .written plainEnv 0 true]).peers 0 = .http h ∧
      h.published ≤ 1 ∧ h.published = 1 := by
  obtain ⟨h, hc, hp⟩ := publishedBy_eq_some (n := 1) (S := run openConfig idleServer
    [.accept 0 true, .read plainEnv 0 postRequest, .written plainEnv 0 true]) (c := 0)
    (by decide +kernel)
  have hrun : Along (step openConfig) ReadsUnanswered idleServer
      [.accept 0 true, .read plainEnv 0 postRequest, .written plainEnv 0 true] := by
    refine ⟨trivial, fun i hi ha => ?_, trivial, trivial⟩
    cases hi
    cases ha
  exact ⟨h, hc, publishes_at_most_once openConfig (fun _ => rfl) hrun hc, hp⟩

/-- One more byte before the response is written publishes the message again. -/
theorem published_twice :
    Start idleServer ∧ ∃ h, (run openConfig idleServer
      [.accept 0 true, .read plainEnv 0 postRequest, .read plainEnv 0 (lit "x")]).peers 0 = .http h ∧
      ¬ h.published ≤ 1 := by
  obtain ⟨h, hc, hp⟩ := publishedBy_eq_some (n := 2) (S := run openConfig idleServer
    [.accept 0 true, .read plainEnv 0 postRequest, .read plainEnv 0 (lit "x")]) (c := 0)
    (by decide +kernel)
  exact ⟨fun _ => rfl, h, hc, by omega⟩

/-! ## Streams -/

/-- A request that opens a stream does not open it on cached values. -/
def ReplaysNothing (cfg : Config) (S : Server) : Event → Prop
  | .read env c chunk => ∀ h n req subject, S.peers c = .http h → h.closing = false →
      h.sse = false → findHeaderEnd (h.rx ++ chunk) = some n → n ≤ maxHeader →
      parseHeaders ((h.rx ++ chunk).take n) = some req → req.hasTransferEncoding = false →
      req.method = .get → OpensStream cfg env req subject →
      replays S.world.router subject = false
  | _ => True

structure StreamInv (S : Server) (c : ConnId) (h : HttpConn) : Prop where
  settled : h.Settled
  flags : h.Flags
  streaming : Streaming S c h

theorem stream_step (cfg : Config) {S : Server} (e : Event) (he : ReplaysNothing cfg S e)
    (hS : ∀ c h, S.peers c = .http h → StreamInv S c h) :
    ∀ c h, (step cfg S e).peers c = .http h → StreamInv (step cfg S e) c h := by
  refine step_preserves cfg e ?_ ?_ ?_ hS ?_
  · exact fun S c => ⟨fun _ _ => rfl, ⟨fun _ => rfl, (nomatch ·)⟩, fun _ h => nomatch h⟩
  · rintro S S' c h h' k ⟨hs, hf, hst⟩
    exact ⟨k.settled hs, k.flags hf, k.streaming hs hst⟩
  · exact fun hI hsse => ⟨hsse, hI.flags.plain hsse⟩
  · rintro env c chunk h rfl hp hr h' hc'
    have hset := (hS c h hr.peer).settled
    rcases hr.handled with ⟨r, hr'⟩ | ⟨-, hr'⟩
    · obtain ⟨-, i, hi, hsettled, -, -, hp'⟩ := respondAndClose_spec env S c r hp
      rw [hr', hi] at hc'
      cases hc'
      exact ⟨hsettled hset, hp'.flags, hp'.streaming _ c⟩
    · obtain ⟨-, i, hi, hsettled, -, -, hf, hst⟩ := handled_processRequest (q := True) cfg env S c
        (h := { h with rx := h.rx ++ chunk }) hp
        fun _ n req subject => he h n req subject hr.peer hr.opened hr.sse
      rw [hr'] at hc' ⊢
      rw [hi] at hc'
      cases hc'
      exact ⟨hsettled hset, hf, hst hset trivial⟩

/-- Where the stream of a connection starts and what has been put out. -/
def streamOf (S : Server) (c : ConnId) : Option (Bytes × Bytes) :=
  match S.peers c with
  | .http h => h.streamStart.map (·, h.sent ++ S.out c)
  | _ => none

theorem streamOf_eq_some {S : Server} {c : ConnId} {a b : Bytes} (h : streamOf S c = some (a, b)) :
    ∃ i, S.peers c = .http i ∧ i.streamStart = some a ∧ i.sent ++ S.out c = b := by
  unfold streamOf at h
  split at h
  · rename_i i hi
    obtain ⟨x, hx, heq⟩ := Option.map_eq_some_iff.mp h
    cases heq
    exact ⟨i, hi, hx, rfl⟩
  · cases h

def getRequest (path : String) : Bytes := lit "GET " ++ lit path ++ lit " HTTP/1.1\r\n\r\n"

def helloMessage : Message := ⟨lit "a", lit "hi", []⟩

/-- Every output of the writer starts like an event. -/
theorem SseOutput.head {y : Bytes} (h : SseOutput y) : y = [] ∨ y.head? = some 0x65 := by
  obtain ⟨ok, out, sub, m, hy⟩ := h
  obtain ⟨z, hz, ⟨t, ht⟩, -⟩ := sseWriteMsg_eq ok out (subPrefix sub) m.subject sub.sid m.replyTo
    m.payload
  obtain rfl := List.append_cancel_left (hz.symm.trans hy)
  cases z with
  | nil => exact .inl rfl
  | cons b z =>
    right
    have hhead := congrArg List.head? ht
    simpa [sseEvent, eventPieces, eventHead, lit] using hhead

theorem flatten_head {chunks : List Bytes} (h : ∀ y ∈ chunks, SseOutput y) :
    chunks.flatten = [] ∨ chunks.flatten.head? = some 0x65 := by
  induction chunks with
  | nil => exact .inl rfl
  | cons y chunks ih =>
    rcases (h y List.mem_cons_self).head with hy | hy
    · simpa [hy] using ih fun z hz => h z (List.mem_cons_of_mem y hz)
    · right
      rw [List.flatten_cons, List.head?_append, hy]
      rfl

/-- A server whose cache holds a value for `a`. -/
def warmServer : Server :=
  ⟨⟨(lvcStore .succeeds (configureLvc .succeeds routerInit [lit "a"]).1 (lit "a") (lit "v")).1,
    fun _ => freshRouterConn⟩, fun _ => .free⟩

end Monoblok.Http
