import Monoblok.Server.Auth
import Monoblok.Server.HttpRuns

/-!
# Authentication of HTTP requests

A read that leaves no authorized request in the buffer of its connection ends in one
of a few refusals, which say nothing about the router, and touches nothing outside
the connection. The last theorem puts this next to the same property of the other
protocol.
-/

namespace Monoblok.Http

open Auth Runs

/-! ## What a request has to carry -/

/-- The value of an `Authorization` header matches the mode. -/
def HeaderMatches (auth : AuthConfig) (value : Bytes) : Prop :=
  match auth.mode with
  | .none => True
  | .token => ∃ token, auth.token = some token ∧ startsCi value (lit "Bearer") = true ∧
      trimOws (value.drop 6) = token
  | .userPass => ∃ user pass, auth.user = some user ∧ auth.pass = some pass ∧
      startsCi value (lit "Basic") = true ∧
      base64Decode (fun _ => true) (trimOws (value.drop 5)) = some (user ++ colon :: pass)

/-- The bytes hold a request with such a header. -/
def Carries (auth : AuthConfig) (buf : Bytes) : Prop :=
  ∃ n req value, findHeaderEnd buf = some n ∧ parseHeaders (buf.take n) = some req ∧
    req.authorization = some value ∧ HeaderMatches auth value

/-- What is decoded does not depend on the memory there is. -/
theorem base64Loop_memory {ok : ℕ → Bool} {acc : UInt32} {bits : ℕ} {padded : Bool}
    {out s decoded : Bytes} (h : base64Loop ok acc bits padded out s = some decoded) :
    base64Loop (fun _ => true) acc bits padded out s = some decoded := by
  induction s generalizing acc bits padded out with
  | nil => exact h
  | cons c cs ih =>
    unfold base64Loop at h ⊢
    by_cases hpad : (c == 0x3d) = true
    · rw [if_pos hpad] at h ⊢
      exact ih h
    · rw [if_neg hpad] at h ⊢
      cases hv : base64Value c with
      | none =>
        rw [hv] at h
        cases h
      | some v =>
        simp only [hv] at h ⊢
        by_cases hp : padded = true
        · rw [if_pos hp] at h
          cases h
        · rw [if_neg hp] at h ⊢
          by_cases hbits : 8 ≤ bits + 6
          · rw [if_pos hbits] at h ⊢
            by_cases hok : (!ok out.length) = true
            · rw [if_pos hok] at h
              cases h
            · rw [if_neg hok] at h
              exact ih h
          · rw [if_neg hbits] at h ⊢
            exact ih h

theorem split_colon {l : Bytes} (h : l.contains colon = true) :
    l = l.takeWhile (· != colon) ++ colon :: l.drop ((l.takeWhile (· != colon)).length + 1) := by
  induction l with
  | nil => cases h
  | cons a l ih =>
    by_cases ha : a = colon
    · simp [ha]
    · have hl : l.contains colon = true := by
        simp only [List.contains_eq_mem, decide_eq_true_eq] at h ⊢
        rcases List.mem_cons.mp h with heq | hmem
        · exact absurd heq.symm ha
        · exact hmem
      have htake : (a :: l).takeWhile (· != colon) = a :: l.takeWhile (· != colon) := by
        simp [ha]
      rw [htake, List.length_cons, List.drop_succ_cons, List.cons_append, ← ih hl]

theorem headerMatches_of_authorized {cfg : Config} {env : Env} {req : Request}
    (hmode : cfg.auth.mode ≠ .none) (h : authorized cfg env req = true) :
    ∃ value, req.authorization = some value ∧ HeaderMatches cfg.auth value := by
  unfold authorized requestAuthorized at h
  cases hv : req.authorization with
  | none =>
    rw [hv] at h
    cases hm : cfg.auth.mode with
    | none => exact absurd hm hmode
    | token =>
      rw [hm] at h
      cases h
    | userPass =>
      rw [hm] at h
      cases h
  | some value =>
    rw [hv] at h
    refine ⟨value, rfl, ?_⟩
    unfold HeaderMatches
    cases hm : cfg.auth.mode with
    | none => exact absurd hm hmode
    | token =>
      simp only [hm, authBearer, authTokenMatches, secretMatchesSlice, Bool.and_eq_true,
        beq_iff_eq] at h ⊢
      exact ⟨_, h.2.2.2, h.1, rfl⟩
    | userPass =>
      simp only [hm, authBasic, Bool.and_eq_true] at h ⊢
      obtain ⟨hbasic, -, hdecode⟩ := h
      split at hdecode
      · cases hdecode
      · rename_i decoded hdec
        simp only [authUserPassMatches, secretMatchesSlice, Bool.and_eq_true, beq_iff_eq] at hdecode
        refine ⟨_, _, hdecode.2.1.2, hdecode.2.2, hbasic, ?_⟩
        rw [← split_colon hdecode.1]
        exact base64Loop_memory hdec

/-! ## Refusals -/

def requestTooLarge : Response := ⟨413, lit "Payload Too Large", [], lit "request too large\n"⟩

def payloadTooLarge : Response := ⟨413, lit "Payload Too Large", [], lit "payload too large\n"⟩

def lengthRequired : Response :=
  ⟨411, lit "Length Required", [], lit "Content-Length is required\n"⟩

/-- The answers to requests that are not authorized. -/
def refusals (cfg : Config) : List Response :=
  [requestTooLarge, headersTooLarge, badRequest "bad request\n",
    badRequest "transfer encoding is not supported\n", badRequest "GET body is not supported\n",
    unauthorized cfg, lengthRequired, payloadTooLarge]

/-- What a read without an authorized request comes to. -/
inductive Refuses (cfg : Config) (env : Env) (S : Server) (c : ConnId) (h : HttpConn) :
    Server → Prop
  | ignores : Refuses cfg env S c h S
  | waits (rx : Bytes) : Refuses cfg env S c h (S.setHttp c { h with rx := rx })
  | closes : Refuses cfg env S c h (beginClose S c)
  | responds (rx : Bytes) (r : Response) (hr : r ∈ refusals cfg) :
      Refuses cfg env S c h (respondAndClose env S c { h with rx := rx } r)

section Reads

variable {cfg : Config} {env : Env} {S : Server} {c : ConnId} {h : HttpConn} {chunk : Bytes}

theorem refuses_get {req : Request} {rx : Bytes} (hno : authorized cfg env req = false) :
    Refuses cfg env S c h (handleGet cfg env S c { h with rx := rx } req) := by
  unfold handleGet
  split
  · exact .responds rx _ (by simp [refusals])
  · rw [if_pos (by simp [hno])]
    exact .responds rx _ (by simp [refusals])

theorem refuses_post {req : Request} {rx body : Bytes} (hno : authorized cfg env req = false) :
    Refuses cfg env S c h (handlePost cfg env S c { h with rx := rx } req body) := by
  unfold handlePost
  rw [if_pos (by simp [hno])]
  exact .responds rx _ (by simp [refusals])

theorem refuses_processRequest {rx : Bytes} (hmode : cfg.auth.mode ≠ .none)
    (hno : ¬ Carries cfg.auth rx) :
    Refuses cfg env S c h (processRequest cfg env S c { h with rx := rx }) := by
  unfold processRequest
  split
  · split
    · exact .responds rx _ (by simp [refusals])
    · exact .waits rx
  · rename_i n hn
    split
    · exact .responds rx _ (by simp [refusals])
    · split
      · exact .responds rx _ (by simp [refusals])
      · rename_i req hreq
        have hauth : authorized cfg env req = false := by
          by_contra hyes
          obtain ⟨value, hvalue, hmatch⟩ := headerMatches_of_authorized hmode (by simpa using hyes)
          exact hno ⟨n, req, value, hn, hreq, hvalue, hmatch⟩
        split
        · exact .responds rx _ (by simp [refusals])
        · split
          · exact refuses_get hauth
          · exact .responds rx lengthRequired (by simp [refusals])
          · split
            · exact .responds rx payloadTooLarge (by simp [refusals])
            · split
              · exact .waits rx
              · exact refuses_post hauth

theorem refuses_readCb (hmode : cfg.auth.mode ≠ .none) (hc : S.peers c = .http h)
    (hno : ¬ Carries cfg.auth (h.rx ++ chunk)) :
    Refuses cfg env S c h (readCb cfg env S c chunk) := by
  unfold readCb
  simp only [hc]
  split
  · exact .ignores
  · split
    · exact .closes
    · split
      · exact .responds h.rx requestTooLarge (by simp [refusals])
      · split
        · exact .closes
        · exact refuses_processRequest hmode hno

end Reads

/-! ## What a refusal does -/

/-- Only connection `c` has changed, which was in state `h`: it has published nothing,
it is a stream if it was one, and `line` has been put out. -/
structure Local (c : ConnId) (S : Server) (h : HttpConn) (line : Bytes) (S' : Server) : Prop where
  world : Harmless c S.world S'.world
  peers : ∀ d, d ≠ c → S'.peers d = S.peers d
  conn : ∃ h', S'.peers c = .http h' ∧ h'.published = h.published ∧ h'.sse = h.sse ∧
    h'.streamStart = h.streamStart ∧ h'.sent ++ S'.out c = h.sent ++ S.out c ++ line

section Effects

variable {S T U : Server} {c : ConnId} {h i : HttpConn} {line : Bytes}

theorem Local.trans (f : Local c S h line T) (g : ∀ i, T.peers c = .http i → Local c T i [] U) :
    Local c S h line U := by
  obtain ⟨i, hi, hpub, hsse, hstart, hout⟩ := f.conn
  have hg := g i hi
  obtain ⟨j, hj, jpub, jsse, jstart, jout⟩ := hg.conn
  constructor
  · exact f.world.trans hg.world
  · exact fun d hd => (hg.peers d hd).trans (f.peers d hd)
  · refine ⟨j, hj, jpub.trans hpub, jsse.trans hsse, jstart.trans hstart, ?_⟩
    rw [jout, hout, List.append_nil]

theorem local_setHttp (hpub : i.published = h.published) (hsse : i.sse = h.sse)
    (hstart : i.streamStart = h.streamStart) (hsent : i.sent = h.sent) :
    Local c S h [] (S.setHttp c i) := by
  constructor
  · exact .refl c S.world
  · exact fun d hd => Function.update_of_ne hd _ _
  · refine ⟨i, setHttp_peers_self S c i, hpub, hsse, hstart, ?_⟩
    rw [setHttp_out, hsent, List.append_nil]

theorem local_dropConn (hc : S.peers c = .http h) : Local c S h [] (S.dropConn c) := by
  constructor
  · exact (harmless_updateConn c S.world _).trans (harmless_removeAllFor c _)
  · exact fun _ _ => rfl
  · have hout : (S.dropConn c).out c = S.out c := by
      unfold Server.dropConn Server.out removeAllFor
      rw [sweepRouter_conns]
      simp [World.updateConn]
    refine ⟨h, hc, rfl, rfl, rfl, ?_⟩
    rw [hout, List.append_nil]

theorem local_beginClose (hc : S.peers c = .http h) : Local c S h [] (beginClose S c) := by
  by_cases hclosing : h.closing = true
  · unfold beginClose
    rw [hc]
    simp only [hclosing, if_true]
    have hself := local_setHttp (S := S) (c := c) (h := h) (i := h) rfl rfl rfl rfl
    rw [setHttp_self hc] at hself
    exact hself
  · have hclose := beginClose_setHttp S c (h := h) (by simpa using hclosing)
    rw [setHttp_self hc] at hclose
    rw [hclose]
    apply Local.trans (T := S.setHttp c { h with closing := true })
    · exact local_setHttp rfl rfl rfl rfl
    · exact fun i hi => local_dropConn hi

/-- What was to go out has gone to the socket. -/
theorem local_writeSocket (env : Env) (hc : S.peers c = .http h) (hsettled : h.Settled) :
    Local c S h [] (writeSocket env S c h) := by
  have hsame : Local c S h [] S := by
    have hself := local_setHttp (S := S) (c := c) (h := h) (i := h) rfl rfl rfl rfl
    rw [setHttp_self hc] at hself
    exact hself
  unfold writeSocket
  split
  · exact hsame
  · rename_i hgo
    simp only [Bool.or_eq_true, not_or, Bool.not_eq_true] at hgo
    obtain ⟨⟨hopen, hidle⟩, -⟩ := hgo
    have htaken : ∀ i : HttpConn, i.published = h.published → i.sse = h.sse →
        i.streamStart = h.streamStart → i.sent = h.sent ++ S.out c →
        Local c S h [] ((S.setOut c h.inFlight).setHttp c i) := by
      intro i hpub hsse hstart hsent
      constructor
      · exact harmless_updateConn c S.world fun x => { x with out := h.inFlight }
      · exact fun d hd => Function.update_of_ne hd _ _
      · refine ⟨i, setHttp_peers_self _ c i, hpub, hsse, hstart, ?_⟩
        rw [setHttp_out, hsent]
        simp [Server.out, hsettled hopen hidle]
    have hclosed := (htaken { h with inFlight := S.out c, sent := h.sent ++ S.out c }
      rfl rfl rfl rfl).trans fun i hi => local_beginClose hi
    dsimp only
    split
    · exact hclosed
    · split
      · rw [setHttp_setHttp]
        exact htaken _ rfl rfl rfl rfl
      · exact hclosed

theorem local_kickWrite (env : Env) (hc : S.peers c = .http h) (hsettled : h.Settled) :
    Local c S h [] (kickWrite env S c) := by
  have hsame : Local c S h [] S := by
    have hself := local_setHttp (S := S) (c := c) (h := h) (i := h) rfl rfl rfl rfl
    rw [setHttp_self hc] at hself
    exact hself
  unfold kickWrite
  simp only [hc]
  split
  · exact hsame
  · split
    · exact local_beginClose hc
    · split
      · exact hsame
      · exact local_writeSocket env hc hsettled

/-- A response puts out what of it finds memory. -/
theorem local_respondAndClose (env : Env) (r : Response) (hsettled : h.Settled) :
    ∃ n, Local c S h (r.pieces.take n).flatten (respondAndClose env S c h r) := by
  obtain ⟨n, hn, -⟩ := appendAll_append (fun i => env.mem (.response i)) 0 (S.out c) r.pieces
  refine ⟨n, ?_⟩
  have hput : ∀ i : HttpConn, i.published = h.published → i.sse = h.sse →
      i.streamStart = h.streamStart → i.sent = h.sent →
      Local c S h (r.pieces.take n).flatten
        ((S.setOut c (S.out c ++ (r.pieces.take n).flatten)).setHttp c i) := by
    intro i hpub hsse hstart hsent
    constructor
    · exact harmless_updateConn c S.world fun x =>
        { x with out := S.out c ++ (r.pieces.take n).flatten }
    · exact fun d hd => Function.update_of_ne hd _ _
    · refine ⟨i, setHttp_peers_self _ c i, hpub, hsse, hstart, ?_⟩
      rw [setHttp_out, hsent]
      simp [Server.out, List.append_assoc]
  unfold respondAndClose
  split
  · rename_i out heq
    rw [heq] at hn
    rw [show out = S.out c ++ (r.pieces.take n).flatten from hn]
    exact (hput h rfl rfl rfl rfl).trans fun i hi => local_beginClose hi
  · rename_i out heq
    rw [heq] at hn
    rw [show out = S.out c ++ (r.pieces.take n).flatten from hn]
    refine (hput { h with closeAfterWrite := true } rfl rfl rfl rfl).trans fun i hi => ?_
    rw [setHttp_peers_self] at hi
    cases hi
    exact local_kickWrite env (setHttp_peers_self _ c _) hsettled

theorem local_refuses {cfg : Config} {env : Env} (hc : S.peers c = .http h) (hsettled : h.Settled)
    (hr : Refuses cfg env S c h T) :
    ∃ line, Local c S h line T ∧ (line = [] ∨ ∃ r ∈ refusals cfg, line <+: r.pieces.flatten) := by
  cases hr with
  | ignores =>
    have hself := local_setHttp (S := S) (c := c) (h := h) (i := h) rfl rfl rfl rfl
    rw [setHttp_self hc] at hself
    exact ⟨[], hself, .inl rfl⟩
  | waits rx => exact ⟨[], local_setHttp rfl rfl rfl rfl, .inl rfl⟩
  | closes => exact ⟨[], local_beginClose hc, .inl rfl⟩
  | responds rx r hr =>
    obtain ⟨n, hn⟩ := local_respondAndClose (S := S) (c := c) (h := { h with rx := rx }) env r
      hsettled
    refine ⟨(r.pieces.take n).flatten, ⟨hn.world, hn.peers, hn.conn⟩, .inr ⟨r, hr, ?_⟩⟩
    refine ⟨(r.pieces.drop n).flatten, ?_⟩
    rw [← List.flatten_append, List.take_append_drop]

end Effects

/-! ## Runs -/

theorem settled_step (cfg : Config) {S : Server} (e : Event)
    (hS : ∀ c h, S.peers c = .http h → h.Settled ∧ h.Flags) :
    ∀ c h, (step cfg S e).peers c = .http h → h.Settled ∧ h.Flags := by
  refine step_preserves (I := fun _ _ h => h.Settled ∧ h.Flags) cfg e ?_ ?_ ?_ hS ?_
  · exact fun _ _ => ⟨fun _ _ => rfl, ⟨fun _ => rfl, (nomatch ·)⟩⟩
  · rintro S S' c h h' k ⟨hs, hf⟩
    exact ⟨k.settled hs, k.flags hf⟩
  · exact fun hI hsse => ⟨hsse, hI.2.plain hsse⟩
  · rintro env c chunk h rfl hp hr h' hc'
    have hset := (hS c h hr.peer).1
    rcases hr.handled with ⟨r, hr'⟩ | ⟨-, hr'⟩
    · obtain ⟨-, i, hi, hsettled, -, -, hp'⟩ := respondAndClose_spec env S c r hp
      rw [hr', hi] at hc'
      cases hc'
      exact ⟨hsettled hset, hp'.flags⟩
    · obtain ⟨-, i, hi, hsettled, -, -, hf, -⟩ := handled_processRequest (q := False) cfg env S c
        (h := { h with rx := h.rx ++ chunk }) hp fun h => h.elim
      rw [hr', hi] at hc'
      cases hc'
      exact ⟨hsettled hset, hf⟩

theorem settled_run (cfg : Config) {S : Server} (hstart : Start S) (events : List Event) :
    ∀ c h, (run cfg S events).peers c = .http h → h.Settled ∧ h.Flags := by
  have hall : ∀ S : Server, (∀ c h, S.peers c = .http h → h.Settled ∧ h.Flags) →
      ∀ c h, (run cfg S events).peers c = .http h → h.Settled ∧ h.Flags := by
    induction events with
    | nil => exact fun S hS => hS
    | cons e events ih => exact fun S hS => ih _ (settled_step cfg e hS)
  apply hall S
  intro c h hc
  rw [hstart c] at hc
  cases hc

/-- No read of connection `c` finds an authorized request in its buffer. -/
def ReadsUnauthorized (auth : AuthConfig) (c : ConnId) (S : Server) : Event → Prop
  | .read _ d chunk => d = c → ∀ h, S.peers c = .http h → ¬ Carries auth (h.rx ++ chunk)
  | _ => True

/-- A connection that has published nothing and is no stream. -/
def HttpConn.Untouched (h : HttpConn) : Prop :=
  h.published = 0 ∧ h.sse = false ∧ h.streamStart = none

theorem untouched_step {cfg : Config} (hmode : cfg.auth.mode ≠ .none) {c : ConnId} {S : Server}
    (e : Event) (he : ReadsUnauthorized cfg.auth c S e)
    (hS : ∀ d h, S.peers d = .http h → (h.Settled ∧ h.Flags) ∧ (d = c → h.Untouched)) :
    ∀ d h, (step cfg S e).peers d = .http h →
      (h.Settled ∧ h.Flags) ∧ (d = c → h.Untouched) := by
  refine step_preserves (I := fun _ d h => (h.Settled ∧ h.Flags) ∧ (d = c → h.Untouched)) cfg e
    ?_ ?_ ?_ hS ?_
  · exact fun _ _ => ⟨⟨fun _ _ => rfl, ⟨fun _ => rfl, (nomatch ·)⟩⟩, fun _ => ⟨rfl, rfl, rfl⟩⟩
  · rintro S S' d h h' k ⟨⟨hs, hf⟩, hu⟩
    refine ⟨⟨k.settled hs, k.flags hf⟩, fun hd => ?_⟩
    obtain ⟨hpub, hsse, hstart⟩ := hu hd
    exact ⟨k.published.trans hpub, k.sse.trans hsse, k.streamStart.trans hstart⟩
  · exact fun hI hsse => ⟨hsse, hI.1.2.plain hsse⟩
  · rintro env d chunk h rfl hp hr h' hd'
    refine ⟨settled_step cfg _ (fun c h hc => (hS c h hc).1) d h' hd', ?_⟩
    rintro rfl
    obtain ⟨hset, hu⟩ := hS d h hr.peer
    obtain ⟨hpub, hsse, hstart⟩ := hu rfl
    obtain ⟨line, hlocal, -⟩ := @local_refuses _ _ _ _ cfg env hr.peer hset.1
      (refuses_readCb hmode hr.peer (he rfl h hr.peer))
    obtain ⟨i, hi, ipub, isse, istart, -⟩ := hlocal.conn
    rw [step, hi] at hd'
    cases hd'
    exact ⟨ipub.trans hpub, isse.trans hsse, istart.trans hstart⟩

/-- **No effect without authentication.** With a mode configured, a client connection
only appends error lines to its own output before a `CONNECT` with the credentials, and
does nothing any more after another first operation; a read that leaves no request with a
matching header in the buffer of an HTTP connection puts out at most a refusal; and a
connection whose reads are all of that kind publishes nothing and is never a stream. -/
theorem nothing_without_authentication {N π : Type} (cfg : Config)
    (hmode : cfg.auth.mode ≠ .none) :
    (∀ (B : Backing N π) (c : ConnId) (s : Live π) (as : List (Arrival (Live π))),
      Gated cfg B c s as) ∧
    (∀ (S : Server) (events : List Event) (env : Env) (c : ConnId) (h : HttpConn) (chunk : Bytes),
      Start S → (run cfg S events).peers c = .http h → ¬ Carries cfg.auth (h.rx ++ chunk) →
      ∃ line, Local c (run cfg S events) h line
          (step cfg (run cfg S events) (.read env c chunk)) ∧
        (line = [] ∨ ∃ r ∈ refusals cfg, line <+: r.pieces.flatten)) ∧
    (∀ (S : Server) (events : List Event) (c : ConnId) (h : HttpConn),
      Start S → Along (step cfg) (ReadsUnauthorized cfg.auth c) S events →
      (run cfg S events).peers c = .http h →
      h.published = 0 ∧ h.sse = false ∧ h.streamStart = none) := by
  refine ⟨fun B c s as => gated cfg hmode B c s as, ?_, ?_⟩
  · intro S events env c h chunk hstart hc hno
    apply local_refuses hc (settled_run cfg hstart events c h hc).1
    exact refuses_readCb hmode hc hno
  · intro S events c h hstart hrun hc
    have hall := hrun.invariant
      (I := fun S => ∀ d h, S.peers d = .http h → (h.Settled ∧ h.Flags) ∧ (d = c → h.Untouched))
      (fun S e hS he => untouched_step hmode e he hS) fun d i hd => by
        rw [hstart d] at hd
        cases hd
    exact (hall c h hc).2 rfl

def tokenConfig : Config := ⟨⟨.token, some (lit "s3"), none, none⟩, true, true⟩

def tokenJson : Bytes := lit "\x7b\"auth_token\":\"s3\"\x7d"

/-- The reader of the one document that is sent, on a server that does not publish. -/
def tokenBacking : Backing Unit Unit where
  readJson b := if b = tokenJson then some (.obj [(lit "auth_token", .str (lit "s3"))]) else none
  serverClosing _ := false
  append _ _ := true
  alloc _ := .succeeds
  clientPublish s _ := (s, .ok)

/-- A bad line, the credentials and a `PING` in one read. -/
def tokenArrival : Arrival (Live Unit) :=
  ⟨fun s => (s, false), lit "BAD\r\nCONNECT " ++ tokenJson ++ lit "\r\nPING\r\n"⟩

theorem nothing_without_authentication_token :
    (∃ json, firstOp (readAll (natsOps tokenConfig tokenBacking 0)
        (freshConn tokenConfig ⟨idleServer.world, ()⟩) [tokenArrival]).log = some (.connect json) ∧
      Credentials tokenBacking.readJson tokenConfig.auth json) ∧
    ∃ line, Local 0 (run tokenConfig idleServer [.accept 0 true]) newConn line
        (step tokenConfig (run tokenConfig idleServer [.accept 0 true])
          (.read plainEnv 0 (getRequest "/latest/a"))) ∧
      (line = [] ∨ ∃ r ∈ refusals tokenConfig, line <+: r.pieces.flatten) := by
  obtain ⟨hnats, hhttp, -⟩ := nothing_without_authentication (N := Unit) (π := Unit) tokenConfig
    (fun h => nomatch h)
  constructor
  · exact (hnats tokenBacking 0 ⟨idleServer.world, ()⟩ [tokenArrival]).first (by decide +kernel)
  · refine hhttp idleServer [.accept 0 true] plainEnv 0 newConn (getRequest "/latest/a")
      (fun _ => rfl) rfl ?_
    rintro ⟨n, req, value, hn, hreq, hvalue, -⟩
    have hnone : ((findHeaderEnd (getRequest "/latest/a")).bind fun n =>
        (parseHeaders ((getRequest "/latest/a").take n)).bind Request.authorization) = none := by
      decide +kernel
    rw [show newConn.rx ++ getRequest "/latest/a" = getRequest "/latest/a" from rfl] at hn hreq
    rw [hn, Option.bind_some, hreq, Option.bind_some, hvalue] at hnone
    cases hnone

end Monoblok.Http
