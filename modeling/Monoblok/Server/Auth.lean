import Monoblok.Patchbay.Value
import Monoblok.Router.Subscribe
import Monoblok.Server.HttpSteps
import Monoblok.Server.Replies

/-!
# Authentication of client connections

`connect_auth_matches` and what stands behind it: until a `CONNECT` with the
credentials of the server has been handled, a connection does nothing but append
error lines to its own output and close.

The JSON reader is a parameter. So is what a publish does to the server.
-/

namespace Monoblok.Auth

open Reading Http
open Patchbay (Json)

variable {N π : Type}

/-- `yyjson_obj_get`: the first member of the name. -/
def objGet (members : List (Bytes × Json N)) (key : String) : Option (Json N) :=
  (members.find? fun m => m.1 == lit key).map Prod.snd

/-- `connect_auth_matches`. -/
def connectAuthMatches (readJson : Bytes → Option (Json N)) (auth : AuthConfig) (json : Bytes) :
    Bool :=
  if auth.mode == .none then true
  else if json.isEmpty then false
  else
    match readJson json with
    | some (.obj members) =>
      match auth.mode with
      | .token =>
        match objGet members "auth_token" with
        | some (.str token) => authTokenMatches auth token
        | _ => false
      | .userPass =>
        match objGet members "user", objGet members "pass" with
        | some (.str user), some (.str pass) => authUserPassMatches auth user pass
        | _, _ => false
      | .none => false
    | _ => false

/-! ## The server behind a connection -/

/-- The router with its connections, and everything else: the patchbay program and
its state among it. -/
structure Live (π : Type) where
  world : World
  rest : π

def Live.out (s : Live π) (c : ConnId) : Bytes := (s.world.conns c).out

def Live.setOut (s : Live π) (c : ConnId) (out : Bytes) : Live π :=
  { s with world := s.world.updateConn c fun x => { x with out := out } }

/-- What the operations of a connection meet outside `conn.c`. -/
structure Backing (N π : Type) where
  readJson : Bytes → Option (Json N)
  serverClosing : Live π → Bool
  append : Live π → ℕ → Bool
  alloc : Live π → Alloc
  clientPublish : Live π → Message → Live π × ClientPublishStatus

/-- The part of `mb_conn_begin_close` that concerns the router. -/
def dropConn (c : ConnId) (s : Live π) : Live π :=
  { s with world := removeAllFor (s.world.updateConn c fun x => { x with closed := true }) c }

/-- The calls of connection `c` on the server. -/
def natsOps (cfg : Config) (B : Backing N π) (c : ConnId) : ConnOps (Live π) where
  connectAuthMatches := connectAuthMatches B.readJson cfg.auth
  serverClosing := B.serverClosing
  lvcEnabled _ := cfg.lvcEnabled
  writeErr s msg :=
    let r := appendAll (B.append s) 0 (s.out c) (Output.errPieces msg)
    (s.setOut c r.1, r.2)
  writePong s :=
    let r := appendAll (B.append s) 0 (s.out c) [lit "PONG\r\n"]
    (s.setOut c r.1, r.2)
  subscribeQueue s subject queue sid :=
    let r := Monoblok.subscribeQueue (B.alloc s) s.world c subject queue sid
    ({ s with world := r.1 }, r.2)
  unsubscribe s sid maxMsgs := { s with world := Monoblok.unsubscribe s.world c sid maxMsgs }
  clientPublish s subject payload replyTo :=
    let r := B.clientPublish s ⟨subject, payload, replyTo⟩
    (r.1, r.2, (r.1.world.conns c).closed)
  removeAllFor s := dropConn c s

/-- A connection as `mb_conn_create` leaves it. -/
def freshConn (cfg : Config) (s : Live π) : Conn (Live π) :=
  Conn.fresh s (cfg.auth.mode == .none)

/-! ## The trail of a connection -/

section Trail

variable {σ : Type*} (S : ConnOps σ)

/-- The operations and errors handled in one read, with the sessions around them. -/
def readTrail (c : Conn σ) (a : Arrival σ) : List (Session σ × RxEvent × Session σ) :=
  if c.closing then []
  else
    let (server, closed) := a.env c.server
    if closed then []
    else
      let c := { c with
        server := server
        rx := c.rx ++ a.chunk }
      (rxReader S).trail (c.rx.length + 1) (c.view 0)

def runTrail : Conn σ → List (Arrival σ) → List (Session σ × RxEvent × Session σ)
  | _, [] => []
  | c, a :: as => readTrail S c a ++ runTrail (read S c a) as

variable {S}

theorem read_trail (c : Conn σ) (a : Arrival σ) :
    (read S c a).log = c.log ++ (readTrail S c a).map (·.2.1) ∧
      ∀ t ∈ readTrail S c a, t.1.closing = false ∧ t.2.2 = rxStep S t.1 t.2.1 := by
  unfold read readTrail
  dsimp only
  by_cases hc : c.closing = true
  · rw [if_pos hc, if_pos hc]
    exact ⟨(List.append_nil _).symm, fun _ h => nomatch h⟩
  · rw [if_neg hc, if_neg hc]
    by_cases henv : (a.env c.server).2 = true
    · rw [if_pos henv, if_pos henv]
      exact ⟨(List.append_nil _).symm, fun _ h => nomatch h⟩
    · rw [if_neg henv, if_neg henv]
      have hspec := processRx_spec (S := S)
        (c := { c with server := (a.env c.server).1, rx := c.rx ++ a.chunk }) (by simpa using hc)
      obtain ⟨hlog, hall⟩ := Reader.trail_spec (R := rxReader S) ((c.rx ++ a.chunk).length + 1)
        (Conn.view { c with server := (a.env c.server).1, rx := c.rx ++ a.chunk } 0)
      refine ⟨?_, hall⟩
      rw [hspec.log]
      simpa [Reader.drain, Conn.view] using hlog

/-- The trail tells what the connection has logged, and each of its entries is a step of
an open session. -/
theorem run_trail (c : Conn σ) (as : List (Arrival σ)) :
    (readAll S c as).log = c.log ++ (runTrail S c as).map (·.2.1) ∧
      ∀ t ∈ runTrail S c as, t.1.closing = false ∧ t.2.2 = rxStep S t.1 t.2.1 := by
  induction as generalizing c with
  | nil => exact ⟨(List.append_nil _).symm, fun _ h => nomatch h⟩
  | cons a as ih =>
    obtain ⟨hlog, hall⟩ := read_trail (S := S) c a
    obtain ⟨hlogs, halls⟩ := ih (read S c a)
    constructor
    · rw [runTrail, List.map_append, ← List.append_assoc, ← hlog]
      exact hlogs
    · intro t ht
      rcases List.mem_append.mp ht with ht | ht
      · exact hall t ht
      · exact halls t ht

/-! ## The first operation -/

def firstOp (log : List RxEvent) : Option Op :=
  log.findSome? fun e =>
    match e with
    | .op op => some op
    | _ => none

theorem firstOp_append (log : List RxEvent) (e : RxEvent) :
    firstOp (log ++ [e]) = (firstOp log).or (firstOp [e]) := by
  unfold firstOp
  rw [List.findSome?_append]

/-- What the first operation of a connection has decided. -/
structure Decided (S : ConnOps σ) (k : Session σ) (log : List RxEvent) : Prop where
  authorized : k.authorized = true → ∃ op, firstOp log = some op ∧ authorizes S op = true
  refused : k.authorized = false → ∀ op, firstOp log = some op →
    authorizes S op = false ∧ k.closing = true ∧ ∃ before, log = before ++ [.op op]

theorem writeErrOrClose_authorized (k : Session σ) (msg : Bytes) :
    (writeErrOrClose S k msg).authorized = k.authorized := by
  unfold writeErrOrClose
  dsimp only
  split_ifs
  · rfl
  · exact beginClose_authorized _

theorem authViolation_authorized (k : Session σ) :
    (authViolation S k).authorized = k.authorized := by
  unfold authViolation
  rw [beginClose_authorized]
  exact writeErrOrClose_authorized k _

theorem handlePub_authorized (k : Session σ) (subject replyTo payload : Bytes) :
    (handlePub S k subject replyTo payload).authorized = k.authorized := by
  have hevict : ∀ k : Session σ, (evict S k).authorized = k.authorized := beginClose_authorized
  unfold handlePub
  dsimp only
  split
  · split_ifs
    · exact hevict _
    · rfl
  · rw [writeErrOrClose_authorized]
    split_ifs
    · exact hevict _
    · rfl

/-- An operation of a session that is authorized leaves it so. -/
theorem handleOp_authorized {k : Session σ} (h : k.authorized = true) (op : Op) :
    (handleOp S k op).authorized = true := by
  unfold handleOp
  rw [if_neg (by simp [h])]
  split_ifs
  · rw [writeErrOrClose_authorized]
    exact h
  · cases op with
    | connect json => exact h
    | unsub sid maxMsgs => exact h
    | pub subject replyTo payload =>
      rw [handlePub_authorized]
      exact h
    | ping =>
      dsimp only
      split_ifs
      · exact h
      · exact (beginClose_authorized _).trans h
    | sub subject queue sid =>
      dsimp only
      split_ifs
      · rw [writeErrOrClose_authorized]
        exact h
      · exact h
      · rw [writeErrOrClose_authorized]
        exact h

/-- A session that is not authorized handles an operation in one of two ways. -/
theorem handleOp_unauthorized {k : Session σ} (h : k.authorized = false) (op : Op) :
    handleOp S k op =
      if authorizes S op then { k with authorized := true } else authViolation S k := by
  unfold handleOp
  rw [if_pos (by simp [h])]
  cases authorizes S op <;> rfl

theorem Decided.step {k : Session σ} {log : List RxEvent} (e : RxEvent)
    (hopen : k.closing = false) (h : Decided S k log) :
    Decided S (rxStep S k e) (log ++ [e]) := by
  have hfirst : k.authorized = true → ∃ op, firstOp (log ++ [e]) = some op ∧
      authorizes S op = true := by
    intro ha
    obtain ⟨op, hop, hauth⟩ := h.authorized ha
    exact ⟨op, by rw [firstOp_append, hop]; rfl, hauth⟩
  -- an open session that is not authorized has handled no operation
  have hnone : k.authorized = false → firstOp log = none := by
    intro ha
    cases hop : firstOp log with
    | none => rfl
    | some op =>
      rw [(h.refused ha op hop).2.1] at hopen
      cases hopen
  cases e with
  | rejected msg =>
    have hsame : (rxStep S k (.rejected msg)).authorized = k.authorized :=
      writeErrOrClose_authorized k msg
    constructor
    · intro ha
      exact hfirst (hsame.symm.trans ha)
    · intro ha op hop
      rw [firstOp_append, hnone (hsame.symm.trans ha)] at hop
      cases hop
  | violation =>
    have hsame : (rxStep S k .violation).authorized = k.authorized := by
      rw [rxStep, beginClose_authorized]
      exact writeErrOrClose_authorized k _
    constructor
    · intro ha
      exact hfirst (hsame.symm.trans ha)
    · intro ha op hop
      rw [firstOp_append, hnone (hsame.symm.trans ha)] at hop
      cases hop
  | op op =>
    cases ha : k.authorized with
    | true =>
      constructor
      · exact fun _ => hfirst ha
      · intro hno
        rw [rxStep, handleOp_authorized ha] at hno
        cases hno
    | false =>
      have hop : firstOp (log ++ [.op op]) = some op := by
        rw [firstOp_append, hnone ha]
        rfl
      rw [rxStep, handleOp_unauthorized ha]
      cases hauth : authorizes S op with
      | true =>
        rw [if_pos rfl]
        exact ⟨fun _ => ⟨op, hop, hauth⟩, fun hno => by cases hno⟩
      | false =>
        rw [if_neg Bool.false_ne_true]
        constructor
        · intro hyes
          rw [authViolation_authorized, ha] at hyes
          cases hyes
        · intro _ op' hop'
          rw [hop] at hop'
          cases hop'
          exact ⟨hauth, Monoblok.beginClose_closing S _, log, rfl⟩

theorem Decided.read {c : Conn σ} (h : Decided S c.toSession c.log) (a : Arrival σ) :
    Decided S (read S c a).toSession (read S c a).log := by
  unfold Monoblok.read
  dsimp only
  by_cases hc : c.closing = true
  · rw [if_pos hc]
    exact h
  · rw [if_neg hc]
    by_cases henv : (a.env c.server).2 = true
    · rw [if_pos henv]
      have hsame := beginClose_authorized (S := S)
        { c.toSession with server := (a.env c.server).1 }
      constructor
      · intro ha
        exact h.authorized (hsame.symm.trans ha)
      · intro ha op hop
        have hk := h.refused (hsame.symm.trans ha) op hop
        exact ⟨hk.1, Monoblok.beginClose_closing S _, hk.2.2⟩
    · rw [if_neg henv]
      have hspec := processRx_spec (S := S)
        (c := { c with server := (a.env c.server).1, rx := c.rx ++ a.chunk }) (by simpa using hc)
      rw [hspec.session, hspec.log]
      apply Reader.drainLoop_invariant (I := Decided S)
      · exact fun k log e hopen hk => hk.step e hopen
      · exact ⟨h.authorized, h.refused⟩

theorem Decided.readAll {c : Conn σ} (h : Decided S c.toSession c.log) (as : List (Arrival σ)) :
    Decided S (readAll S c as).toSession (readAll S c as).log := by
  induction as generalizing c with
  | nil => exact h
  | cons a as ih => exact ih (h.read a)

theorem readAll_of_closing {c : Conn σ} (h : c.closing = true) (as : List (Arrival σ)) :
    readAll S c as = c := by
  induction as with
  | nil => rfl
  | cons a as ih =>
    have hread : read S c a = c := by
      unfold read
      rw [if_pos h]
    rw [readAll, List.foldl_cons, hread]
    exact ih

end Trail

/-! ## Before the credentials -/

/-- Nothing but connection `c` has changed: the cache and everything else of the router
are the same, no subscription is new, and those of other connections are all there. -/
structure Harmless (c : ConnId) (w w' : World) : Prop where
  router : w'.router = { w.router with
    literal := w'.router.literal
    wildcard := w'.router.wildcard
    wildcardGlobal := w'.router.wildcardGlobal
    subCount := w'.router.subCount }
  added : ∀ s ∈ allSubs w'.router, s ∈ allSubs w.router
  kept : ((allSubs w'.router).filter fun s => s.conn != c).Perm
    ((allSubs w.router).filter fun s => s.conn != c)
  others : ∀ d, d ≠ c → w'.conns d = w.conns d

theorem Harmless.refl (c : ConnId) (w : World) : Harmless c w w :=
  ⟨rfl, fun _ h => h, .refl _, fun _ _ => rfl⟩

theorem Harmless.trans {c : ConnId} {u v w : World} (h : Harmless c u v) (g : Harmless c v w) :
    Harmless c u w := by
  constructor
  · rw [g.router, h.router]
  · exact fun s hs => h.added s (g.added s hs)
  · exact g.kept.trans h.kept
  · exact fun d hd => (g.others d hd).trans (h.others d hd)

theorem harmless_updateConn (c : ConnId) (w : World) (f : RouterConn → RouterConn) :
    Harmless c w (w.updateConn c f) :=
  ⟨rfl, fun _ h => h, .refl _, fun _ hd => Function.update_of_ne hd _ _⟩

theorem filterMap_removeForConn (c : ConnId) (l : List Subscription) :
    l.filterMap (removeForConn c) = l.filter fun s => s.conn != c := by
  rw [← List.filterMap_eq_filter]
  congr 1
  funext s
  unfold removeForConn
  by_cases hs : s.conn = c
  · simp [hs, Option.guard]
  · simp [hs, Option.guard]

theorem harmless_removeAllFor (c : ConnId) (w : World) : Harmless c w (removeAllFor w c) := by
  have hperm := allSubs_sweepRouter (removeForConn c) w
  rw [filterMap_removeForConn] at hperm
  constructor
  · unfold removeAllFor sweepRouter
    dsimp only
    rw [foldl_noteSubRemoved_router]
  · intro s hs
    exact (List.mem_filter.mp (hperm.mem_iff.mp hs)).1
  · have hfilter := hperm.filter fun s => s.conn != c
    rw [List.filter_filter] at hfilter
    simpa [removeAllFor] using hfilter
  · intro d hd
    have hnone : subsOf d ((allSubs w.router).filter fun s => (removeForConn c s).isNone) = 0 := by
      unfold subsOf
      rw [List.countP_eq_zero]
      intro s hs hsd
      have hgone := (List.mem_filter.mp hs).2
      have hconn : s.conn = d := by simpa using hsd
      unfold removeForConn at hgone
      rw [if_pos (by rw [hconn]; exact hd)] at hgone
      cases hgone
    unfold removeAllFor
    rw [sweepRouter_conns, hnone, Nat.sub_zero]

/-- The server is the same but for connection `c`, to whose output at most an error line
has been appended. -/
structure OnlyErr (c : ConnId) (s s' : Live π) : Prop where
  world : Harmless c s.world s'.world
  rest : s'.rest = s.rest
  out : ∃ line, s'.out c = s.out c ++ line ∧
    (line = [] ∨ ∃ msg, line <+: lit "-ERR '" ++ msg ++ lit "'\r\n")

theorem OnlyErr.refl (c : ConnId) (s : Live π) : OnlyErr c s s :=
  ⟨.refl c s.world, rfl, [], (List.append_nil _).symm, .inl rfl⟩

theorem OnlyErr.dropConn {c : ConnId} {s t : Live π} (h : OnlyErr c s t) :
    OnlyErr c s (dropConn c t) := by
  constructor
  · exact h.world.trans ((harmless_updateConn c t.world _).trans (harmless_removeAllFor c _))
  · exact h.rest
  · have hout : (Auth.dropConn c t).out c = t.out c := by
      unfold Auth.dropConn Live.out removeAllFor
      rw [sweepRouter_conns]
      simp [World.updateConn]
    rw [hout]
    exact h.out

section Sessions

variable {cfg : Config} {B : Backing N π} {c : ConnId}

theorem onlyErr_beginClose {s : Live π} {k : Session (Live π)} (h : OnlyErr c s k.server) :
    OnlyErr c s (Monoblok.beginClose (natsOps cfg B c) k).server := by
  unfold Monoblok.beginClose
  split_ifs
  · exact h
  · exact h.dropConn

theorem onlyErr_writeErr (s : Live π) (msg : Bytes) :
    OnlyErr c s ((natsOps cfg B c).writeErr s msg).1 := by
  constructor
  · exact harmless_updateConn c s.world fun x =>
      { x with out := (appendAll (B.append s) 0 (s.out c) (Output.errPieces msg)).1 }
  · rfl
  · obtain ⟨n, hn, -⟩ := appendAll_append (B.append s) 0 (s.out c) (Output.errPieces msg)
    refine ⟨((Output.errPieces msg).take n).flatten, ?_, .inr ⟨msg, ?_⟩⟩
    · rw [← hn]
      simp [natsOps, Live.setOut, Live.out, World.updateConn]
    · refine ⟨((Output.errPieces msg).drop n).flatten, ?_⟩
      rw [← List.flatten_append, List.take_append_drop]
      simp [Output.errPieces]

theorem onlyErr_writeErrOrClose (k : Session (Live π)) (msg : Bytes) :
    OnlyErr c k.server (writeErrOrClose (natsOps cfg B c) k msg).server := by
  have hwrite := @onlyErr_writeErr _ _ cfg B c k.server msg
  unfold writeErrOrClose
  dsimp only
  split_ifs
  · exact hwrite
  · exact onlyErr_beginClose hwrite

/-- A step of a session that is not authorized. -/
theorem onlyErr_rxStep {k : Session (Live π)} (h : k.authorized = false) (e : RxEvent) :
    OnlyErr c k.server (rxStep (natsOps cfg B c) k e).server := by
  cases e with
  | rejected msg => exact onlyErr_writeErrOrClose k msg
  | violation => exact onlyErr_beginClose (onlyErr_writeErrOrClose k _)
  | op op =>
    rw [rxStep, handleOp_unauthorized h]
    split_ifs
    · exact .refl c k.server
    · exact onlyErr_beginClose (onlyErr_writeErrOrClose k _)

end Sessions

/-! ## Credentials -/

/-- The JSON of a `CONNECT` carries the credentials of the mode. -/
def Credentials (readJson : Bytes → Option (Json N)) (auth : AuthConfig) (json : Bytes) : Prop :=
  ∃ members, readJson json = some (.obj members) ∧
    match auth.mode with
    | .none => True
    | .token => ∃ token, auth.token = some token ∧ objGet members "auth_token" = some (.str token)
    | .userPass => ∃ user pass, auth.user = some user ∧ auth.pass = some pass ∧
        objGet members "user" = some (.str user) ∧ objGet members "pass" = some (.str pass)

theorem credentials_of_matches {readJson : Bytes → Option (Json N)} {auth : AuthConfig}
    {json : Bytes} (hmode : auth.mode ≠ .none)
    (h : connectAuthMatches readJson auth json = true) : Credentials readJson auth json := by
  unfold connectAuthMatches at h
  rw [if_neg (by simpa using hmode)] at h
  split_ifs at h
  split at h
  · rename_i members hread
    refine ⟨members, hread, ?_⟩
    cases hm : auth.mode with
    | none => exact absurd hm hmode
    | token =>
      simp only [hm] at h ⊢
      split at h
      · rename_i token hget
        simp only [authTokenMatches, secretMatchesSlice, Bool.and_eq_true, beq_iff_eq] at h
        exact ⟨token, h.2, hget⟩
      · cases h
    | userPass =>
      simp only [hm] at h ⊢
      split at h
      · rename_i user pass huser hpass
        simp only [authUserPassMatches, secretMatchesSlice, Bool.and_eq_true, beq_iff_eq] at h
        exact ⟨user, pass, h.1.2, h.2, huser, hpass⟩
      · cases h
  · cases h

theorem credentials_of_authorizes {cfg : Config} {B : Backing N π} {c : ConnId} {op : Op}
    (hmode : cfg.auth.mode ≠ .none) (h : authorizes (natsOps cfg B c) op = true) :
    ∃ json, op = .connect json ∧ Credentials B.readJson cfg.auth json := by
  cases op with
  | connect json => exact ⟨json, rfl, credentials_of_matches hmode h⟩
  | ping => cases h
  | sub subject queue sid => cases h
  | unsub sid maxMsgs => cases h
  | pub subject replyTo payload => cases h

/-- What a connection that has read `as` has done. -/
structure Gated (cfg : Config) (B : Backing N π) (c : ConnId) (s : Live π)
    (as : List (Arrival (Live π))) : Prop where
  trail : (readAll (natsOps cfg B c) (freshConn cfg s) as).log =
    (runTrail (natsOps cfg B c) (freshConn cfg s) as).map (·.2.1)
  before : ∀ t ∈ runTrail (natsOps cfg B c) (freshConn cfg s) as, t.1.authorized = false →
    OnlyErr c t.1.server t.2.2.server ∧ (t.2.2.authorized = true →
      ∃ json, t.2.1 = .op (.connect json) ∧ Credentials B.readJson cfg.auth json)
  first : (readAll (natsOps cfg B c) (freshConn cfg s) as).authorized = true →
    ∃ json, firstOp (readAll (natsOps cfg B c) (freshConn cfg s) as).log = some (.connect json) ∧
      Credentials B.readJson cfg.auth json
  refused : ∀ op, firstOp (readAll (natsOps cfg B c) (freshConn cfg s) as).log = some op →
    (∀ json, op = .connect json → ¬ Credentials B.readJson cfg.auth json) →
    (readAll (natsOps cfg B c) (freshConn cfg s) as).authorized = false ∧
      (∃ pre, (readAll (natsOps cfg B c) (freshConn cfg s) as).log = pre ++ [.op op]) ∧
      ∀ more, readAll (natsOps cfg B c) (freshConn cfg s) (as ++ more) =
        readAll (natsOps cfg B c) (freshConn cfg s) as

theorem gated (cfg : Config) (hmode : cfg.auth.mode ≠ .none) (B : Backing N π) (c : ConnId)
    (s : Live π) (as : List (Arrival (Live π))) : Gated cfg B c s as := by
  obtain ⟨hlog, hsteps⟩ := run_trail (S := natsOps cfg B c) (freshConn cfg s) as
  have hdecided : Decided (natsOps cfg B c) (freshConn cfg s).toSession (freshConn cfg s).log := by
    constructor
    · intro ha
      exact absurd (beq_iff_eq.mp ha) hmode
    · exact fun _ _ h => nomatch h
  have hend := hdecided.readAll as
  constructor
  · simpa [freshConn, Conn.fresh] using hlog
  · intro t ht hno
    obtain ⟨-, hafter⟩ := hsteps t ht
    rw [hafter]
    refine ⟨onlyErr_rxStep hno t.2.1, fun hyes => ?_⟩
    cases he : t.2.1 with
    | rejected msg =>
      rw [he, rxStep, writeErrOrClose_authorized, hno] at hyes
      cases hyes
    | violation =>
      rw [he, rxStep, beginClose_authorized, writeErrOrClose_authorized, hno] at hyes
      cases hyes
    | op op =>
      rw [he, rxStep, handleOp_unauthorized hno] at hyes
      split_ifs at hyes with hauth
      · obtain ⟨json, rfl, hcred⟩ := credentials_of_authorizes hmode hauth
        exact ⟨json, rfl, hcred⟩
      · rw [authViolation_authorized, hno] at hyes
        cases hyes
  · intro ha
    obtain ⟨op, hop, hauth⟩ := hend.authorized ha
    obtain ⟨json, rfl, hcred⟩ := credentials_of_authorizes hmode hauth
    exact ⟨json, hop, hcred⟩
  · intro op hop hnot
    have hno : (readAll (natsOps cfg B c) (freshConn cfg s) as).authorized = false := by
      by_contra hyes
      obtain ⟨op', hop', hauth⟩ := hend.authorized (by simpa using hyes)
      rw [hop] at hop'
      cases hop'
      obtain ⟨json, hjson, hcred⟩ := credentials_of_authorizes hmode hauth
      exact hnot json hjson hcred
    obtain ⟨-, hclosing, hlast⟩ := hend.refused hno op hop
    refine ⟨hno, hlast, fun more => ?_⟩
    rw [readAll, List.foldl_append]
    exact readAll_of_closing hclosing more

end Monoblok.Auth
