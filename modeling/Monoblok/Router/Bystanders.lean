import Monoblok.Lib.Unwinding
import Monoblok.Proto.Codec
import Monoblok.Router.Own

/-!
# Connections do not disturb each other

What a connection is sent depends on its own requests and on what is published,
and on nothing else: not on who else has subscribed, joins a queue group, reads
too slowly or goes away. Only the order of the frames of one message may differ,
since the removal of other subscriptions moves those of the connection.
-/

namespace Monoblok

open Runs Unwinding

/-- The router at work, with the output that has been taken from its connections
to be sent. -/
structure Desk where
  world : World
  taken : ConnId → Bytes

/-- A call of the router, or what the server does with a connection: it answers
on its own, takes the output away or closes the connection. -/
inductive DeskEvent where
  | call (call : RouterCall)
  | answers (conn : ConnId) (bytes : Bytes)
  | takes (conn : ConnId)
  | shuts (conn : ConnId)

def Desk.step (s : Desk) : DeskEvent → Desk
  | .call call => { s with world := routerStep s.world call }
  | .answers c bytes =>
    { s with world := s.world.updateConn c fun x => { x with out := x.out ++ bytes } }
  | .takes c =>
    ⟨s.world.updateConn c fun x => { x with out := [] },
      Function.update s.taken c (s.taken c ++ (s.world.conns c).out)⟩
  | .shuts c =>
    { s with world := removeAllFor (s.world.updateConn c fun x => { x with closed := true }) c }

/-- All that has ever been put into the output of a connection. -/
def Desk.stream (s : Desk) (c : ConnId) : Bytes := s.taken c ++ (s.world.conns c).out

/-- The events of a connection: its own requests, what the server does with it,
and all that is published or cached. -/
def DeskEvent.concerns (c : ConnId) : DeskEvent → Bool
  | .call (.subscribe _ d _ _ _) => d == c
  | .call (.unsubscribe d _ _) => d == c
  | .call (.removeAllFor d) => d == c
  | .call (.server _) => false
  | .call _ => true
  | .answers d _ => d == c
  | .takes d => d == c
  | .shuts d => d == c

/-- What an event adds to the stream of a connection, if that stays open. -/
def Desk.told (c : ConnId) (s : Desk) (e : DeskEvent) : Option Bytes :=
  if ((s.step e).world.conns c).closed then none
  else some (((s.step e).stream c).drop (s.stream c).length)

def deskView (c : ConnId) : View Desk DeskEvent (Option Bytes) :=
  ⟨Desk.step, DeskEvent.concerns c, Desk.told c⟩

/-- The same bytes, or the same messages in another order. -/
inductive HeardAlike : Option Bytes → Option Bytes → Prop
  | closed : HeardAlike none none
  | same (bytes : Bytes) : HeardAlike (some bytes) (some bytes)
  | messages {x y : Bytes} {ms ms' : List Msg} : decodeMsgs x = some ms → decodeMsgs y = some ms' →
      ms.Perm ms' → HeardAlike (some x) (some y)

/-- The checks of a request that look at its connection only. -/
def ownAllowed (w : World) (conn : ConnId) (subject queue sid : Bytes) : Bool :=
  !(subjectHasLvcPrefix subject &&
      (!w.router.lvcEnabled || (newSub conn subject queue sid).subject.isEmpty)) &&
    !(!subjectValid (newSub conn subject queue sid).subject true || !tokenValid sid ||
      (!queue.isEmpty && !tokenValid queue)) &&
    !decide (maxSubsPerConn ≤ (w.conns conn).subCount)

/-- The connection asks for no queue group, and gets what it asks for: memory and
the limit of the whole server do not stand in its way, and no delivery of a
message to anyone fails. The server changes other connections as it likes. -/
def Unhindered (c : ConnId) (s : Desk) : DeskEvent → Prop
  | .call (.publish A m) =>
    publishStart A s.world m = none ∨ (publishWithReply A s.world m).ok = true
  | .call (.subscribe A d subject queue sid) =>
    d = c → queue = [] ∧ (ownAllowed s.world c subject queue sid = true →
      subStored A s.world c subject queue sid = true)
  | .call (.server conns) => (conns c).withCountersOf (s.world.conns c) = s.world.conns c
  | _ => True

/-- What holds of a connection without queue groups in every state. -/
structure Attended (c : ConnId) (s : Desk) : Prop where
  reachable : Reachable s.world
  plain : (s.world.conns c).Plain
  queue : ∀ x ∈ ownSubs c s.world.router, x.queue = []
  sid : ∀ x ∈ ownSubs c s.world.router, tokenValid x.sid = true

/-- The connection cannot tell the two states apart. -/
structure SameDesk (c : ConnId) (s t : Desk) : Prop where
  cache : cacheOf s.world.router = cacheOf t.world.router
  closed : (s.world.conns c).closed = (t.world.conns c).closed
  subs : (s.world.conns c).closed = false →
    (ownSubs c s.world.router).Perm (ownSubs c t.world.router)
  room : (s.world.conns c).closed = false →
    (s.world.conns c).out.length = (t.world.conns c).out.length

theorem SameDesk.symm {c : ConnId} {s t : Desk} (h : SameDesk c s t) : SameDesk c t s :=
  ⟨h.cache.symm, h.closed.symm, fun ht => (h.subs (h.closed.trans ht)).symm,
    fun ht => (h.room (h.closed.trans ht)).symm⟩

theorem SameDesk.trans {c : ConnId} {s t u : Desk} (h : SameDesk c s t) (g : SameDesk c t u) :
    SameDesk c s u :=
  ⟨h.cache.trans g.cache, h.closed.trans g.closed,
    fun hs => (h.subs hs).trans (g.subs (h.closed.symm.trans hs)),
    fun hs => (h.room hs).trans (g.room (h.closed.symm.trans hs))⟩

/-! ## The calls at one connection -/

section Calls

variable {w : World} {c d : ConnId}

/-- A sweep that keeps a property of the elements commutes with a filter by it. -/
theorem filter_filterMap_of_kept {α : Type*} {p : α → Bool} {f : α → Option α}
    (hp : ∀ a b, f a = some b → p b = p a) (l : List α) :
    (l.filterMap f).filter p = (l.filter p).filterMap f := by
  induction l with
  | nil => rfl
  | cons a l ih =>
    cases hf : f a with
    | none =>
      rw [List.filterMap_cons_none hf, ih, List.filter_cons]
      split_ifs
      · rw [List.filterMap_cons_none hf]
      · rfl
    | some b =>
      rw [List.filterMap_cons_some hf, List.filter_cons, List.filter_cons, hp a b hf, ih]
      split_ifs
      · rw [List.filterMap_cons_some hf]
      · rfl

theorem ownSubs_sweepRouter {f : Subscription → Option Subscription} (hf : KeepsConn f) (w : World)
    (c : ConnId) :
    (ownSubs c (sweepRouter f w).router).Perm ((ownSubs c w.router).filterMap f) := by
  have hperm := (allSubs_sweepRouter f w).filter fun s => s.conn == c
  have hconn : ∀ a b, f a = some b → (b.conn == c) = (a.conn == c) := by
    intro a b hab
    rw [hf a b hab]
  rw [filter_filterMap_of_kept hconn] at hperm
  exact hperm

theorem filterMap_ownSubs_of_ne {f : Subscription → Option Subscription} {r : Router}
    (hf : ∀ s, s.conn = c → f s = some s) : (ownSubs c r).filterMap f = ownSubs c r := by
  have hself : ∀ s ∈ ownSubs c r, f s = some s := fun s hs => hf s (mem_ownSubs.mp hs).2
  rw [List.filterMap_congr hself, List.filterMap_some]

theorem ownSubs_configureLvc (A : Alloc) (c : ConnId) (r : Router) (filters : List Bytes) :
    ownSubs c (configureLvc A r filters).1 = ownSubs c r := by
  unfold configureLvc
  dsimp only
  split_ifs <;> rfl

theorem ownSubs_lvcStore (A : Alloc) (c : ConnId) (r : Router) (subject payload : Bytes) :
    ownSubs c (lvcStore A r subject payload).1 = ownSubs c r := by
  have hsame := sameRouting_lvcStore A r subject payload
  rw [ownSubs, ownSubs, allSubs, allSubs, hsame.literal, hsame.wildcard, hsame.wildcardGlobal]

/-- A sweep changes the count of a connection at most. -/
theorem sweepRouter_line (f : Subscription → Option Subscription) (w : World) (c : ConnId) :
    (sweepRouter f w).line c = w.line c := by
  rw [World.line, World.line, sweepRouter_conns]

theorem sweepRouter_plain {f : Subscription → Option Subscription}
    (h : (w.conns c).Plain) : ((sweepRouter f w).conns c).Plain := by
  rw [sweepRouter_conns]
  exact h

theorem removeForConn_of_ne (h : d ≠ c) {s : Subscription} (hs : s.conn = c) :
    removeForConn d s = some s := by
  rw [removeForConn, if_pos]
  rw [hs]
  exact Ne.symm h

theorem unsubscribeOne_of_ne (h : d ≠ c) (sid : Bytes) (maxMsgs : Option ℕ) {s : Subscription}
    (hs : s.conn = c) : unsubscribeOne d sid maxMsgs s = some s := by
  unfold unsubscribeOne
  rw [if_pos]
  left
  rw [hs]
  exact Ne.symm h

/-- A request of another connection. -/
theorem subscribe_other (hr : Reachable w) (h : d ≠ c) (A : Alloc) (subject queue sid : Bytes) :
    (subscribeQueue A w d subject queue sid).1.line c = w.line c ∧
      (ownSubs c (subscribeQueue A w d subject queue sid).1.router).Perm (ownSubs c w.router) := by
  have hkeep : ∀ s, s.conn = c → unsubscribeOne d sid none s = some s :=
    fun s hs => unsubscribeOne_of_ne h sid none hs
  cases hstored : subStored A w d subject queue sid with
  | false =>
    obtain ⟨r, heq, hperm, -⟩ := subscribeQueue_of_not_stored hr.inv hstored
    rw [heq]
    exact ⟨rfl, ownSubs_perm hperm c⟩
  | true =>
    have hnew : (ownSubs c (storedWorld A w d subject queue sid).router).Perm
        (ownSubs c w.router) := by
      have hperm := (allSubs_storedRouter hr.inv hstored).filter fun s => s.conn == c
      rw [List.filter_cons_of_neg (by simpa [newSub] using h)] at hperm
      exact hperm
    have hconns : (storedWorld A w d subject queue sid).conns c = w.conns c := by
      rw [storedWorld, updateConn_conns, if_neg (Ne.symm h)]
    have heq := subscribeQueue_of_stored hstored
    dsimp only at heq
    rw [heq]
    split_ifs
    · refine ⟨?_, hnew⟩
      rw [World.line, updateConn_conns, if_neg (Ne.symm h), hconns, World.line]
    · constructor
      · rw [unsubscribe, sweepRouter_line, World.line, updateConn_conns, if_neg (Ne.symm h), hconns,
          World.line]
      · refine (ownSubs_sweepRouter (keepsConn_unsubscribeOne d sid none) _ c).trans ?_
        rw [filterMap_ownSubs_of_ne hkeep]
        exact hnew
    · refine ⟨?_, hnew⟩
      rw [World.line, hconns, World.line]

/-- The replay of cached values as far as it fits into a room that is taken up
to some length: the bytes it adds and whether it came to the end. -/
def replayInto (A : Alloc) (sid : Bytes) : List (LvcEntry × ℕ) → ℕ → Bytes × Bool
  | [], _ => ([], true)
  | x :: xs, used =>
    if used + (replayFrame sid x.1).length ≤ maxPending ∧ A (.out x.2) = true then
      let rest := replayInto A sid xs (used + (replayFrame sid x.1).length)
      (replayFrame sid x.1 ++ rest.1, rest.2)
    else ([], false)

theorem replayOut_eq_replayInto (A : Alloc) (sid : Bytes) (xs : List (LvcEntry × ℕ)) (out : Bytes) :
    replayOut A sid xs out =
      (out ++ (replayInto A sid xs out.length).1, (replayInto A sid xs out.length).2) := by
  induction xs generalizing out with
  | nil => simp [replayOut, replayInto]
  | cons x xs ih =>
    have hfits : replayFits A sid out x = true ↔
        out.length + (replayFrame sid x.1).length ≤ maxPending ∧ A (.out x.2) = true := by
      simp [replayFits]
    unfold replayOut replayInto
    by_cases h : out.length + (replayFrame sid x.1).length ≤ maxPending ∧ A (.out x.2) = true
    · rw [if_pos (hfits.mpr h), if_pos h, ih, List.length_append]
      simp
    · rw [if_neg (fun hfit => h (hfits.mp hfit)), if_neg h]
      simp

/-- What a new subscription of the connection is replayed. -/
def ownReplay (A : Alloc) (w : World) (c : ConnId) (subject sid : Bytes) : Bytes × Bool :=
  if subjectHasLvcPrefix subject then
    replayInto A sid (replayed w.router (newSub c subject [] sid).subject) (w.conns c).out.length
  else ([], true)

/-- What its request makes of a connection. -/
structure OwnSubscribe (A : Alloc) (c : ConnId) (subject sid : Bytes) (w w' : World) : Prop where
  closed : (w'.conns c).closed = (w.conns c).closed
  refused : ownAllowed w c subject [] sid = false →
    (w'.conns c).out = (w.conns c).out ∧ (ownSubs c w'.router).Perm (ownSubs c w.router)
  granted : ownAllowed w c subject [] sid = true →
    (w'.conns c).out = (w.conns c).out ++ (ownReplay A w c subject sid).1 ∧
      (ownSubs c w'.router).Perm
        (if (ownReplay A w c subject sid).2 then newSub c subject [] sid :: ownSubs c w.router
        else (newSub c subject [] sid :: ownSubs c w.router).filterMap (unsubscribeOne c sid none))

theorem ownAllowed_of_stored {A : Alloc} {subject queue sid : Bytes}
    (h : subStored A w c subject queue sid = true) : ownAllowed w c subject queue sid = true := by
  simp only [subStored, subAllowed, Bool.and_eq_true] at h
  obtain ⟨⟨⟨⟨⟨hlvc, hvalid⟩, hlimit⟩, -⟩, -⟩, -⟩ := h
  rw [ownAllowed, hlvc, hvalid]
  simp only [Bool.not_eq_true', decide_eq_false_iff_not, not_or] at hlimit
  simpa using hlimit.1

/-- A request that is granted has been stored. -/
theorem subStored_of_ok (hr : Reachable w) {A : Alloc} {subject queue sid : Bytes}
    (hok : (subscribeQueue A w c subject queue sid).2 = true) :
    subStored A w c subject queue sid = true := by
  by_contra hno
  obtain ⟨r, heq, -⟩ := subscribeQueue_of_not_stored hr.inv (by simpa using hno)
  simp [heq] at hok

theorem sid_of_ownAllowed {subject queue sid : Bytes}
    (h : ownAllowed w c subject queue sid = true) : tokenValid sid = true := by
  simp only [ownAllowed, Bool.and_eq_true, Bool.not_eq_true', Bool.or_eq_false_iff,
    Bool.not_eq_false'] at h
  exact h.1.2.1.2

theorem subscribe_own (hr : Reachable w) {A : Alloc} {subject sid : Bytes}
    (hgrant : ownAllowed w c subject [] sid = true → subStored A w c subject [] sid = true) :
    OwnSubscribe A c subject sid w (subscribeQueue A w c subject [] sid).1 := by
  cases hstored : subStored A w c subject [] sid with
  | false =>
    have hrefused : ownAllowed w c subject [] sid = false := by
      by_contra hallowed
      rw [hgrant (by simpa using hallowed)] at hstored
      exact absurd hstored (by decide)
    obtain ⟨r, heq, hperm, -⟩ := subscribeQueue_of_not_stored hr.inv hstored
    rw [heq]
    refine ⟨rfl, fun _ => ⟨rfl, ownSubs_perm hperm c⟩, fun h => ?_⟩
    rw [hrefused] at h
    exact absurd h (by decide)
  | true =>
    have hallowed := ownAllowed_of_stored hstored
    have hnew : (ownSubs c (storedWorld A w c subject [] sid).router).Perm
        (newSub c subject [] sid :: ownSubs c w.router) := by
      have hperm := (allSubs_storedRouter hr.inv hstored).filter fun s => s.conn == c
      rw [List.filter_cons_of_pos (by simp [newSub])] at hperm
      exact hperm
    have hconns : (storedWorld A w c subject [] sid).conns c =
        { w.conns c with subCount := (w.conns c).subCount + 1 } := by
      rw [storedWorld, updateConn_conns, if_pos rfl]
    have hno : ownAllowed w c subject [] sid = false → False := by simp [hallowed]
    have heq := subscribeQueue_of_stored hstored
    dsimp only at heq
    rw [replayOut_eq_replayInto] at heq
    rw [heq]
    split_ifs with hlvc hreplay
    · refine ⟨?_, fun h => (hno h).elim, fun _ => ?_⟩
      · rw [updateConn_conns, if_pos rfl, hconns]
      · rw [ownReplay, if_pos hlvc, if_pos hreplay, updateConn_conns, if_pos rfl]
        exact ⟨rfl, hnew⟩
    · refine ⟨?_, fun h => (hno h).elim, fun _ => ?_⟩
      · rw [unsubscribe, sweepRouter_conns, updateConn_conns, if_pos rfl, hconns]
      · rw [ownReplay, if_pos hlvc, if_neg hreplay, unsubscribe, sweepRouter_conns, updateConn_conns,
          if_pos rfl]
        refine ⟨rfl, (ownSubs_sweepRouter (keepsConn_unsubscribeOne c sid none) _ c).trans ?_⟩
        exact hnew.filterMap _
    · refine ⟨?_, fun h => (hno h).elim, fun _ => ?_⟩
      · rw [hconns]
      · rw [ownReplay, if_neg hlvc, if_pos rfl, hconns, List.append_nil]
        exact ⟨rfl, hnew⟩

end Calls

/-! ## What holds of the connection in every state -/

theorem unsubscribeOne_address {conn : ConnId} {sid : Bytes} {maxMsgs : Option ℕ}
    {s s' : Subscription} (h : unsubscribeOne conn sid maxMsgs s = some s') :
    s'.conn = s.conn ∧ s'.queue = s.queue ∧ s'.sid = s.sid := by
  unfold unsubscribeOne at h
  split_ifs at h
  · cases h
    exact ⟨rfl, rfl, rfl⟩
  · cases maxMsgs with
    | none => simp at h
    | some n =>
      dsimp only at h
      split_ifs at h
      cases h
      exact ⟨rfl, rfl, rfl⟩

/-- No call changes whose a subscription is, nor its queue group. -/
theorem callFates_address {w : World} (hr : Reachable w) {call : RouterCall} {s s' : Subscription}
    (h : (s, some s') ∈ callFates w call) :
    s'.conn = s.conn ∧ s'.queue = s.queue ∧ s'.sid = s.sid := by
  have hsweep : ∀ {conn : ConnId} {sid : Bytes} {maxMsgs : Option ℕ},
      (s, some s') ∈ (allSubs w.router).map (fun x => (x, unsubscribeOne conn sid maxMsgs x)) →
      s'.conn = s.conn ∧ s'.queue = s.queue ∧ s'.sid = s.sid := by
    intro conn sid maxMsgs hmem
    obtain ⟨x, -, heq⟩ := List.mem_map.mp hmem
    rw [Prod.mk.injEq] at heq
    obtain ⟨rfl, heq⟩ := heq
    exact unsubscribeOne_address heq
  have hstay : (s, some s') ∈ (allSubs w.router).map (fun x => (x, some x)) →
      s'.conn = s.conn ∧ s'.queue = s.queue ∧ s'.sid = s.sid := by
    intro hmem
    obtain ⟨x, -, heq⟩ := List.mem_map.mp hmem
    cases heq
    exact ⟨rfl, rfl, rfl⟩
  cases call with
  | configureLvc A filters => exact hstay h
  | storeLvc A subject payload => exact hstay h
  | subscribe A conn subject queue sid =>
    rw [callFates] at h
    split_ifs at h
    · exact hsweep h
    · exact hstay h
  | unsubscribe conn sid maxMsgs => exact hsweep h
  | removeAllFor conn =>
    obtain ⟨x, -, heq⟩ := List.mem_map.mp h
    rw [Prod.mk.injEq] at heq
    obtain ⟨rfl, heq⟩ := heq
    unfold removeForConn at heq
    split_ifs at heq
    cases heq
    exact ⟨rfl, rfl, rfl⟩
  | publish A m =>
    obtain ⟨x, hx, heq⟩ := List.mem_map.mp h
    rw [Prod.mk.injEq] at heq
    obtain ⟨rfl, heq⟩ := heq
    rw [deliveredMax_eq_some heq]
    rcases (mem_publishFates hr hx).2 with hsame | hsame
    · simp [hsame]
    · simp [hsame]
  | server conns => exact hstay h

/-- Every subscription of a connection was there before the call or is what the
connection has asked for. -/
theorem ownSubs_routerStep {w : World} (hr : Reachable w) (call : RouterCall) {c : ConnId}
    {x : Subscription} (hx : x ∈ ownSubs c (routerStep w call).router) :
    (∃ s ∈ ownSubs c w.router, x.queue = s.queue ∧ x.sid = s.sid) ∨
      ∃ A subject, call = .subscribe A c subject x.queue x.sid ∧ tokenValid x.sid = true := by
  obtain ⟨hbefore, hafter⟩ := routerStep_fates hr call
  obtain ⟨hmem, hconn⟩ := mem_ownSubs.mp hx
  rcases List.mem_append.mp (hafter.mem_iff.mp hmem) with hold | hnew
  · obtain ⟨⟨s, s'⟩, hfate, heq⟩ := List.mem_filterMap.mp hold
    dsimp only at heq
    rw [heq] at hfate
    obtain ⟨hc, hqueue, hsid⟩ := callFates_address hr hfate
    have hs : s ∈ allSubs w.router := hbefore.mem_iff.mp (List.mem_map_of_mem hfate)
    exact .inl ⟨s, mem_ownSubs.mpr ⟨hs, hc.symm.trans hconn⟩, hqueue, hsid⟩
  · cases call with
    | subscribe A conn subject queue sid =>
      rw [callAdds] at hnew
      split_ifs at hnew with hok
      · rw [List.mem_singleton] at hnew
        subst hnew
        have hallowed := ownAllowed_of_stored (subStored_of_ok hr hok)
        have hsid : tokenValid sid = true := sid_of_ownAllowed hallowed
        change conn = c at hconn
        subst hconn
        exact .inr ⟨A, subject, rfl, hsid⟩
      · exact absurd hnew List.not_mem_nil
    | configureLvc | storeLvc | unsubscribe | removeAllFor | publish | server =>
      exact absurd hnew List.not_mem_nil

/-- The writers of the connections stay as they are. -/
theorem routerStep_plain {w : World} {call : RouterCall} {c : ConnId}
    (hserver : ∀ conns, call = .server conns →
      (conns c).withCountersOf (w.conns c) = w.conns c)
    (h : (w.conns c).Plain) : ((routerStep w call).conns c).Plain := by
  cases call with
  | configureLvc A filters => exact h
  | storeLvc A subject payload => exact h
  | subscribe A conn subject queue sid =>
    obtain ⟨hlen, hwrite, -⟩ := connStep_subscribeQueue A w conn subject queue sid c fun _ =>
      .inr h.2
    exact ⟨hlen.trans h.1, hwrite.trans h.2⟩
  | unsubscribe conn sid maxMsgs => exact sweepRouter_plain h
  | removeAllFor conn => exact sweepRouter_plain h
  | publish A m =>
    obtain ⟨hlen, hwrite, -⟩ := worldStep_publish A w m c
    exact ⟨hlen.trans h.1, hwrite.trans h.2⟩
  | server conns =>
    have heq := hserver conns rfl
    simp only [routerStep, heq]
    exact h

section Attending

variable {c : ConnId} {s t : Desk} {e : DeskEvent}

/-- The server changes a connection, but not what the router counts there. -/
theorem Attended.updateConn (h : Attended c s) (d : ConnId) {f : RouterConn → RouterConn}
    (hcount : ∀ x, f x = (f x).withCountersOf x) (hplain : ∀ x, x.Plain → (f x).Plain)
    (taken : ConnId → Bytes) : Attended c ⟨s.world.updateConn d f, taken⟩ := by
  refine ⟨.server _ h.reachable fun x => ?_, ?_, h.queue, h.sid⟩
  · by_cases hx : x = d
    · subst hx
      rw [Function.update_self, hcount]
      exact ⟨rfl, rfl, rfl⟩
    · simp [hx]
  · rw [updateConn_conns]
    split_ifs with hd
    · rw [← hd]
      exact hplain _ h.plain
    · exact h.plain

theorem Attended.step (h : Attended c s) (hok : Unhindered c s e) : Attended c (s.step e) := by
  cases e with
  | call call =>
    have hserver : ∀ conns, call = .server conns →
        (conns c).withCountersOf (s.world.conns c) = s.world.conns c := by
      rintro conns rfl
      exact hok
    refine ⟨h.reachable.step call, routerStep_plain hserver h.plain, ?_, ?_⟩
    · intro x hx
      rcases ownSubs_routerStep h.reachable call hx with ⟨y, hy, hqueue, -⟩ | ⟨A, subject, rfl, -⟩
      · rw [hqueue, h.queue y hy]
      · exact (hok rfl).1
    · intro x hx
      rcases ownSubs_routerStep h.reachable call hx with ⟨y, hy, -, hsid⟩ | ⟨A, subject, -, hsid⟩
      · rw [hsid, h.sid y hy]
      · exact hsid
  | answers d bytes =>
    apply h.updateConn d
    · exact fun _ => rfl
    · exact fun _ hx => hx
  | takes d =>
    apply h.updateConn d
    · exact fun _ => rfl
    · exact fun _ hx => hx
  | shuts d =>
    have hshut : Attended c
        ⟨s.world.updateConn d fun x => { x with closed := true }, s.taken⟩ := by
      apply h.updateConn d
      · exact fun _ => rfl
      · exact fun _ hx => hx
    have hsub : ∀ x ∈ ownSubs c (s.step (.shuts d)).world.router, x ∈ ownSubs c s.world.router := by
      intro x hx
      have hmem := (ownSubs_sweepRouter (keepsConn_removeForConn d) _ c).mem_iff.mp hx
      obtain ⟨y, hy, heq⟩ := List.mem_filterMap.mp hmem
      unfold removeForConn at heq
      split_ifs at heq
      cases heq
      exact hy
    exact ⟨hshut.reachable.removeAllFor d, sweepRouter_plain hshut.plain,
      fun x hx => h.queue x (hsub x hx), fun x hx => h.sid x (hsub x hx)⟩

/-- What an event does to the cache depends on the cache alone. -/
theorem cacheOf_deskStep (h : cacheOf s.world.router = cacheOf t.world.router) (e : DeskEvent) :
    cacheOf (s.step e).world.router = cacheOf (t.step e).world.router := by
  cases e with
  | call call =>
    cases hconf : call.isConfigure with
    | true =>
      cases call with
      | configureLvc A filters => exact configureLvc_congr h filters
      | storeLvc | subscribe | unsubscribe | removeAllFor | publish | server =>
        simp [RouterCall.isConfigure] at hconf
    | false =>
      have hs := cacheOf_routerStep s.world hconf
      have ht := cacheOf_routerStep t.world hconf
      rw [Desk.step, Desk.step, hs, ht]
      cases storeOf call with
      | none => exact h
      | some x => exact (lvcStore_congr h x.2.1 x.2.2).1
  | answers d bytes => exact h
  | takes d => exact h
  | shuts d =>
    rw [Desk.step, Desk.step, removeAllFor, removeAllFor, cacheOf_sweepRouter, cacheOf_sweepRouter]
    exact h

/-- An event that does not concern the connection leaves the cache alone. -/
theorem cacheOf_of_not_concerns (h : e.concerns c = false) :
    cacheOf (s.step e).world.router = cacheOf s.world.router := by
  cases e with
  | call call =>
    have hconf : call.isConfigure = false := by
      cases call <;> simp_all [DeskEvent.concerns, RouterCall.isConfigure]
    have hstore : storeOf call = none := by
      cases call <;> simp_all [DeskEvent.concerns, storeOf]
    have hs := cacheOf_routerStep s.world hconf
    rw [hstore] at hs
    exact hs
  | answers d bytes => rfl
  | takes d => rfl
  | shuts d => exact cacheOf_sweepRouter _ _

/-- A publish begins to deliver when its store succeeds. -/
theorem publishStart_eq_none {A : Alloc} {w : World} {m : Message} (hinv : RouterInv w.router) :
    publishStart A w m = none ↔
      (publishStores m && (lvcStore A w.router m.subject m.payload).2) = false := by
  have hinv' := hinv.sameRouting (sameRouting_lvcStore A w.router m.subject m.payload)
  have h₁ := hinv'.kick
  have h₂ := hinv'.close
  have h₃ := hinv'.queue
  unfold publishStart
  dsimp only
  split_ifs with hstored hfull
  · omega
  · simp [hstored]
  · simpa using hstored

theorem line_updateConn_self (w : World) (c : ConnId) (f : RouterConn → RouterConn) :
    (w.updateConn c f).line c = ⟨(f (w.conns c)).out, (f (w.conns c)).closed⟩ := by
  rw [World.line, updateConn_conns, if_pos rfl]

theorem line_updateConn_of_ne (w : World) {d : ConnId} (hd : d ≠ c) (f : RouterConn → RouterConn) :
    (w.updateConn d f).line c = w.line c := by
  rw [World.line, updateConn_conns, if_neg (Ne.symm hd), World.line]

/-- What does not concern the connection leaves it alone. -/
theorem desk_silent (h : Attended c s) (hok : Unhindered c s e) (he : e.concerns c = false) :
    (s.step e).world.line c = s.world.line c ∧ (s.step e).taken c = s.taken c ∧
      (ownSubs c (s.step e).world.router).Perm (ownSubs c s.world.router) := by
  have hsweep : ∀ {f : Subscription → Option Subscription} (w : World), KeepsConn f →
      (∀ x, x.conn = c → f x = some x) →
      (ownSubs c (sweepRouter f w).router).Perm (ownSubs c w.router) := by
    intro f w hf hkeep
    have hperm := ownSubs_sweepRouter hf w c
    rwa [filterMap_ownSubs_of_ne hkeep] at hperm
  cases e with
  | call call =>
    cases call with
    | configureLvc | storeLvc | publish => simp [DeskEvent.concerns] at he
    | subscribe A d subject queue sid =>
      have hd : d ≠ c := by simpa [DeskEvent.concerns] using he
      obtain ⟨hline, hsubs⟩ := subscribe_other h.reachable hd A subject queue sid
      exact ⟨hline, rfl, hsubs⟩
    | unsubscribe d sid maxMsgs =>
      have hd : d ≠ c := by simpa [DeskEvent.concerns] using he
      exact ⟨sweepRouter_line _ _ c, rfl, hsweep _ (keepsConn_unsubscribeOne d sid maxMsgs)
        fun x hx => unsubscribeOne_of_ne hd sid maxMsgs hx⟩
    | removeAllFor d =>
      have hd : d ≠ c := by simpa [DeskEvent.concerns] using he
      exact ⟨sweepRouter_line _ _ c, rfl, hsweep _ (keepsConn_removeForConn d)
        fun x hx => removeForConn_of_ne hd hx⟩
    | server conns =>
      have hsame : (conns c).withCountersOf (s.world.conns c) = s.world.conns c := hok
      refine ⟨?_, rfl, .refl _⟩
      simp only [Desk.step, routerStep, World.line, hsame]
  | answers d bytes =>
    have hd : d ≠ c := by simpa [DeskEvent.concerns] using he
    refine ⟨?_, rfl, .refl _⟩
    rw [Desk.step, line_updateConn_of_ne _ hd]
  | takes d =>
    have hd : d ≠ c := by simpa [DeskEvent.concerns] using he
    refine ⟨?_, Function.update_of_ne (Ne.symm hd) _ _, .refl _⟩
    rw [Desk.step, line_updateConn_of_ne _ hd]
  | shuts d =>
    have hd : d ≠ c := by simpa [DeskEvent.concerns] using he
    refine ⟨?_, rfl, hsweep _ (keepsConn_removeForConn d) fun x hx => removeForConn_of_ne hd hx⟩
    rw [Desk.step, removeAllFor, sweepRouter_line, line_updateConn_of_ne _ hd]

/-- A publish that is answered delivers to the connection, and one that comes to
no delivery leaves it alone. -/
theorem publish_cases {A : Alloc} {m : Message} (h : Attended c s)
    (hok : Unhindered c s (.call (.publish A m))) :
    (publishStores m && (lvcStore A s.world.router m.subject m.payload).2) = false ∧
        (publishWithReply A s.world m).world.line c = s.world.line c ∧
        ownSubs c (publishWithReply A s.world m).world.router = ownSubs c s.world.router ∨
      (publishStores m && (lvcStore A s.world.router m.subject m.payload).2) = true ∧
        OwnPublish c s.world m (publishWithReply A s.world m).world := by
  cases hstart : publishStart A s.world m with
  | none =>
    obtain ⟨-, -, -, hconns, hsame⟩ := publishWithReply_of_no_start hstart
    refine .inl ⟨(publishStart_eq_none h.reachable.inv).mp hstart, ?_, ?_⟩
    · rw [World.line, World.line, hconns]
    · rw [ownSubs, ownSubs, allSubs, allSubs, hsame.literal, hsame.wildcard, hsame.wildcardGlobal]
  | some p =>
    refine .inr ⟨?_, publish_own h.reachable h.plain h.queue ?_⟩
    · by_contra hno
      rw [Bool.not_eq_true, ← publishStart_eq_none h.reachable.inv, hstart] at hno
      simp at hno
    · rcases hok with hnone | hdone
      · simp [hstart] at hnone
      · exact hdone

/-- A closed connection stays closed. -/
theorem closed_deskStep (h : Attended c s) (hok : Unhindered c s e)
    (hclosed : (s.world.conns c).closed = true) : ((s.step e).world.conns c).closed = true := by
  have hline : (s.world.line c).closed = true := hclosed
  suffices hlater : ((s.step e).world.line c).closed = true from hlater
  cases he : e.concerns c with
  | false => rw [(desk_silent h hok he).1, hline]
  | true =>
    cases e with
    | call call =>
      cases call with
      | configureLvc | storeLvc => exact hclosed
      | server => simp [DeskEvent.concerns] at he
      | subscribe A d subject queue sid =>
        obtain rfl : d = c := by simpa [DeskEvent.concerns] using he
        obtain ⟨rfl, hgrant⟩ := hok rfl
        exact (subscribe_own h.reachable hgrant).closed.trans hclosed
      | unsubscribe | removeAllFor =>
        rw [← hline]
        exact congrArg Line.closed (sweepRouter_line _ _ c)
      | publish A m =>
        rcases publish_cases h hok with ⟨-, hsame, -⟩ | ⟨-, hown⟩
        · rw [← hline]
          exact congrArg Line.closed hsame
        · obtain ⟨subs, -, hsubs⟩ := hown.line
          rw [foldl_turnLine_of_closed hline] at hsubs
          rw [← hline]
          exact congrArg Line.closed hsubs
    | answers d bytes | takes d =>
      obtain rfl : d = c := by simpa [DeskEvent.concerns] using he
      rw [Desk.step, line_updateConn_self]
      exact hclosed
    | shuts d =>
      obtain rfl : d = c := by simpa [DeskEvent.concerns] using he
      rw [Desk.step, removeAllFor, sweepRouter_line, line_updateConn_self]

theorem open_of_deskStep (h : Attended c s) (hok : Unhindered c s e)
    (hafter : ((s.step e).world.conns c).closed = false) : (s.world.conns c).closed = false := by
  by_contra hclosed
  rw [closed_deskStep h hok (by simpa using hclosed)] at hafter
  exact absurd hafter (by decide)

end Attending

/-! ## What the connection hears of a message -/

section Hearing

variable {c : ConnId} {m : Message}

/-- What the writer is called with for a subscription. -/
def Subscription.outMsg (m : Message) (s : Subscription) : OutMsg :=
  ⟨subPrefix s, m.subject, s.sid, m.replyTo, m.payload⟩

theorem outMsg_valid (hm : publishStores m = true) {s : Subscription}
    (hsid : tokenValid s.sid = true) : (s.outMsg m).Valid := by
  simp only [publishStores, Bool.and_eq_true, Bool.or_eq_true, List.isEmpty_iff] at hm
  refine ⟨?_, hm.1.1, hsid, hm.1.2⟩
  dsimp only [Subscription.outMsg, subPrefix]
  split_ifs
  · exact .inr (by decide)
  · exact .inl rfl

/-- The frames of a message in two orders are the same messages. -/
theorem heardAlike_frames (hm : publishStores m = true) {xs ys : List Subscription}
    (hperm : xs.Perm ys) (hsid : ∀ s ∈ xs, tokenValid s.sid = true)
    (hlen : (xs.flatMap fun s => subFrame s m).length ≤ sizeMax) :
    HeardAlike (some (xs.flatMap fun s => subFrame s m))
      (some (ys.flatMap fun s => subFrame s m)) := by
  have hframes : ∀ l : List Subscription,
      (l.map (Subscription.outMsg m)).flatMap OutMsg.frame = l.flatMap fun s => subFrame s m :=
    fun l => List.flatMap_map _ _ l
  have hsame : (ys.flatMap fun s => subFrame s m).length =
      (xs.flatMap fun s => subFrame s m).length := (hperm.flatMap_right _).length_eq.symm
  have hdecode : ∀ l : List Subscription, l.Perm xs →
      decodeMsgs (l.flatMap fun s => subFrame s m) =
        some ((l.map (Subscription.outMsg m)).map OutMsg.wire) := by
    intro l hl
    have hall : (l.flatMap fun s => subFrame s m).length ≤ sizeMax :=
      ((hl.flatMap_right _).length_eq).trans_le hlen
    rw [← hframes] at hall ⊢
    apply OutMsg.readMsgFrames_flatMap
    · intro x hx
      obtain ⟨s, hs, rfl⟩ := List.mem_map.mp hx
      exact outMsg_valid hm (hsid s (hl.mem_iff.mp hs))
    · exact fun x hx => (OutMsg.payload_le_frames hx).trans hall
    · exact OutMsg.length_le_frames _
  exact .messages (hdecode xs (.refl xs)) (hdecode ys hperm.symm) ((hperm.map _).map _)

/-- What two states look like to the connection after an event it sees in both. -/
structure Paired (c : ConnId) (s t s' t' : Desk) : Prop where
  closed : (s'.world.conns c).closed = (t'.world.conns c).closed
  subs : (s'.world.conns c).closed = false →
    (ownSubs c s'.world.router).Perm (ownSubs c t'.world.router)
  room : (s'.world.conns c).closed = false →
    (s'.world.conns c).out.length = (t'.world.conns c).out.length
  told : (s'.world.conns c).closed = false → ∃ x y, s'.stream c = s.stream c ++ x ∧
    t'.stream c = t.stream c ++ y ∧ HeardAlike (some x) (some y)

/-- The connection is closed in both, or has been told the same. -/
theorem Paired.of_same {s t s' t' : Desk} (hclosed : (s'.world.conns c).closed =
      (t'.world.conns c).closed)
    (hsubs : (ownSubs c s'.world.router).Perm (ownSubs c t'.world.router))
    (hroom : (s'.world.conns c).out.length = (t'.world.conns c).out.length) {x : Bytes}
    (hs : s'.stream c = s.stream c ++ x) (ht : t'.stream c = t.stream c ++ x) :
    Paired c s t s' t' :=
  ⟨hclosed, fun _ => hsubs, fun _ => hroom, fun _ => ⟨x, x, hs, ht, .same x⟩⟩

theorem Paired.of_closed {s t s' t' : Desk} (hs : (s'.world.conns c).closed = true)
    (ht : (t'.world.conns c).closed = true) : Paired c s t s' t' := by
  refine ⟨hs.trans ht.symm, fun h => ?_, fun h => ?_, fun h => ?_⟩
  · simp [hs] at h
  · simp [hs] at h
  · simp [hs] at h

theorem stream_of_out {s s' : Desk} {x : Bytes} (htaken : s'.taken c = s.taken c)
    (hout : (s'.world.conns c).out = (s.world.conns c).out ++ x) :
    s'.stream c = s.stream c ++ x := by
  simp [Desk.stream, htaken, hout]

/-- A delivered message in both. -/
theorem publish_paired {A : Alloc} {s t : Desk} (hstores : publishStores m = true)
    (hs : OwnPublish c s.world m (publishWithReply A s.world m).world)
    (ht : OwnPublish c t.world m (publishWithReply A t.world m).world) (h : SameDesk c s t)
    (hsid : ∀ x ∈ ownSubs c s.world.router, tokenValid x.sid = true)
    (hopen : (s.world.conns c).closed = false) :
    Paired c s t (s.step (.call (.publish A m))) (t.step (.call (.publish A m))) := by
  have hdue : due t.world.router m = due s.world.router m :=
    due_congr (congrArg Cache.enabled h.cache).symm (congrArg Cache.filters h.cache).symm m
  have hserve : serve t.world.router m = serve s.world.router m := by
    funext x
    rw [serve, serve, hdue]
  have hturn : turnLine t.world.router m = turnLine s.world.router m := by
    funext l x
    rw [turnLine, turnLine, hdue]
  obtain ⟨xs, hxs, hlineS⟩ := hs.line
  obtain ⟨ys, hys, hlineT⟩ := ht.line
  rw [hturn] at hlineT
  have hperm : xs.Perm ys := hxs.trans ((h.subs hopen).trans hys.symm)
  have hopenT : (t.world.conns c).closed = false := h.closed.symm.trans hopen
  obtain ⟨hclosedS, houtS⟩ :=
    foldl_turnLine_eq (r := s.world.router) (m := m) (l := s.world.line c) hopen xs
  obtain ⟨hclosedT, houtT⟩ :=
    foldl_turnLine_eq (r := s.world.router) (m := m) (l := t.world.line c) hopenT ys
  rw [← hlineS] at hclosedS houtS
  rw [← hlineT] at hclosedT houtT
  have hroom : (s.world.line c).out.length = (t.world.line c).out.length := h.room hopen
  rw [← dueBytes_perm hperm, ← hroom, ← hclosedS, ← Bool.eq_iff_iff] at hclosedT
  refine ⟨hclosedT.symm, fun hafter => ?_, fun hafter => ?_, fun hafter => ?_⟩
  · have hsubsT := ht.subs (hclosedT.trans hafter)
    rw [hserve] at hsubsT
    exact (hs.subs hafter).trans ((((h.subs hopen).map _).filterMap _).trans hsubsT.symm)
  · have hoS := congrArg List.length (houtS hafter)
    have hoT := congrArg List.length (houtT (hclosedT.trans hafter))
    rw [List.length_append, length_dueFrames] at hoS hoT
    rw [dueBytes_perm hperm, hroom, ← hoT] at hoS
    exact hoS
  · refine ⟨_, _, stream_of_out rfl (houtS hafter),
      stream_of_out rfl (houtT (hclosedT.trans hafter)), ?_⟩
    apply heardAlike_frames hstores (hperm.filter _)
    · exact fun x hx => hsid x (hxs.mem_iff.mp (List.mem_of_mem_filter hx))
    · have hmax := maxPending_le_sizeMax
      have hnot : ¬(0 < dueBytes s.world.router m xs ∧
          maxPending < (s.world.line c).out.length + dueBytes s.world.router m xs) := by
        rw [← hclosedS]
        exact fun hc => absurd (hc.symm.trans hafter) (by decide)
      rw [length_dueFrames]
      omega

end Hearing

/-! ## Two histories side by side -/

section Pairs

variable {c : ConnId} {s t : Desk} {e : DeskEvent}

theorem Attended.subCount (h : Attended c s) :
    (s.world.conns c).subCount = (ownSubs c s.world.router).length := by
  rw [h.reachable.accounted.conns c, subsOf, List.countP_eq_length_filter, ownSubs]

/-- Both see the same of a request. -/
theorem SameDesk.ownAllowed (h : SameDesk c s t) (hs : Attended c s) (ht : Attended c t)
    (hopen : (s.world.conns c).closed = false) (subject sid : Bytes) :
    Monoblok.ownAllowed t.world c subject [] sid = Monoblok.ownAllowed s.world c subject [] sid := by
  have hcount : (t.world.conns c).subCount = (s.world.conns c).subCount := by
    rw [ht.subCount, hs.subCount, (h.subs hopen).length_eq]
  have henabled : t.world.router.lvcEnabled = s.world.router.lvcEnabled :=
    (congrArg Cache.enabled h.cache).symm
  rw [Monoblok.ownAllowed, Monoblok.ownAllowed, hcount, henabled]

/-- Both are replayed the same values. -/
theorem SameDesk.ownReplay (h : SameDesk c s t) (hopen : (s.world.conns c).closed = false)
    (A : Alloc) (subject sid : Bytes) :
    Monoblok.ownReplay A t.world c subject sid = Monoblok.ownReplay A s.world c subject sid := by
  have hentries : t.world.router.lvc = s.world.router.lvc := (congrArg Cache.entries h.cache).symm
  rw [Monoblok.ownReplay, Monoblok.ownReplay, ← h.room hopen, replayed, replayed, hentries]
  simp only [lvcSubjectEnabled_congr h.cache.symm]

theorem subscribe_paired {A : Alloc} {subject sid : Bytes} (h : SameDesk c s t)
    (hs : Attended c s) (ht : Attended c t) (hopen : (s.world.conns c).closed = false)
    (hS : OwnSubscribe A c subject sid s.world (subscribeQueue A s.world c subject [] sid).1)
    (hT : OwnSubscribe A c subject sid t.world (subscribeQueue A t.world c subject [] sid).1) :
    Paired c s t (s.step (.call (.subscribe A c subject [] sid)))
      (t.step (.call (.subscribe A c subject [] sid))) := by
  have hclosed := hS.closed.trans (h.closed.trans hT.closed.symm)
  have hallowed := h.ownAllowed hs ht hopen subject sid
  cases hgrant : ownAllowed s.world c subject [] sid with
  | false =>
    obtain ⟨houtS, hsubsS⟩ := hS.refused hgrant
    obtain ⟨houtT, hsubsT⟩ := hT.refused (hallowed.trans hgrant)
    refine .of_same (x := []) hclosed (hsubsS.trans ((h.subs hopen).trans hsubsT.symm)) ?_
      (stream_of_out rfl ?_) (stream_of_out rfl ?_)
    · rw [Desk.step, Desk.step, routerStep, routerStep, houtS, houtT, h.room hopen]
    · rw [Desk.step, routerStep, houtS, List.append_nil]
    · rw [Desk.step, routerStep, houtT, List.append_nil]
  | true =>
    obtain ⟨houtS, hsubsS⟩ := hS.granted hgrant
    obtain ⟨houtT, hsubsT⟩ := hT.granted (hallowed.trans hgrant)
    rw [h.ownReplay hopen] at houtT hsubsT
    have hnew := (h.subs hopen).cons (newSub c subject [] sid)
    refine .of_same hclosed ?_ ?_ (stream_of_out rfl houtS) (stream_of_out rfl houtT)
    · refine hsubsS.trans (.trans ?_ hsubsT.symm)
      split_ifs
      · exact hnew
      · exact hnew.filterMap _
    · rw [Desk.step, Desk.step, routerStep, routerStep, houtS, houtT, List.length_append,
        List.length_append, h.room hopen]

/-- An event the connection sees. -/
theorem desk_paired (hs : Attended c s) (ht : Attended c t) (hokS : Unhindered c s e)
    (hokT : Unhindered c t e) (he : e.concerns c = true) (h : SameDesk c s t) :
    Paired c s t (s.step e) (t.step e) := by
  cases hclosed : (s.world.conns c).closed with
  | true =>
    exact .of_closed (closed_deskStep hs hokS hclosed)
      (closed_deskStep ht hokT (h.closed.symm.trans hclosed))
  | false =>
    have hsubs := h.subs hclosed
    have hroom := h.room hclosed
    have hstream : ∀ u : Desk, u.stream c = u.stream c ++ [] := fun u => (List.append_nil _).symm
    -- a sweep takes subscriptions of the connection away and tells it nothing
    have hsweep : ∀ {f : Subscription → Option Subscription}, KeepsConn f →
        Paired c s t { s with world := sweepRouter f s.world }
          { t with world := sweepRouter f t.world } := by
      intro f hf
      have hlineS := sweepRouter_line f s.world c
      have hlineT := sweepRouter_line f t.world c
      have hclosedS := congrArg Line.closed hlineS
      have hclosedT := congrArg Line.closed hlineT
      have houtS := congrArg Line.out hlineS
      have houtT := congrArg Line.out hlineT
      refine .of_same (x := []) (hclosedS.trans (h.closed.trans hclosedT.symm)) ?_
        ((congrArg List.length houtS).trans (hroom.trans (congrArg List.length houtT).symm))
        (stream_of_out rfl ?_) (stream_of_out rfl ?_)
      · exact (ownSubs_sweepRouter hf s.world c).trans ((hsubs.filterMap f).trans
          (ownSubs_sweepRouter hf t.world c).symm)
      · rw [List.append_nil]
        exact houtS
      · rw [List.append_nil]
        exact houtT
    cases e with
    | call call =>
      cases call with
      | configureLvc A filters =>
        refine .of_same h.closed ?_ hroom (hstream s) (hstream t)
        rw [Desk.step, Desk.step, routerStep, routerStep, ownSubs_configureLvc,
          ownSubs_configureLvc]
        exact hsubs
      | storeLvc A subject payload =>
        refine .of_same h.closed ?_ hroom (hstream s) (hstream t)
        rw [Desk.step, Desk.step, routerStep, routerStep, ownSubs_lvcStore, ownSubs_lvcStore]
        exact hsubs
      | subscribe A d subject queue sid =>
        obtain rfl : d = c := by simpa [DeskEvent.concerns] using he
        obtain ⟨rfl, hgrantS⟩ := hokS rfl
        obtain ⟨-, hgrantT⟩ := hokT rfl
        exact subscribe_paired h hs ht hclosed (subscribe_own hs.reachable hgrantS)
          (subscribe_own ht.reachable hgrantT)
      | unsubscribe d sid maxMsgs => exact hsweep (keepsConn_unsubscribeOne d sid maxMsgs)
      | removeAllFor d => exact hsweep (keepsConn_removeForConn d)
      | publish A m =>
        have hstored : (lvcStore A t.world.router m.subject m.payload).2 =
            (lvcStore A s.world.router m.subject m.payload).2 :=
          (lvcStore_congr h.cache _ _).2.symm
        rcases publish_cases hs hokS with ⟨hnoS, hlineS, hownS⟩ | ⟨hyesS, hownS⟩
        · rcases publish_cases ht hokT with ⟨-, hlineT, hownT⟩ | ⟨hyesT, -⟩
          · have houtS := congrArg Line.out hlineS
            have houtT := congrArg Line.out hlineT
            refine .of_same (x := []) ((congrArg Line.closed hlineS).trans
              (h.closed.trans (congrArg Line.closed hlineT).symm)) ?_
              ((congrArg List.length houtS).trans (hroom.trans (congrArg List.length houtT).symm))
              (stream_of_out rfl ?_) (stream_of_out rfl ?_)
            · rw [Desk.step, Desk.step, routerStep, routerStep, hownS, hownT]
              exact hsubs
            · rw [List.append_nil]
              exact houtS
            · rw [List.append_nil]
              exact houtT
          · rw [hstored, hnoS] at hyesT
            simp at hyesT
        · rcases publish_cases ht hokT with ⟨hnoT, -⟩ | ⟨-, hownT⟩
          · rw [hstored, hyesS] at hnoT
            simp at hnoT
          · rw [Bool.and_eq_true] at hyesS
            exact publish_paired hyesS.1 hownS hownT h hs.sid hclosed
      | server conns => simp [DeskEvent.concerns] at he
    | answers d bytes =>
      obtain rfl : d = c := by simpa [DeskEvent.concerns] using he
      refine .of_same (x := bytes) ?_ hsubs ?_ (stream_of_out rfl ?_) (stream_of_out rfl ?_)
      · simp [Desk.step, updateConn_conns, h.closed]
      · simp [Desk.step, updateConn_conns, hroom]
      · simp [Desk.step, updateConn_conns]
      · simp [Desk.step, updateConn_conns]
    | takes d =>
      obtain rfl : d = c := by simpa [DeskEvent.concerns] using he
      refine .of_same (x := []) ?_ hsubs ?_ ?_ ?_
      · simp [Desk.step, updateConn_conns, h.closed]
      · simp [Desk.step, updateConn_conns]
      · simp [Desk.step, Desk.stream, updateConn_conns]
      · simp [Desk.step, Desk.stream, updateConn_conns]
    | shuts d =>
      obtain rfl : d = c := by simpa [DeskEvent.concerns] using he
      have hshut : ∀ u : Desk, ((u.step (.shuts d)).world.conns d).closed = true := by
        intro u
        suffices hline : ((u.step (.shuts d)).world.line d).closed = true from hline
        rw [Desk.step, removeAllFor, sweepRouter_line, line_updateConn_self]
      exact .of_closed (hshut s) (hshut t)

/-- The conditions under which histories tell the connection the same. -/
theorem deskView_unwinds (c : ConnId) :
    (deskView c).Unwinds (Unhindered c) (Attended c) (SameDesk c) HeardAlike where
  good_step h hok := h.step hok
  symm h := h.symm
  trans h g := h.trans g
  silent {s e} h hok he := by
    obtain ⟨hline, -, hsubs⟩ := desk_silent h hok he
    exact ⟨(cacheOf_of_not_concerns he).symm, (congrArg Line.closed hline).symm,
      fun _ => hsubs.symm, fun _ => congrArg (fun l => l.out.length) hline.symm⟩
  paired {s t e} hs ht hokS hokT he h := by
    have hpair := desk_paired hs ht hokS hokT he h
    refine ⟨⟨cacheOf_deskStep h.cache e, hpair.closed, hpair.subs, hpair.room⟩, ?_⟩
    change HeardAlike (s.told c e) (t.told c e)
    unfold Desk.told
    rw [← hpair.closed]
    cases hafter : ((s.step e).world.conns c).closed with
    | true => exact .closed
    | false =>
      obtain ⟨x, y, hx, hy, halike⟩ := hpair.told hafter
      rw [hx, hy, List.drop_left, List.drop_left]
      exact halike

theorem Attended.run {es : List DeskEvent} (h : Attended c s)
    (hes : Along Desk.step (Unhindered c) s es) : Attended c (es.foldl Desk.step s) :=
  hes.invariant (fun _ _ hs hok => hs.step hok) h

/-- While the connection is open its output is what it has been told, in order. -/
theorem stream_conversation {es : List DeskEvent} (hs : Attended c s)
    (hes : Along Desk.step (Unhindered c) s es)
    (hopen : ((es.foldl Desk.step s).world.conns c).closed = false) :
    (es.foldl Desk.step s).stream c =
      s.stream c ++ ((deskView c).conversation s es).flatMap fun x => x.getD [] := by
  induction es generalizing s with
  | nil => exact (List.append_nil _).symm
  | cons e es ih =>
    have hnext := hs.step hes.1
    have hafter : ((s.step e).world.conns c).closed = false := by
      by_contra hclosed
      have hend := hes.2.invariant (I := fun u => Attended c u ∧ (u.world.conns c).closed = true)
        (fun u f hu hok => ⟨hu.1.step hok, closed_deskStep hu.1 hok hu.2⟩)
        ⟨hnext, by simpa using hclosed⟩
      rw [List.foldl_cons, hend.2] at hopen
      exact absurd hopen (by decide)
    rw [List.foldl_cons, ih hnext hes.2 hopen]
    cases he : e.concerns c with
    | false =>
      obtain ⟨hline, htaken, -⟩ := desk_silent hs hes.1 he
      have hout : ((s.step e).world.conns c).out = (s.world.conns c).out := congrArg Line.out hline
      rw [View.conversation_unseen he, Desk.stream, htaken, hout]
      rfl
    | true =>
      have hself : SameDesk c s s := ⟨rfl, rfl, fun _ => .refl _, fun _ => rfl⟩
      obtain ⟨x, -, hx, -⟩ := (desk_paired hs hs hes.1 hes.1 he hself).told hafter
      have htold : s.told c e = some x := by
        rw [Desk.told, hafter, hx, List.drop_left]
        rfl
      rw [View.conversation_seen he, List.flatMap_cons]
      change _ = _ ++ ((s.told c e).getD [] ++ _)
      rw [htold, hx, List.append_assoc]
      rfl

end Pairs

theorem attended_start {c : ConnId} {conns : ConnId → RouterConn}
    (hconns : ∀ d, (conns d).subCount = 0) (hplain : (conns c).Plain) :
    Attended c ⟨⟨routerInit, conns⟩, fun _ => []⟩ := by
  have hempty : ownSubs c routerInit = [] := rfl
  refine ⟨.init conns hconns, hplain, fun x hx => ?_, fun x hx => ?_⟩
  · exact absurd (hempty ▸ hx) List.not_mem_nil
  · exact absurd (hempty ▸ hx) List.not_mem_nil

/-- **Connections do not disturb each other.** Two histories of a server that
agree on what is published and cached and on the requests of one connection tell
that connection the same, message by message, whatever the other connections do
in between; the pieces make up its output, and the connection is closed for its
slowness in both or in none. -/
theorem bystanders_go_unnoticed {c : ConnId} {conns : ConnId → RouterConn}
    (hconns : ∀ d, (conns d).subCount = 0) (hplain : (conns c).Plain) {es fs : List DeskEvent}
    (hes : Along Desk.step (Unhindered c) ⟨⟨routerInit, conns⟩, fun _ => []⟩ es)
    (hfs : Along Desk.step (Unhindered c) ⟨⟨routerInit, conns⟩, fun _ => []⟩ fs)
    (hvisible : es.filter (DeskEvent.concerns c) = fs.filter (DeskEvent.concerns c)) :
    let start : Desk := ⟨⟨routerInit, conns⟩, fun _ => []⟩
    let s := es.foldl Desk.step start
    let t := fs.foldl Desk.step start
    List.Forall₂ HeardAlike ((deskView c).conversation start es)
        ((deskView c).conversation start fs) ∧
      SameDesk c s t ∧
      ((s.world.conns c).closed = false →
        s.stream c = (conns c).out ++ ((deskView c).conversation start es).flatMap (fun x => x.getD []) ∧
        t.stream c = (conns c).out ++
          ((deskView c).conversation start fs).flatMap fun x => x.getD []) := by
  intro start s t
  have hstart : Attended c start := attended_start hconns hplain
  have hself : SameDesk c start start := ⟨rfl, rfl, fun _ => .refl _, fun _ => rfl⟩
  obtain ⟨hend, htold⟩ := (deskView_unwinds c).histories hself hstart hstart hes hfs hvisible
  refine ⟨htold, hend, fun hopen => ⟨?_, ?_⟩⟩
  · exact stream_conversation hstart hes hopen
  · exact stream_conversation hstart hfs (hend.closed.symm.trans hopen)

/-- Another connection subscribes first and is gone before the publish. -/
def busyDay : List DeskEvent :=
  [.call (.subscribe .succeeds 2 (lit "a") [] (lit "9")),
    .call (.subscribe .succeeds 1 (lit "a") [] (lit "1")),
    .call (.subscribe .succeeds 1 (lit "a") [] (lit "2")), .answers 2 (lit "+OK\r\n"), .shuts 2,
    .call (.publish .succeeds ⟨lit "a", lit "x", []⟩)]

def quietDay : List DeskEvent := busyDay.filter (DeskEvent.concerns 1)

/-- The two messages of the publish come in another order. -/
theorem other_order_same_messages :
    let start : Desk := ⟨⟨routerInit, fun _ => plainConn⟩, fun _ => []⟩
    List.Forall₂ HeardAlike ((deskView 1).conversation start busyDay)
        ((deskView 1).conversation start quietDay) ∧
      (busyDay.foldl Desk.step start).stream 1 = lit "MSG a 2 1\r\nx\r\nMSG a 1 1\r\nx\r\n" ∧
      (quietDay.foldl Desk.step start).stream 1 =
        lit "MSG a 1 1\r\nx\r\nMSG a 2 1\r\nx\r\n" := by
  intro start
  have hbusy : Along Desk.step (Unhindered 1) start busyDay := by
    refine ⟨fun h => absurd h (by decide), fun _ => ⟨rfl, fun _ => ?_⟩, fun _ => ⟨rfl, fun _ => ?_⟩,
      trivial, trivial, .inr ?_, trivial⟩
    all_goals decide +kernel
  have hquiet : Along Desk.step (Unhindered 1) start quietDay := by
    refine ⟨fun _ => ⟨rfl, fun _ => ?_⟩, fun _ => ⟨rfl, fun _ => ?_⟩, .inr ?_, trivial⟩
    all_goals decide +kernel
  have hcounts : ∀ d : ConnId, ((fun _ => plainConn : ConnId → RouterConn) d).subCount = 0 :=
    fun _ => rfl
  have hplain : ((fun _ => plainConn : ConnId → RouterConn) 1).Plain := ⟨rfl, rfl⟩
  obtain ⟨hheard, -⟩ := bystanders_go_unnoticed hcounts hplain hbusy hquiet (by simp [quietDay])
  refine ⟨hheard, ?_, ?_⟩
  · decide +kernel
  · decide +kernel

end Monoblok
