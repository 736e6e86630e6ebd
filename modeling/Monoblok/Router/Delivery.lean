import Monoblok.Proto.Stream
import Monoblok.Router.Bystanders

/-!
# What a subscription is sent

A connection that keeps a sid to itself finds under it, in what it reads from its
output, the messages of that subscription alone: every message that is published
and matches, once and in the order of the publishes.
-/

namespace Monoblok

open Runs

/-! ## The replay -/

section Replay

variable {A : Alloc} {r : Router} {sid : Bytes}

/-- What the writer is called with for a cached value. -/
def LvcEntry.outMsg (sid : Bytes) (e : LvcEntry) : OutMsg :=
  ⟨lvcPrefix, e.subject, sid, [], e.payload⟩

theorem replay_valid (h : LvcInv r) (hsid : tokenValid sid = true) {filter : Bytes}
    {x : LvcEntry × ℕ} (hx : x ∈ replayed r filter) : (x.1.outMsg sid).Valid := by
  have hmem : x ∈ r.lvc.zipIdx := List.mem_of_mem_filter hx
  have hentry : x.1 ∈ r.lvc := (List.mem_zipIdx' hmem).2 ▸ List.getElem_mem _
  have hprefix : tokenValid lvcPrefix = true := by decide
  exact ⟨.inr hprefix, h.valid _ (List.mem_map_of_mem hentry), hsid, .inl rfl⟩

/-- As much of the replay as fits, and no more than fits. -/
theorem replayInto_eq (A : Alloc) (sid : Bytes) (xs : List (LvcEntry × ℕ)) (used : ℕ) :
    ∃ k, (replayInto A sid xs used).1 = (xs.take k).flatMap (fun x => replayFrame sid x.1) ∧
      ((replayInto A sid xs used).2 = true → k = xs.length) ∧
      (used + (replayInto A sid xs used).1.length ≤ maxPending ∨
        (replayInto A sid xs used).1 = []) := by
  induction xs generalizing used with
  | nil => exact ⟨0, rfl, fun _ => rfl, .inr rfl⟩
  | cons x xs ih =>
    rw [replayInto]
    split_ifs with hfits
    · obtain ⟨k, heq, hall, hlen⟩ := ih (used + (replayFrame sid x.1).length)
      refine ⟨k + 1, ?_, fun hok => ?_, .inl ?_⟩
      · simp [heq]
      · simp [hall hok]
      · rcases hlen with hlen | hnil
        · simp only [List.length_append]
          omega
        · simp only [hnil, List.append_nil]
          exact hfits.1
    · exact ⟨0, rfl, fun h => absurd h (by decide), .inr rfl⟩

theorem spoken_replay (h : LvcInv r) (hsid : tokenValid sid = true) {filter : Bytes}
    {xs : List (LvcEntry × ℕ)} (hxs : ∀ x ∈ xs, x ∈ replayed r filter)
    (hlen : (xs.flatMap fun x => replayFrame sid x.1).length ≤ sizeMax) :
    Spoken (xs.flatMap fun x => replayFrame sid x.1)
      (xs.map fun x => (x.1.outMsg sid).wire) := by
  have hframes : (xs.map fun x => x.1.outMsg sid).flatMap OutMsg.frame =
      xs.flatMap fun x => replayFrame sid x.1 := List.flatMap_map _ _ xs
  have hwires : (xs.map fun x => x.1.outMsg sid).map OutMsg.wire =
      xs.map fun x => (x.1.outMsg sid).wire := by simp
  rw [← hframes, ← hwires]
  rw [← hframes] at hlen
  refine Spoken.messages ?_ hlen
  intro m hm
  obtain ⟨x, hx, rfl⟩ := List.mem_map.mp hm
  exact replay_valid h hsid (hxs x hx)

end Replay

/-! ## The events of a connection -/

/-- The connection keeps a sid to itself and stays subscribed under it, and the
server answers it in lines of its own. -/
def KeepsSid (c : ConnId) (sid : Bytes) : DeskEvent → Prop
  | .call (.subscribe _ d _ _ sid') => d = c → sid' ≠ sid
  | .call (.unsubscribe d sid' _) => d = c → sid' ≠ sid
  | .call (.removeAllFor d) => d ≠ c
  | .answers d bytes => d = c → Spoken bytes []
  | _ => True

/-- What the connection holds under a sid. -/
def sidSubs (c : ConnId) (sid : Bytes) (r : Router) : List Subscription :=
  (ownSubs c r).filter fun x => x.sid == sid

/-- An event without a message for the sid. -/
structure SidKept (c : ConnId) (sid : Bytes) (s s' : Desk) : Prop where
  subs : (sidSubs c sid s'.world.router).Perm (sidSubs c sid s.world.router)
  told : ∃ piece ms, s'.stream c = s.stream c ++ piece ∧ Spoken piece ms ∧ ∀ x ∈ ms, x.sid ≠ sid

/-- A message that is delivered. -/
structure Delivered (c : ConnId) (m : Message) (s s' : Desk) : Prop where
  stores : publishStores m = true
  subs : (ownSubs c s'.world.router).Perm
    (((ownSubs c s.world.router).map (serve s.world.router m)).filterMap deliveredMax)
  told : ∃ xs : List Subscription, xs.Perm (ownSubs c s.world.router) ∧ ∃ piece,
    s'.stream c = s.stream c ++ piece ∧
      Spoken piece (((xs.filter (due s.world.router m)).map (Subscription.outMsg m)).map OutMsg.wire)

section Events

variable {c : ConnId} {sid : Bytes} {s s' : Desk}

/-- Taking another sid away leaves what is held under this one. -/
theorem filter_unsubscribeOne {sid' : Bytes} (hne : sid' ≠ sid) (d : ConnId) (maxMsgs : Option ℕ)
    (l : List Subscription) :
    (l.filterMap (unsubscribeOne d sid' maxMsgs)).filter (fun x => x.sid == sid) =
      l.filter fun x => x.sid == sid := by
  have hkept : ∀ x y, unsubscribeOne d sid' maxMsgs x = some y → (y.sid == sid) = (x.sid == sid) := by
    intro x y hxy
    rw [(unsubscribeOne_address hxy).2.2]
  have hself : ∀ x ∈ l.filter fun x => x.sid == sid, unsubscribeOne d sid' maxMsgs x = some x := by
    intro x hx
    have hsid : x.sid = sid := by simpa using List.of_mem_filter hx
    unfold unsubscribeOne
    rw [if_pos]
    right
    rw [Bool.not_eq_true', ← Bool.not_eq_true, sliceEq_iff, hsid]
    exact Ne.symm hne
  rw [filter_filterMap_of_kept hkept, List.filterMap_congr hself, List.filterMap_some]

theorem SidKept.of_silent (hsub : (ownSubs c s'.world.router).Perm (ownSubs c s.world.router))
    (hstream : s'.stream c = s.stream c) : SidKept c sid s s' :=
  ⟨hsub.filter _, [], [], by rw [hstream, List.append_nil], .nil, fun x hx =>
    absurd hx List.not_mem_nil⟩

/-- The frames of a publish can be read back. -/
theorem delivered_of_own {A : Alloc} {m : Message} (hs : Attended c s)
    (hown : OwnPublish c s.world m (publishWithReply A s.world m).world)
    (hstores : publishStores m = true) (hopen : (s.world.conns c).closed = false)
    (hafter : ((s.step (.call (.publish A m))).world.conns c).closed = false) :
    Delivered c m s (s.step (.call (.publish A m))) := by
  obtain ⟨xs, hxs, hline⟩ := hown.line
  obtain ⟨hclosed, hout⟩ :=
    foldl_turnLine_eq (r := s.world.router) (m := m) (l := s.world.line c) hopen xs
  rw [← hline] at hclosed hout
  have hlen : ((xs.filter (due s.world.router m)).flatMap fun x => subFrame x m).length ≤
      sizeMax := by
    have hmax := maxPending_le_sizeMax
    have hnot : ¬(0 < dueBytes s.world.router m xs ∧
        maxPending < (s.world.line c).out.length + dueBytes s.world.router m xs) := by
      rw [← hclosed]
      exact fun hc => absurd (hc.symm.trans hafter) (by decide)
    rw [length_dueFrames]
    omega
  have hframes : ((xs.filter (due s.world.router m)).map (Subscription.outMsg m)).flatMap
      OutMsg.frame = (xs.filter (due s.world.router m)).flatMap fun x => subFrame x m :=
    List.flatMap_map _ _ _
  have hvalid : ∀ o ∈ (xs.filter (due s.world.router m)).map (Subscription.outMsg m), o.Valid := by
    intro o ho
    obtain ⟨y, hy, rfl⟩ := List.mem_map.mp ho
    exact outMsg_valid hstores (hs.sid y (hxs.mem_iff.mp (List.mem_of_mem_filter hy)))
  rw [← hframes] at hlen
  have hspoken := Spoken.messages hvalid hlen
  rw [hframes] at hspoken
  exact ⟨hstores, hown.subs hafter, xs, hxs, _, stream_of_out rfl (hout hafter), hspoken⟩

/-- Another request of the connection, with another sid. -/
theorem sidKept_subscribe {A : Alloc} {subject sid' : Bytes} (hs : Attended c s) (hne : sid' ≠ sid)
    (hown : OwnSubscribe A c subject sid' s.world (subscribeQueue A s.world c subject [] sid').1) :
    SidKept c sid s (s.step (.call (.subscribe A c subject [] sid'))) := by
  cases hgrant : ownAllowed s.world c subject [] sid' with
  | false =>
    obtain ⟨hout, hsubs⟩ := hown.refused hgrant
    refine .of_silent hsubs ?_
    rw [Desk.stream, Desk.stream, Desk.step, routerStep, hout]
  | true =>
    obtain ⟨hout, hsubs⟩ := hown.granted hgrant
    have hsid : tokenValid sid' = true := sid_of_ownAllowed hgrant
    have hnew : (newSub c subject [] sid' :: ownSubs c s.world.router).filter (fun x => x.sid == sid) =
        sidSubs c sid s.world.router :=
      List.filter_cons_of_neg (by simpa [newSub] using hne)
    have hspoken : ∃ ms, Spoken (ownReplay A s.world c subject sid').1 ms ∧
        ∀ x ∈ ms, x.sid ≠ sid := by
      unfold ownReplay
      split_ifs
      · obtain ⟨k, heq, -, hlen⟩ := replayInto_eq A sid'
          (replayed s.world.router (newSub c subject [] sid').subject) (s.world.conns c).out.length
        have hsize : (replayInto A sid' (replayed s.world.router
            (newSub c subject [] sid').subject) (s.world.conns c).out.length).1.length ≤ sizeMax := by
          have hmax := maxPending_le_sizeMax
          rcases hlen with hlen | hnil
          · omega
          · simp [hnil]
        rw [heq] at hsize ⊢
        refine ⟨_, spoken_replay hs.reachable.lvcInv hsid
          (fun x hx => List.mem_of_mem_take hx) hsize, ?_⟩
        intro o ho
        obtain ⟨x, -, rfl⟩ := List.mem_map.mp ho
        exact hne
      · exact ⟨[], .nil, fun x hx => absurd hx List.not_mem_nil⟩
    obtain ⟨ms, hms, hother⟩ := hspoken
    refine ⟨?_, _, ms, stream_of_out rfl hout, hms, hother⟩
    refine (hsubs.filter _).trans ?_
    split_ifs
    · exact .of_eq hnew
    · rw [filter_unsubscribeOne hne, hnew]

/-- A message that is for the connection is delivered to it, and nothing else is
told it under its sid. -/
theorem sid_step {e : DeskEvent} (hs : Attended c s) (hok : Unhindered c s e)
    (hkeeps : KeepsSid c sid e) (hafter : ((s.step e).world.conns c).closed = false) :
    (∃ A m, e = .call (.publish A m) ∧ (publishWithReply A s.world m).ok = true ∧
        (lvcStore A s.world.router m.subject m.payload).2 = true ∧ Delivered c m s (s.step e)) ∨
      SidKept c sid s (s.step e) ∧ ∀ A m, e = .call (.publish A m) →
        (publishWithReply A s.world m).ok = false ∧
          (publishStores m && (lvcStore A s.world.router m.subject m.payload).2) = false := by
  have hopen := open_of_deskStep hs hok hafter
  cases he : e.concerns c with
  | false =>
    obtain ⟨hline, htaken, hsubs⟩ := desk_silent hs hok he
    refine .inr ⟨.of_silent hsubs ?_, ?_⟩
    · have hout : ((s.step e).world.conns c).out = (s.world.conns c).out := congrArg Line.out hline
      rw [Desk.stream, Desk.stream, htaken, hout]
    · rintro A m rfl
      simp [DeskEvent.concerns] at he
  | true =>
    cases e with
    | call call =>
      cases call with
      | configureLvc A filters =>
        exact .inr ⟨.of_silent (.of_eq (ownSubs_configureLvc A c s.world.router filters)) rfl,
          fun A m h => by simp at h⟩
      | storeLvc A subject payload =>
        exact .inr ⟨.of_silent (.of_eq (ownSubs_lvcStore A c s.world.router subject payload)) rfl,
          fun A m h => by simp at h⟩
      | server => simp [DeskEvent.concerns] at he
      | subscribe A d subject queue sid' =>
        obtain rfl : d = c := by simpa [DeskEvent.concerns] using he
        obtain ⟨rfl, hgrant⟩ := hok rfl
        exact .inr ⟨sidKept_subscribe hs (hkeeps rfl) (subscribe_own hs.reachable hgrant),
          fun A m h => by simp at h⟩
      | unsubscribe d sid' maxMsgs =>
        obtain rfl : d = c := by simpa [DeskEvent.concerns] using he
        have hline := congrArg Line.out (sweepRouter_line (unsubscribeOne d sid' maxMsgs) s.world d)
        have hsubs := ownSubs_sweepRouter (keepsConn_unsubscribeOne d sid' maxMsgs) s.world d
        refine .inr ⟨⟨?_, [], [], ?_, .nil, fun x hx => absurd hx List.not_mem_nil⟩,
          fun A m h => by simp at h⟩
        · refine (hsubs.filter _).trans (.of_eq ?_)
          rw [filter_unsubscribeOne (hkeeps rfl), sidSubs]
        · exact stream_of_out rfl (hline.trans (List.append_nil _).symm)
      | removeAllFor d =>
        obtain rfl : d = c := by simpa [DeskEvent.concerns] using he
        exact absurd rfl hkeeps
      | publish A m =>
        rcases publish_cases hs hok with ⟨hno, hline, hsubs⟩ | ⟨hyes, hown⟩
        · refine .inr ⟨.of_silent (.of_eq hsubs) ?_, ?_⟩
          · have hout := congrArg Line.out hline
            have hstream : (s.step (.call (.publish A m))).stream c = s.stream c ++ [] :=
              stream_of_out rfl (hout.trans (List.append_nil _).symm)
            rw [hstream, List.append_nil]
          · intro A' m' h
            simp only [DeskEvent.call.injEq, RouterCall.publish.injEq] at h
            obtain ⟨rfl, rfl⟩ := h
            have hstart := (publishStart_eq_none hs.reachable.inv).mpr hno
            exact ⟨(publishWithReply_of_no_start hstart).1, hno⟩
        · have hyes' := hyes
          rw [Bool.and_eq_true] at hyes'
          refine .inl ⟨A, m, rfl, ?_, hyes'.2, delivered_of_own hs hown hyes'.1 hopen hafter⟩
          rcases hok with hnone | hdone
          · rw [publishStart_eq_none hs.reachable.inv, hyes] at hnone
            simp at hnone
          · exact hdone
    | answers d bytes =>
      obtain rfl : d = c := by simpa [DeskEvent.concerns] using he
      refine .inr ⟨⟨.refl _, bytes, [], ?_, hkeeps rfl, fun x hx => absurd hx List.not_mem_nil⟩,
        fun A m h => by simp at h⟩
      refine stream_of_out rfl ?_
      simp [Desk.step, updateConn_conns]
    | takes d =>
      obtain rfl : d = c := by simpa [DeskEvent.concerns] using he
      refine .inr ⟨.of_silent (.refl _) ?_, fun A m h => by simp at h⟩
      simp [Desk.step, Desk.stream, updateConn_conns]
    | shuts d =>
      obtain rfl : d = c := by simpa [DeskEvent.concerns] using he
      have hclosed : ((s.step (.shuts d)).world.line d).closed = true := by
        rw [Desk.step, removeAllFor, sweepRouter_line, line_updateConn_self]
      exact absurd (hclosed.symm.trans hafter) (by decide)

end Events

/-! ## One subscription -/

/-- There is one subscription under the sid, to plain subjects and without a
maximum. -/
def Sole (c : ConnId) (filter sid : Bytes) (r : Router) : Prop :=
  ∃ x, sidSubs c sid r = [x] ∧ x.subject = filter ∧ x.isLvc = false ∧ x.hasMaxMsgs = false

/-- The message as the subscription is sent it. -/
def Message.toMsg (sid : Bytes) (m : Message) : Msg := ⟨m.subject, sid, m.replyTo, m.payload⟩

/-- The message an event has the router deliver. -/
def Desk.routes (s : Desk) : DeskEvent → Option Message
  | .call (.publish A m) => if (publishWithReply A s.world m).ok then some m else none
  | _ => none

/-- The messages that are delivered in a history, in order. -/
def Desk.routed : Desk → List DeskEvent → List Message
  | _, [] => []
  | s, e :: es => (s.routes e).toList ++ Desk.routed (s.step e) es

def received (sid : Bytes) (ms : List Msg) : List Msg := ms.filter fun x => x.sid == sid

section Sole

variable {c : ConnId} {filter sid : Bytes} {s s' : Desk}

theorem Sole.perm {r r' : Router} (h : Sole c filter sid r)
    (hperm : (sidSubs c sid r').Perm (sidSubs c sid r)) : Sole c filter sid r' := by
  obtain ⟨x, hx, hfields⟩ := h
  rw [hx] at hperm
  exact ⟨x, List.perm_singleton.mp hperm, hfields⟩

/-- A delivered message leaves the subscription in place. -/
theorem Delivered.sole {m : Message} (h : Delivered c m s s')
    (hsole : Sole c filter sid s.world.router) : Sole c filter sid s'.world.router := by
  obtain ⟨x, hx, hfilter, hlvc, hmax⟩ := hsole
  have hserve := deliveredMax_serve s.world.router m hmax
  have hkept : ∀ y z, (deliveredMax ∘ serve s.world.router m) y = some z →
      (z.sid == sid) = (y.sid == sid) := by
    intro y z hyz
    rw [deliveredMax_eq_some hyz, serve_sid]
  have hperm := h.subs.filter fun y => y.sid == sid
  rw [List.filterMap_map, filter_filterMap_of_kept hkept, ← sidSubs, ← sidSubs, hx] at hperm
  simp only [List.filterMap_cons, Function.comp_apply, hserve, List.filterMap_nil] at hperm
  exact ⟨_, List.perm_singleton.mp hperm, by simp [hfilter], by simp [hlvc], by simp [hmax]⟩

/-- The subscription gets it once if its filter matches. -/
theorem received_delivered {r : Router} {m : Message} (hsole : Sole c filter sid r)
    {xs : List Subscription} (hxs : xs.Perm (ownSubs c r)) :
    received sid (((xs.filter (due r m)).map (Subscription.outMsg m)).map OutMsg.wire) =
      if subjectMatches filter m.subject then [m.toMsg sid] else [] := by
  obtain ⟨x, hx, hfilter, hlvc, -⟩ := hsole
  have hperm := hxs.filter fun y => y.sid == sid
  rw [← sidSubs, hx] at hperm
  have hone := List.perm_singleton.mp hperm
  have hsid : x.sid = sid := by
    have hmem : x ∈ xs.filter fun y => y.sid == sid := by simp [hone]
    simpa using List.of_mem_filter hmem
  have hdue : due r m x = subjectMatches filter m.subject := by simp [due, hfilter, hlvc]
  have hwire : (x.outMsg m).wire = m.toMsg sid := by
    simp [Subscription.outMsg, OutMsg.wire, subPrefix, hlvc, hsid, Message.toMsg]
  have hmap : received sid (((xs.filter (due r m)).map (Subscription.outMsg m)).map OutMsg.wire) =
      (((xs.filter fun y => y.sid == sid).filter (due r m)).map
        (Subscription.outMsg m)).map OutMsg.wire := by
    rw [received, List.filter_map, List.filter_map, List.filter_filter, List.filter_filter]
    congr 3
    funext y
    exact Bool.and_comm _ _
  rw [hmap, hone, List.filter_cons, hdue, List.filter_nil]
  split_ifs
  · simp [hwire]
  · rfl

/-- What holds of a subscription since the connection had the given output. -/
structure Supplied (c : ConnId) (filter sid before : Bytes) (sent : List Message) (s : Desk) :
    Prop where
  attended : Attended c s
  sole : (s.world.conns c).closed = false → Sole c filter sid s.world.router
  told : (s.world.conns c).closed = false → ∃ told ms, s.stream c = before ++ told ∧
    Spoken told ms ∧ received sid ms =
      (sent.filter fun m => subjectMatches filter m.subject).map (Message.toMsg sid)

theorem Supplied.step {before : Bytes} {sent : List Message} {e : DeskEvent}
    (h : Supplied c filter sid before sent s) (hok : Unhindered c s e) (hkeeps : KeepsSid c sid e) :
    Supplied c filter sid before (sent ++ (s.routes e).toList) (s.step e) := by
  have hopen : ((s.step e).world.conns c).closed = false → (s.world.conns c).closed = false :=
    fun hafter => open_of_deskStep h.attended hok hafter
  refine ⟨h.attended.step hok, fun hafter => ?_, fun hafter => ?_⟩
  · have hsole := h.sole (hopen hafter)
    rcases sid_step h.attended hok hkeeps hafter with ⟨A, m, -, -, -, hdelivered⟩ | ⟨hkept, -⟩
    · exact hdelivered.sole hsole
    · exact hsole.perm hkept.subs
  · have hsole := h.sole (hopen hafter)
    obtain ⟨told, ms, hstream, hspoken, hreceived⟩ := h.told (hopen hafter)
    rcases sid_step h.attended hok hkeeps hafter with ⟨A, m, rfl, hdone, -, hdelivered⟩ | ⟨hkept, hno⟩
    · obtain ⟨xs, hxs, piece, hpiece, hmore⟩ := hdelivered.told
      refine ⟨told ++ piece, _, ?_, hspoken.append hmore, ?_⟩
      · rw [hpiece, hstream, List.append_assoc]
      · have hroutes : s.routes (.call (.publish A m)) = some m := by simp [Desk.routes, hdone]
        rw [received, List.filter_append, ← received, ← received, hreceived,
          received_delivered hsole hxs, hroutes, Option.toList_some, List.filter_append,
          List.map_append, List.filter_cons, List.filter_nil]
        split_ifs <;> rfl
    · obtain ⟨piece, ms', hpiece, hmore, hother⟩ := hkept.told
      have hroutes : s.routes e = none := by
        cases e with
        | call call =>
          cases call with
          | publish A m => simp [Desk.routes, (hno A m rfl).1]
          | configureLvc | storeLvc | subscribe | unsubscribe | removeAllFor | server => rfl
        | answers | takes | shuts => rfl
      have hnone : received sid ms' = [] := by
        rw [received, List.filter_eq_nil_iff]
        intro x hx
        simpa using hother x hx
      refine ⟨told ++ piece, _, ?_, hspoken.append hmore, ?_⟩
      · rw [hpiece, hstream, List.append_assoc]
      · rw [received, List.filter_append, ← received, ← received, hnone, hreceived, hroutes]
        simp

theorem Supplied.run {before : Bytes} {sent : List Message} {es : List DeskEvent}
    (h : Supplied c filter sid before sent s)
    (hes : Along Desk.step (fun s e => Unhindered c s e ∧ KeepsSid c sid e) s es) :
    Supplied c filter sid before (sent ++ s.routed es) (es.foldl Desk.step s) := by
  induction es generalizing s sent with
  | nil => simpa [Desk.routed] using h
  | cons e es ih =>
    have hnext := ih (h.step hes.1.1 hes.1.2) hes.2
    rwa [List.append_assoc] at hnext

end Sole

theorem supplied_subscribe {c : ConnId} {filter sid : Bytes} {s : Desk} {A : Alloc}
    (hs : Attended c s) (hlvc : subjectHasLvcPrefix filter = false)
    (hnew : ∀ x ∈ ownSubs c s.world.router, x.sid ≠ sid)
    (hok : (subscribeQueue A s.world c filter [] sid).2 = true) :
    Supplied c filter sid (s.stream c) [] (s.step (.call (.subscribe A c filter [] sid))) := by
  have hstored := subStored_of_ok hs.reachable hok
  have hallowed := ownAllowed_of_stored hstored
  obtain ⟨hout, hsubs⟩ := (subscribe_own hs.reachable fun _ => hstored).granted hallowed
  have hreplay : ownReplay A s.world c filter sid = ([], true) := by simp [ownReplay, hlvc]
  rw [hreplay] at hout hsubs
  refine ⟨hs.step fun _ => ⟨rfl, fun _ => hstored⟩, fun _ => ?_, fun _ => ?_⟩
  · have hperm := hsubs.filter fun x => x.sid == sid
    have hnone : (ownSubs c s.world.router).filter (fun x => x.sid == sid) = [] := by
      rw [List.filter_eq_nil_iff]
      intro x hx
      simpa using hnew x hx
    rw [if_pos rfl, List.filter_cons_of_pos (by simp [newSub]), hnone] at hperm
    refine ⟨newSub c filter [] sid, List.perm_singleton.mp hperm, ?_, hlvc, rfl⟩
    simp [newSub, hlvc]
  · exact ⟨[], [], stream_of_out rfl hout, .nil, rfl⟩

/-- **Every message, once and in order.** Once a connection has subscribed under a
sid of its own, what it reads from its output under that sid is the sequence of
the messages that the router has been given since and has delivered, those its
filter matches, each once and in the order of the publishes. So two
subscriptions find the messages they both get in the same order. -/
theorem subscription_gets_every_message {c : ConnId} {conns : ConnId → RouterConn}
    (hconns : ∀ d, (conns d).subCount = 0) (hplain : (conns c).Plain) {earlier later : List DeskEvent}
    {A : Alloc} {filter sid : Bytes}
    (hearlier : Along Desk.step (Unhindered c) ⟨⟨routerInit, conns⟩, fun _ => []⟩ earlier)
    (hlvc : subjectHasLvcPrefix filter = false)
    (hnew : ∀ x ∈ ownSubs c
      (earlier.foldl Desk.step ⟨⟨routerInit, conns⟩, fun _ => []⟩).world.router, x.sid ≠ sid)
    (hok : (subscribeQueue A (earlier.foldl Desk.step ⟨⟨routerInit, conns⟩, fun _ => []⟩).world c
      filter [] sid).2 = true)
    (hlater : Along Desk.step (fun s e => Unhindered c s e ∧ KeepsSid c sid e)
      ((earlier.foldl Desk.step ⟨⟨routerInit, conns⟩, fun _ => []⟩).step
        (.call (.subscribe A c filter [] sid))) later) :
    let before := earlier.foldl Desk.step ⟨⟨routerInit, conns⟩, fun _ => []⟩
    let start := before.step (.call (.subscribe A c filter [] sid))
    let s := later.foldl Desk.step start
    (s.world.conns c).closed = false → ∃ told ms, s.stream c = before.stream c ++ told ∧
      readStream told = some ms ∧
      received sid ms = ((start.routed later).filter fun m =>
        subjectMatches filter m.subject).map (Message.toMsg sid) := by
  intro before start s hopen
  have hbefore : Attended c before := (attended_start hconns hplain).run hearlier
  have hsupplied := (supplied_subscribe hbefore hlvc hnew hok).run hlater
  obtain ⟨told, ms, hstream, hspoken, hreceived⟩ := hsupplied.told hopen
  exact ⟨told, ms, hstream, hspoken.read, hreceived⟩

/-- Two publishers and a message for nobody, after the subscription. -/
def afternoonEvents : List DeskEvent :=
  [.call (.publish .succeeds ⟨lit "a.x", lit "1", []⟩),
    .call (.subscribe .succeeds 1 (lit ">") [] (lit "8")),
    .call (.publish .succeeds ⟨lit "b", lit "2", []⟩), .takes 1, .shuts 2,
    .call (.publish .succeeds ⟨lit "a.y", lit "3", lit "r"⟩)]

def noon : Desk := Desk.step ⟨⟨routerInit, fun _ => plainConn⟩, fun _ => []⟩
  (.call (.subscribe .succeeds 1 (lit "a.*") [] (lit "7")))

/-- Under the sid of the first subscription come its two messages. -/
theorem afternoon_gets_every_message :
    (∃ told ms, (afternoonEvents.foldl Desk.step noon).stream 1 = [] ++ told ∧
        readStream told = some ms ∧
        received (lit "7") ms = ((noon.routed afternoonEvents).filter fun m =>
          subjectMatches (lit "a.*") m.subject).map (Message.toMsg (lit "7"))) ∧
      (afternoonEvents.foldl Desk.step noon).stream 1 =
        lit "MSG a.x 7 1\r\n1\r\nMSG b 8 1\r\n2\r\nMSG a.y 7 r 1\r\n3\r\nMSG a.y 8 r 1\r\n3\r\n" := by
  have hcounts : ∀ d : ConnId, ((fun _ => plainConn : ConnId → RouterConn) d).subCount = 0 :=
    fun _ => rfl
  have hplain : ((fun _ => plainConn : ConnId → RouterConn) 1).Plain := ⟨rfl, rfl⟩
  have hearlier : Along Desk.step (Unhindered 1) ⟨⟨routerInit, fun _ => plainConn⟩, fun _ => []⟩
      [] := trivial
  have hnew : ∀ x ∈ ownSubs 1 (([] : List DeskEvent).foldl Desk.step
      ⟨⟨routerInit, fun _ => plainConn⟩, fun _ => []⟩).world.router, x.sid ≠ lit "7" :=
    fun x hx => absurd hx List.not_mem_nil
  have hok : (subscribeQueue .succeeds (([] : List DeskEvent).foldl Desk.step
      ⟨⟨routerInit, fun _ => plainConn⟩, fun _ => []⟩).world 1 (lit "a.*") [] (lit "7")).2 =
      true := by decide +kernel
  have hlater : Along Desk.step (fun s e => Unhindered 1 s e ∧ KeepsSid 1 (lit "7") e) noon
      afternoonEvents := by
    refine ⟨⟨.inr ?_, trivial⟩, ⟨fun _ => ⟨rfl, fun _ => ?_⟩, fun _ => by decide⟩,
      ⟨.inr ?_, trivial⟩, ⟨trivial, trivial⟩, ⟨trivial, trivial⟩, ⟨.inr ?_, trivial⟩, trivial⟩
    all_goals decide +kernel
  have hopen : ((afternoonEvents.foldl Desk.step noon).world.conns 1).closed = false := by
    decide +kernel
  constructor
  · exact subscription_gets_every_message hcounts hplain hearlier (by decide) hnew hok hlater hopen
  · decide +kernel

end Monoblok
