import Monoblok.Router.Delivery

/-!
# What a `$LVC` subscriber knows

A subscriber to `$LVC.` subjects is given the cached values when it subscribes
and every later one as it is published. It keeps the last value of each subject;
these are at every moment the values of the cache.
-/

namespace Monoblok

open Runs

/-! ## The last writes -/

/-- Writes that agree on a key write what they agree on. -/
theorem lastWrites_agree {m : Bytes → Option Bytes} {writes : List (Bytes × Bytes)}
    {k v : Bytes} (h : ∀ x ∈ writes, x.1 = k → x.2 = v) :
    lastWrites m writes k = if k ∈ writes.map Prod.fst then some v else m k := by
  induction writes generalizing m with
  | nil => simp [lastWrites]
  | cons x writes ih =>
    have hrest := ih (m := Function.update m x.1 (some x.2))
      fun y hy => h y (List.mem_cons_of_mem x hy)
    have hcons : lastWrites m (x :: writes) k =
        lastWrites (Function.update m x.1 (some x.2)) writes k := rfl
    rw [hcons, hrest, List.map_cons]
    by_cases hx : k = x.1
    · have hv := h x List.mem_cons_self hx.symm
      subst hx
      simp [hv]
    · have hmem : k ∈ x.1 :: writes.map Prod.fst ↔ k ∈ writes.map Prod.fst := by
        rw [List.mem_cons, or_iff_right hx]
      rw [if_congr hmem rfl rfl, Function.update_of_ne hx]

/-- A store that keeps the payloads writes its own subject or nothing. -/
theorem cached_lvcStore {A : Alloc} {r : Router} {subject payload : Bytes} (h : LvcInv r)
    (hkeeps : ¬LosesPayload A r subject payload) (k : Bytes) :
    cached (lvcStore A r subject payload).1.lvc k =
      if cacheable r subject = true ∧ (lvcStore A r subject payload).2 = true ∧ k = subject then
        some payload
      else cached r.lvc k := by
  cases hcache : cacheable r subject with
  | false => simp [lvcStore_of_not_cacheable hcache]
  | true =>
    cases hcopies : copiesPayload A r subject payload with
    | false =>
      obtain ⟨index, heq⟩ := lvcStore_of_not_copies h hcache hcopies
      simp [heq]
    | true =>
      obtain ⟨index, caps, heq⟩ := lvcStore_of_copies h hcopies
      by_cases hfails : payloadFails A r subject payload
      · rw [if_pos hfails] at heq
        have hempty : cached r.lvc subject = some [] := by
          by_contra hne
          exact hkeeps ⟨hcopies, hfails, hne⟩
        simp [heq, putEntry_cached hempty]
      · rw [if_neg hfails] at heq
        simp [heq, cached_putEntry]

/-- What is cached can be looked up. -/
theorem lvcLatest_of_cacheable {r : Router} (h : LvcInv r) {k : Bytes}
    (hcache : cacheable r k = true) : lvcLatest r k = cached r.lvc k := by
  rw [lvcLatest_eq h, cacheable_enabled hcache, Bool.and_true]
  cases hvalid : subjectValid k false with
  | true => rfl
  | false =>
    have hnot : k ∉ lvcKeys r := fun hmem => by simp [h.valid k hmem] at hvalid
    exact (cached_eq_none.mpr hnot).symm

/-! ## The updates of a subscriber -/

/-- The write a message is for the subscriber with a sid. -/
def lvcUpdate (sid : Bytes) (m : Msg) : Option (Bytes × Bytes) :=
  if m.sid = sid ∧ subjectHasLvcPrefix m.subject = true then
    some (lvcInnerSubject m.subject, m.payload)
  else none

def updates (sid : Bytes) (ms : List Msg) : List (Bytes × Bytes) := ms.filterMap (lvcUpdate sid)

/-- What the subscriber believes after the messages. -/
def viewOf (sid : Bytes) (ms : List Msg) : Bytes → Option Bytes :=
  lastWrites (fun _ => none) (updates sid ms)

theorem viewOf_append (sid : Bytes) (ms ms' : List Msg) :
    viewOf sid (ms ++ ms') = lastWrites (viewOf sid ms) (updates sid ms') := by
  rw [viewOf, updates, List.filterMap_append, lastWrites, List.foldl_append]
  rfl

theorem lvcUpdate_of_lvc (sid subject payload replyTo : Bytes) :
    lvcUpdate sid ⟨lvcPrefix ++ subject, sid, replyTo, payload⟩ = some (subject, payload) := by
  have hprefix : subjectHasLvcPrefix (lvcPrefix ++ subject) = true := by
    simp [subjectHasLvcPrefix, sliceHasPrefix]
  simp [lvcUpdate, hprefix, lvcInnerSubject]

section Update

variable {m : Message} {sid : Bytes}

/-- What the message of a subscription is for the subscriber. -/
theorem lvcUpdate_outMsg (hm : publishStores m = true) (s : Subscription) :
    lvcUpdate sid (s.outMsg m).wire =
      if s.sid = sid ∧ s.isLvc = true then some (m.subject, m.payload) else none := by
  obtain ⟨-, -, hlvc⟩ := publishStores_checks hm
  cases hs : s.isLvc with
  | false => simp [lvcUpdate, Subscription.outMsg, OutMsg.wire, subPrefix, hs, hlvc]
  | true =>
    by_cases hsid : s.sid = sid
    · have hupdate := lvcUpdate_of_lvc sid m.subject m.payload m.replyTo
      simp [Subscription.outMsg, OutMsg.wire, subPrefix, hs, hsid, hupdate]
    · simp [lvcUpdate, Subscription.outMsg, OutMsg.wire, hsid]

/-- All the updates of one message are the same. -/
theorem updates_outMsg (hm : publishStores m = true) (l : List Subscription) :
    updates sid ((l.map (Subscription.outMsg m)).map OutMsg.wire) =
      (l.filter fun s => decide (s.sid = sid ∧ s.isLvc = true)).map
        fun _ => (m.subject, m.payload) := by
  induction l with
  | nil => rfl
  | cons s l ih =>
    have hs : lvcUpdate sid (s.outMsg m).wire =
        if s.sid = sid ∧ s.isLvc = true then some (m.subject, m.payload) else none :=
      lvcUpdate_outMsg hm s
    simp only [updates, List.map_cons] at ih ⊢
    by_cases h : s.sid = sid ∧ s.isLvc = true
    · rw [if_pos h] at hs
      rw [List.filterMap_cons_some hs, List.filter_cons_of_pos (by simpa using h), ih]
      rfl
    · rw [if_neg h] at hs
      rw [List.filterMap_cons_none hs, List.filter_cons_of_neg (by simpa using h), ih]

end Update

/-! ## The replay -/

section Replay

variable {r : Router}

theorem cached_of_mem {l : List LvcEntry} (hnodup : (l.map LvcEntry.subject).Nodup) {e : LvcEntry}
    (he : e ∈ l) : cached l e.subject = some e.payload := by
  induction l with
  | nil => exact absurd he List.not_mem_nil
  | cons x l ih =>
    rw [List.map_cons, List.nodup_cons] at hnodup
    rw [cached_cons]
    rcases List.mem_cons.mp he with rfl | he
    · rw [if_pos rfl]
    · have hne : x.subject ≠ e.subject := fun heq =>
        hnodup.1 (heq ▸ List.mem_map_of_mem he)
      rw [if_neg hne, ih hnodup.2 he]

theorem updates_replay (sid : Bytes) (xs : List (LvcEntry × ℕ)) :
    updates sid (xs.map fun x => (x.1.outMsg sid).wire) =
      xs.map fun x => (x.1.subject, x.1.payload) := by
  induction xs with
  | nil => rfl
  | cons x xs ih =>
    have hx : lvcUpdate sid (x.1.outMsg sid).wire = some (x.1.subject, x.1.payload) :=
      lvcUpdate_of_lvc sid x.1.subject x.1.payload []
    simp only [updates, List.map_cons] at ih ⊢
    rw [List.filterMap_cons_some hx, ih]

/-- The values of a replay are those of the cache. -/
theorem viewOf_replay (h : LvcInv r) (sid : Bytes) {filter k : Bytes}
    (hmatch : subjectMatches filter k = true) (hcache : cacheable r k = true) :
    viewOf sid ((replayed r filter).map fun x => (x.1.outMsg sid).wire) k = cached r.lvc k := by
  have hentry : ∀ x ∈ replayed r filter, x.1 ∈ r.lvc := by
    intro x hx
    exact (List.mem_zipIdx' (List.mem_of_mem_filter hx)).2 ▸ List.getElem_mem _
  have hvalue : ∀ x ∈ replayed r filter, cached r.lvc x.1.subject = some x.1.payload :=
    fun x hx => cached_of_mem h.indexed.nodup (hentry x hx)
  rw [viewOf, updates_replay]
  cases hcached : cached r.lvc k with
  | some v =>
    have hmem : k ∈ r.lvc.map LvcEntry.subject := by
      by_contra hnot
      rw [cached_eq_none.mpr hnot] at hcached
      simp at hcached
    obtain ⟨e, he, rfl⟩ := List.mem_map.mp hmem
    obtain ⟨i, hi⟩ := List.mem_iff_getElem?.mp he
    have hreplayed : (e, i) ∈ replayed r filter := by
      rw [replayed, List.mem_filter]
      refine ⟨List.mem_zipIdx_iff_getElem?.mpr hi, ?_⟩
      simp [cacheable_enabled hcache, hmatch]
    have hagree : ∀ y ∈ (replayed r filter).map fun x => (x.1.subject, x.1.payload),
        y.1 = e.subject → y.2 = v := by
      intro y hy heq
      obtain ⟨x, hx, rfl⟩ := List.mem_map.mp hy
      have hx' := hvalue x hx
      rw [show x.1.subject = e.subject from heq, hcached] at hx'
      exact (Option.some.inj hx').symm
    rw [lastWrites_agree hagree, if_pos]
    exact List.mem_map.mpr ⟨_, List.mem_map_of_mem hreplayed, rfl⟩
  | none =>
    have hagree : ∀ y ∈ (replayed r filter).map fun x => (x.1.subject, x.1.payload),
        y.1 = k → y.2 = [] := by
      intro y hy heq
      obtain ⟨x, hx, rfl⟩ := List.mem_map.mp hy
      have hx' := hvalue x hx
      rw [show x.1.subject = k from heq, hcached] at hx'
      simp at hx'
    rw [lastWrites_agree hagree, if_neg]
    intro hmem
    obtain ⟨y, hy, heq⟩ := List.mem_map.mp hmem
    obtain ⟨x, hx, rfl⟩ := List.mem_map.mp hy
    have hx' := hvalue x hx
    rw [show x.1.subject = k from heq, hcached] at hx'
    simp at hx'

end Replay

/-! ## The events of a subscriber -/

/-- The subscription is in place, without a maximum. -/
def Subscribed (c : ConnId) (filter sid : Bytes) (r : Router) : Prop :=
  ∃ x ∈ sidSubs c sid r, x.subject = filter ∧ x.isLvc = true ∧ x.hasMaxMsgs = false

/-- All that is cached is published: the filters stay as they are and no store
loses a payload. -/
def KeepsCache (s : Desk) : DeskEvent → Prop
  | .call (.configureLvc _ _) => False
  | .call (.storeLvc _ _ _) => False
  | .call (.publish A m) => KeepsPayloads s.world (.publish A m)
  | _ => True

/-- What an event is to the subscriber. -/
structure Heard (c : ConnId) (filter sid : Bytes) (s s' : Desk) : Prop where
  subscribed : Subscribed c filter sid s'.world.router
  view : ∃ piece ms, s'.stream c = s.stream c ++ piece ∧ Spoken piece ms ∧
    ∀ k, subjectMatches filter k = true → cacheable s'.world.router k = true →
      cacheable s.world.router k = true ∧ ∀ m : Bytes → Option Bytes,
        m k = cached s.world.router.lvc k →
          lastWrites m (updates sid ms) k = cached s'.world.router.lvc k

section Hearing

variable {c : ConnId} {filter sid : Bytes} {s s' : Desk}

theorem cacheable_publish (A : Alloc) (w : World) (m : Message) (k : Bytes) :
    cacheable (publishWithReply A w m).world.router k = cacheable w.router k := by
  cases hstores : publishStores m with
  | false => rw [publish_of_not_stores A w hstores]
  | true =>
    have hcache := cacheOf_publish_stores A w hstores
    have hsame := sameRouting_lvcStore A w.router m.subject m.payload
    exact cacheable_congr ((congrArg Cache.enabled hcache).trans hsame.lvcEnabled)
      ((congrArg Cache.filters hcache).trans hsame.lvcFilters) k

/-- What a publish makes of the cache. -/
theorem cached_publish {A : Alloc} {w : World} {m : Message} (h : LvcInv w.router)
    (hkeeps : KeepsPayloads w (.publish A m)) (k : Bytes) :
    cached (publishWithReply A w m).world.router.lvc k =
      if cacheable w.router m.subject = true ∧
          (publishStores m && (lvcStore A w.router m.subject m.payload).2) = true ∧
          k = m.subject then some m.payload
      else cached w.router.lvc k := by
  cases hstores : publishStores m with
  | false => simp [publish_of_not_stores A w hstores]
  | true =>
    have hentries : (publishWithReply A w m).world.router.lvc =
        (lvcStore A w.router m.subject m.payload).1.lvc :=
      congrArg Cache.entries (cacheOf_publish_stores A w hstores)
    have hkeep : ¬LosesPayload A w.router m.subject m.payload :=
      hkeeps A m.subject m.payload (by simp [storeOf, hstores])
    rw [hentries, cached_lvcStore h hkeep, Bool.true_and]

/-- A message that is delivered. -/
theorem heard_delivered {A : Alloc} {m : Message} (hs : Attended c s)
    (hstored : (lvcStore A s.world.router m.subject m.payload).2 = true)
    (hdelivered : Delivered c m s (s.step (.call (.publish A m))))
    (hkeeps : KeepsPayloads s.world (.publish A m))
    (hsub : Subscribed c filter sid s.world.router) :
    Heard c filter sid s (s.step (.call (.publish A m))) := by
  obtain ⟨x, hx, hfilter, hlvc, hmax⟩ := hsub
  have hown : x ∈ ownSubs c s.world.router := List.mem_of_mem_filter hx
  have hsid : x.sid = sid := by simpa using List.of_mem_filter hx
  constructor
  · have hserve := deliveredMax_serve s.world.router m hmax
    refine ⟨serve s.world.router m x, List.mem_filter.mpr ⟨?_, by simp [hsid]⟩, by simp [hfilter],
      by simp [hlvc], by simp [hmax]⟩
    exact hdelivered.subs.mem_iff.mpr
      (List.mem_filterMap.mpr ⟨_, List.mem_map_of_mem hown, hserve⟩)
  · obtain ⟨xs, hxs, piece, hpiece, hspoken⟩ := hdelivered.told
    refine ⟨piece, _, hpiece, hspoken, fun k hmatch hk => ?_⟩
    have hcacheable : cacheable s.world.router k = true := by
      rw [← cacheable_publish A s.world m]
      exact hk
    have hcached : cached (s.step (.call (.publish A m))).world.router.lvc k =
        if cacheable s.world.router m.subject = true ∧ true = true ∧ k = m.subject then
          some m.payload
        else cached s.world.router.lvc k := by
      have hall := cached_publish hs.reachable.lvcInv hkeeps k
      rwa [hdelivered.stores, hstored, Bool.and_self] at hall
    have hagree : ∀ y ∈ ((xs.filter (due s.world.router m)).filter
        fun y => decide (y.sid = sid ∧ y.isLvc = true)).map fun _ => (m.subject, m.payload),
        y.1 = k → y.2 = m.payload := by
      intro y hy _
      obtain ⟨z, -, rfl⟩ := List.mem_map.mp hy
      rfl
    refine ⟨hcacheable, fun view hview => ?_⟩
    rw [updates_outMsg hdelivered.stores, lastWrites_agree hagree, List.map_map, hcached, hview]
    by_cases hsubject : k = m.subject
    · subst hsubject
      have hdue : due s.world.router m x = true := by
        simp [due, hfilter, hmatch, cacheable_enabled hcacheable]
      have hmem : x ∈ xs.filter (due s.world.router m) :=
        List.mem_filter.mpr ⟨hxs.mem_iff.mpr hown, hdue⟩
      rw [if_pos, if_pos ⟨hcacheable, rfl, rfl⟩]
      exact List.mem_map.mpr ⟨x, List.mem_filter.mpr ⟨hmem, by simp [hsid, hlvc]⟩, rfl⟩
    · rw [if_neg, if_neg (fun hall => hsubject hall.2.2)]
      intro hmem
      obtain ⟨y, -, heq⟩ := List.mem_map.mp hmem
      exact hsubject heq.symm

/-- Every event keeps the subscriber's view. -/
theorem heard_step {e : DeskEvent} (hs : Attended c s) (hok : Unhindered c s e)
    (hkeeps : KeepsSid c sid e) (hcache : KeepsCache s e)
    (hafter : ((s.step e).world.conns c).closed = false)
    (hsub : Subscribed c filter sid s.world.router) : Heard c filter sid s (s.step e) := by
  rcases sid_step hs hok hkeeps hafter with ⟨A, m, rfl, -, hstored, hdelivered⟩ | ⟨hkept, hno⟩
  · exact heard_delivered hs hstored hdelivered hcache hsub
  · obtain ⟨piece, ms, hpiece, hspoken, hother⟩ := hkept.told
    obtain ⟨x, hx, hfields⟩ := hsub
    have hnone : updates sid ms = [] := by
      rw [updates, List.filterMap_eq_nil_iff]
      intro y hy
      simp [lvcUpdate, hother y hy]
    -- nothing is said to the subscriber, and nothing of the cache changes
    have hsame : ∀ k, cacheable (s.step e).world.router k = cacheable s.world.router k ∧
        cached (s.step e).world.router.lvc k = cached s.world.router.lvc k := by
      intro k
      have hof : cacheOf (s.step e).world.router = cacheOf s.world.router →
          cacheable (s.step e).world.router k = cacheable s.world.router k ∧
            cached (s.step e).world.router.lvc k = cached s.world.router.lvc k := by
        intro h
        have hentries : (s.step e).world.router.lvc = s.world.router.lvc :=
          congrArg Cache.entries h
        exact ⟨cacheable_congr (congrArg Cache.enabled h) (congrArg Cache.filters h) k,
          by rw [hentries]⟩
      cases e with
      | call call =>
        cases call with
        | configureLvc | storeLvc => exact hcache.elim
        | publish A m =>
          have hall := cached_publish hs.reachable.lvcInv hcache k
          rw [(hno A m rfl).2] at hall
          refine ⟨cacheable_publish A s.world m k, hall.trans ?_⟩
          simp
        | subscribe A d subject queue sid' => exact hof (cacheOf_subscribeQueue A _ d subject queue sid')
        | unsubscribe | removeAllFor => exact hof (cacheOf_sweepRouter _ _)
        | server => exact ⟨rfl, rfl⟩
      | answers | takes => exact ⟨rfl, rfl⟩
      | shuts d => exact hof (cacheOf_sweepRouter _ _)
    refine ⟨⟨x, hkept.subs.mem_iff.mpr hx, hfields⟩, piece, ms, hpiece, hspoken, fun k _ hk => ?_⟩
    rw [(hsame k).1] at hk
    refine ⟨hk, fun view hview => ?_⟩
    rw [hnone, (hsame k).2]
    exact hview

end Hearing

/-! ## The view of a subscriber -/

/-- What holds of a subscriber since it had the given output. -/
structure Watched (c : ConnId) (filter sid before : Bytes) (s : Desk) : Prop where
  attended : Attended c s
  subscribed : (s.world.conns c).closed = false → Subscribed c filter sid s.world.router
  view : (s.world.conns c).closed = false → ∃ told ms, s.stream c = before ++ told ∧
    Spoken told ms ∧ ∀ k, subjectMatches filter k = true → cacheable s.world.router k = true →
      viewOf sid ms k = cached s.world.router.lvc k

section Watching

variable {c : ConnId} {filter sid before : Bytes} {s : Desk} {e : DeskEvent}

theorem Watched.step (h : Watched c filter sid before s) (hok : Unhindered c s e)
    (hkeeps : KeepsSid c sid e) (hcache : KeepsCache s e) :
    Watched c filter sid before (s.step e) := by
  have hheard : ((s.step e).world.conns c).closed = false →
      (s.world.conns c).closed = false ∧ Heard c filter sid s (s.step e) := by
    intro hafter
    have hopen := open_of_deskStep h.attended hok hafter
    exact ⟨hopen, heard_step h.attended hok hkeeps hcache hafter (h.subscribed hopen)⟩
  refine ⟨h.attended.step hok, fun hafter => ?_, fun hafter => ?_⟩
  · exact (hheard hafter).2.subscribed
  · obtain ⟨hopen, hheard⟩ := hheard hafter
    obtain ⟨told, ms, hstream, hspoken, hview⟩ := h.view hopen
    obtain ⟨piece, ms', hpiece, hspoken', hnext⟩ := hheard.view
    refine ⟨told ++ piece, ms ++ ms', ?_, hspoken.append hspoken', fun k hmatch hk => ?_⟩
    · rw [hpiece, hstream, List.append_assoc]
    · obtain ⟨hcacheable, hwrites⟩ := hnext k hmatch hk
      rw [viewOf_append]
      exact hwrites _ (hview k hmatch hcacheable)

/-- After its request the subscriber knows the cache. -/
theorem watched_subscribe {A : Alloc} (hs : Attended c s)
    (hok : (subscribeQueue A s.world c (lvcPrefix ++ filter) [] sid).2 = true) :
    Watched c filter sid (s.stream c)
      (s.step (.call (.subscribe A c (lvcPrefix ++ filter) [] sid))) := by
  have hlvc : subjectHasLvcPrefix (lvcPrefix ++ filter) = true := by
    simp [subjectHasLvcPrefix, sliceHasPrefix]
  have hinner : lvcInnerSubject (lvcPrefix ++ filter) = filter := by simp [lvcInnerSubject]
  have hstored := subStored_of_ok hs.reachable hok
  have hallowed := ownAllowed_of_stored hstored
  have hsid : tokenValid sid = true := sid_of_ownAllowed hallowed
  have hcache : cacheOf (s.step (.call (.subscribe A c (lvcPrefix ++ filter) [] sid))).world.router =
      cacheOf s.world.router := cacheOf_subscribeQueue A s.world c (lvcPrefix ++ filter) [] sid
  have hout := subscribe_replays hs.reachable.inv hlvc hok
  have hfates := (routerStep_fates hs.reachable
    (.subscribe A c (lvcPrefix ++ filter) [] sid)).after
  rw [callAdds, if_pos hok] at hfates
  rw [hinner] at hout
  refine ⟨hs.step fun _ => ⟨rfl, fun _ => hstored⟩, fun _ => ?_, fun _ => ?_⟩
  · refine ⟨newSub c (lvcPrefix ++ filter) [] sid, List.mem_filter.mpr ⟨?_, ?_⟩, ?_, hlvc, rfl⟩
    · exact mem_ownSubs.mpr ⟨hfates.mem_iff.mpr (List.mem_append_right _ List.mem_cons_self), rfl⟩
    · simp [newSub]
    · rw [newSub, if_pos hlvc, hinner]
  · have hsize : ((replayed s.world.router filter).flatMap
        fun x => replayFrame sid x.1).length ≤ sizeMax := by
      have hown := ((subscribe_own hs.reachable fun _ => hstored).granted hallowed).1
      have hreplay : ownReplay A s.world c (lvcPrefix ++ filter) sid =
          replayInto A sid (replayed s.world.router filter) (s.world.conns c).out.length := by
        simp only [ownReplay, newSub, hlvc, hinner, if_true]
      rw [hout, List.append_cancel_left_eq, hreplay] at hown
      obtain ⟨k, -, -, hlen⟩ :=
        replayInto_eq A sid (replayed s.world.router filter) (s.world.conns c).out.length
      have hmax := maxPending_le_sizeMax
      rw [hown]
      rcases hlen with hlen | hnil
      · omega
      · simp [hnil]
    refine ⟨_, _, stream_of_out rfl hout,
      spoken_replay hs.reachable.lvcInv hsid (fun x hx => hx) hsize, fun k hmatch hk => ?_⟩
    have hentries := congrArg Cache.entries hcache
    have hcacheable := cacheable_congr (congrArg Cache.enabled hcache)
      (congrArg Cache.filters hcache) k
    rw [hcacheable] at hk
    rw [viewOf_replay hs.reachable.lvcInv sid hmatch hk]
    exact (congrArg (fun l => cached l k) hentries).symm

end Watching

/-- **A subscriber knows the cache.** However a server came to its state, once a
connection has subscribed to `$LVC.` subjects the last value it reads from its
output for each subject its filter matches is the value of the cache, until it
unsubscribes or is closed; whatever the other connections do. -/
theorem lvc_subscriber_knows_cache {c : ConnId} {conns : ConnId → RouterConn}
    (hconns : ∀ d, (conns d).subCount = 0) (hplain : (conns c).Plain) {earlier later : List DeskEvent}
    {A : Alloc} {filter sid : Bytes}
    (hearlier : Along Desk.step (Unhindered c) ⟨⟨routerInit, conns⟩, fun _ => []⟩ earlier)
    (hok : (subscribeQueue A (earlier.foldl Desk.step ⟨⟨routerInit, conns⟩, fun _ => []⟩).world c
      (lvcPrefix ++ filter) [] sid).2 = true)
    (hlater : Along Desk.step (fun s e => Unhindered c s e ∧ KeepsSid c sid e ∧ KeepsCache s e)
      ((earlier.foldl Desk.step ⟨⟨routerInit, conns⟩, fun _ => []⟩).step
        (.call (.subscribe A c (lvcPrefix ++ filter) [] sid))) later) :
    let before := earlier.foldl Desk.step ⟨⟨routerInit, conns⟩, fun _ => []⟩
    let s := later.foldl Desk.step (before.step (.call (.subscribe A c (lvcPrefix ++ filter) [] sid)))
    (s.world.conns c).closed = false → ∃ told ms, s.stream c = before.stream c ++ told ∧
      readStream told = some ms ∧
      ∀ k, subjectMatches filter k = true → cacheable s.world.router k = true →
        viewOf sid ms k = lvcLatest s.world.router k := by
  intro before s hopen
  have hstart := attended_start hconns hplain
  have hbefore : Attended c before := hstart.run hearlier
  have hwatched := hlater.invariant (I := Watched c filter sid (before.stream c))
    (fun u e hu hue => hu.step hue.1 hue.2.1 hue.2.2) (watched_subscribe hbefore hok)
  obtain ⟨told, ms, hstream, hspoken, hview⟩ := hwatched.view hopen
  refine ⟨told, ms, hstream, hspoken.read, fun k hmatch hk => ?_⟩
  rw [lvcLatest_of_cacheable hwatched.attended.reachable.lvcInv hk]
  exact hview k hmatch hk

/-- A value is published before there is a subscriber, and another one after. -/
def morningEvents : List DeskEvent :=
  [.call (.configureLvc .succeeds [lit ">"]), .call (.publish .succeeds ⟨lit "a", lit "1", []⟩)]

def morning : Desk := morningEvents.foldl Desk.step ⟨⟨routerInit, fun _ => plainConn⟩, fun _ => []⟩

def eveningEvents : List DeskEvent :=
  [.answers 1 (lit "PONG\r\n"), .call (.publish .succeeds ⟨lit "a", lit "3", []⟩)]

def evening : Desk :=
  eveningEvents.foldl Desk.step
    (morning.step (.call (.subscribe .succeeds 1 (lvcPrefix ++ lit ">") [] (lit "7"))))

theorem spoken_pong : Spoken (lit "PONG\r\n") [] := by
  refine ⟨[.notice (lit "PONG")], ?_, rfl, rfl⟩
  intro p hp
  obtain rfl := List.mem_singleton.mp hp
  exact ⟨by decide, by decide⟩

theorem keepsPayloads_of_succeeds (w : World) (m : Message) :
    KeepsPayloads w (.publish .succeeds m) := by
  intro A subject payload hstore hloses
  have hA : A = .succeeds := by
    simp only [storeOf] at hstore
    split_ifs at hstore
    exact (congrArg Prod.fst (Option.some.inj hstore)).symm
  rw [hA] at hloses
  exact absurd hloses.2.1 (by simp [payloadFails, Alloc.succeeds])

/-- The subscriber has read both values, and the later one is cached. -/
theorem late_subscriber_knows_cache :
    (∃ told ms, evening.stream 1 = morning.stream 1 ++ told ∧ readStream told = some ms ∧
        ∀ k, subjectMatches (lit ">") k = true → cacheable evening.world.router k = true →
          viewOf (lit "7") ms k = lvcLatest evening.world.router k) ∧
      evening.stream 1 = lit "MSG $LVC.a 7 1\r\n1\r\nPONG\r\nMSG $LVC.a 7 1\r\n3\r\n" ∧
      lvcLatest evening.world.router (lit "a") = some (lit "3") := by
  have hearlier : Along Desk.step (Unhindered 1) ⟨⟨routerInit, fun _ => plainConn⟩, fun _ => []⟩
      morningEvents := by
    refine ⟨trivial, .inr ?_, trivial⟩
    decide +kernel
  have hok : (subscribeQueue .succeeds morning.world 1 (lvcPrefix ++ lit ">") [] (lit "7")).2 =
      true := by decide +kernel
  have hlater : Along Desk.step
      (fun s e => Unhindered 1 s e ∧ KeepsSid 1 (lit "7") e ∧ KeepsCache s e)
      (morning.step (.call (.subscribe .succeeds 1 (lvcPrefix ++ lit ">") [] (lit "7"))))
      eveningEvents := by
    refine ⟨⟨trivial, fun _ => spoken_pong, trivial⟩,
      ⟨.inr ?_, trivial, keepsPayloads_of_succeeds _ _⟩, trivial⟩
    decide +kernel
  have hcounts : ∀ d : ConnId, ((fun _ => plainConn : ConnId → RouterConn) d).subCount = 0 :=
    fun _ => rfl
  have hplain : ((fun _ => plainConn : ConnId → RouterConn) 1).Plain := ⟨rfl, rfl⟩
  have hopen : (evening.world.conns 1).closed = false := by decide +kernel
  refine ⟨lvc_subscriber_knows_cache hcounts hplain hearlier hok hlater hopen, ?_, ?_⟩
  · decide +kernel
  · decide +kernel

end Monoblok
