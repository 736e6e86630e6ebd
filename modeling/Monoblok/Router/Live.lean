import Monoblok.Router.Queues

/-!
# Live delivery and the cache

A `$LVC` subscription gets the cached values when it is made and every later
message of an opted-in subject. Delivery asks `lvc_subject_enabled`; the store
asks `lvc_stats_subject_enabled` first, so a `$STATS` subject that only a broad
filter opts in is delivered and not stored.
-/

namespace Monoblok

/-- A `$STATS` subject that no filter for `$STATS` opts in, but another one does. -/
def broadStats (r : Router) (subject : Bytes) : Bool :=
  subjectHasStatsPrefix subject && lvcSubjectEnabled r subject && !lvcStatsSubjectEnabled r subject

theorem enabled_iff_cacheable {r : Router} {subject : Bytes}
    (hlvc : subjectHasLvcPrefix subject = false) :
    (lvcSubjectEnabled r subject = true ↔ cacheable r subject = true) ↔
      broadStats r subject = false := by
  have hstats : lvcStatsSubjectEnabled r subject = true → lvcSubjectEnabled r subject = true := by
    simp only [lvcStatsSubjectEnabled, lvcSubjectEnabled, Bool.and_eq_true, List.any_eq_true]
    rintro ⟨hon, f, hf, -, hmatch⟩
    exact ⟨hon, f, hf, hmatch⟩
  rw [cacheable, broadStats, hlvc]
  cases subjectHasStatsPrefix subject with
  | false => simp
  | true =>
    cases hs : lvcStatsSubjectEnabled r subject with
    | false => simp
    | true => simp [hstats hs]

/-- The connection of a turn can take the frame: it fits, and there is memory to
write it. -/
def HasRoom (A : Alloc) (m : Message) (t : Turn) : Prop :=
  ∃ n, measureMsg (t.before.world.conns t.sub.conn) t.sub m = some n ∧
    (n = 0 ∨ (t.before.world.conns t.sub.conn).out.length + n ≤ maxPending ∧
      (writeMsgTo A t.before.writes (t.before.world.conns t.sub.conn) t.sub m).2 = true)

/-- The turn of an open `$LVC` subscription without a queue whose filter matches. -/
structure Awaits (m : Message) (t : Turn) : Prop where
  isLvc : t.sub.isLvc = true
  queue : t.sub.queue = []
  filter : subjectMatches t.sub.subject m.subject = true
  isOpen : (t.before.world.conns t.sub.conn).closed = false

/-- The cache is configured as it was. -/
structure Configured (w : World) (p : Pub) : Prop where
  lvcEnabled : p.world.router.lvcEnabled = w.router.lvcEnabled
  lvcFilters : p.world.router.lvcFilters = w.router.lvcFilters

theorem pubInvariant_configured (w : World) : PubInvariant (Configured w) := by
  constructor
  · intro p p' hsame h
    exact ⟨hsame.lvcEnabled.trans h.lvcEnabled, hsame.lvcFilters.trans h.lvcFilters⟩
  · intro p sub h
    exact ⟨h.lvcEnabled, h.lvcFilters⟩

section Publish

variable {A : Alloc} {w : World} {m : Message} {p : Pub}

theorem Started.configured (h : Started A w m p) :
    ∀ ph ∈ phasesFrom A p m, ∀ t ∈ ph.turns A m, Configured w t.before := by
  have hstart : Configured w p := ⟨h.undisturbed.lvcEnabled, h.undisturbed.lvcFilters⟩
  have hall := ((pubInvariant_configured w).visits (deliverAll_visits A h.valid h.inv)
    (fun ph _ t ht hb => ?_) hstart).1
  · intro ph hph t ht
    exact ((hall ph hph).2 t ht).1
  · have hrouter := Phase.turns_router ht
    exact ⟨(congrArg Router.lvcEnabled hrouter).trans hb.lvcEnabled,
      (congrArg Router.lvcFilters hrouter).trans hb.lvcFilters⟩

theorem deliverToSub_of_room {sub : Subscription} {n : ℕ}
    (hn : measureMsg (p.world.conns sub.conn) sub m = some n)
    (hroom : n = 0 ∨ (p.world.conns sub.conn).out.length + n ≤ maxPending ∧
      (writeMsgTo A p.writes (p.world.conns sub.conn) sub m).2 = true) :
    (deliverToSub A p sub m).1 = { sub with delivered := sub.delivered + 1 } := by
  unfold deliverToSub
  dsimp only
  rw [hn]
  cases n with
  | zero => rfl
  | succ n =>
    obtain ⟨hfits, hwrote⟩ := hroom.resolve_left (Nat.succ_ne_zero n)
    have hroom' : ¬(maxPending < (p.world.conns sub.conn).out.length ∨
        maxPending - (p.world.conns sub.conn).out.length < n + 1) := by omega
    split
    · rename_i heq
      exact absurd heq (by simp)
    · rfl
    · rename_i frameLen _ heq
      cases heq
      rw [if_neg hroom', hwrote, if_neg (by decide)]

/-- What waits for the message with room for it gets it exactly when its subject
is opted in. -/
theorem Started.received_iff (h : Started A w m p) {ph : Phase} (hph : ph ∈ phasesFrom A p m)
    {t : Turn} (ht : t ∈ ph.turns A m) (hawaits : Awaits m t) (hroom : HasRoom A m t) :
    t.received ↔ lvcSubjectEnabled w.router m.subject = true := by
  obtain ⟨j, hj⟩ := List.mem_iff_getElem?.mp ht
  obtain ⟨hsub, hcases⟩ := Phase.turns_getElem? hj
  have hconf := h.configured ph hph t ht
  have hchosen : ph.chosen m j t.before t.sub = lvcSubjectEnabled w.router m.subject := by
    have hcheck := phasesFrom_check h.valid h.inv h.nonLiteral ph hph t.sub
      (List.mem_of_getElem? hsub)
    have hselected : queueSelected (ph.collect m).1 t.sub j = true := by
      rw [queueSelected, hawaits.queue]
      rfl
    rw [Phase.chosen, subDeliverable_eq hcheck, World.line, hawaits.isOpen, hselected,
      due_congr hconf.lvcEnabled hconf.lvcFilters, due, hawaits.filter, hawaits.isLvc]
    simp
  rw [hchosen] at hcases
  rcases hcases with ⟨hno, heq⟩ | ⟨hyes, heq⟩
  · rw [hno, Turn.received, show t.served = t.sub from congrArg Turn.served heq]
    constructor
    · intro hsame
      have := congrArg Subscription.delivered hsame
      simp at this
    · intro hfalse
      exact absurd hfalse (by decide)
  · obtain ⟨n, hn, hfits⟩ := hroom
    have hserved : t.served = (deliverToSub A t.before t.sub m).1 := congrArg Turn.served heq
    rw [hyes, Turn.received, hserved, deliverToSub_of_room hn hfits]
    simp

theorem publishStart_stores (h : publishStart A w m = some p) :
    publishStores m = true ∧ (lvcStore A w.router m.subject m.payload).2 = true := by
  unfold publishStart at h
  dsimp only at h
  split_ifs at h with hstores
  rw [Bool.and_eq_true] at hstores
  exact hstores

/-- A publish that comes to deliver stores the subjects that may be cached. -/
theorem accepted_of_start (h : publishStart A w m = some p) :
    accepted w (.publish A m) = some (m.subject, m.payload) ↔
      cacheable w.router m.subject = true := by
  obtain ⟨hstores, hok⟩ := publishStart_stores h
  rw [accepted, storeOf, if_pos hstores]
  dsimp only
  rw [hok, Bool.and_true]
  simp

/-- A publish that does not come to deliver stores nothing. -/
theorem accepted_of_no_start (hinv : RouterInv w.router) (h : publishStart A w m = none) :
    accepted w (.publish A m) = none := by
  have hsame := sameRouting_lvcStore A w.router m.subject m.payload
  have hinv' := hinv.sameRouting hsame
  rw [accepted, storeOf]
  by_cases hstores : publishStores m = true
  · rw [if_pos hstores]
    dsimp only
    by_cases hok : (lvcStore A w.router m.subject m.payload).2 = true
    · have h₁ := hinv'.kick
      have h₂ := hinv'.close
      have h₃ := hinv'.queue
      unfold publishStart at h
      dsimp only at h
      rw [hstores, hok, Bool.and_self, if_pos rfl, if_neg (by omega)] at h
      exact absurd h (by simp)
    · rw [Bool.not_eq_true] at hok
      rw [hok, Bool.and_false, if_neg (by decide)]
  · rw [if_neg hstores]

theorem publishFates_of_no_start (h : publishStart A w m = none) :
    ∀ x ∈ publishFates A w m, x.2 = x.1 := by
  intro x hx
  rw [publishFates, publishPhases, h] at hx
  obtain ⟨s, -, rfl⟩ := List.mem_map.mp (List.mem_append.mp hx |>.resolve_left List.not_mem_nil)
  rfl

/-- Where a publish succeeds, every subscription that matches has its turn. -/
theorem Started.turn_of_matches (h : Started A w m p)
    (hok : (publishWithReply A w m).ok = true) {s : Subscription} (hs : s ∈ allSubs w.router)
    (hmatch : subjectMatches s.subject m.subject = true) :
    ∃ t ∈ publishTurns A w m, t.sub = s := by
  obtain ⟨others, hperm, hothers⟩ := h.others hok
  have hvisits := deliverAll_visits A h.valid h.inv
  rw [publishWithReply_of_start h.start] at hok
  have hall := hvisits.ok_eq
  dsimp only at hok
  rw [hok, eq_comm, List.all_eq_true] at hall
  rcases List.mem_append.mp (hperm.mem_iff.mp hs) with hs | hs
  · obtain ⟨ph, hph, hs⟩ := List.mem_flatMap.mp hs
    have hcollect := (phasesFrom_collect h.valid h.inv ph hph).2.2
    have hresult := hall ph hph
    rw [Phase.result_eq hcollect] at hresult
    have hlength : (ph.turns A m).length = ph.subs.length := Phase.turns_length hcollect hresult
    have hsubs := Phase.turns_sub A m ph
    rw [hlength, List.take_length] at hsubs
    rw [← hsubs] at hs
    obtain ⟨t, ht, rfl⟩ := List.mem_map.mp hs
    refine ⟨t, ?_, rfl⟩
    rw [publishTurns, publishPhases, h.start]
    exact List.mem_flatMap.mpr ⟨ph, hph, ht⟩
  · rw [hothers s hs] at hmatch
    exact absurd hmatch (by decide)

end Publish

/-! ## What a later subscriber is given -/

theorem replayOut_of_ok {A : Alloc} {sid : Bytes} {xs : List (LvcEntry × ℕ)} {out : Bytes}
    (h : (replayOut A sid xs out).2 = true) :
    (replayOut A sid xs out).1 = out ++ xs.flatMap fun x => replayFrame sid x.1 := by
  induction xs generalizing out with
  | nil => simp [replayOut]
  | cons x xs ih =>
    unfold replayOut at h ⊢
    split_ifs at h ⊢ with hfits
    · rw [ih h, List.flatMap_cons, List.append_assoc]

/-- The subjects a new subscription is given. -/
def replayedSubjects (r : Router) (filter : Bytes) : List Bytes :=
  (replayed r filter).map fun x => x.1.subject

theorem subscribe_replays {A : Alloc} {w : World} (hinv : RouterInv w.router) {conn : ConnId}
    {subject queue sid : Bytes} (hlvc : subjectHasLvcPrefix subject = true)
    (hok : (subscribeQueue A w conn subject queue sid).2 = true) :
    ((subscribeQueue A w conn subject queue sid).1.conns conn).out =
      (w.conns conn).out ++
        (replayed w.router (lvcInnerSubject subject)).flatMap fun x => replayFrame sid x.1 := by
  cases hs : subStored A w conn subject queue sid with
  | false =>
    obtain ⟨r, heq, -⟩ := subscribeQueue_of_not_stored hinv hs
    rw [heq] at hok
    exact absurd hok (by simp)
  | true =>
    have hfilter : (newSub conn subject queue sid).subject = lvcInnerSubject subject := by
      rw [newSub, hlvc, if_pos rfl]
    rw [subscribeQueue_of_stored hs, if_pos hlvc, hfilter] at hok ⊢
    dsimp only at hok ⊢
    split_ifs at hok ⊢ with hreplay
    · rw [← replayOut_of_ok hreplay]
      simp [updateConn_conns]

theorem lastWrites_isSome {m : Bytes → Option Bytes} {writes : List (Bytes × Bytes)}
    {subject : Bytes} :
    (lastWrites m writes subject).isSome = true ↔
      subject ∈ writes.map Prod.fst ∨ (m subject).isSome = true := by
  induction writes generalizing m with
  | nil => simp [lastWrites]
  | cons x writes ih =>
    rw [lastWrites, List.foldl_cons, ← lastWrites, ih, Function.update_apply, List.map_cons,
      List.mem_cons]
    by_cases hx : subject = x.1
    · simp [hx]
    · simp [hx]

theorem CacheMap.mem_replayed {m : Bytes → Option Bytes} {r : Router} (h : CacheMap m r)
    {filter subject : Bytes} :
    subject ∈ replayedSubjects r filter ↔
      subjectMatches filter subject = true ∧ (m subject).isSome = true := by
  have hkeys : (m subject).isSome = true ↔ subject ∈ lvcKeys r := by
    rw [← h.cached, Option.isSome_iff_ne_none, Ne, cached_eq_none, not_not, lvcKeys]
  have hentries : subject ∈ lvcKeys r ↔ ∃ x ∈ r.lvc.zipIdx, x.1.subject = subject := by
    rw [lvcKeys, ← List.zipIdx_map_fst 0 r.lvc, List.map_map, List.mem_map, List.zipIdx_map_fst]
    rfl
  rw [hkeys]
  simp only [replayedSubjects, replayed, List.mem_map, List.mem_filter, Bool.and_eq_true]
  constructor
  · rintro ⟨x, ⟨hx, -, hmatch⟩, rfl⟩
    exact ⟨hmatch, hentries.mpr ⟨x, hx, rfl⟩⟩
  · rintro ⟨hmatch, hmem⟩
    have henabled := cacheable_enabled (h.keys subject hmem)
    obtain ⟨x, hx, rfl⟩ := hentries.mp hmem
    exact ⟨x, ⟨hx, henabled, hmatch⟩, rfl⟩

/-- **Live delivery and replay.** At every publish the open `$LVC` subscriptions
that match and have room see what is stored, exactly unless the subject is a
`$STATS` subject that only a broad filter opts in. A publish that does not come
to deliver stores nothing, and one that succeeds gives every subscription that
matches its turn. What a later subscriber is given is what has been stored. -/
theorem lvc_live_iff_stored {w : World} (hr : Reachable w) (A : Alloc) (m : Message) :
    (∀ t ∈ publishTurns A w m, Awaits m t → HasRoom A m t →
        ((t.received ↔ accepted w (.publish A m) = some (m.subject, m.payload)) ↔
          broadStats w.router m.subject = false)) ∧
      ((publishWithReply A w m).ok = true → ∀ s ∈ allSubs w.router,
        subjectMatches s.subject m.subject = true → ∃ t ∈ publishTurns A w m, t.sub = s) ∧
      (publishStart A w m = none →
        accepted w (.publish A m) = none ∧ ∀ x ∈ publishFates A w m, x.2 = x.1) ∧
      ∀ (conns : ConnId → RouterConn) (A₀ : Alloc) (filters : List Bytes)
        (calls : List RouterCall), (∀ c, (conns c).subCount = 0) →
        (∀ call ∈ calls, StoresFreely call) →
        let start := routerStep ⟨routerInit, conns⟩ (.configureLvc A₀ filters)
        let later := calls.foldl routerStep start
        ∀ conn subject queue sid, subjectHasLvcPrefix subject = true →
          (subscribeQueue A later conn subject queue sid).2 = true →
          ((subscribeQueue A later conn subject queue sid).1.conns conn).out =
              (later.conns conn).out ++ (replayed later.router (lvcInnerSubject subject)).flatMap
                (fun x => replayFrame sid x.1) ∧
            ∀ s, s ∈ replayedSubjects later.router (lvcInnerSubject subject) ↔
              subjectMatches (lvcInnerSubject subject) s = true ∧
                s ∈ (acceptedStores start calls).map Prod.fst := by
  refine ⟨fun t ht hawaits hroom => ?_, fun hok s hs hmatch => ?_, fun hstart => ?_, ?_⟩
  · cases hstart : publishStart A w m with
    | none =>
      rw [publishTurns, publishPhases, hstart] at ht
      exact absurd ht List.not_mem_nil
    | some p =>
      have h := started hr.inv hr.nonLiteral hstart
      rw [publishTurns, publishPhases, hstart] at ht
      obtain ⟨ph, hph, ht⟩ := List.mem_flatMap.mp ht
      obtain ⟨-, -, hlvc⟩ := publishStores_checks (publishStart_stores hstart).1
      rw [h.received_iff hph ht hawaits hroom, accepted_of_start hstart]
      exact enabled_iff_cacheable hlvc
  · cases hstart : publishStart A w m with
    | none =>
      rw [(publishWithReply_of_no_start hstart).1] at hok
      exact absurd hok (by decide)
    | some p => exact (started hr.inv hr.nonLiteral hstart).turn_of_matches hok hs hmatch
  · exact ⟨accepted_of_no_start hr.inv hstart, publishFates_of_no_start hstart⟩
  · intro conns A₀ filters calls hconns hcalls start later conn subject queue sid hlvc hok
    have hreach : Reachable later :=
      Reachable.run (Reachable.step (.init conns hconns) (.configureLvc A₀ filters)) calls
    have hmap : CacheMap (lastWrites (fun _ => none) (acceptedStores start calls)) later.router :=
      (show CacheMap (fun _ => none) start.router from cacheMap_configured A₀ filters).run hcalls
    refine ⟨subscribe_replays hreach.inv hlvc hok, fun s => ?_⟩
    rw [hmap.mem_replayed, lastWrites_isSome]
    simp

/-- A router with the filter `>` and a `$LVC` subscriber to everything. -/
def broadWorld : World :=
  [RouterCall.configureLvc .succeeds [lit ">"],
    .subscribe .succeeds 0 (lit "$LVC.>") [] (lit "1")].foldl routerStep
      ⟨routerInit, fun _ => plainConn⟩

/-- The subscriber to everything gets a `$STATS` subject that is not stored. -/
theorem stats_seen_not_stored :
    (∃ t ∈ publishTurns .succeeds broadWorld ⟨lit "$STATS.x", lit "1", []⟩,
        t.sub.isLvc = true ∧ t.sub.queue = [] ∧
          subjectMatches t.sub.subject (lit "$STATS.x") = true ∧
          (t.before.world.conns t.sub.conn).closed = false ∧ t.received) ∧
      ((publishWithReply .succeeds broadWorld ⟨lit "$STATS.x", lit "1", []⟩).world.conns 0).out =
        lit "MSG $LVC.$STATS.x 1 1\r\n1\r\n" ∧
      accepted broadWorld (.publish .succeeds ⟨lit "$STATS.x", lit "1", []⟩) = none ∧
      (publishWithReply .succeeds broadWorld ⟨lit "$STATS.x", lit "1", []⟩).world.router.lvc = [] := by
  decide +kernel

/-- A subject that is opted in is seen and stored. -/
theorem opted_in_seen_and_stored :
    ∃ t ∈ publishTurns .succeeds broadWorld ⟨lit "a", lit "1", []⟩,
      Awaits ⟨lit "a", lit "1", []⟩ t ∧ t.received ∧
        accepted broadWorld (.publish .succeeds ⟨lit "a", lit "1", []⟩) =
          some (lit "a", lit "1") := by
  have hr : Reachable broadWorld := Reachable.run (.init (fun _ => plainConn) fun _ => rfl) _
  obtain ⟨hlive, -⟩ := lvc_live_iff_stored hr .succeeds ⟨lit "a", lit "1", []⟩
  have hturn : ∃ t ∈ publishTurns .succeeds broadWorld ⟨lit "a", lit "1", []⟩,
      t.sub.isLvc = true ∧ t.sub.queue = [] ∧ subjectMatches t.sub.subject (lit "a") = true ∧
        (t.before.world.conns t.sub.conn).closed = false ∧
        measureMsg (t.before.world.conns t.sub.conn) t.sub ⟨lit "a", lit "1", []⟩ = some 19 ∧
        (t.before.world.conns t.sub.conn).out.length + 19 ≤ maxPending ∧
        (writeMsgTo .succeeds t.before.writes (t.before.world.conns t.sub.conn) t.sub
          ⟨lit "a", lit "1", []⟩).2 = true := by
    decide +kernel
  have hstored : accepted broadWorld (.publish .succeeds ⟨lit "a", lit "1", []⟩) =
      some (lit "a", lit "1") := by decide +kernel
  obtain ⟨t, ht, hlvc, hqueue, hfilter, hopen, hlen, hfits, hwrote⟩ := hturn
  have hawaits : Awaits ⟨lit "a", lit "1", []⟩ t := ⟨hlvc, hqueue, hfilter, hopen⟩
  have hseen := (hlive t ht hawaits ⟨19, hlen, .inr ⟨hfits, hwrote⟩⟩).mpr (by decide +kernel)
  exact ⟨t, ht, hawaits, hseen.mpr hstored, hstored⟩

end Monoblok
