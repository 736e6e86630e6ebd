import Monoblok.Router.Accounting

/-!
# Queue groups

Before a list is served, one member of each of its queue groups is chosen among
those the message can be delivered to. The groups have different keys, so no
group is served twice, and as long as no connection is closed on the way, the
member that was chosen is still there when its turn comes.
-/

namespace Monoblok

/-- The filter, the queue and the stream of a group. -/
abbrev GroupKey := Bytes × Bytes × Bool

def groupKey (g : QueueDelivery) : GroupKey := (g.subject, g.queue, g.isLvc)

def subKey (s : Subscription) : GroupKey := (s.subject, s.queue, s.isLvc)

theorem queueGroupEq_iff {g : QueueDelivery} {s : Subscription} :
    queueGroupEq g s = true ↔ groupKey g = subKey s := by
  simp only [queueGroupEq, groupKey, subKey, Bool.and_eq_true, beq_iff_eq, sliceEq_iff,
    Prod.mk.injEq]
  tauto

/-! ## Choosing the members -/

/-- The groups of the subscriptions seen so far. -/
structure Collected (deliverable : Subscription → Bool) (seen : List Subscription)
    (groups : List QueueDelivery) : Prop where
  nodup : (groups.map groupKey).Nodup
  selected : ∀ g ∈ groups, ∃ s, seen[g.selected]? = some s ∧ subKey s = groupKey g ∧
    s.queue ≠ [] ∧ deliverable s = true
  complete : ∀ s ∈ seen, s.queue ≠ [] → deliverable s = true → subKey s ∈ groups.map groupKey

theorem groupKey_see (g : QueueDelivery) (rng : UInt64) (i : ℕ) :
    groupKey (g.see rng i).1 = groupKey g ∧
      ((g.see rng i).1.selected = i ∨ (g.see rng i).1.selected = g.selected) := by
  unfold QueueDelivery.see
  dsimp only
  split_ifs
  · exact ⟨rfl, .inl rfl⟩
  · exact ⟨rfl, .inl rfl⟩
  · exact ⟨rfl, .inr rfl⟩

section Collect

variable {deliverable : Subscription → Bool} {seen : List Subscription}
  {groups groups' : List QueueDelivery} {rng rng' : UInt64} {sub : Subscription}

/-- A selected member stays where it is when the list goes on. -/
theorem Collected.selected_append (h : Collected deliverable seen groups) (l : List Subscription)
    {g : QueueDelivery} (hg : g ∈ groups) :
    ∃ s, (seen ++ l)[g.selected]? = some s ∧ subKey s = groupKey g ∧ s.queue ≠ [] ∧
      deliverable s = true := by
  obtain ⟨s, hs, hrest⟩ := h.selected g hg
  exact ⟨s, List.getElem?_append_left (List.getElem?_eq_some_iff.mp hs).1 ▸ hs, hrest⟩

theorem Collected.skip (h : Collected deliverable seen groups)
    (hskip : sub.queue.isEmpty = true ∨ deliverable sub = false) :
    Collected deliverable (seen ++ [sub]) groups := by
  refine ⟨h.nodup, fun g hg => h.selected_append [sub] hg, fun s hs hqueue hdel => ?_⟩
  rcases List.mem_append.mp hs with hs | hs
  · exact h.complete s hs hqueue hdel
  · rw [List.mem_singleton.mp hs] at hqueue hdel
    rcases hskip with hempty | hno
    · exact absurd (List.isEmpty_iff.mp hempty) hqueue
    · rw [hno] at hdel
      exact absurd hdel (by decide)

theorem Collected.collect (h : Collected deliverable seen groups) (hqueue : sub.queue ≠ [])
    (hdel : deliverable sub = true) {cap : ℕ}
    (heq : collectQueueDelivery cap groups rng sub seen.length = some (groups', rng')) :
    Collected deliverable (seen ++ [sub]) groups' := by
  have hlast : (seen ++ [sub])[seen.length]? = some sub := by simp
  have hcomplete : ∀ s ∈ seen ++ [sub], s.queue ≠ [] → deliverable s = true →
      subKey s ∈ groups.map groupKey ∨ s = sub := by
    intro s hs hq hd
    rcases List.mem_append.mp hs with hs | hs
    · exact .inl (h.complete s hs hq hd)
    · exact .inr (List.mem_singleton.mp hs)
  unfold collectQueueDelivery at heq
  cases hfind : groups.findIdx? (queueGroupEq · sub) with
  | some i =>
    rw [hfind] at heq
    obtain ⟨hi, hkey, -⟩ := List.findIdx?_eq_some_iff_getElem.mp hfind
    dsimp only at heq
    rw [List.getElem?_eq_getElem hi] at heq
    obtain ⟨hsame, hsel⟩ := groupKey_see groups[i] rng seen.length
    cases heq
    have hkeys : (groups.set i (groups[i].see rng seen.length).1).map groupKey =
        groups.map groupKey := by
      rw [List.map_set, hsame, ← List.getElem_map groupKey (h := by simpa using hi)]
      exact List.set_getElem_self _
    rw [queueGroupEq_iff] at hkey
    refine ⟨hkeys ▸ h.nodup, fun g hg => ?_, fun s hs hq hd => ?_⟩
    · rcases List.mem_or_eq_of_mem_set hg with hg | rfl
      · exact h.selected_append [sub] hg
      · rcases hsel with hsel | hsel
        · exact ⟨sub, by rw [hsel, hlast], hsame.symm ▸ hkey.symm, hqueue, hdel⟩
        · rw [hsel, hsame]
          exact h.selected_append [sub] (List.getElem_mem hi)
    · rw [hkeys]
      rcases hcomplete s hs hq hd with hs | rfl
      · exact hs
      · rw [← hkey]
        exact List.mem_map_of_mem (List.getElem_mem hi)
  | none =>
    rw [hfind] at heq
    dsimp only at heq
    split_ifs at heq
    have hnew : subKey sub ∉ groups.map groupKey := by
      intro hmem
      obtain ⟨g, hg, hkey⟩ := List.mem_map.mp hmem
      have hno := List.findIdx?_eq_none_iff.mp hfind g hg
      rw [queueGroupEq_iff.mpr hkey] at hno
      exact absurd hno (by decide)
    cases heq
    refine ⟨?_, fun g hg => ?_, fun s hs hq hd => ?_⟩
    · rw [List.map_append, List.map_singleton, List.nodup_append]
      refine ⟨h.nodup, List.nodup_singleton _, fun a ha b hb => ?_⟩
      rw [List.mem_singleton.mp hb]
      rintro rfl
      exact hnew ha
    · rcases List.mem_append.mp hg with hg | hg
      · exact h.selected_append [sub] hg
      · rw [List.mem_singleton.mp hg]
        exact ⟨sub, hlast, rfl, hqueue, hdel⟩
    · rw [List.map_append, List.mem_append]
      rcases hcomplete s hs hq hd with hs | rfl
      · exact .inl hs
      · exact .inr (List.mem_singleton.mpr rfl)

theorem collectLoop_collected {w : World} {subject : Bytes} {checkFilter : Bool}
    (subs : List Subscription)
    (h : Collected (fun s => subDeliverable w s subject checkFilter) seen groups)
    (hok : (collectLoop w subject checkFilter seen.length subs groups rng).2.2 = true) :
    Collected (fun s => subDeliverable w s subject checkFilter) (seen ++ subs)
      (collectLoop w subject checkFilter seen.length subs groups rng).1 := by
  induction subs generalizing seen groups rng with
  | nil =>
    rw [List.append_nil]
    exact h
  | cons sub subs ih =>
    have hlen : seen.length + 1 = (seen ++ [sub]).length := by simp
    unfold collectLoop at hok ⊢
    rw [← List.singleton_append, ← List.append_assoc]
    split at hok
    · rename_i hskip
      rw [if_pos hskip]
      rw [hlen] at hok ⊢
      refine ih (h.skip ?_) hok
      simpa using hskip
    · rename_i hskip
      rw [if_neg hskip]
      simp only [Bool.or_eq_true, not_or, Bool.not_eq_true, Bool.not_eq_false'] at hskip
      split at hok
      · exact absurd hok (by simp)
      · rename_i groups₁ rng₁ heq
        rw [hlen] at hok ⊢
        refine ih (h.collect ?_ hskip.2 heq) hok
        simpa using hskip.1

end Collect

/-- The groups of a list: every one has a member that was chosen. -/
theorem Phase.collected {m : Message} {ph : Phase} (hok : (ph.collect m).2.2 = true) :
    Collected (fun s => subDeliverable ph.pub.world s m.subject ph.checkFilter) ph.subs
      (ph.collect m).1 := by
  have hempty : Collected (fun s => subDeliverable ph.pub.world s m.subject ph.checkFilter) [] [] := by
    refine ⟨List.nodup_nil, ?_, ?_⟩
    · simp
    · simp
  exact collectLoop_collected ph.subs hempty hok

/-- No two positions are chosen for one group. -/
theorem queueSelected_unique {groups : List QueueDelivery} (hnodup : (groups.map groupKey).Nodup)
    {s s' : Subscription} {i j : ℕ} (hqueue : s.queue ≠ []) (hkey : subKey s = subKey s')
    (hi : queueSelected groups s i = true) (hj : queueSelected groups s' j = true) : i = j := by
  have hqueue' : s'.queue ≠ [] := by
    rw [← show s.queue = s'.queue from congrArg (·.2.1) hkey]
    exact hqueue
  have hchosen : ∀ {s : Subscription} {i : ℕ}, s.queue ≠ [] → queueSelected groups s i = true →
      ∃ g ∈ groups, g.selected = i ∧ groupKey g = subKey s := by
    intro s i hq hsel
    simp only [queueSelected, Bool.or_eq_true, List.isEmpty_iff, hq, false_or, List.any_eq_true,
      Bool.and_eq_true, beq_iff_eq] at hsel
    obtain ⟨g, hg, hsel, hg'⟩ := hsel
    exact ⟨g, hg, hsel, queueGroupEq_iff.mp hg'⟩
  obtain ⟨g, hg, rfl, hgs⟩ := hchosen hqueue hi
  obtain ⟨g', hg', rfl, hgs'⟩ := hchosen hqueue' hj
  rw [List.inj_on_of_nodup_map hnodup hg hg' (hgs.trans (hkey.trans hgs'.symm))]

/-! ## One list -/

/-- A subscription of the group got the message. -/
def servedIn (key : GroupKey) (x : Subscription × Subscription) : Bool :=
  decide (subKey x.1 = key) && decide (x.2 ≠ x.1)

/-- The number of members of a group that get the message. -/
def groupReceipts (A : Alloc) (w : World) (m : Message) (key : GroupKey) : ℕ :=
  (publishFates A w m).countP (servedIn key)

theorem countP_le_one {α : Type*} {p : α → Bool} {l : List α}
    (h : ∀ (i j : ℕ) (a b : α), l[i]? = some a → l[j]? = some b → p a = true → p b = true → i = j) :
    l.countP p ≤ 1 := by
  induction l with
  | nil => exact Nat.zero_le _
  | cons a l ih =>
    have hrest : l.countP p ≤ 1 := by
      refine ih fun i j b c hb hc hpb hpc => ?_
      have := h (i + 1) (j + 1) b c (by simpa using hb) (by simpa using hc) hpb hpc
      omega
    rw [List.countP_cons]
    split_ifs with ha
    · have hnone : l.countP p = 0 := by
        rw [List.countP_eq_zero]
        intro b hb hpb
        obtain ⟨j, hj⟩ := List.mem_iff_getElem?.mp hb
        have := h 0 (j + 1) a b rfl (by simpa using hj) ha hpb
        omega
      omega
    · omega

/-- A subscription that got the message was chosen for it. -/
theorem Phase.fates_chosen {A : Alloc} {m : Message} {ph : Phase} {j : ℕ}
    {x : Subscription × Subscription} (hj : (ph.fates A m)[j]? = some x) (hx : x.2 ≠ x.1) :
    ∃ t, (ph.turns A m)[j]? = some t ∧ t.sub = x.1 ∧ t.served = x.2 ∧
      ph.chosen m j t.before t.sub = true := by
  rw [Phase.fates] at hj
  by_cases hlt : j < (ph.turns A m).length
  · rw [List.getElem?_append_left (by simpa using hlt), List.getElem?_map,
      Option.map_eq_some_iff] at hj
    obtain ⟨t, ht, rfl⟩ := hj
    obtain ⟨-, ⟨-, heq⟩ | ⟨hchosen, -⟩⟩ := Phase.turns_getElem? ht
    · exact absurd (congrArg Turn.served heq) hx
    · exact ⟨t, ht, rfl, rfl, hchosen⟩
  · rw [List.getElem?_append_right (by simpa using hlt), List.getElem?_map,
      Option.map_eq_some_iff] at hj
    obtain ⟨s, -, rfl⟩ := hj
    exact absurd rfl hx

theorem Phase.receipts_le_one {A : Alloc} {m : Message} {ph : Phase}
    (hok : (ph.collect m).2.2 = true) {key : GroupKey} (hqueue : key.2.1 ≠ []) :
    (ph.fates A m).countP (servedIn key) ≤ 1 := by
  refine countP_le_one fun i j x y hi hj hx hy => ?_
  simp only [servedIn, Bool.and_eq_true, decide_eq_true_eq] at hx hy
  obtain ⟨t, -, htsub, -, ht⟩ := Phase.fates_chosen hi hx.2
  obtain ⟨u, -, husub, -, hu⟩ := Phase.fates_chosen hj hy.2
  simp only [Phase.chosen, Bool.and_eq_true] at ht hu
  refine queueSelected_unique (Phase.collected hok).nodup ?_ ?_ ht.2 hu.2
  · rw [← hx.1] at hqueue
    rw [htsub]
    exact hqueue
  · rw [htsub, husub, hx.1, hy.1]

/-! ## The places of filters -/

inductive Place where
  | literal
  | wildcard
  | global
  deriving DecidableEq, Repr

/-- Where `insertSub` puts a filter. -/
def placeOf (filter : Bytes) : Place :=
  if isLiteralFilter filter then .literal
  else if isWildcardToken (firstToken filter) then .global
  else .wildcard

/-- The wildcard table has no literal filters. -/
def NonLiteral (r : Router) : Prop := ∀ s ∈ r.wildcard.subs, isLiteralFilter s.subject = false

/-- The filters of the second table are filters of the first. -/
def FiltersFrom (t t' : BucketTable) : Prop :=
  ∀ s' ∈ t'.subs, ∃ s ∈ t.subs, s'.subject = s.subject

theorem NonLiteral.of_filters {r r' : Router} (h : NonLiteral r)
    (hfrom : FiltersFrom r.wildcard r'.wildcard) : NonLiteral r' := by
  intro s' hs'
  obtain ⟨s, hs, hsame⟩ := hfrom s' hs'
  rw [hsame]
  exact h s hs

theorem filtersFrom_sweep {f : Subscription → Option Subscription} (hf : KeepsSubject f)
    (t : BucketTable) : FiltersFrom t (sweepTable f t) := by
  intro s' hs'
  rw [(subs_sweepTable f t).mem_iff, List.mem_filterMap] at hs'
  obtain ⟨s, hs, heq⟩ := hs'
  exact ⟨s, hs, hf s s' heq⟩

theorem NonLiteral.sweep {w : World} (h : NonLiteral w.router)
    {f : Subscription → Option Subscription} (hf : KeepsSubject f) :
    NonLiteral (sweepRouter f w).router := by
  refine h.of_filters ?_
  rw [sweepRouter, foldl_noteSubRemoved_router]
  exact filtersFrom_sweep hf w.router.wildcard

theorem NonLiteral.insertSub {r : Router} (h : NonLiteral r) (hinv : RouterInv r) (A : Alloc)
    (sub : Subscription) : NonLiteral (insertSub A r sub.subject sub).1 := by
  unfold Monoblok.insertSub
  by_cases hlit : isLiteralFilter sub.subject = true
  · rw [if_pos hlit]
    exact h
  · rw [if_neg hlit]
    split_ifs
    · exact h
    · exact h
    · have hperm := subs_bucketAppend hinv.wildcard A (firstToken sub.subject) sub
      intro s hs
      rw [hperm.mem_iff] at hs
      split_ifs at hs
      · rcases List.mem_cons.mp hs with rfl | hs
        · simpa using hlit
        · exact h s hs
      · exact h s hs

theorem NonLiteral.subscribeQueue {w : World} (h : NonLiteral w.router) (hinv : RouterInv w.router)
    (A : Alloc) (conn : ConnId) (subject queue sid : Bytes) :
    NonLiteral (subscribeQueue A w conn subject queue sid).1.router := by
  have hspec := ensurePublishCapacity_spec A w.router (w.router.subCount + 1)
  have hcap : NonLiteral (ensurePublishCapacity A w.router (w.router.subCount + 1)).1 := by
    rw [hspec.eq]
    exact h
  have hstored : NonLiteral (storedRouter A w conn subject queue sid) :=
    hcap.insertSub (hinv.capacity hspec) A (newSub conn subject queue sid)
  cases hs : subStored A w conn subject queue sid with
  | true =>
    rw [subscribeQueue_of_stored hs]
    dsimp only
    split_ifs
    · exact hstored
    · refine NonLiteral.sweep ?_ (keepsSubject_unsubscribeOne conn sid none)
      exact hstored
    · exact hstored
  | false =>
    obtain ⟨r, heq, -, -, hr⟩ := subscribeQueue_of_not_stored hinv hs
    rw [heq]
    rcases hr with rfl | rfl | rfl
    · exact h
    · exact hcap
    · exact hstored

theorem filtersFrom_deliverWildcard (A : Alloc) {m : Message}
    (hvalid : subjectValid m.subject false = true) {p : Pub} (h : RouterInv p.world.router) :
    FiltersFrom p.world.router.wildcard (deliverWildcard A p m).1.world.router.wildcard := by
  obtain ⟨-, ⟨others, hbefore, hafter, -⟩, -⟩ := deliverWildcard_visit A hvalid h
  intro s' hs'
  rcases List.mem_append.mp (hafter.mem_iff.mp hs') with hs' | hs'
  · cases hph : wildcardPhase p m with
    | none =>
      rw [hph] at hs'
      exact absurd hs' List.not_mem_nil
    | some ph =>
      rw [hph, Option.elim_some] at hs' hbefore
      obtain ⟨s, hs, hsame⟩ :=
        (deliverMatchingList_spec A ph.pub ph.subs m ph.checkFilter).subjects s' hs'
      exact ⟨s, hbefore.mem_iff.mpr (List.mem_append_left _ hs), hsame⟩
  · exact ⟨s', hbefore.mem_iff.mpr (List.mem_append_right _ hs'), rfl⟩

theorem NonLiteral.deliverAll (A : Alloc) {m : Message}
    (hvalid : subjectValid m.subject false = true) {p : Pub} (h : NonLiteral p.world.router)
    (hinv : RouterInv p.world.router) : NonLiteral (deliverAll A p m).1.world.router := by
  obtain ⟨-, -, hwild, -⟩ := deliverLiteral_visit A hvalid hinv
  have hinv₁ := hinv.deliverLiteral A m
  unfold Monoblok.deliverAll
  generalize Monoblok.deliverLiteral A p m = q at hwild hinv₁ ⊢
  obtain ⟨p₁, ok₁⟩ := q
  dsimp only at hwild hinv₁ ⊢
  have h₁ : NonLiteral p₁.world.router := by
    rw [NonLiteral, hwild]
    exact h
  cases ok₁ with
  | false => exact h₁
  | true =>
    dsimp only
    have h₂ := h₁.of_filters (filtersFrom_deliverWildcard A hvalid hinv₁)
    generalize Monoblok.deliverWildcard A p₁ m = q at h₂ ⊢
    obtain ⟨p₂, ok₂⟩ := q
    cases ok₂ with
    | false => exact h₂
    | true =>
      obtain ⟨-, -, hwild₂, -⟩ := deliverGlobal_visit A m p₂
      dsimp only
      rw [NonLiteral, hwild₂]
      exact h₂

theorem NonLiteral.routerStep {w : World} (h : NonLiteral w.router) (hinv : RouterInv w.router)
    (call : RouterCall) : NonLiteral (routerStep w call).router := by
  cases call with
  | configureLvc A filters =>
    unfold Monoblok.routerStep Monoblok.configureLvc
    dsimp only
    split_ifs
    all_goals exact h
  | storeLvc A subject payload =>
    rw [NonLiteral, Monoblok.routerStep, (sameRouting_lvcStore A w.router subject payload).wildcard]
    exact h
  | subscribe A conn subject queue sid => exact h.subscribeQueue hinv A conn subject queue sid
  | unsubscribe conn sid maxMsgs => exact h.sweep (keepsSubject_unsubscribeOne conn sid maxMsgs)
  | removeAllFor conn => exact h.sweep (keepsSubject_removeForConn conn)
  | publish A m =>
    unfold Monoblok.routerStep
    dsimp only
    cases hstart : publishStart A w m with
    | none =>
      obtain ⟨-, -, -, -, hsame⟩ := publishWithReply_of_no_start hstart
      rw [NonLiteral, hsame.wildcard]
      exact h
    | some p =>
      obtain ⟨-, -, -, -, -, hp⟩ := publishStart_router hstart
      rw [publishWithReply_of_start hstart]
      refine NonLiteral.deliverAll A (publishStart_valid hstart) ?_ (hp hinv)
      rw [NonLiteral, publishStart_wildcard hstart]
      exact h
  | server conns => exact h

theorem Reachable.nonLiteral {w : World} (h : Reachable w) : NonLiteral w.router := by
  refine h.invariant (P := fun w => NonLiteral w.router) ?_ fun _ call hr ih =>
    ih.routerStep hr.inv call
  intro conns _ s hs
  exact absurd hs (by simp [routerInit, BucketTable.subs])

/-! ## The lists of a publish -/

theorem mem_literalPhase {p : Pub} {m : Message} (h : RouterInv p.world.router)
    (hvalid : subjectValid m.subject false = true) {ph : Phase} (hph : ph ∈ literalPhase p m)
    {s : Subscription} (hs : s ∈ ph.subs) :
    placeOf s.subject = .literal ∧ subjectMatches s.subject m.subject = true := by
  obtain ⟨i, hfind, rfl⟩ := Option.map_eq_some_iff.mp hph
  obtain ⟨b, hb, hkey⟩ := (bucketFind_eq_some h.literal.ok).mp hfind
  dsimp only at hs
  rw [bucketSubs_eq hb] at hs
  obtain ⟨hsame, hlit, hk⟩ :=
    h.literal.placed _ (BucketTable.mem_placed (List.mem_of_getElem? hb) hs)
  dsimp only at hsame hlit hk
  rw [← hsame] at hlit hk
  exact ⟨if_pos hlit, (subjectMatches_literal hlit hk hvalid).mpr (hsame.trans hkey)⟩

theorem mem_wildcardPhase {p : Pub} {m : Message} (h : RouterInv p.world.router)
    (hn : NonLiteral p.world.router) {ph : Phase} (hph : ph ∈ wildcardPhase p m)
    {s : Subscription} (hs : s ∈ ph.subs) :
    placeOf s.subject = .wildcard ∧ ph.checkFilter = true := by
  obtain ⟨i, hfind, rfl⟩ := Option.map_eq_some_iff.mp hph
  obtain ⟨b, hb, -⟩ := (bucketFind_eq_some h.wildcard.ok).mp hfind
  dsimp only at hs
  rw [bucketSubs_eq hb] at hs
  have hmem := List.mem_of_getElem? hb
  obtain ⟨hsame, hwild, -⟩ := h.wildcard.placed _ (BucketTable.mem_placed hmem hs)
  dsimp only at hsame hwild
  have hlit := hn s (List.mem_flatMap.mpr ⟨b, hmem, hs⟩)
  refine ⟨?_, rfl⟩
  rw [placeOf, hlit, if_neg (by decide), hsame, hwild, if_neg (by decide)]

theorem placeOf_global {filter : Bytes} (h : GlobalAt filter) : placeOf filter = .global := by
  have hlit : isLiteralFilter filter = false := by
    obtain ⟨fs, hfs⟩ := Tokens.exists_splitOn_eq_cons dot filter
    have hfirst := h.1
    rw [firstToken_eq, isWildcardToken, Bool.or_eq_true, beq_iff_eq, beq_iff_eq] at hfirst
    have hmem : ∀ b, Tokens.first dot filter = [b] → b ∈ filter := by
      intro b hb
      refine Tokens.mem_of_mem_splitOn (a := dot) (t := [b]) ?_ List.mem_cons_self
      rw [hfs, hb]
      exact List.mem_cons_self
    rw [isLiteralFilter, List.all_eq_false]
    rcases hfirst with hfirst | hfirst
    · exact ⟨star, hmem star hfirst, by simp⟩
    · exact ⟨gt, hmem gt hfirst, by simp⟩
  rw [placeOf, hlit, if_neg (by decide), h.1, if_pos rfl]

/-- The lists visited hold filters of different places. -/
theorem phasesFrom_places (A : Alloc) {m : Message} (hvalid : subjectValid m.subject false = true)
    {p : Pub} (h : RouterInv p.world.router) (hn : NonLiteral p.world.router) :
    ∃ l v g : Option Phase, phasesFrom A p m = l.toList ++ (v.toList ++ g.toList) ∧
      (∀ x ∈ l, ∀ s ∈ x.subs, placeOf s.subject = .literal ∧
        (x.checkFilter = true ∨ subjectMatches s.subject m.subject = true)) ∧
      (∀ x ∈ v, ∀ s ∈ x.subs, placeOf s.subject = .wildcard ∧
        (x.checkFilter = true ∨ subjectMatches s.subject m.subject = true)) ∧
      ∀ x ∈ g, ∀ s ∈ x.subs, placeOf s.subject = .global ∧
        (x.checkFilter = true ∨ subjectMatches s.subject m.subject = true) := by
  obtain ⟨-, -, hwild, hglobal⟩ := deliverLiteral_visit A hvalid h
  have h₁ := h.deliverLiteral A m
  have hliteral : ∀ x ∈ literalPhase p m, ∀ s ∈ x.subs, placeOf s.subject = .literal ∧
      (x.checkFilter = true ∨ subjectMatches s.subject m.subject = true) := by
    intro x hx s hs
    obtain ⟨hplace, hmatch⟩ := mem_literalPhase h hvalid hx hs
    exact ⟨hplace, .inr hmatch⟩
  unfold phasesFrom
  generalize deliverLiteral A p m = q at hwild hglobal h₁ ⊢
  obtain ⟨p₁, ok₁⟩ := q
  dsimp only at hwild hglobal h₁ ⊢
  cases ok₁ with
  | false => exact ⟨literalPhase p m, none, none, rfl, hliteral, by simp, by simp⟩
  | true =>
    obtain ⟨-, -, -, hglobal₂⟩ := deliverWildcard_visit A hvalid h₁
    have hn₁ : NonLiteral p₁.world.router := by
      rw [NonLiteral, hwild]
      exact hn
    have hwildcard : ∀ x ∈ wildcardPhase p₁ m, ∀ s ∈ x.subs, placeOf s.subject = .wildcard ∧
        (x.checkFilter = true ∨ subjectMatches s.subject m.subject = true) := by
      intro x hx s hs
      obtain ⟨hplace, hcheck⟩ := mem_wildcardPhase h₁ hn₁ hx hs
      exact ⟨hplace, .inl hcheck⟩
    generalize deliverWildcard A p₁ m = q at hglobal₂ ⊢
    obtain ⟨p₂, ok₂⟩ := q
    dsimp only at hglobal₂ ⊢
    cases ok₂ with
    | false =>
      refine ⟨literalPhase p m, wildcardPhase p₁ m, none, ?_, hliteral, hwildcard, by simp⟩
      simp
    | true =>
      refine ⟨literalPhase p m, wildcardPhase p₁ m, some (globalPhase p₂), ?_, hliteral, hwildcard,
        fun x hx s hs => ?_⟩
      · simp
      · cases hx
        refine ⟨placeOf_global (h.global s ?_), .inl rfl⟩
        rw [← hglobal, ← hglobal₂]
        exact hs

/-! ## At most one member -/

section Receipts

variable {A : Alloc} {m : Message} {key : GroupKey}

theorem Phase.mem_fates {ph : Phase} {x : Subscription × Subscription} (hx : x ∈ ph.fates A m) :
    x.1 ∈ ph.subs := by
  rw [← ph.fates_fst A m]
  exact List.mem_map_of_mem hx

/-- The receipts of a group in one of the lists. -/
def listReceipts (A : Alloc) (m : Message) (key : GroupKey) (o : Option Phase) : ℕ :=
  (o.toList.flatMap (Phase.fates A m)).countP (servedIn key)

theorem listReceipts_le_one {o : Option Phase} (hok : ∀ x ∈ o, (x.collect m).2.2 = true)
    (hqueue : key.2.1 ≠ []) : listReceipts A m key o ≤ 1 := by
  cases o with
  | none => exact Nat.zero_le _
  | some ph =>
    simp only [listReceipts, Option.toList_some, List.flatMap_cons, List.flatMap_nil,
      List.append_nil]
    exact Phase.receipts_le_one (hok ph rfl) hqueue

theorem listReceipts_eq_zero {o : Option Phase} (h : ∀ x ∈ o, ∀ s ∈ x.subs, subKey s ≠ key) :
    listReceipts A m key o = 0 := by
  rw [listReceipts, List.countP_eq_zero]
  intro x hx hserved
  obtain ⟨ph, hph, hx⟩ := List.mem_flatMap.mp hx
  simp only [servedIn, Bool.and_eq_true, decide_eq_true_eq] at hserved
  exact h ph (Option.mem_toList.mp hph) x.1 (Phase.mem_fates hx) hserved.1

/-- A list of other filters has no members of the group. -/
theorem listReceipts_of_place (A : Alloc) (m : Message) (key : GroupKey) {o : Option Phase}
    {place : Place} (h : ∀ x ∈ o, ∀ s ∈ x.subs, placeOf s.subject = place)
    (hne : placeOf key.1 ≠ place) :
    listReceipts A m key o = 0 := by
  refine listReceipts_eq_zero fun x hx s hs hkey => hne ?_
  rw [← hkey]
  exact h x hx s hs

theorem groupReceipts_eq {w : World} :
    groupReceipts A w m key =
      ((publishPhases A w m).flatMap (Phase.fates A m)).countP (servedIn key) := by
  have hothers : (((allSubs w.router).diff ((publishPhases A w m).flatMap Phase.subs)).map
      fun s => (s, s)).countP (servedIn key) = 0 := by
    rw [List.countP_eq_zero]
    intro x hx
    obtain ⟨s, -, rfl⟩ := List.mem_map.mp hx
    simp [servedIn]
  rw [groupReceipts, publishFates, List.countP_append, hothers, Nat.add_zero]

theorem groupReceipts_of_start {w : World} {p : Pub} (hstart : publishStart A w m = some p) :
    groupReceipts A w m key =
      ((phasesFrom A p m).flatMap (Phase.fates A m)).countP (servedIn key) := by
  rw [groupReceipts_eq, publishPhases, hstart]

theorem groupReceipts_of_no_start {w : World} (hstart : publishStart A w m = none) :
    groupReceipts A w m key = 0 := by
  rw [groupReceipts_eq, publishPhases, hstart]
  rfl

theorem groupReceipts_le_one {w : World} (hinv : RouterInv w.router) (hn : NonLiteral w.router)
    (hqueue : key.2.1 ≠ []) : groupReceipts A w m key ≤ 1 := by
  cases hstart : publishStart A w m with
  | none =>
    rw [groupReceipts_of_no_start hstart]
    exact Nat.zero_le _
  | some p =>
    obtain ⟨-, -, -, -, -, hp⟩ := publishStart_router hstart
    have hvalid := publishStart_valid hstart
    have hn' : NonLiteral p.world.router := by
      rw [NonLiteral, publishStart_wildcard hstart]
      exact hn
    obtain ⟨l, v, g, hphases, hl, hv, hg⟩ := phasesFrom_places A hvalid (hp hinv) hn'
    have hok : ∀ x ∈ phasesFrom A p m, (x.collect m).2.2 = true :=
      fun x hx => (phasesFrom_collect hvalid (hp hinv) x hx).2.2
    rw [hphases] at hok
    have hsum : groupReceipts A w m key =
        listReceipts A m key l + (listReceipts A m key v + listReceipts A m key g) := by
      rw [groupReceipts_of_start hstart, hphases, List.flatMap_append, List.flatMap_append,
        List.countP_append, List.countP_append]
      rfl
    have hl₁ := listReceipts_le_one (A := A) (o := l) (fun x hx => hok x
      (List.mem_append_left _ (Option.mem_toList.mpr hx))) hqueue
    have hv₁ := listReceipts_le_one (A := A) (o := v) (fun x hx => hok x
      (List.mem_append_right _ (List.mem_append_left _ (Option.mem_toList.mpr hx)))) hqueue
    have hg₁ := listReceipts_le_one (A := A) (o := g) (fun x hx => hok x
      (List.mem_append_right _ (List.mem_append_right _ (Option.mem_toList.mpr hx)))) hqueue
    -- the place of its filter leaves the group one of the three lists
    have hl₀ := listReceipts_of_place A m key fun x hx s hs => (hl x hx s hs).1
    have hv₀ := listReceipts_of_place A m key fun x hx s hs => (hv x hx s hs).1
    have hg₀ := listReceipts_of_place A m key fun x hx s hs => (hg x hx s hs).1
    rw [hsum]
    cases hplace : placeOf key.1 with
    | literal =>
      rw [hplace] at hv₀ hg₀
      have := hv₀ (by decide)
      have := hg₀ (by decide)
      omega
    | wildcard =>
      rw [hplace] at hl₀ hg₀
      have := hl₀ (by decide)
      have := hg₀ (by decide)
      omega
    | global =>
      rw [hplace] at hl₀ hv₀
      have := hl₀ (by decide)
      have := hv₀ (by decide)
      omega

end Receipts

/-! ## Without overflow -/

/-- No connection is closed for an output that is too long. -/
def NoOverflow (A : Alloc) (w : World) (m : Message) : Prop :=
  ∀ t ∈ publishTurns A w m,
    (t.after.world.conns t.sub.conn).closed = (t.before.world.conns t.sub.conn).closed

section Undisturbed

variable {A : Alloc} {m : Message}

theorem queueConnClose_closed (p : Pub) (c d : ConnId) :
    ((queueConnClose p c).1.world.conns d).closed =
      if d = c then true else (p.world.conns d).closed := by
  unfold queueConnClose
  dsimp only
  split_ifs with hclosed hdc hdc hdc hdc hdc hdc
  · rw [hdc]
    exact hclosed
  · rfl
  all_goals simp [updateConn_conns, hdc]

theorem noteKick_closed (p : Pub) (c d : ConnId) :
    ((noteKick p c).world.conns d).closed = (p.world.conns d).closed := by
  unfold noteKick
  dsimp only
  split_ifs
  · rw [updateConn_conns]
    split_ifs with hd
    · rw [hd]
    · rfl
  · rfl

/-- A delivery closes no other connection, and one that closes nothing and does
not fail is received. -/
theorem deliverToSub_closed (p : Pub) (sub : Subscription) :
    (∀ d, d ≠ sub.conn → ((deliverToSub A p sub m).2.1.world.conns d).closed =
        (p.world.conns d).closed) ∧
      ((p.world.conns sub.conn).closed = false → (deliverToSub A p sub m).2.2 = true →
        ((deliverToSub A p sub m).2.1.world.conns sub.conn).closed = false →
        (deliverToSub A p sub m).1 = { sub with delivered := sub.delivered + 1 }) := by
  unfold deliverToSub
  dsimp only
  split
  · exact ⟨fun _ _ => rfl, fun _ hok => absurd hok (by simp)⟩
  · exact ⟨fun _ _ => rfl, fun _ _ _ => rfl⟩
  · split_ifs
    · refine ⟨fun d hd => ?_, fun _ _ hclosed => ?_⟩
      · rw [queueConnClose_closed, if_neg hd]
      · rw [queueConnClose_closed, if_pos rfl] at hclosed
        exact absurd hclosed (by decide)
    · refine ⟨fun d hd => ?_, fun _ hok => absurd hok (by simp)⟩
      rw [updateConn_conns, if_neg hd]
    · refine ⟨fun d hd => ?_, fun _ _ _ => rfl⟩
      rw [noteKick_closed, updateConn_conns, if_neg hd]

theorem queueConnClose_out (p : Pub) (c d : ConnId) :
    ((queueConnClose p c).1.world.conns d).out = (p.world.conns d).out := by
  unfold queueConnClose
  dsimp only
  split_ifs
  · rfl
  all_goals
    simp only [updateConn_conns]
    split_ifs with hd
    · rw [hd]
    · rfl

theorem noteKick_out (p : Pub) (c d : ConnId) :
    ((noteKick p c).world.conns d).out = (p.world.conns d).out := by
  unfold noteKick
  dsimp only
  split_ifs
  · rw [updateConn_conns]
    split_ifs with hd
    · rw [hd]
    · rfl
  · rfl

/-- What a delivery writes. -/
theorem deliverToSub_out (p : Pub) (sub : Subscription) :
    (∀ d, d ≠ sub.conn → ((deliverToSub A p sub m).2.1.world.conns d).out =
        (p.world.conns d).out) ∧
      ((deliverToSub A p sub m).1 = sub → (deliverToSub A p sub m).2.2 = true →
        ((deliverToSub A p sub m).2.1.world.conns sub.conn).out = (p.world.conns sub.conn).out) ∧
      ((deliverToSub A p sub m).1 ≠ sub → measureMsg (p.world.conns sub.conn) sub m ≠ some 0 →
        writeMsgTo A p.writes (p.world.conns sub.conn) sub m =
          (((deliverToSub A p sub m).2.1.world.conns sub.conn).out, true)) := by
  unfold deliverToSub
  dsimp only
  split
  · exact ⟨fun _ _ => rfl, fun _ _ => rfl, fun h => absurd rfl h⟩
  · rename_i hzero
    exact ⟨fun _ _ => rfl, fun _ _ => rfl, fun _ h => absurd hzero h⟩
  · split_ifs with hroom hwrote
    · refine ⟨fun d _ => queueConnClose_out p sub.conn d, fun _ _ => queueConnClose_out p sub.conn _,
        fun h => absurd rfl h⟩
    · refine ⟨fun d hd => ?_, fun _ hok => absurd hok (by simp), fun h => absurd rfl h⟩
      rw [updateConn_conns, if_neg hd]
    · refine ⟨fun d hd => ?_, fun hsame => ?_, fun _ _ => ?_⟩
      · rw [noteKick_out, updateConn_conns, if_neg hd]
      · have := congrArg Subscription.delivered hsame
        simp at this
      · rw [noteKick_out, updateConn_conns, if_pos rfl]
        rw [Bool.not_eq_true, Bool.not_eq_false'] at hwrote
        exact Prod.ext rfl hwrote

/-- Connections are as open as they were, and the cache is configured as it was. -/
structure Undisturbed (w : World) (p : Pub) : Prop where
  closed : ∀ c, (p.world.conns c).closed = (w.conns c).closed
  lvcEnabled : p.world.router.lvcEnabled = w.router.lvcEnabled
  lvcFilters : p.world.router.lvcFilters = w.router.lvcFilters

theorem pubInvariant_undisturbed (w : World) : PubInvariant (Undisturbed w) := by
  constructor
  · intro p p' hsame h
    refine ⟨fun c => ?_, hsame.lvcEnabled.trans h.lvcEnabled, hsame.lvcFilters.trans h.lvcFilters⟩
    rw [hsame.conns]
    exact h.closed c
  · intro p sub h
    refine ⟨fun c => ?_, h.lvcEnabled, h.lvcFilters⟩
    rw [noteSubRemoved, updateConn_conns]
    split_ifs with hc
    · rw [hc]
      exact h.closed sub.conn
    · exact h.closed c

theorem Undisturbed.turn {w : World} {ph : Phase} {t : Turn} (ht : t ∈ ph.turns A m)
    (hquiet : (t.after.world.conns t.sub.conn).closed = (t.before.world.conns t.sub.conn).closed)
    (h : Undisturbed w t.before) : Undisturbed w t.after := by
  have hrouter := Phase.turns_router ht
  refine ⟨fun c => ?_, (congrArg Router.lvcEnabled hrouter).trans h.lvcEnabled,
    (congrArg Router.lvcFilters hrouter).trans h.lvcFilters⟩
  by_cases hc : c = t.sub.conn
  · rw [hc, hquiet]
    exact h.closed t.sub.conn
  · obtain ⟨-, heq | ⟨-, heq⟩⟩ := Phase.turns_cases ht
    · rw [heq]
      exact h.closed c
    · rw [heq]
      exact ((deliverToSub_closed t.before t.sub).1 c hc).trans (h.closed c)

/-- What is deliverable is settled before the publish. -/
theorem Undisturbed.deliverable {w : World} {p : Pub} (h : Undisturbed w p) {sub : Subscription}
    {checkFilter : Bool}
    (hcheck : checkFilter = true ∨ subjectMatches sub.subject m.subject = true) :
    subDeliverable p.world sub m.subject checkFilter =
      (due w.router m sub && !(w.conns sub.conn).closed) := by
  rw [subDeliverable_eq hcheck, World.line, h.closed,
    due_congr h.lvcEnabled h.lvcFilters m]

/-- Where no turn fails, every subscription has one. -/
theorem loopTurns_length {checkFilter : Bool} {groups : List QueueDelivery} {i : ℕ}
    {subs : List Subscription} {p : Pub}
    (h : (loopTurns A m checkFilter groups i subs p).all Turn.ok = true) :
    (loopTurns A m checkFilter groups i subs p).length = subs.length := by
  induction subs generalizing i p with
  | nil => rfl
  | cons sub subs ih =>
    unfold loopTurns at h ⊢
    dsimp only at h ⊢
    rw [List.all_cons, Bool.and_eq_true] at h
    rw [if_pos h.1] at h ⊢
    rw [List.length_cons, List.length_cons, ih h.2]

theorem Phase.turns_length {ph : Phase} (hcollect : (ph.collect m).2.2 = true)
    (h : (ph.turns A m).all Turn.ok = true) : (ph.turns A m).length = ph.subs.length := by
  have hturns : ph.turns A m = loopTurns A m ph.checkFilter (ph.collect m).1 0 ph.subs
      { ph.pub with world.router.queueRng := (ph.collect m).2.1 } := if_pos hcollect
  rw [hturns] at h ⊢
  exact loopTurns_length h

end Undisturbed

/-! ## The whole publish -/

section Publish

variable {A : Alloc} {w : World} {m : Message} {p : Pub} {key : GroupKey}

/-- Nobody gets a message his filter does not match. -/
theorem Phase.matches_of_served {ph : Phase} {x : Subscription × Subscription}
    (hcheck : ∀ s ∈ ph.subs, ph.checkFilter = true ∨ subjectMatches s.subject m.subject = true)
    (hx : x ∈ ph.fates A m) (hserved : x.2 ≠ x.1) :
    subjectMatches x.1.subject m.subject = true := by
  obtain ⟨j, hj⟩ := List.mem_iff_getElem?.mp hx
  obtain ⟨t, -, hsub, -, hchosen⟩ := Phase.fates_chosen hj hserved
  rw [Phase.chosen, subDeliverable_eq (hsub ▸ hcheck x.1 (Phase.mem_fates hx))] at hchosen
  simp only [due, Bool.and_eq_true] at hchosen
  rw [← hsub]
  exact hchosen.1.1.1

theorem phasesFrom_check (hvalid : subjectValid m.subject false = true)
    (h : RouterInv p.world.router) (hn : NonLiteral p.world.router) :
    ∀ ph ∈ phasesFrom A p m, ∀ s ∈ ph.subs,
      ph.checkFilter = true ∨ subjectMatches s.subject m.subject = true := by
  obtain ⟨l, v, g, hphases, hl, hv, hg⟩ := phasesFrom_places A hvalid h hn
  intro ph hph s hs
  rw [hphases, List.mem_append, List.mem_append] at hph
  rcases hph with hph | hph | hph
  · exact (hl ph (Option.mem_toList.mp hph) s hs).2
  · exact (hv ph (Option.mem_toList.mp hph) s hs).2
  · exact (hg ph (Option.mem_toList.mp hph) s hs).2

/-- What a publish starts from, with the facts about it that hold all along. -/
structure Started (A : Alloc) (w : World) (m : Message) (p : Pub) : Prop where
  start : publishStart A w m = some p
  valid : subjectValid m.subject false = true
  inv : RouterInv p.world.router
  nonLiteral : NonLiteral p.world.router
  undisturbed : Undisturbed w p

theorem started (hinv : RouterInv w.router) (hn : NonLiteral w.router)
    (hstart : publishStart A w m = some p) : Started A w m p := by
  obtain ⟨hconns, -, -, -, -, hp⟩ := publishStart_router hstart
  have hsame := sameRouting_lvcStore A w.router m.subject m.payload
  refine ⟨hstart, publishStart_valid hstart, hp hinv, ?_, fun c => by rw [hconns], ?_, ?_⟩
  · rw [NonLiteral, publishStart_wildcard hstart]
    exact hn
  all_goals
    unfold publishStart at hstart
    dsimp only at hstart
    split_ifs at hstart
    cases hstart
  · exact hsame.lvcEnabled
  · exact hsame.lvcFilters

/-- The turns of a publish that succeeds without overflow. -/
structure Served (w : World) (A : Alloc) (m : Message) (ph : Phase) : Prop where
  collect : (ph.collect m).2.2 = true
  check : ∀ s ∈ ph.subs, ph.checkFilter = true ∨ subjectMatches s.subject m.subject = true
  pub : Undisturbed w ph.pub
  turns : ∀ t ∈ ph.turns A m, Undisturbed w t.before ∧ Undisturbed w t.after ∧ t.ok = true
  length : (ph.turns A m).length = ph.subs.length

theorem Started.served (h : Started A w m p) (hok : (publishWithReply A w m).ok = true)
    (hquiet : NoOverflow A w m) : ∀ ph ∈ phasesFrom A p m, Served w A m ph := by
  have hvisits := deliverAll_visits A h.valid h.inv
  have hphases : publishPhases A w m = phasesFrom A p m := by
    rw [publishPhases, h.start]
  rw [publishWithReply_of_start h.start] at hok
  have hall := hvisits.ok_eq
  dsimp only at hok
  rw [hok, eq_comm, List.all_eq_true] at hall
  have hsame := ((pubInvariant_undisturbed w).visits hvisits
    (fun ph hph t ht hb => hb.turn ht (hquiet t ?_)) h.undisturbed).1
  · intro ph hph
    have hcollect := (phasesFrom_collect h.valid h.inv ph hph).2.2
    have hresult := hall ph hph
    rw [Phase.result_eq hcollect] at hresult
    refine ⟨hcollect, phasesFrom_check h.valid h.inv h.nonLiteral ph hph, (hsame ph hph).1,
      fun t ht => ?_, ?_⟩
    · obtain ⟨hbefore, hafter⟩ := (hsame ph hph).2 t ht
      exact ⟨hbefore, hafter, List.all_eq_true.mp hresult t ht⟩
    · exact Phase.turns_length hcollect hresult
  · rw [publishTurns, hphases]
    exact List.mem_flatMap.mpr ⟨ph, hph, ht⟩

/-- A turn is received exactly when the message is for the subscription, its
connection is open and it is chosen. -/
theorem Served.received_iff {ph : Phase} (h : Served w A m ph) {j : ℕ} {t : Turn}
    (hj : (ph.turns A m)[j]? = some t) :
    t.served ≠ t.sub ↔ due w.router m t.sub = true ∧ (w.conns t.sub.conn).closed = false ∧
      queueSelected (ph.collect m).1 t.sub j = true := by
  have ht := List.mem_of_getElem? hj
  obtain ⟨hsub, hcases⟩ := Phase.turns_getElem? hj
  obtain ⟨hbefore, hafter, hok⟩ := h.turns t ht
  have hchosen : ph.chosen m j t.before t.sub = true ↔ due w.router m t.sub = true ∧
      (w.conns t.sub.conn).closed = false ∧ queueSelected (ph.collect m).1 t.sub j = true := by
    rw [Phase.chosen, hbefore.deliverable (h.check t.sub (List.mem_of_getElem? hsub))]
    simp only [Bool.and_eq_true, Bool.not_eq_true', and_assoc]
  rw [← hchosen]
  rcases hcases with ⟨hno, heq⟩ | ⟨hyes, heq⟩
  · rw [hno]
    constructor
    · intro hserved
      exact absurd (congrArg Turn.served heq) hserved
    · intro hyes
      exact absurd hyes (by decide)
  · have hopen : (t.before.world.conns t.sub.conn).closed = false := by
      rw [hbefore.closed]
      exact (hchosen.mp hyes).2.1
    have hokeq : t.ok = (deliverToSub A t.before t.sub m).2.2 := congrArg Turn.ok heq
    have hafteq : t.after = (deliverToSub A t.before t.sub m).2.1 := congrArg Turn.after heq
    have hreceived := (deliverToSub_closed (A := A) (m := m) t.before t.sub).2 hopen
      (by rw [← hokeq]; exact hok)
      (by rw [← hafteq, hafter.closed, ← hbefore.closed]; exact hopen)
    have hserved : t.served = { t.sub with delivered := t.sub.delivered + 1 } :=
      (congrArg Turn.served heq).trans hreceived
    simp only [hyes, iff_true]
    intro hsame
    rw [hserved] at hsame
    have := congrArg Subscription.delivered hsame
    simp at this

theorem Served.fates_eq {ph : Phase} (h : Served w A m ph) :
    ph.fates A m = (ph.turns A m).map fun t => (t.sub, t.served) := by
  rw [Phase.fates, h.length, List.drop_length, List.map_nil, List.append_nil]

/-- A member that was chosen is served. -/
theorem Served.group_served {ph : Phase} (h : Served w A m ph) {s : Subscription}
    (hs : s ∈ ph.subs) (hqueue : s.queue ≠ []) (hdue : due w.router m s = true)
    (hopen : (w.conns s.conn).closed = false) :
    0 < (ph.fates A m).countP (servedIn (subKey s)) := by
  have hcollected := Phase.collected h.collect
  have hdeliver : subDeliverable ph.pub.world s m.subject ph.checkFilter = true := by
    rw [h.pub.deliverable (h.check s hs), hdue, hopen]
    rfl
  obtain ⟨g, hg, hkey⟩ := List.mem_map.mp (hcollected.complete s hs hqueue hdeliver)
  obtain ⟨s', hs', hkey', hqueue', hdeliver'⟩ := hcollected.selected g hg
  rw [h.pub.deliverable (h.check s' (List.mem_of_getElem? hs')), Bool.and_eq_true,
    Bool.not_eq_true'] at hdeliver'
  have hlt : g.selected < (ph.turns A m).length := by
    rw [h.length]
    exact (List.getElem?_eq_some_iff.mp hs').1
  have hturn := List.getElem?_eq_getElem hlt
  have hsub : (ph.turns A m)[g.selected].sub = s' := by
    have := (Phase.turns_getElem? hturn).1
    rw [hs'] at this
    exact (Option.some.inj this).symm
  have hselected : queueSelected (ph.collect m).1 s' g.selected = true := by
    simp only [queueSelected, Bool.or_eq_true, List.any_eq_true, Bool.and_eq_true, beq_iff_eq]
    exact .inr ⟨g, hg, rfl, queueGroupEq_iff.mpr hkey'.symm⟩
  have hserved := (h.received_iff hturn).mpr (by
    rw [hsub]
    exact ⟨hdeliver'.1, hdeliver'.2, hselected⟩)
  rw [h.fates_eq, List.countP_pos_iff]
  refine ⟨_, List.mem_map_of_mem (List.getElem_mem hlt), ?_⟩
  simp only [servedIn, Bool.and_eq_true, decide_eq_true_eq]
  refine ⟨?_, hserved⟩
  rw [hsub, hkey', hkey]

/-- Who is served in a list is due the message on an open connection. -/
theorem Served.due_of_served {ph : Phase} (h : Served w A m ph)
    {x : Subscription × Subscription} (hx : x ∈ ph.fates A m) (hserved : x.2 ≠ x.1) :
    due w.router m x.1 = true ∧ (w.conns x.1.conn).closed = false := by
  rw [h.fates_eq] at hx
  obtain ⟨t, ht, rfl⟩ := List.mem_map.mp hx
  obtain ⟨j, hj⟩ := List.mem_iff_getElem?.mp ht
  obtain ⟨hdue, hopen, -⟩ := (h.received_iff hj).mp hserved
  exact ⟨hdue, hopen⟩

/-- The plain subscriptions of a list are served on their own. -/
theorem Served.plain_iff {ph : Phase} (h : Served w A m ph) {x : Subscription × Subscription}
    (hx : x ∈ ph.fates A m) (hplain : x.1.queue = []) :
    x.2 ≠ x.1 ↔ due w.router m x.1 = true ∧ (w.conns x.1.conn).closed = false := by
  constructor
  · exact h.due_of_served hx
  · intro hdue
    rw [h.fates_eq] at hx
    obtain ⟨t, ht, rfl⟩ := List.mem_map.mp hx
    obtain ⟨j, hj⟩ := List.mem_iff_getElem?.mp ht
    refine (h.received_iff hj).mpr ⟨hdue.1, hdue.2, ?_⟩
    dsimp only at hplain
    rw [queueSelected, hplain]
    rfl

/-- The subscriptions outside the lists visited are not due the message. -/
theorem Started.others (h : Started A w m p) (hok : (publishWithReply A w m).ok = true) :
    ∃ others, (allSubs w.router).Perm ((phasesFrom A p m).flatMap Phase.subs ++ others) ∧
      ∀ s ∈ others, subjectMatches s.subject m.subject = false := by
  obtain ⟨-, -, -, hall, -⟩ := publishStart_router h.start
  obtain ⟨others, hperm, -, hothers⟩ := allSubs_deliverAll A h.valid h.inv
  rw [hall] at hperm
  rw [publishWithReply_of_start h.start] at hok
  exact ⟨others, hperm, hothers hok⟩

theorem Started.groupReceipts_eq (h : Started A w m p) (hok : (publishWithReply A w m).ok = true)
    (hquiet : NoOverflow A w m) (hle : groupReceipts A w m key ≤ 1) (hqueue : key.2.1 ≠ []) :
    groupReceipts A w m key =
      if ∃ s ∈ allSubs w.router, subKey s = key ∧ due w.router m s = true ∧
        (w.conns s.conn).closed = false then 1 else 0 := by
  have hserved := h.served hok hquiet
  obtain ⟨others, hperm, hothers⟩ := h.others hok
  rw [groupReceipts_of_start h.start] at hle ⊢
  split_ifs with hmember
  · obtain ⟨s, hs, rfl, hdue, hopen⟩ := hmember
    rcases List.mem_append.mp (hperm.mem_iff.mp hs) with hs | hs
    · obtain ⟨ph, hph, hs⟩ := List.mem_flatMap.mp hs
      have hpos := (hserved ph hph).group_served hs hqueue hdue hopen
      obtain ⟨x, hx, hin⟩ := List.countP_pos_iff.mp hpos
      have : 0 < ((phasesFrom A p m).flatMap (Phase.fates A m)).countP (servedIn (subKey s)) :=
        List.countP_pos_iff.mpr ⟨x, List.mem_flatMap.mpr ⟨ph, hph, hx⟩, hin⟩
      omega
    · rw [due, hothers s hs] at hdue
      exact absurd hdue (by simp)
  · rw [List.countP_eq_zero]
    intro x hx hin
    obtain ⟨ph, hph, hx⟩ := List.mem_flatMap.mp hx
    simp only [servedIn, Bool.and_eq_true, decide_eq_true_eq] at hin
    obtain ⟨hdue, hopen⟩ := (hserved ph hph).due_of_served hx hin.2
    refine hmember ⟨x.1, hperm.mem_iff.mpr ?_, hin.1, hdue, hopen⟩
    exact List.mem_append_left _ (List.mem_flatMap.mpr ⟨ph, hph, Phase.mem_fates hx⟩)

theorem Started.plain_iff (h : Started A w m p) (hok : (publishWithReply A w m).ok = true)
    (hquiet : NoOverflow A w m) {x : Subscription × Subscription} (hx : x ∈ publishFates A w m)
    (hplain : x.1.queue = []) :
    x.2 ≠ x.1 ↔ due w.router m x.1 = true ∧ (w.conns x.1.conn).closed = false := by
  obtain ⟨others, hperm, hothers⟩ := h.others hok
  rw [publishFates, publishPhases, h.start] at hx
  rcases List.mem_append.mp hx with hx | hx
  · obtain ⟨ph, hph, hx⟩ := List.mem_flatMap.mp hx
    exact (h.served hok hquiet ph hph).plain_iff hx hplain
  · obtain ⟨s, hs, rfl⟩ := List.mem_map.mp hx
    have hmatch := hothers s ((diff_perm_of_append hperm).mem_iff.mp hs)
    simp [due, hmatch]

/-- The connection of a subscription that gets the message is written to, and
no other; the others leave every output as it was. -/
theorem Phase.turn_written {ph : Phase} {t : Turn} (ht : t ∈ ph.turns A m) :
    (∀ c, c ≠ t.sub.conn → (t.after.world.conns c).out = (t.before.world.conns c).out) ∧
      (t.served = t.sub → t.ok = true →
        (t.after.world.conns t.sub.conn).out = (t.before.world.conns t.sub.conn).out) ∧
      (t.served ≠ t.sub → measureMsg (t.before.world.conns t.sub.conn) t.sub m ≠ some 0 →
        writeMsgTo A t.before.writes (t.before.world.conns t.sub.conn) t.sub m =
          ((t.after.world.conns t.sub.conn).out, true)) := by
  obtain ⟨-, heq | ⟨-, heq⟩⟩ := Phase.turns_cases ht
  · rw [heq]
    exact ⟨fun _ _ => rfl, fun _ _ => rfl, fun h => absurd rfl h⟩
  · obtain ⟨hother, hself⟩ := deliverToSub_out (A := A) (m := m) t.before t.sub
    rw [heq]
    exact ⟨hother, hself⟩

end Publish

/-- **Queue groups.** From any reachable state and any state of the generator, a
publish serves at most one member of a group, and none when the filter does not
match. Where it succeeds and no connection overflows, it serves exactly one
member of every group that the message is for and that has an open connection;
and a plain subscription is served for itself alone. -/
theorem queue_group_delivery {w₀ : World} (hr : Reachable w₀) (rng : UInt64) (A : Alloc)
    (m : Message) :
    let w : World := { w₀ with router.queueRng := rng }
    ((publishFates A w m).map Prod.fst).Perm (allSubs w.router) ∧
      (∀ t ∈ publishTurns A w m,
        (t.served = t.sub → t.ok = true →
          (t.after.world.conns t.sub.conn).out = (t.before.world.conns t.sub.conn).out) ∧
        (t.served ≠ t.sub → measureMsg (t.before.world.conns t.sub.conn) t.sub m ≠ some 0 →
          writeMsgTo A t.before.writes (t.before.world.conns t.sub.conn) t.sub m =
            ((t.after.world.conns t.sub.conn).out, true))) ∧
      (∀ key : GroupKey, key.2.1 ≠ [] → groupReceipts A w m key ≤ 1) ∧
      (∀ key : GroupKey, subjectMatches key.1 m.subject = false → groupReceipts A w m key = 0) ∧
      ((publishWithReply A w m).ok = true → NoOverflow A w m →
        (∀ key : GroupKey, key.2.1 ≠ [] → groupReceipts A w m key =
          if ∃ s ∈ allSubs w.router, subKey s = key ∧ due w.router m s = true ∧
            (w.conns s.conn).closed = false then 1 else 0) ∧
        ∀ x ∈ publishFates A w m, x.1.queue = [] →
          (x.2 ≠ x.1 ↔ due w.router m x.1 = true ∧ (w.conns x.1.conn).closed = false)) := by
  intro w
  have hinv : RouterInv w.router := by
    have h := hr.inv
    exact ⟨h.1, h.2, h.3, h.4, h.5, h.6, h.7⟩
  have hn : NonLiteral w.router := hr.nonLiteral
  have hmax : WithinMax w.router := hr.accounted.withinMax
  refine ⟨(publish_fates A m hinv hmax).1, ?_, fun key => groupReceipts_le_one hinv hn, ?_, ?_⟩
  · intro t ht
    obtain ⟨ph, -, ht⟩ := List.mem_flatMap.mp ht
    exact (Phase.turn_written ht).2
  · intro key hmatch
    cases hstart : publishStart A w m with
    | none => exact groupReceipts_of_no_start hstart
    | some p =>
      have h := started hinv hn hstart
      rw [groupReceipts_of_start hstart, List.countP_eq_zero]
      intro x hx hin
      obtain ⟨ph, hph, hx⟩ := List.mem_flatMap.mp hx
      simp only [servedIn, Bool.and_eq_true, decide_eq_true_eq] at hin
      have := Phase.matches_of_served (phasesFrom_check h.valid h.inv h.nonLiteral ph hph) hx hin.2
      rw [show x.1.subject = key.1 from congrArg Prod.fst hin.1, hmatch] at this
      exact absurd this (by decide)
  · intro hok hquiet
    cases hstart : publishStart A w m with
    | none =>
      rw [(publishWithReply_of_no_start hstart).1] at hok
      exact absurd hok (by decide)
    | some p =>
      have h := started hinv hn hstart
      exact ⟨fun key hqueue =>
          h.groupReceipts_eq hok hquiet (groupReceipts_le_one hinv hn hqueue) hqueue,
        fun x hx hplain => h.plain_iff hok hquiet hx hplain⟩

/-- Connections 0 and 1 share the queue `q`. -/
def queueWorld : World :=
  [RouterCall.subscribe .succeeds 0 (lit "a.*") (lit "q") (lit "1"),
    .subscribe .succeeds 1 (lit "a.*") (lit "q") (lit "2")].foldl routerStep
      ⟨routerInit, fun _ => plainConn⟩

theorem queueWorld_one_served :
    groupReceipts .succeeds { queueWorld with router.queueRng := 7 } ⟨lit "a.b", lit "hi", []⟩
      (lit "a.*", lit "q", false) = 1 := by
  have hr : Reachable queueWorld := Reachable.run (.init (fun _ => plainConn) fun _ => rfl) _
  obtain ⟨-, -, -, -, hserved⟩ := queue_group_delivery hr 7 .succeeds ⟨lit "a.b", lit "hi", []⟩
  obtain ⟨hgroup, -⟩ := hserved (by decide +kernel) (by unfold NoOverflow; decide +kernel)
  rw [hgroup (lit "a.*", lit "q", false) (by decide)]
  decide +kernel

end Monoblok
