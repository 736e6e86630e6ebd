import Monoblok.Router.LastValue

/-!
# The turns of a publish

A publish visits up to three lists, its phases. In each of them every
subscription has its turn, until one of them fails. The turns are read off the
delivery loop without changing it: any callbacks and any answers of the
allocator.
-/

namespace Monoblok

open SwapRemove

/-- One subscription's turn, with what it started from and what it left. -/
structure Turn where
  sub : Subscription
  before : Pub
  served : Subscription
  after : Pub
  ok : Bool

/-- The subscription got the message. -/
def Turn.received (t : Turn) : Prop := t.served = { t.sub with delivered := t.sub.delivered + 1 }

instance (t : Turn) : Decidable t.received := inferInstanceAs (Decidable (_ = _))

def takeTurn (A : Alloc) (m : Message) (checkFilter : Bool) (groups : List QueueDelivery) (i : ℕ)
    (sub : Subscription) (p : Pub) : Turn :=
  if !subDeliverable p.world sub m.subject checkFilter || !queueSelected groups sub i then
    ⟨sub, p, sub, p, true⟩
  else
    ⟨sub, p, (deliverToSub A p sub m).1, (deliverToSub A p sub m).2.1, (deliverToSub A p sub m).2.2⟩

def loopTurns (A : Alloc) (m : Message) (checkFilter : Bool) (groups : List QueueDelivery) :
    ℕ → List Subscription → Pub → List Turn
  | _, [], _ => []
  | i, sub :: subs, p =>
    let t := takeTurn A m checkFilter groups i sub p
    t :: if t.ok then loopTurns A m checkFilter groups (i + 1) subs t.after else []

/-- A list that a publish visits. -/
structure Phase where
  pub : Pub
  subs : List Subscription
  checkFilter : Bool

/-- The queue groups of the list. -/
def Phase.collect (ph : Phase) (m : Message) : List QueueDelivery × UInt64 × Bool :=
  collectLoop ph.pub.world m.subject ph.checkFilter 0 ph.subs [] ph.pub.world.router.queueRng

def Phase.turns (A : Alloc) (m : Message) (ph : Phase) : List Turn :=
  if (ph.collect m).2.2 then
    loopTurns A m ph.checkFilter (ph.collect m).1 0 ph.subs
      { ph.pub with world.router.queueRng := (ph.collect m).2.1 }
  else []

/-- What the list has become. -/
def Phase.result (A : Alloc) (m : Message) (ph : Phase) : List Subscription × Pub × Bool :=
  deliverMatchingList A ph.pub ph.subs m ph.checkFilter

/-- Where a publish starts to deliver, if it comes that far. -/
def publishStart (A : Alloc) (w : World) (m : Message) : Option Pub :=
  let r := (lvcStore A w.router m.subject m.payload).1
  if publishStores m && (lvcStore A w.router m.subject m.payload).2 then
    if r.kickCap < r.subCount ∨ r.closeCap < r.subCount ∨ r.queueCap < r.subCount then none
    else some ⟨{ w with router := { r with kickEpoch := nextKickEpoch r.kickEpoch } }, [], [], 0⟩
  else none

def literalPhase (p : Pub) (m : Message) : Option Phase :=
  (bucketFind p.world.router.literal m.subject).map fun i =>
    ⟨p, bucketSubs p.world.router.literal i, false⟩

def wildcardPhase (p : Pub) (m : Message) : Option Phase :=
  (bucketFind p.world.router.wildcard (firstToken m.subject)).map fun i =>
    ⟨p, bucketSubs p.world.router.wildcard i, true⟩

def globalPhase (p : Pub) : Phase := ⟨p, p.world.router.wildcardGlobal, true⟩

/-- The lists visited after the given start. -/
def phasesFrom (A : Alloc) (p : Pub) (m : Message) : List Phase :=
  (literalPhase p m).toList ++
    if (deliverLiteral A p m).2 then
      (wildcardPhase (deliverLiteral A p m).1 m).toList ++
        if (deliverWildcard A (deliverLiteral A p m).1 m).2 then
          [globalPhase (deliverWildcard A (deliverLiteral A p m).1 m).1]
        else []
    else []

def publishPhases (A : Alloc) (w : World) (m : Message) : List Phase :=
  match publishStart A w m with
  | none => []
  | some p => phasesFrom A p m

def publishTurns (A : Alloc) (w : World) (m : Message) : List Turn :=
  (publishPhases A w m).flatMap (Phase.turns A m)

/-! ## The loop and its turns -/

section Loop

variable {A : Alloc} {m : Message} {checkFilter : Bool} {groups : List QueueDelivery}

/-- Where a list of turns ends. -/
def endOf (p : Pub) (ts : List Turn) : Pub := (ts.getLast?.map Turn.after).getD p

theorem endOf_cons (p : Pub) (t : Turn) (ts : List Turn) : endOf p (t :: ts) = endOf t.after ts := by
  cases ts with
  | nil => rfl
  | cons u us =>
    rw [endOf, endOf, List.getLast?_cons_cons]
    cases h : (u :: us).getLast? with
    | none => simp at h
    | some v => rfl

theorem deliverLoop_eq_turns (i : ℕ) (subs : List Subscription) (p : Pub) :
    deliverLoop A m checkFilter groups i subs p =
      ((loopTurns A m checkFilter groups i subs p).map Turn.served ++
          subs.drop (loopTurns A m checkFilter groups i subs p).length,
        endOf p (loopTurns A m checkFilter groups i subs p),
        (loopTurns A m checkFilter groups i subs p).all Turn.ok) := by
  induction subs generalizing i p with
  | nil => rfl
  | cons sub subs ih =>
    unfold deliverLoop loopTurns takeTurn
    split_ifs with hskip
    · rw [ih]
      simp [endOf_cons]
    · dsimp only
      split
      · rename_i sub' p' heq
        rw [heq]
        simp [endOf]
      · rename_i sub' p' heq
        rw [heq]
        simp only [if_true]
        rw [ih]
        simp [endOf_cons]

theorem loopTurns_sub (i : ℕ) (subs : List Subscription) (p : Pub) :
    (loopTurns A m checkFilter groups i subs p).map Turn.sub =
      subs.take (loopTurns A m checkFilter groups i subs p).length := by
  induction subs generalizing i p with
  | nil => rfl
  | cons sub subs ih =>
    have hsub : (takeTurn A m checkFilter groups i sub p).sub = sub := by
      unfold takeTurn
      split_ifs <;> rfl
    unfold loopTurns
    dsimp only
    split_ifs
    · rw [List.map_cons, List.length_cons, List.take_succ_cons, ih, hsub]
    · simp [hsub]

/-- The turn at a position of the loop. -/
theorem loopTurns_getElem? {i j : ℕ} {subs : List Subscription} {p : Pub} {t : Turn}
    (h : (loopTurns A m checkFilter groups i subs p)[j]? = some t) :
    ∃ sub q, subs[j]? = some sub ∧ t = takeTurn A m checkFilter groups (i + j) sub q := by
  induction subs generalizing i j p with
  | nil => simp [loopTurns] at h
  | cons sub subs ih =>
    unfold loopTurns at h
    dsimp only at h
    cases j with
    | zero =>
      rw [List.getElem?_cons_zero, Option.some.injEq] at h
      exact ⟨sub, p, rfl, h.symm⟩
    | succ j =>
      rw [List.getElem?_cons_succ] at h
      split_ifs at h
      · obtain ⟨s, q, hs, ht⟩ := ih h
        refine ⟨s, q, hs, ?_⟩
        rw [ht, Nat.add_right_comm, Nat.add_assoc]
      · simp at h

/-- What holds where the turns start and is kept by each of them holds before
and after every turn, and where they end. -/
theorem loopTurns_invariant {I : Pub → Prop} {i : ℕ} {subs : List Subscription} {p : Pub}
    (hturn : ∀ t ∈ loopTurns A m checkFilter groups i subs p, I t.before → I t.after) (hp : I p) :
    (∀ t ∈ loopTurns A m checkFilter groups i subs p, I t.before ∧ I t.after) ∧
      I (endOf p (loopTurns A m checkFilter groups i subs p)) := by
  induction subs generalizing i p with
  | nil => exact ⟨fun t ht => absurd ht List.not_mem_nil, hp⟩
  | cons sub subs ih =>
    have hstart : (takeTurn A m checkFilter groups i sub p).before = p := by
      unfold takeTurn
      split_ifs <;> rfl
    unfold loopTurns at hturn ⊢
    dsimp only at hturn ⊢
    have hfirst : I (takeTurn A m checkFilter groups i sub p).before ∧
        I (takeTurn A m checkFilter groups i sub p).after := by
      have hbefore : I (takeTurn A m checkFilter groups i sub p).before := hstart.symm ▸ hp
      exact ⟨hbefore, hturn _ List.mem_cons_self hbefore⟩
    rw [endOf_cons]
    split_ifs at hturn ⊢
    · have hrest := ih (fun t ht => hturn t (List.mem_cons_of_mem _ ht)) hfirst.2
      refine ⟨fun t ht => ?_, hrest.2⟩
      rcases List.mem_cons.mp ht with rfl | ht
      · exact hfirst
      · exact hrest.1 t ht
    · refine ⟨fun t ht => ?_, hfirst.2⟩
      rw [List.mem_singleton.mp ht]
      exact hfirst

end Loop

/-! ## What becomes of a list -/

/-- Every subscription of the list with what its turn made of it; those after a
failed turn are as they were. -/
def Phase.fates (A : Alloc) (m : Message) (ph : Phase) : List (Subscription × Subscription) :=
  (ph.turns A m).map (fun t => (t.sub, t.served)) ++
    (ph.subs.drop (ph.turns A m).length).map fun s => (s, s)

theorem Phase.turns_sub (A : Alloc) (m : Message) (ph : Phase) :
    (ph.turns A m).map Turn.sub = ph.subs.take (ph.turns A m).length := by
  unfold Phase.turns
  split_ifs
  · exact loopTurns_sub _ _ _
  · simp

theorem Phase.fates_fst (A : Alloc) (m : Message) (ph : Phase) :
    (ph.fates A m).map Prod.fst = ph.subs := by
  have hdrop : (ph.subs.drop (ph.turns A m).length).map (Prod.fst ∘ fun s => (s, s)) =
      ph.subs.drop (ph.turns A m).length := List.map_id _
  rw [Phase.fates, List.map_append, List.map_map, List.map_map, hdrop]
  have hturns : (ph.turns A m).map (Prod.fst ∘ fun t => (t.sub, t.served)) =
      ph.subs.take (ph.turns A m).length := ph.turns_sub A m
  rw [hturns, List.take_append_drop]

theorem Phase.fates_snd (A : Alloc) (m : Message) (ph : Phase) :
    (ph.fates A m).map Prod.snd =
      (ph.turns A m).map Turn.served ++ ph.subs.drop (ph.turns A m).length := by
  have hdrop : (ph.subs.drop (ph.turns A m).length).map (Prod.snd ∘ fun s => (s, s)) =
      ph.subs.drop (ph.turns A m).length := List.map_id _
  rw [Phase.fates, List.map_append, List.map_map, List.map_map, hdrop]
  rfl

/-- The turn of the message goes to the subscription at this position. -/
def Phase.chosen (m : Message) (ph : Phase) (j : ℕ) (p : Pub) (sub : Subscription) : Bool :=
  subDeliverable p.world sub m.subject ph.checkFilter && queueSelected (ph.collect m).1 sub j

theorem Phase.turns_getElem? {A : Alloc} {m : Message} {ph : Phase} {j : ℕ} {t : Turn}
    (h : (ph.turns A m)[j]? = some t) :
    ph.subs[j]? = some t.sub ∧
      ((ph.chosen m j t.before t.sub = false ∧ t = ⟨t.sub, t.before, t.sub, t.before, true⟩) ∨
        (ph.chosen m j t.before t.sub = true ∧
          t = ⟨t.sub, t.before, (deliverToSub A t.before t.sub m).1,
            (deliverToSub A t.before t.sub m).2.1, (deliverToSub A t.before t.sub m).2.2⟩)) := by
  unfold Phase.turns at h
  split_ifs at h
  · obtain ⟨sub, q, hsub, ht⟩ := loopTurns_getElem? h
    rw [Nat.zero_add] at ht
    unfold takeTurn at ht
    split_ifs at ht with hskip
    · subst ht
      refine ⟨hsub, .inl ⟨?_, rfl⟩⟩
      rw [Phase.chosen, Bool.and_eq_false_iff]
      simpa using hskip
    · subst ht
      refine ⟨hsub, .inr ⟨?_, rfl⟩⟩
      rw [Phase.chosen, Bool.and_eq_true]
      simpa using hskip
  · simp at h

/-- A turn is passed over, or it is a delivery to an open connection. -/
theorem Phase.turns_cases {A : Alloc} {m : Message} {ph : Phase} {t : Turn}
    (h : t ∈ ph.turns A m) :
    t.sub ∈ ph.subs ∧
      (t = ⟨t.sub, t.before, t.sub, t.before, true⟩ ∨
        ((t.before.world.conns t.sub.conn).closed = false ∧
          t = ⟨t.sub, t.before, (deliverToSub A t.before t.sub m).1,
            (deliverToSub A t.before t.sub m).2.1, (deliverToSub A t.before t.sub m).2.2⟩)) := by
  obtain ⟨j, hj⟩ := List.mem_iff_getElem?.mp h
  obtain ⟨hsub, ⟨-, ht⟩ | ⟨hchosen, ht⟩⟩ := Phase.turns_getElem? hj
  · exact ⟨List.mem_of_getElem? hsub, .inl ht⟩
  · refine ⟨List.mem_of_getElem? hsub, .inr ⟨?_, ht⟩⟩
    simp only [Phase.chosen, subDeliverable, Bool.and_eq_true] at hchosen
    by_contra hclosed
    simp [hclosed] at hchosen

/-- Where the list is when all turns are over, before the sweep. -/
def Phase.last (A : Alloc) (m : Message) (ph : Phase) : Pub :=
  endOf { ph.pub with world.router.queueRng := (ph.collect m).2.1 } (ph.turns A m)

theorem Phase.result_eq {m : Message} {ph : Phase} (hok : (ph.collect m).2.2 = true) (A : Alloc) :
    ph.result A m =
      (sweepSubs deliveredMax ((ph.fates A m).map Prod.snd),
        { ph.last A m with
          world := (((ph.fates A m).map Prod.snd).filter fun s => (deliveredMax s).isNone).foldl
            noteSubRemoved (ph.last A m).world },
        (ph.turns A m).all Turn.ok) := by
  have hcollect : ph.collect m = ((ph.collect m).1, (ph.collect m).2.1, true) :=
    Prod.ext rfl (Prod.ext rfl hok)
  have hturns : ph.turns A m = loopTurns A m ph.checkFilter (ph.collect m).1 0 ph.subs
      { ph.pub with world.router.queueRng := (ph.collect m).2.1 } := if_pos hok
  rw [ph.fates_snd, Phase.last, hturns, Phase.result, deliverMatchingList]
  split
  · rename_i groups rng heq
    rw [Phase.collect, heq] at hok
    exact absurd hok (by simp)
  · rename_i groups rng heq
    rw [show ph.collect m = (groups, rng, true) from heq]
    simp only [deliverLoop_eq_turns, removeDeliveredMax]

/-! ## The phases of a publish -/

/-- A list taken out of a table: the rest stays as it is and has other keys. -/
theorem subs_setBucketSubs {t : BucketTable} (ht : t.Ok) {i : ℕ} {b : Bucket}
    (hb : t.buckets[i]? = some b) :
    ∃ others, t.subs.Perm (b.subs ++ others) ∧
      (∀ subs, (setBucketSubs t i subs).subs.Perm (subs ++ others)) ∧
      ∀ s ∈ others, ∃ c ∈ t.buckets, s ∈ c.subs ∧ c.key ≠ b.key := by
  obtain ⟨l₁, l₂, hl, rfl⟩ := split_at hb
  have hnodup := ht.nodup
  rw [BucketTable.keys, hl, List.map_append, List.map_cons, List.nodup_append] at hnodup
  obtain ⟨-, hnodup₂, hdisjoint⟩ := hnodup
  refine ⟨l₁.flatMap Bucket.subs ++ l₂.flatMap Bucket.subs, ?_, fun subs => ?_, fun s hs => ?_⟩
  · simp only [BucketTable.subs, hl, List.flatMap_append, List.flatMap_cons]
    exact List.perm_append_comm_assoc _ _ _
  · simp only [BucketTable.subs, setBucketSubs, hl, modify_append_cons, List.flatMap_append,
      List.flatMap_cons]
    exact List.perm_append_comm_assoc _ _ _
  · rw [hl]
    rcases List.mem_append.mp hs with hs | hs
    · obtain ⟨c, hc, hs⟩ := List.mem_flatMap.mp hs
      refine ⟨c, List.mem_append_left _ hc, hs, ?_⟩
      exact hdisjoint c.key (List.mem_map_of_mem hc) b.key List.mem_cons_self
    · obtain ⟨c, hc, hs⟩ := List.mem_flatMap.mp hs
      refine ⟨c, List.mem_append_right _ (List.mem_cons_of_mem b hc), hs, ?_⟩
      intro hkey
      exact (List.nodup_cons.mp hnodup₂).1 (hkey ▸ List.mem_map_of_mem hc)

/-- A publish leaves the counters of connections to its sweeps. -/
def Phase.removed (A : Alloc) (m : Message) (ph : Phase) : List Subscription :=
  ((ph.fates A m).map Prod.snd).filter fun s => (deliveredMax s).isNone

/-- Two states of a publish that differ in the tables, the number of
subscriptions and the generator at most. -/
structure SameScratch (p p' : Pub) : Prop where
  conns : p'.world.conns = p.world.conns
  kicked : p'.kicked = p.kicked
  closed : p'.closed = p.closed
  kickCap : p'.world.router.kickCap = p.world.router.kickCap
  closeCap : p'.world.router.closeCap = p.world.router.closeCap
  queueCap : p'.world.router.queueCap = p.world.router.queueCap
  kickEpoch : p'.world.router.kickEpoch = p.world.router.kickEpoch
  lvcEnabled : p'.world.router.lvcEnabled = p.world.router.lvcEnabled
  lvcFilters : p'.world.router.lvcFilters = p.world.router.lvcFilters

theorem SameScratch.refl (p : Pub) : SameScratch p p := by constructor <;> rfl

/-- Visiting at most one list of a router. -/
structure Visit (A : Alloc) (m : Message) (p : Pub) (ph : Option Phase) (p' : Pub) (ok : Bool) :
    Prop where
  start : ∀ x ∈ ph, x.pub = p
  same : SameScratch (ph.elim p fun x => (x.result A m).2.1) p'
  ok : ok = ph.elim true fun x => (x.result A m).2.2

/-- The subscriptions of a table are those of the list visited and others,
which stay and do not match. -/
def Splits (A : Alloc) (m : Message) (ph : Option Phase) (subs subs' : List Subscription) : Prop :=
  ∃ others, subs.Perm (ph.elim [] Phase.subs ++ others) ∧
    subs'.Perm (ph.elim [] (fun x => (x.result A m).1) ++ others) ∧
    ∀ s ∈ others, subjectMatches s.subject m.subject = false

/-- The literal filters of other buckets do not match. -/
theorem literalAt_other {m : Message} (hvalid : subjectValid m.subject false = true) {k : Bytes}
    {s : Subscription} (h : LiteralAt k s.subject) (hne : k ≠ m.subject) :
    subjectMatches s.subject m.subject = false := by
  obtain ⟨rfl, hlit, hkey⟩ := h
  by_contra hmatch
  exact hne ((subjectMatches_literal hlit hkey hvalid).mp (by simpa using hmatch))

theorem wildcardAt_other {m : Message} (hvalid : subjectValid m.subject false = true) {k : Bytes}
    {s : Subscription} (h : WildcardAt k s.subject) (hne : k ≠ firstToken m.subject) :
    subjectMatches s.subject m.subject = false := by
  obtain ⟨rfl, hwild, hs⟩ := h
  by_contra hmatch
  exact hne (subjectMatches_firstToken hwild hs hvalid (by simpa using hmatch))

section Table

variable {at' : Bytes → Bytes → Prop} {t : BucketTable} {m : Message} {key : Bytes}

/-- Without a bucket for the key nothing matches. -/
theorem not_matches_of_none (ht : TableInv at' t)
    (hother : ∀ k (s : Subscription), at' k s.subject → k ≠ key →
      subjectMatches s.subject m.subject = false)
    (hfind : bucketFind t key = none) : ∀ s ∈ t.subs, subjectMatches s.subject m.subject = false := by
  intro s hs
  obtain ⟨b, hb, hs⟩ := List.mem_flatMap.mp hs
  refine hother b.key s (ht.placed _ (BucketTable.mem_placed hb hs)) ?_
  rintro rfl
  exact (bucketFind_eq_none ht.ok).mp hfind (List.mem_map_of_mem hb)

theorem not_matches_of_other (ht : TableInv at' t)
    (hother : ∀ k (s : Subscription), at' k s.subject → k ≠ key →
      subjectMatches s.subject m.subject = false) {s : Subscription}
    (hs : ∃ c ∈ t.buckets, s ∈ c.subs ∧ c.key ≠ key) :
    subjectMatches s.subject m.subject = false := by
  obtain ⟨c, hc, hs, hne⟩ := hs
  exact hother c.key s (ht.placed _ (BucketTable.mem_placed hc hs)) hne

/-- A visit to the bucket of the key leaves out what does not match. -/
theorem splits_bucket (A : Alloc) (ht : TableInv at' t)
    (hother : ∀ k (s : Subscription), at' k s.subject → k ≠ key →
      subjectMatches s.subject m.subject = false)
    {i : ℕ} (hfind : bucketFind t key = some i) {ph : Phase} (hsubs : ph.subs = bucketSubs t i) :
    Splits A m (some ph) t.subs (setBucketSubs t i (ph.result A m).1).subs := by
  obtain ⟨b, hb, hkey⟩ := (bucketFind_eq_some ht.ok).mp hfind
  obtain ⟨others, hbefore, hafter, hothers⟩ := subs_setBucketSubs ht.ok hb
  rw [hkey] at hothers
  refine ⟨others, ?_, hafter _, ?_⟩
  · rw [Option.elim_some, hsubs, bucketSubs_eq hb]
    exact hbefore
  · intro s hs
    exact not_matches_of_other ht hother (hothers s hs)

end Table

theorem deliverLiteral_visit (A : Alloc) {m : Message}
    (hvalid : subjectValid m.subject false = true) {p : Pub} (h : RouterInv p.world.router) :
    Visit A m p (literalPhase p m) (deliverLiteral A p m).1 (deliverLiteral A p m).2 ∧
      Splits A m (literalPhase p m) p.world.router.literal.subs
        (deliverLiteral A p m).1.world.router.literal.subs ∧
      (deliverLiteral A p m).1.world.router.wildcard = p.world.router.wildcard ∧
      (deliverLiteral A p m).1.world.router.wildcardGlobal = p.world.router.wildcardGlobal := by
  unfold deliverLiteral literalPhase
  cases hfind : bucketFind p.world.router.literal m.subject with
  | none =>
    refine ⟨?_, ⟨_, .refl _, .refl _, ?_⟩, rfl, rfl⟩
    · exact ⟨by simp, .refl _, rfl⟩
    · exact not_matches_of_none h.literal (fun k s => literalAt_other hvalid) hfind
  | some i =>
    obtain ⟨rng, hrouter⟩ :=
      (deliverMatchingList_spec A p (bucketSubs p.world.router.literal i) m false).router
    dsimp only [Option.map_some]
    refine ⟨?_, ?_, by rw [hrouter], by rw [hrouter]⟩
    · exact ⟨by simp, by constructor <;> rfl, rfl⟩
    · rw [hrouter]
      exact splits_bucket A h.literal (fun k s => literalAt_other hvalid) hfind rfl

theorem deliverWildcard_visit (A : Alloc) {m : Message}
    (hvalid : subjectValid m.subject false = true) {p : Pub} (h : RouterInv p.world.router) :
    Visit A m p (wildcardPhase p m) (deliverWildcard A p m).1 (deliverWildcard A p m).2 ∧
      Splits A m (wildcardPhase p m) p.world.router.wildcard.subs
        (deliverWildcard A p m).1.world.router.wildcard.subs ∧
      (deliverWildcard A p m).1.world.router.literal = p.world.router.literal ∧
      (deliverWildcard A p m).1.world.router.wildcardGlobal = p.world.router.wildcardGlobal := by
  unfold deliverWildcard wildcardPhase
  cases hfind : bucketFind p.world.router.wildcard (firstToken m.subject) with
  | none =>
    refine ⟨?_, ⟨_, .refl _, .refl _, ?_⟩, rfl, rfl⟩
    · exact ⟨by simp, .refl _, rfl⟩
    · exact not_matches_of_none h.wildcard (fun k s => wildcardAt_other hvalid) hfind
  | some i =>
    obtain ⟨rng, hrouter⟩ :=
      (deliverMatchingList_spec A p (bucketSubs p.world.router.wildcard i) m true).router
    dsimp only [Option.map_some]
    refine ⟨?_, ?_, by rw [hrouter], by rw [hrouter]⟩
    · exact ⟨by simp, by constructor <;> rfl, rfl⟩
    · rw [hrouter]
      exact splits_bucket A h.wildcard (fun k s => wildcardAt_other hvalid) hfind rfl

theorem deliverGlobal_visit (A : Alloc) (m : Message) (p : Pub) :
    Visit A m p (some (globalPhase p)) (deliverGlobal A p m).1 (deliverGlobal A p m).2 ∧
      (deliverGlobal A p m).1.world.router.literal = p.world.router.literal ∧
      (deliverGlobal A p m).1.world.router.wildcard = p.world.router.wildcard ∧
      (deliverGlobal A p m).1.world.router.wildcardGlobal = ((globalPhase p).result A m).1 := by
  obtain ⟨rng, hrouter⟩ :=
    (deliverMatchingList_spec A p p.world.router.wildcardGlobal m true).router
  unfold deliverGlobal globalPhase
  dsimp only [Option.elim_some, Phase.result]
  refine ⟨?_, by rw [hrouter], by rw [hrouter], rfl⟩
  exact ⟨by simp, by constructor <;> rfl, rfl⟩

/-- What a publish keeps between its turns. -/
structure PubInvariant (I : Pub → Prop) : Prop where
  congr : ∀ p p', SameScratch p p' → I p → I p'
  remove : ∀ p sub, I p → I { p with world := noteSubRemoved p.world sub }

section Phases

variable {A : Alloc} {m : Message} {I : Pub → Prop}

theorem PubInvariant.sweep (h : PubInvariant I) (l : List Subscription) {p : Pub} (hp : I p) :
    I { p with world := l.foldl noteSubRemoved p.world } := by
  induction l generalizing p with
  | nil => exact hp
  | cons s l ih => exact ih (h.remove p s hp)

theorem PubInvariant.phase (h : PubInvariant I) {ph : Phase}
    (hturn : ∀ t ∈ ph.turns A m, I t.before → I t.after) (hp : I ph.pub) :
    (∀ t ∈ ph.turns A m, I t.before ∧ I t.after) ∧ I (ph.result A m).2.1 := by
  have hrng : ∀ rng, I { ph.pub with world.router.queueRng := rng } := by
    intro rng
    refine h.congr ph.pub _ ?_ hp
    constructor <;> rfl
  cases hok : (ph.collect m).2.2 with
  | false =>
    have hturns : ph.turns A m = [] := by rw [Phase.turns, hok, if_neg (by decide)]
    refine ⟨by simp [hturns], ?_⟩
    rw [Phase.result, deliverMatchingList]
    split
    · exact hrng _
    · rename_i groups rng heq
      rw [Phase.collect, heq] at hok
      exact absurd hok (by simp)
  | true =>
    have hturns : ph.turns A m = loopTurns A m ph.checkFilter (ph.collect m).1 0 ph.subs
        { ph.pub with world.router.queueRng := (ph.collect m).2.1 } := if_pos hok
    rw [Phase.result_eq hok, Phase.last]
    rw [hturns] at hturn ⊢
    have hloop := loopTurns_invariant hturn (hrng (ph.collect m).2.1)
    exact ⟨hloop.1, h.sweep _ hloop.2⟩

theorem PubInvariant.visit (h : PubInvariant I) {p p' : Pub} {ph : Option Phase} {ok : Bool}
    (hv : Visit A m p ph p' ok)
    (hturn : ∀ x ∈ ph, ∀ t ∈ x.turns A m, I t.before → I t.after) (hp : I p) :
    (∀ x ∈ ph, I x.pub ∧ ∀ t ∈ x.turns A m, I t.before ∧ I t.after) ∧ I p' := by
  cases ph with
  | none => exact ⟨by simp, h.congr _ _ hv.same hp⟩
  | some x =>
    have hx : I x.pub := by
      rw [hv.start x rfl]
      exact hp
    have hphase := h.phase (hturn x rfl) hx
    refine ⟨fun y hy => ?_, h.congr _ _ hv.same hphase.2⟩
    cases hy
    exact ⟨hx, hphase.1⟩

/-- Lists visited one after the other, up to a failure. -/
inductive Visits (A : Alloc) (m : Message) : Pub → List Phase → Pub → Bool → Prop
  | nil (p : Pub) : Visits A m p [] p true
  | stop {p p' : Pub} {ph : Option Phase} :
      Visit A m p ph p' false → Visits A m p ph.toList p' false
  | step {p p₁ p' : Pub} {ph : Option Phase} {phs : List Phase} {ok : Bool} :
      Visit A m p ph p₁ true → Visits A m p₁ phs p' ok → Visits A m p (ph.toList ++ phs) p' ok

theorem Visit.visits {p p' : Pub} {ph : Option Phase} {ok : Bool} (h : Visit A m p ph p' ok) :
    Visits A m p ph.toList p' ok := by
  cases ok with
  | false => exact .stop h
  | true =>
    rw [← List.append_nil ph.toList]
    exact .step h (.nil p')

theorem deliverAll_visits (A : Alloc) {m : Message} (hvalid : subjectValid m.subject false = true)
    {p : Pub} (h : RouterInv p.world.router) :
    Visits A m p (phasesFrom A p m) (deliverAll A p m).1 (deliverAll A p m).2 := by
  obtain ⟨hlit, -⟩ := deliverLiteral_visit A hvalid h
  have h₁ := h.deliverLiteral A m
  unfold deliverAll phasesFrom
  cases hok₁ : deliverLiteral A p m with
  | mk p₁ ok₁ =>
    rw [hok₁] at hlit h₁
    dsimp only at hlit h₁ ⊢
    cases ok₁ with
    | false =>
      rw [if_neg (by decide), List.append_nil]
      exact hlit.visits
    | true =>
      dsimp only
      rw [if_pos rfl]
      refine .step hlit ?_
      obtain ⟨hwild, -⟩ := deliverWildcard_visit A hvalid h₁
      cases hok₂ : deliverWildcard A p₁ m with
      | mk p₂ ok₂ =>
        rw [hok₂] at hwild
        dsimp only at hwild ⊢
        cases ok₂ with
        | false =>
          rw [if_neg (by decide), List.append_nil]
          exact hwild.visits
        | true =>
          rw [if_pos rfl]
          exact .step hwild (deliverGlobal_visit A m p₂).1.visits

theorem PubInvariant.visits (h : PubInvariant I) {p p' : Pub} {phs : List Phase} {ok : Bool}
    (hv : Visits A m p phs p' ok)
    (hturn : ∀ x ∈ phs, ∀ t ∈ x.turns A m, I t.before → I t.after) (hp : I p) :
    (∀ x ∈ phs, I x.pub ∧ ∀ t ∈ x.turns A m, I t.before ∧ I t.after) ∧ I p' := by
  induction hv with
  | nil p => exact ⟨by simp, hp⟩
  | stop hv =>
    obtain ⟨hturns, hend⟩ := h.visit hv (fun x hx => hturn x (Option.mem_toList.mpr hx)) hp
    exact ⟨fun x hx => hturns x (Option.mem_toList.mp hx), hend⟩
  | step hv _ ih =>
    obtain ⟨hturns, hnext⟩ := h.visit hv
      (fun x hx => hturn x (List.mem_append_left _ (Option.mem_toList.mpr hx))) hp
    obtain ⟨hrest, hend⟩ := ih (fun x hx => hturn x (List.mem_append_right _ hx)) hnext
    refine ⟨fun x hx => ?_, hend⟩
    rcases List.mem_append.mp hx with hx | hx
    · exact hturns x (Option.mem_toList.mp hx)
    · exact hrest x hx

/-- The publish succeeds when every list does. -/
theorem Visits.ok_eq {p p' : Pub} {phs : List Phase} {ok : Bool} (hv : Visits A m p phs p' ok) :
    ok = phs.all fun x => (x.result A m).2.2 := by
  induction hv with
  | nil p => rfl
  | stop hv =>
    rename_i ph
    cases ph with
    | none => exact absurd hv.ok (by simp)
    | some x => simpa using hv.ok
  | step hv _ ih =>
    rename_i ph _ _ _
    rw [List.all_append, ← ih]
    cases ph with
    | none => simp
    | some x =>
      have hok : true = (x.result A m).2.2 := hv.ok
      simp [← hok]

end Phases

theorem perm_regroup {α : Type*} (a b c d e : List α) :
    (a ++ b ++ (c ++ d) ++ e).Perm (a ++ (c ++ e) ++ (b ++ d)) := by
  have hlast : (d ++ e).Perm (e ++ d) := List.perm_append_comm
  simp only [List.append_assoc]
  calc
    (a ++ (b ++ (c ++ (d ++ e)))).Perm (a ++ (c ++ (b ++ (d ++ e)))) :=
      .append_left a (List.perm_append_comm_assoc b c (d ++ e))
    List.Perm _ (a ++ (c ++ (b ++ (e ++ d)))) := .append_left a (.append_left c (.append_left b hlast))
    List.Perm _ (a ++ (c ++ (e ++ (b ++ d)))) :=
      .append_left a (.append_left c (List.perm_append_comm_assoc b e d))

/-- What the lists visited hold of the subscriptions, and what they leave. -/
theorem allSubs_deliverAll (A : Alloc) {m : Message} (hvalid : subjectValid m.subject false = true)
    {p : Pub} (h : RouterInv p.world.router) :
    ∃ others, (allSubs p.world.router).Perm ((phasesFrom A p m).flatMap Phase.subs ++ others) ∧
      (allSubs (deliverAll A p m).1.world.router).Perm
        ((phasesFrom A p m).flatMap (fun x => (x.result A m).1) ++ others) ∧
      ((deliverAll A p m).2 = true →
        ∀ s ∈ others, subjectMatches s.subject m.subject = false) := by
  obtain ⟨-, ⟨others₁, hlit, hlit', hothers₁⟩, hwild, hglobal⟩ := deliverLiteral_visit A hvalid h
  have h₁ := h.deliverLiteral A m
  have htoList : ∀ (ph : Option Phase) (f : Phase → List Subscription),
      ph.toList.flatMap f = ph.elim [] f := by
    intro ph f
    cases ph <;> simp
  unfold deliverAll phasesFrom
  generalize deliverLiteral A p m = q at hlit' hwild hglobal h₁ ⊢
  obtain ⟨p₁, ok₁⟩ := q
  dsimp only at hlit' hwild hglobal h₁ ⊢
  cases ok₁ with
  | false =>
    refine ⟨others₁ ++ p.world.router.wildcard.subs ++ p.world.router.wildcardGlobal, ?_, ?_,
      by simp⟩
    · simp only [allSubs, Bool.false_eq_true, if_false, List.append_nil, htoList]
      simpa [List.append_assoc] using
        hlit.append_right (p.world.router.wildcard.subs ++ p.world.router.wildcardGlobal)
    · simp only [allSubs, Bool.false_eq_true, if_false, List.append_nil, htoList, hwild, hglobal]
      simpa [List.append_assoc] using
        hlit'.append_right (p.world.router.wildcard.subs ++ p.world.router.wildcardGlobal)
  | true =>
    dsimp only
    obtain ⟨-, ⟨others₂, hw, hw', hothers₂⟩, hlit₂, hglobal₂⟩ := deliverWildcard_visit A hvalid h₁
    rw [hwild] at hw
    rw [hglobal] at hglobal₂
    generalize deliverWildcard A p₁ m = q at hw' hlit₂ hglobal₂ ⊢
    obtain ⟨p₂, ok₂⟩ := q
    dsimp only at hw' hlit₂ hglobal₂ ⊢
    rw [← hlit₂] at hlit'
    cases ok₂ with
    | false =>
      refine ⟨others₁ ++ others₂ ++ p.world.router.wildcardGlobal, ?_, ?_, by simp⟩
      · simp only [allSubs, Bool.false_eq_true, if_false, if_true, List.append_nil, htoList,
          List.flatMap_append]
        refine ((hlit.append hw).append_right _).trans ?_
        simp only [List.append_assoc]
        exact .append_left _ (List.perm_append_comm_assoc _ _ _)
      · simp only [allSubs, Bool.false_eq_true, if_false, if_true, List.append_nil, htoList,
          List.flatMap_append, hglobal₂]
        refine ((hlit'.append hw').append_right _).trans ?_
        simp only [List.append_assoc]
        exact .append_left _ (List.perm_append_comm_assoc _ _ _)
    | true =>
      obtain ⟨-, hlit₃, hwild₃, hglobal₃⟩ := deliverGlobal_visit A m p₂
      rw [← hlit₃] at hlit'
      rw [← hwild₃] at hw'
      refine ⟨others₁ ++ others₂, ?_, ?_, fun _ s hs => ?_⟩
      · simp only [allSubs, if_true, htoList, List.flatMap_append, List.flatMap_cons,
          List.flatMap_nil, List.append_nil, globalPhase, hglobal₂]
        refine ((hlit.append hw).append_right _).trans ?_
        exact perm_regroup _ _ _ _ _
      · simp only [allSubs, if_true, htoList, List.flatMap_append, List.flatMap_cons,
          List.flatMap_nil, List.append_nil, hglobal₃]
        refine ((hlit'.append hw').append_right _).trans ?_
        exact perm_regroup _ _ _ _ _
      · rcases List.mem_append.mp hs with hs | hs
        · exact hothers₁ s hs
        · exact hothers₂ s hs

/-! ## The whole publish -/

theorem publishWithReply_of_start {A : Alloc} {w : World} {m : Message} {p : Pub}
    (h : publishStart A w m = some p) :
    publishWithReply A w m =
      ⟨(deliverAll A p m).1.world, (deliverAll A p m).2, (deliverAll A p m).1.closed,
        (deliverAll A p m).1.kicked⟩ := by
  unfold publishStart at h
  dsimp only at h
  split_ifs at h with hstores hcap
  rw [Bool.and_eq_true] at hstores
  obtain ⟨hstores, hok⟩ := hstores
  obtain ⟨hvalid, hreply, hlvc⟩ := publishStores_checks hstores
  unfold publishWithReply
  rw [hvalid, hreply, hlvc, if_neg (by decide), if_neg (by decide), if_neg (by decide)]
  split
  · rename_i r heq
    rw [heq] at hok
    exact absurd hok (by simp)
  · rename_i r heq
    rw [heq] at hcap h
    rw [if_neg hcap]
    cases h
    rfl

/-- A publish that does not come to deliver. -/
theorem publishWithReply_of_no_start {A : Alloc} {w : World} {m : Message}
    (h : publishStart A w m = none) :
    (publishWithReply A w m).ok = false ∧ (publishWithReply A w m).closed = [] ∧
      (publishWithReply A w m).kicked = [] ∧ (publishWithReply A w m).world.conns = w.conns ∧
      SameRouting w.router (publishWithReply A w m).world.router := by
  have hsame := sameRouting_lvcStore A w.router m.subject m.payload
  unfold publishWithReply
  split
  · exact ⟨rfl, rfl, rfl, rfl, .refl _⟩
  · rename_i hvalid
    split
    · exact ⟨rfl, rfl, rfl, rfl, .refl _⟩
    · rename_i hreply
      split
      · exact ⟨rfl, rfl, rfl, rfl, .refl _⟩
      · rename_i hlvc
        have hstores : publishStores m = true := by
          simp only [Bool.not_eq_true', Bool.not_eq_false, Bool.and_eq_true, not_and] at hvalid hreply hlvc
          cases hempty : m.replyTo.isEmpty <;> simp_all [publishStores]
        split
        · rename_i r heq
          rw [heq] at hsame
          exact ⟨rfl, rfl, rfl, rfl, hsame⟩
        · rename_i r heq
          rw [heq] at hsame
          split
          · exact ⟨rfl, rfl, rfl, rfl, hsame⟩
          · rename_i hcap
            rw [publishStart, heq] at h
            simp [hstores, if_neg hcap] at h

theorem publishStart_valid {A : Alloc} {w : World} {m : Message} {p : Pub}
    (h : publishStart A w m = some p) : subjectValid m.subject false = true := by
  unfold publishStart at h
  dsimp only at h
  split_ifs at h with hstores
  rw [Bool.and_eq_true] at hstores
  exact (publishStores_checks hstores.1).1

theorem publishStart_wildcard {A : Alloc} {w : World} {m : Message} {p : Pub}
    (h : publishStart A w m = some p) : p.world.router.wildcard = w.router.wildcard := by
  have hsame := sameRouting_lvcStore A w.router m.subject m.payload
  unfold publishStart at h
  dsimp only at h
  split_ifs at h
  cases h
  exact hsame.wildcard

theorem publishStart_router {A : Alloc} {w : World} {m : Message} {p : Pub}
    (h : publishStart A w m = some p) :
    p.world.conns = w.conns ∧ p.kicked = [] ∧ p.closed = [] ∧
      allSubs p.world.router = allSubs w.router ∧
      (p.world.router.kickCap = w.router.kickCap ∧ p.world.router.closeCap = w.router.closeCap ∧
        p.world.router.queueCap = w.router.queueCap) ∧
      (RouterInv w.router → RouterInv p.world.router) := by
  have hsame := sameRouting_lvcStore A w.router m.subject m.payload
  unfold publishStart at h
  dsimp only at h
  split_ifs at h
  cases h
  refine ⟨rfl, rfl, rfl, ?_, ⟨hsame.kickCap, hsame.closeCap, hsame.queueCap⟩, fun hinv => ?_⟩
  · rw [allSubs, allSubs, ← hsame.literal, ← hsame.wildcard, ← hsame.wildcardGlobal]
  · have hinv' := hinv.sameRouting hsame
    exact ⟨hinv'.1, hinv'.2, hinv'.3, hinv'.4, hinv'.5, hinv'.6, hinv'.7⟩

/-! ## What becomes of every subscription -/

theorem deliverToSub_served (A : Alloc) (p : Pub) (sub : Subscription) (m : Message) :
    (deliverToSub A p sub m).1 = sub ∨
      (deliverToSub A p sub m).1 = { sub with delivered := sub.delivered + 1 } := by
  unfold deliverToSub
  dsimp only
  split
  · exact .inl rfl
  · exact .inr rfl
  · split_ifs
    · exact .inl rfl
    · exact .inl rfl
    · exact .inr rfl

theorem Phase.fates_served {A : Alloc} {m : Message} {ph : Phase} {x : Subscription × Subscription}
    (hx : x ∈ ph.fates A m) : x.2 = x.1 ∨ x.2 = { x.1 with delivered := x.1.delivered + 1 } := by
  rw [Phase.fates, List.mem_append, List.mem_map, List.mem_map] at hx
  rcases hx with ⟨t, ht, rfl⟩ | ⟨s, -, rfl⟩
  · obtain ⟨-, heq | ⟨-, heq⟩⟩ := Phase.turns_cases ht
    · rw [heq]
      exact .inl rfl
    · rw [heq]
      exact deliverToSub_served A t.before t.sub m
  · exact .inl rfl

/-- Every stored subscription with what a publish makes of it, before those that
have reached their maximum are removed. -/
def publishFates (A : Alloc) (w : World) (m : Message) : List (Subscription × Subscription) :=
  (publishPhases A w m).flatMap (Phase.fates A m) ++
    ((allSubs w.router).diff ((publishPhases A w m).flatMap Phase.subs)).map fun s => (s, s)

/-- No stored subscription has reached its maximum. -/
def WithinMax (r : Router) : Prop :=
  ∀ s ∈ allSubs r, s.hasMaxMsgs = true → s.delivered < s.maxMsgs

theorem deliveredMax_of_lt {s : Subscription} (h : s.hasMaxMsgs = true → s.delivered < s.maxMsgs) :
    deliveredMax s = some s := by
  unfold deliveredMax
  split_ifs with hmax
  · simp only [Bool.and_eq_true, decide_eq_true_eq] at hmax
    exact absurd hmax.2 (by have := h hmax.1; omega)
  · rfl

theorem filterMap_deliveredMax {l : List Subscription}
    (h : ∀ s ∈ l, s.hasMaxMsgs = true → s.delivered < s.maxMsgs) : l.filterMap deliveredMax = l := by
  induction l with
  | nil => rfl
  | cons s l ih =>
    rw [List.filterMap_cons_some (deliveredMax_of_lt (h s List.mem_cons_self)),
      ih fun t ht => h t (List.mem_cons_of_mem s ht)]

theorem Phase.collect_ok {m : Message} {ph : Phase}
    (h : ph.subs.length ≤ ph.pub.world.router.queueCap) : (ph.collect m).2.2 = true :=
  collectLoop_ok _ _ _ _ _ _ _ (by simpa using h)

theorem Phase.subs_sublist {ph : Phase} {phs : List Phase} (h : ph ∈ phs) :
    ph.subs.Sublist (phs.flatMap Phase.subs) :=
  List.sublist_flatten_of_mem (List.mem_map_of_mem h)

/-- No delivery touches the router. -/
theorem Phase.turns_router {A : Alloc} {m : Message} {ph : Phase} {t : Turn}
    (h : t ∈ ph.turns A m) : t.after.world.router = t.before.world.router := by
  obtain ⟨-, heq | ⟨-, heq⟩⟩ := Phase.turns_cases h
  · rw [heq]
  · rw [heq]
    exact (deliverToSub_router A t.before t.sub m).1

theorem pubInvariant_queueCap (n : ℕ) :
    PubInvariant fun p => p.world.router.queueCap = n := by
  constructor
  · intro p p' hsame hp
    rw [hsame.queueCap, hp]
  · intro p sub hp
    exact hp

/-- In every list that a publish visits there is room for all queue groups. -/
theorem phasesFrom_collect {A : Alloc} {m : Message} (hvalid : subjectValid m.subject false = true)
    {p : Pub} (h : RouterInv p.world.router) :
    ∀ ph ∈ phasesFrom A p m, ph.subs ⊆ allSubs p.world.router ∧
      ph.subs.length ≤ ph.pub.world.router.queueCap ∧ (ph.collect m).2.2 = true := by
  obtain ⟨others, hperm, -⟩ := allSubs_deliverAll A hvalid h
  have hsubset : ∀ ph ∈ phasesFrom A p m, ph.subs ⊆ allSubs p.world.router := by
    intro ph hph s hs
    exact hperm.mem_iff.mpr (List.mem_append_left _ ((Phase.subs_sublist hph).subset hs))
  have hcap := ((pubInvariant_queueCap _).visits (deliverAll_visits A hvalid h)
    (fun x _ t ht hq => (congrArg Router.queueCap (Phase.turns_router ht)).trans hq) rfl).1
  intro ph hph
  have hlen : ph.subs.length ≤ ph.pub.world.router.queueCap := by
    have hcount := h.count
    have hqueue := h.queue
    have hle := (Phase.subs_sublist hph).length_le
    have htotal := hperm.length_eq
    rw [List.length_append] at htotal
    rw [(hcap ph hph).1]
    omega
  exact ⟨hsubset ph hph, hlen, Phase.collect_ok hlen⟩

theorem flatMap_perm_of_forall {α β : Type*} {f g : α → List β} {l : List α}
    (h : ∀ a ∈ l, (f a).Perm (g a)) : (l.flatMap f).Perm (l.flatMap g) := by
  induction l with
  | nil => exact .refl _
  | cons a l ih =>
    rw [List.flatMap_cons, List.flatMap_cons]
    exact (h a List.mem_cons_self).append (ih fun b hb => h b (List.mem_cons_of_mem a hb))

theorem diff_perm_of_append {α : Type*} [DecidableEq α] {l a b : List α} (h : l.Perm (a ++ b)) :
    (l.diff a).Perm b := by
  refine (h.diff_right a).trans ?_
  rw [← Multiset.coe_eq_coe, ← Multiset.coe_sub, ← Multiset.coe_add, add_tsub_cancel_left]

/-- **The fates of a publish.** Every stored subscription has one: it stays as it
was or counts one more message, and is removed when it has reached its maximum. -/
theorem publish_fates (A : Alloc) (m : Message) {w : World} (h : RouterInv w.router)
    (hmax : WithinMax w.router) :
    ((publishFates A w m).map Prod.fst).Perm (allSubs w.router) ∧
      (allSubs (publishWithReply A w m).world.router).Perm
        (((publishFates A w m).map Prod.snd).filterMap deliveredMax) ∧
      ∀ x ∈ publishFates A w m,
        x.2 = x.1 ∨ x.2 = { x.1 with delivered := x.1.delivered + 1 } := by
  have hserved : ∀ x ∈ publishFates A w m,
      x.2 = x.1 ∨ x.2 = { x.1 with delivered := x.1.delivered + 1 } := by
    intro x hx
    rw [publishFates, List.mem_append, List.mem_flatMap, List.mem_map] at hx
    rcases hx with ⟨ph, -, hx⟩ | ⟨s, -, rfl⟩
    · exact Phase.fates_served hx
    · exact .inl rfl
  have hfst : ∀ phs : List Phase, (phs.flatMap (Phase.fates A m)).map Prod.fst =
      phs.flatMap Phase.subs := by
    intro phs
    rw [List.map_flatMap]
    congr 1
    funext ph
    exact ph.fates_fst A m
  have hid : ∀ l : List Subscription, (l.map fun s => (s, s)).map Prod.fst = l ∧
      (l.map fun s => (s, s)).map Prod.snd = l := by
    intro l
    rw [List.map_map, List.map_map]
    exact ⟨List.map_id l, List.map_id l⟩
  suffices hothers : ∃ others,
      (allSubs w.router).Perm ((publishPhases A w m).flatMap Phase.subs ++ others) ∧
      (allSubs (publishWithReply A w m).world.router).Perm
        (((publishPhases A w m).flatMap (Phase.fates A m)).map Prod.snd ++ others
          |>.filterMap deliveredMax) by
    obtain ⟨others, hbefore, hafter⟩ := hothers
    have hdiff := diff_perm_of_append hbefore
    refine ⟨?_, ?_, hserved⟩
    · rw [publishFates, List.map_append, hfst, (hid _).1]
      exact (hdiff.append_left _).trans hbefore.symm
    · rw [publishFates, List.map_append, (hid _).2]
      exact hafter.trans ((hdiff.append_left _).symm.filterMap _)
  unfold publishPhases
  cases hstart : publishStart A w m with
  | none =>
    obtain ⟨-, -, -, -, hsame⟩ := publishWithReply_of_no_start hstart
    refine ⟨allSubs w.router, .refl _, ?_⟩
    simp only [List.flatMap_nil, List.map_nil, List.nil_append]
    rw [filterMap_deliveredMax hmax, allSubs, allSubs, hsame.literal, hsame.wildcard,
      hsame.wildcardGlobal]
  | some p =>
    obtain ⟨-, -, -, hall, -, hinv⟩ := publishStart_router hstart
    have hvalid := publishStart_valid hstart
    obtain ⟨others, hbefore, hafter, -⟩ := allSubs_deliverAll A hvalid (hinv h)
    rw [hall] at hbefore
    refine ⟨others, hbefore, ?_⟩
    rw [publishWithReply_of_start hstart]
    refine hafter.trans ?_
    have hothers : others.filterMap deliveredMax = others :=
      filterMap_deliveredMax fun s hs => hmax s (hbefore.mem_iff.mpr (List.mem_append_right _ hs))
    rw [List.filterMap_append, hothers, List.map_flatMap, List.filterMap_flatMap]
    refine .append_right _ (flatMap_perm_of_forall fun ph hph => ?_)
    rw [Phase.result_eq (phasesFrom_collect hvalid (hinv h) ph hph).2.2]
    exact sweep_perm deliveredMax _

end Monoblok
