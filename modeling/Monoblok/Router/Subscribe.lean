import Monoblok.Router.LastValue

/-!
# What becomes of a subscription request

A request that is refused before its subscription is stored changes no
subscription. One that fails in the replay of cached values is taken back by its
sid, together with every other subscription of that connection and sid, and the
frames written so far stay in the output.
-/

namespace Monoblok

open SwapRemove

/-! ## Sweeps -/

theorem allSubs_sweepRouter (f : Subscription → Option Subscription) (w : World) :
    (allSubs (sweepRouter f w).router).Perm ((allSubs w.router).filterMap f) := by
  unfold sweepRouter
  dsimp only
  rw [foldl_noteSubRemoved_router, allSubs, allSubs, List.filterMap_append, List.filterMap_append]
  exact ((subs_sweepTable f _).append (subs_sweepTable f _)).append (sweep_perm f _)

/-- The subscriptions of a connection. -/
def subsOf (c : ConnId) (l : List Subscription) : ℕ := l.countP fun s => s.conn == c

theorem subsOf_perm {l l' : List Subscription} (h : l.Perm l') (c : ConnId) :
    subsOf c l = subsOf c l' := h.countP_eq _

/-- Removals are counted at the connection they belong to, and nothing else of a
connection changes. -/
theorem conns_foldl_noteSubRemoved (l : List Subscription) (w : World) (c : ConnId) :
    (l.foldl noteSubRemoved w).conns c =
      { w.conns c with subCount := (w.conns c).subCount - subsOf c l } := by
  induction l generalizing w with
  | nil => rfl
  | cons s l ih =>
    rw [List.foldl_cons, ih, subsOf, subsOf, List.countP_cons]
    by_cases hc : c = s.conn
    · subst hc
      simp only [noteSubRemoved, World.updateConn, Function.update_self, beq_self_eq_true, if_true]
      congr 1
      omega
    · have hne : (s.conn == c) = false := by simpa using fun h => hc h.symm
      simp only [noteSubRemoved, World.updateConn, Function.update_of_ne hc, hne,
        Bool.false_eq_true, if_false, Nat.add_zero]

theorem sweepRouter_conns (f : Subscription → Option Subscription) (w : World) (c : ConnId) :
    (sweepRouter f w).conns c =
      { w.conns c with
        subCount := (w.conns c).subCount -
          subsOf c ((allSubs w.router).filter fun s => (f s).isNone) } :=
  conns_foldl_noteSubRemoved _ _ c

/-- A sweep step that does not move a subscription to another connection. -/
def KeepsConn (f : Subscription → Option Subscription) : Prop :=
  ∀ s s', f s = some s' → s'.conn = s.conn

theorem subsOf_filterMap {f : Subscription → Option Subscription} (hf : KeepsConn f) (c : ConnId)
    (l : List Subscription) :
    subsOf c (l.filterMap f) + subsOf c (l.filter fun s => (f s).isNone) = subsOf c l := by
  induction l with
  | nil => rfl
  | cons s l ih =>
    rw [subsOf, subsOf, subsOf] at ih ⊢
    cases hs : f s with
    | none =>
      rw [List.filterMap_cons_none hs, List.filter_cons_of_pos (by simp [hs]), List.countP_cons,
        List.countP_cons]
      omega
    | some s' =>
      rw [List.filterMap_cons_some hs, List.filter_cons_of_neg (by simp [hs]), List.countP_cons,
        List.countP_cons, hf s s' hs]
      omega

theorem keepsConn_removeForConn (conn : ConnId) : KeepsConn (removeForConn conn) := by
  intro s s' h
  unfold removeForConn at h
  split_ifs at h
  rw [← Option.some.inj h]

theorem keepsConn_unsubscribeOne (conn : ConnId) (sid : Bytes) (maxMsgs : Option ℕ) :
    KeepsConn (unsubscribeOne conn sid maxMsgs) := by
  intro s s' h
  unfold unsubscribeOne at h
  split_ifs at h
  · rw [← Option.some.inj h]
  · split at h
    · cases h
    · split_ifs at h
      rw [← Option.some.inj h]

/-! ## Storing a subscription -/

theorem subs_bucketAppend {at' : Bytes → Bytes → Prop} {t : BucketTable} (h : TableInv at' t)
    (A : Alloc) (key : Bytes) (sub : Subscription) :
    (bucketAppend A t key sub).1.subs.Perm
      (if (bucketAppend A t key sub).2 then sub :: t.subs else t.subs) := by
  have hperm := ((bucketAppend_spec A h.ok key sub).2).map Prod.snd
  rw [BucketTable.map_placed] at hperm
  refine hperm.trans ?_
  split_ifs
  · rw [List.map_cons, BucketTable.map_placed]
  · rw [BucketTable.map_placed]

theorem allSubs_insertSub (A : Alloc) {r : Router} (h : RouterInv r) (filter : Bytes)
    (sub : Subscription) :
    (allSubs (insertSub A r filter sub).1).Perm
      (if (insertSub A r filter sub).2 then sub :: allSubs r else allSubs r) := by
  unfold insertSub
  by_cases hlit : isLiteralFilter filter = true
  · rw [if_pos hlit]
    have hperm := subs_bucketAppend h.literal A filter sub
    dsimp only [allSubs]
    split_ifs at hperm ⊢
    · exact (hperm.append_right _).append_right _
    · exact (hperm.append_right _).append_right _
  · rw [if_neg hlit]
    by_cases hwild : isWildcardToken (firstToken filter) = true
    · rw [if_pos hwild]
      cases A .subItems with
      | false => exact .refl _
      | true =>
        simp only [if_true, allSubs]
        rw [← List.append_assoc]
        exact List.perm_append_singleton sub _
    · rw [if_neg hwild]
      have hperm := subs_bucketAppend h.wildcard A (firstToken filter) sub
      dsimp only [allSubs]
      split_ifs at hperm ⊢
      · refine ((hperm.append_left r.literal.subs).append_right _).trans ?_
        exact List.perm_middle.append_right _
      · exact (hperm.append_left r.literal.subs).append_right _

/-! ## The replay -/

/-- The cached values a new subscription gets, with their positions. -/
def replayed (r : Router) (filter : Bytes) : List (LvcEntry × ℕ) :=
  r.lvc.zipIdx.filter fun x =>
    lvcSubjectEnabled r x.1.subject && subjectMatches filter x.1.subject

/-- The frame of a cached value for a subscriber. -/
def replayFrame (sid : Bytes) (e : LvcEntry) : Bytes :=
  msgFrame lvcPrefix e.subject sid [] e.payload

/-- The value at a position can be written to an output. -/
def replayFits (A : Alloc) (sid out : Bytes) (x : LvcEntry × ℕ) : Bool :=
  decide (out.length + (replayFrame sid x.1).length ≤ maxPending) && A (.out x.2)

/-- The output after the replay of some values, and whether all were written. -/
def replayOut (A : Alloc) (sid : Bytes) : List (LvcEntry × ℕ) → Bytes → Bytes × Bool
  | [], out => (out, true)
  | x :: xs, out =>
    if replayFits A sid out x then replayOut A sid xs (out ++ replayFrame sid x.1) else (out, false)

theorem emitCached_eq (A : Alloc) (r : Router) (filter sid : Bytes) (i : ℕ) (l : List LvcEntry)
    (conn : RouterConn) :
    emitCached A r filter sid i l conn =
      let res := replayOut A sid ((l.zipIdx i).filter fun x =>
        lvcSubjectEnabled r x.1.subject && subjectMatches filter x.1.subject) conn.out
      ({ conn with out := res.1 }, res.2) := by
  induction l generalizing i conn with
  | nil => rfl
  | cons e l ih =>
    unfold emitCached
    rw [List.zipIdx_cons, List.filter_cons]
    dsimp only
    cases henabled : lvcSubjectEnabled r e.subject with
    | false =>
      simp only [Bool.not_false, if_true, Bool.false_and, Bool.false_eq_true, if_false]
      exact ih (i + 1) conn
    | true =>
      cases hmatch : subjectMatches filter e.subject with
      | false =>
        simp only [Bool.not_true, Bool.false_eq_true, if_false, Bool.not_false, if_true,
          Bool.true_and]
        exact ih (i + 1) conn
      | true =>
        simp only [Bool.not_true, Bool.false_eq_true, if_false, Bool.and_self, if_true]
        rw [replayOut, replayFits, msgFrameLen_eq]
        have hmax := maxPending_le_sizeMax
        by_cases hfit : conn.out.length + (replayFrame sid e).length ≤ maxPending
        · have hframe : (msgFrame lvcPrefix e.subject sid [] e.payload).length ≤ sizeMax :=
            (Nat.le_add_left _ _).trans (hfit.trans hmax)
          have hroom : ¬(maxPending < conn.out.length ∨ maxPending - conn.out.length <
              (msgFrame lvcPrefix e.subject sid [] e.payload).length) := by
            rw [replayFrame] at hfit
            omega
          rw [if_pos hframe]
          dsimp only
          rw [if_neg hroom, decide_eq_true hfit, Bool.true_and]
          cases hmem : A (.out i) with
          | false => rfl
          | true =>
            have hwrite : conn.out.length +
                (msgFrame lvcPrefix e.subject sid [] e.payload).length ≤ sizeMax := hfit.trans hmax
            rw [if_neg (by decide), if_pos rfl, writeMsg_eq ((Nat.le_add_right _ _).trans hwrite),
              if_pos hwrite]
            exact ih (i + 1) { conn with out := conn.out ++ replayFrame sid e }
        · rw [decide_eq_false hfit, Bool.false_and]
          by_cases hframe : (msgFrame lvcPrefix e.subject sid [] e.payload).length ≤ sizeMax
          · rw [if_pos hframe]
            dsimp only
            rw [if_pos (by rw [replayFrame] at hfit; omega)]
            rfl
          · rw [if_neg hframe]
            rfl

theorem replayFrame_pos (sid : Bytes) (e : LvcEntry) : 0 < (replayFrame sid e).length := by
  simp [replayFrame, msgFrame, lit]

theorem length_replayOut (A : Alloc) (sid : Bytes) (xs : List (LvcEntry × ℕ)) (out : Bytes) :
    out.length ≤ (replayOut A sid xs out).1.length := by
  induction xs generalizing out with
  | nil => exact le_rfl
  | cons x xs ih =>
    unfold replayOut
    split_ifs
    · refine le_trans ?_ (ih _)
      rw [List.length_append]
      omega
    · exact le_rfl

/-- A replay that fails leaves the output alone exactly when it fails at once. -/
theorem replayOut_eq_self {A : Alloc} {sid : Bytes} {xs : List (LvcEntry × ℕ)} {out : Bytes} :
    (replayOut A sid xs out).1 = out ↔ ∀ x ∈ xs.head?, replayFits A sid out x = false := by
  cases xs with
  | nil => simp [replayOut]
  | cons x xs =>
    simp only [List.head?_cons, Option.mem_some_iff, forall_eq']
    unfold replayOut
    split_ifs with hfit
    · have hlen := length_replayOut A sid xs (out ++ replayFrame sid x.1)
      have hpos := replayFrame_pos sid x.1
      rw [List.length_append] at hlen
      constructor
      · intro heq
        rw [heq] at hlen
        omega
      · intro hno
        rw [hfit] at hno
        exact absurd hno (by decide)
    · simpa using hfit

/-! ## The outcomes of a request -/

def newSub (conn : ConnId) (subject queue sid : Bytes) : Subscription :=
  ⟨conn, if subjectHasLvcPrefix subject then lvcInnerSubject subject else subject, queue, sid, 0, 0,
    false, subjectHasLvcPrefix subject⟩

/-- The request passes its checks. -/
def subAllowed (w : World) (conn : ConnId) (subject queue sid : Bytes) : Bool :=
  !(subjectHasLvcPrefix subject &&
      (!w.router.lvcEnabled || (newSub conn subject queue sid).subject.isEmpty)) &&
    !(!subjectValid (newSub conn subject queue sid).subject true || !tokenValid sid ||
      (!queue.isEmpty && !tokenValid queue)) &&
    !decide (maxSubsPerConn ≤ (w.conns conn).subCount ∨ maxSubsTotal ≤ w.router.subCount)

/-- The subscription is stored, if only for a while. -/
def subStored (A : Alloc) (w : World) (conn : ConnId) (subject queue sid : Bytes) : Bool :=
  subAllowed w conn subject queue sid &&
    (ensurePublishCapacity A w.router (w.router.subCount + 1)).2 &&
    !(!A .subSubject || (!queue.isEmpty && !A .subQueue) || !A .subSid) &&
    (insertSub A (ensurePublishCapacity A w.router (w.router.subCount + 1)).1
      (newSub conn subject queue sid).subject (newSub conn subject queue sid)).2

/-- The router with the subscription in its list. -/
def storedRouter (A : Alloc) (w : World) (conn : ConnId) (subject queue sid : Bytes) : Router :=
  (insertSub A (ensurePublishCapacity A w.router (w.router.subCount + 1)).1
    (newSub conn subject queue sid).subject (newSub conn subject queue sid)).1

/-- The subscription stored and counted. -/
def storedWorld (A : Alloc) (w : World) (conn : ConnId) (subject queue sid : Bytes) : World :=
  let r := storedRouter A w conn subject queue sid
  { w with router := { r with subCount := r.subCount + 1 } }.updateConn conn
    fun c => { c with subCount := c.subCount + 1 }

section Outcome

variable {A : Alloc} {w : World} {conn : ConnId} {subject queue sid : Bytes}

theorem cacheOf_storedRouter (A : Alloc) (w : World) (conn : ConnId) (subject queue sid : Bytes) :
    cacheOf (storedRouter A w conn subject queue sid) = cacheOf w.router := by
  have hcap := (ensurePublishCapacity_spec A w.router (w.router.subCount + 1)).eq
  rw [storedRouter, cacheOf_insertSub]
  exact (congrArg cacheOf hcap).trans rfl

theorem subCount_storedRouter (A : Alloc) (w : World) (conn : ConnId)
    (subject queue sid : Bytes) :
    (storedRouter A w conn subject queue sid).subCount = w.router.subCount := by
  have hcap := congrArg Router.subCount
    (ensurePublishCapacity_spec A w.router (w.router.subCount + 1)).eq
  have hins : ∀ r filter sub, (insertSub A r filter sub).1.subCount = r.subCount := by
    intro r filter sub
    unfold insertSub
    split_ifs <;> rfl
  rw [storedRouter, hins]
  exact hcap

theorem allSubs_storedRouter (h : RouterInv w.router)
    (hstored : subStored A w conn subject queue sid = true) :
    (allSubs (storedRouter A w conn subject queue sid)).Perm
      (newSub conn subject queue sid :: allSubs w.router) := by
  have hspec := ensurePublishCapacity_spec A w.router (w.router.subCount + 1)
  have hcap : allSubs (ensurePublishCapacity A w.router (w.router.subCount + 1)).1 =
      allSubs w.router := (congrArg allSubs hspec.eq).trans rfl
  simp only [subStored, Bool.and_eq_true] at hstored
  have hperm := allSubs_insertSub A (h.capacity hspec) (newSub conn subject queue sid).subject
    (newSub conn subject queue sid)
  rw [if_pos hstored.2, hcap] at hperm
  exact hperm

/-- A request that is refused changes no subscription. -/
theorem subscribeQueue_of_not_stored (h : RouterInv w.router)
    (hstored : subStored A w conn subject queue sid = false) :
    ∃ r, subscribeQueue A w conn subject queue sid = ({ w with router := r }, false) ∧
      (allSubs r).Perm (allSubs w.router) ∧ r.subCount = w.router.subCount ∧
      (r = w.router ∨ r = (ensurePublishCapacity A w.router (w.router.subCount + 1)).1 ∨
        r = storedRouter A w conn subject queue sid) := by
  have hspec := ensurePublishCapacity_spec A w.router (w.router.subCount + 1)
  have hall : allSubs (ensurePublishCapacity A w.router (w.router.subCount + 1)).1 =
      allSubs w.router := (congrArg allSubs hspec.eq).trans rfl
  have hins : ∀ sub, (insertSub A (ensurePublishCapacity A w.router (w.router.subCount + 1)).1
        sub.subject sub).2 = false →
      (allSubs (insertSub A (ensurePublishCapacity A w.router (w.router.subCount + 1)).1
        sub.subject sub).1).Perm (allSubs w.router) := by
    intro sub hno
    have hperm := allSubs_insertSub A (h.capacity hspec) sub.subject sub
    rw [hno, if_neg (by decide), hall] at hperm
    exact hperm
  have hcount := subCount_storedRouter A w conn subject queue sid
  generalize hst : storedRouter A w conn subject queue sid = stored at hcount ⊢
  have hsubs := congrArg Router.subCount hspec.eq
  unfold subStored subAllowed at hstored
  unfold storedRouter at hst
  unfold subscribeQueue
  dsimp only [newSub] at hst hstored ⊢
  generalize (if subjectHasLvcPrefix subject = true then lvcInnerSubject subject else subject) =
    filter at hst hstored ⊢
  split
  · exact ⟨w.router, rfl, .refl _, rfl, .inl rfl⟩
  · rename_i hlvc
    split
    · exact ⟨w.router, rfl, .refl _, rfl, .inl rfl⟩
    · rename_i hvalid
      split
      · exact ⟨w.router, rfl, .refl _, rfl, .inl rfl⟩
      · rename_i hlimits
        split
        · rename_i r heq
          rw [heq] at hall hsubs
          exact ⟨r, rfl, .of_eq hall, hsubs, .inr (.inl (by rw [heq]))⟩
        · rename_i r heq
          rw [heq] at hall hsubs hins hst hstored
          split
          · exact ⟨r, rfl, .of_eq hall, hsubs, .inr (.inl (by rw [heq]))⟩
          · rename_i hmem
            split
            · rename_i r₂ heq₂
              have hr₂ := hins ⟨conn, filter, queue, sid, 0, 0, false, subjectHasLvcPrefix subject⟩
              rw [heq₂] at hr₂ hst
              subst hst
              exact ⟨r₂, rfl, hr₂ rfl, hcount, .inr (.inr rfl)⟩
            · rename_i r₂ heq₂
              -- everything was granted after all
              rw [heq₂, decide_eq_false hlimits] at hstored
              simp only [Bool.not_eq_true] at hlvc hvalid hmem
              rw [hlvc, hvalid, hmem] at hstored
              exact absurd hstored (by simp)

/-- A request whose subscription is stored succeeds, but for the replay of
cached values. -/
theorem subscribeQueue_of_stored (hstored : subStored A w conn subject queue sid = true) :
    subscribeQueue A w conn subject queue sid =
      if subjectHasLvcPrefix subject then
        let res := replayOut A sid (replayed w.router (newSub conn subject queue sid).subject)
          (w.conns conn).out
        let w' := (storedWorld A w conn subject queue sid).updateConn conn
          fun c => { c with out := res.1 }
        if res.2 then (w', true) else (unsubscribe w' conn sid none, false)
      else (storedWorld A w conn subject queue sid, true) := by
  have hcache := cacheOf_storedRouter A w conn subject queue sid
  have hreplay : ∀ r : Router, cacheOf r = cacheOf w.router → ∀ filter,
      (r.lvc.zipIdx 0).filter (fun x =>
        lvcSubjectEnabled r x.1.subject && subjectMatches filter x.1.subject) =
      replayed w.router filter := by
    intro r hr filter
    have hentries : r.lvc = w.router.lvc := congrArg Cache.entries hr
    have henabled : r.lvcEnabled = w.router.lvcEnabled := congrArg Cache.enabled hr
    have hfilters : r.lvcFilters = w.router.lvcFilters := congrArg Cache.filters hr
    simp only [replayed, lvcSubjectEnabled, hentries, henabled, hfilters]
  have hon : subjectHasLvcPrefix subject = true → w.router.lvcEnabled = true := by
    intro hlvc
    simp only [subStored, subAllowed, Bool.and_eq_true, hlvc, Bool.true_and] at hstored
    have := hstored.1.1.1.1.1
    simp_all
  simp only [subStored, subAllowed, Bool.and_eq_true, Bool.not_eq_true', decide_eq_false_iff_not]
    at hstored
  obtain ⟨⟨⟨⟨⟨hlvc, hvalid⟩, hlimits⟩, hcap⟩, hmem⟩, hins⟩ := hstored
  unfold subscribeQueue storedWorld
  unfold storedRouter at hcache ⊢
  dsimp only [newSub] at hlvc hvalid hins hcache ⊢
  generalize (if subjectHasLvcPrefix subject = true then lvcInnerSubject subject else subject) =
    filter at hlvc hvalid hins hcache ⊢
  rw [hlvc, if_neg (by decide), hvalid, if_neg (by decide), if_neg hlimits]
  split
  · rename_i r heq
    rw [heq] at hcap
    exact absurd hcap (by simp)
  · rename_i r heq
    rw [heq] at hins hcache ⊢
    rw [hmem, if_neg (by decide)]
    split
    · rename_i r₂ heq₂
      rw [heq₂] at hins
      exact absurd hins (by simp)
    · rename_i r₂ heq₂
      rw [heq₂] at hcache ⊢
      cases hpre : subjectHasLvcPrefix subject with
      | false => rfl
      | true =>
        rw [if_pos rfl, if_pos rfl]
        dsimp only
        generalize hw₁ : (({ w with router := { r₂ with subCount := r₂.subCount + 1 } } :
          World).updateConn conn fun c => { c with subCount := c.subCount + 1 }) = w₁
        have hcache₁ : cacheOf w₁.router = cacheOf w.router := by
          rw [← hw₁]
          exact hcache
        have hout : (w₁.conns conn).out = (w.conns conn).out := by
          rw [← hw₁]
          simp [World.updateConn]
        have henabled : w₁.router.lvcEnabled = true :=
          (congrArg Cache.enabled hcache₁).trans (hon hpre)
        rw [henabled, if_neg (by decide), emitCached_eq, hreplay _ hcache₁, hout]
        cases replayOut A sid (replayed w.router filter) (w.conns conn).out with
        | mk out ok =>
          cases ok with
          | false => rfl
          | true => rfl

end Outcome

/-! ## Failed requests -/

/-- The subscriptions with their counters, the numbers of subscriptions and the
outputs are what they were. -/
structure SubUndone (w w' : World) : Prop where
  subs : (allSubs w'.router).Perm (allSubs w.router)
  subCount : w'.router.subCount = w.router.subCount
  connSubCount : ∀ c, (w'.conns c).subCount = (w.conns c).subCount
  out : ∀ c, (w'.conns c).out = (w.conns c).out

/-- The subscription is stored although its connection uses the sid already, or
although a cached value is written out before the replay fails. -/
def LeavesTrace (A : Alloc) (w : World) (conn : ConnId) (subject queue sid : Bytes) : Prop :=
  subStored A w conn subject queue sid = true ∧
    ((∃ s ∈ allSubs w.router, s.conn = conn ∧ s.sid = sid) ∨
      ∃ x ∈ (replayed w.router (newSub conn subject queue sid).subject).head?,
        replayFits A sid (w.conns conn).out x = true)

section Failed

variable {A : Alloc} {w : World} {conn : ConnId} {subject queue sid : Bytes}

theorem unsubscribeOne_none (s : Subscription) :
    unsubscribeOne conn sid none s = if s.conn = conn ∧ s.sid = sid then none else some s := by
  unfold unsubscribeOne sliceEq
  by_cases hconn : s.conn = conn
  · by_cases hsid : s.sid = sid
    · simp [hconn, hsid]
    · simp [hconn, hsid]
  · simp [hconn]

/-- Taking back a subscription by its sid takes all of them. -/
theorem filterMap_unsubscribeOne (l : List Subscription) :
    l.filterMap (unsubscribeOne conn sid none) =
      l.filter fun s => !decide (s.conn = conn ∧ s.sid = sid) := by
  rw [← List.filterMap_eq_filter]
  congr 1
  funext s
  rw [unsubscribeOne_none]
  by_cases hs : s.conn = conn ∧ s.sid = sid
  · simp [Option.guard, hs]
  · simp [Option.guard, hs]

/-- The world after the replay has failed, before the subscription is taken back. -/
theorem failedReplay (h : RouterInv w.router)
    (hstored : subStored A w conn subject queue sid = true) (out : Bytes) :
    let w₁ := (storedWorld A w conn subject queue sid).updateConn conn fun c => { c with out := out }
    (allSubs w₁.router).Perm (newSub conn subject queue sid :: allSubs w.router) ∧
      w₁.router.subCount = w.router.subCount + 1 ∧
      ∀ c, (w₁.conns c).subCount = (w.conns c).subCount + (if c = conn then 1 else 0) ∧
        (w₁.conns c).out = if c = conn then out else (w.conns c).out := by
  intro w₁
  refine ⟨allSubs_storedRouter h hstored, ?_, fun c => ?_⟩
  · exact congrArg (· + 1) (subCount_storedRouter A w conn subject queue sid)
  · by_cases hc : c = conn
    · subst hc
      simp [w₁, storedWorld, World.updateConn]
    · simp [w₁, storedWorld, World.updateConn, hc]

/-- **A failed SUB is undone** unless it leaves a trace. -/
theorem failed_sub_undone_iff (hr : Reachable w)
    (hfail : (subscribeQueue A w conn subject queue sid).2 = false) :
    SubUndone w (subscribeQueue A w conn subject queue sid).1 ↔
      ¬LeavesTrace A w conn subject queue sid := by
  have hinv := hr.inv
  cases hstored : subStored A w conn subject queue sid with
  | false =>
    obtain ⟨r, heq, hperm, hcount, -⟩ := subscribeQueue_of_not_stored hinv hstored
    rw [heq]
    simp only [LeavesTrace, hstored, Bool.false_eq_true, false_and, not_false_eq_true, iff_true]
    exact ⟨hperm, hcount, fun c => rfl, fun c => rfl⟩
  | true =>
    have heq := subscribeQueue_of_stored hstored
    by_cases hlvc : subjectHasLvcPrefix subject = true
    · rw [if_pos hlvc] at heq
      dsimp only at heq
      generalize hres : replayOut A sid
        (replayed w.router (newSub conn subject queue sid).subject) (w.conns conn).out = res at heq
      have hok : res.2 = false := by
        by_contra hno
        rw [heq, if_pos (by simpa using hno)] at hfail
        exact absurd hfail (by simp)
      rw [hok, if_neg (by decide)] at heq
      obtain ⟨hperm, hcount, hconns⟩ := failedReplay hinv hstored res.1
      have hout : res.1 = (w.conns conn).out ↔
          ¬∃ x ∈ (replayed w.router (newSub conn subject queue sid).subject).head?,
            replayFits A sid (w.conns conn).out x = true := by
        rw [← hres, replayOut_eq_self]
        simp
      rw [heq]
      generalize hw₁ : (storedWorld A w conn subject queue sid).updateConn conn
        (fun c => { c with out := res.1 }) = w₁ at hperm hcount hconns
      have hafter := allSubs_sweepRouter (unsubscribeOne conn sid none) w₁
      rw [filterMap_unsubscribeOne] at hafter
      have hafter := hafter.trans (hperm.filter _)
      have hnew : (newSub conn subject queue sid).conn = conn ∧
          (newSub conn subject queue sid).sid = sid := ⟨rfl, rfl⟩
      rw [List.filter_cons_of_neg (by simp [hnew])] at hafter
      constructor
      · rintro ⟨hsubs, -, -, houts⟩ ⟨-, hold | hfits⟩
        · obtain ⟨s, hs, hsame⟩ := hold
          have hlen := (hafter.symm.trans hsubs).length_eq
          rw [List.length_filter_eq_length_iff] at hlen
          exact absurd (hlen s hs) (by simp [hsame])
        · have hsame := houts conn
          rw [unsubscribe, sweepRouter_conns] at hsame
          dsimp only at hsame
          rw [(hconns conn).2, if_pos rfl] at hsame
          exact hout.mp hsame hfits
      · intro hclean
        simp only [LeavesTrace, hstored, true_and, not_or] at hclean
        have hfresh : ∀ s ∈ allSubs w.router, ¬(s.conn = conn ∧ s.sid = sid) :=
          fun s hs hsame => hclean.1 ⟨s, hs, hsame⟩
        have hsubs : (allSubs (unsubscribe w₁ conn sid none).router).Perm (allSubs w.router) := by
          refine hafter.trans (.of_eq (List.filter_eq_self.mpr fun s hs => ?_))
          rw [Bool.not_eq_true', decide_eq_false_iff_not]
          exact hfresh s hs
        -- the new subscription is the only one that is taken back
        have hremoved : ((allSubs w₁.router).filter fun s =>
            (unsubscribeOne conn sid none s).isNone).Perm [newSub conn subject queue sid] := by
          refine (hperm.filter _).trans (.of_eq ?_)
          rw [List.filter_cons_of_pos (by simp [unsubscribeOne_none, hnew])]
          congr 1
          rw [List.filter_eq_nil_iff]
          intro s hs
          simp [unsubscribeOne_none, hfresh s hs]
        refine ⟨hsubs, ?_, fun c => ?_, fun c => ?_⟩
        · have hcount' := (hr.subscribe A conn subject queue sid).inv.count
          rw [heq, hw₁, hsubs.length_eq, hinv.count] at hcount'
          exact hcount'.symm
        · rw [unsubscribe, sweepRouter_conns]
          dsimp only
          rw [subsOf_perm hremoved, (hconns c).1]
          by_cases hc : c = conn
          · simp [subsOf, newSub, hc]
          · simp [subsOf, newSub, hc, Ne.symm hc]
        · rw [unsubscribe, sweepRouter_conns]
          dsimp only
          rw [(hconns c).2]
          split_ifs with hc
          · rw [hc]
            exact hout.mpr hclean.2
          · rfl
    · rw [if_neg hlvc] at heq
      rw [heq] at hfail
      exact absurd hfail (by simp)

end Failed

/-- A cached value, a subscription of connection 0 with sid 7, and outputs
without room. -/
def fullWorld : World :=
  [RouterCall.configureLvc .succeeds [lit ">"], .storeLvc .succeeds (lit "a") (lit "1"),
    .subscribe .succeeds 0 (lit "x") [] (lit "7"),
    .server fun _ => { plainConn with out := List.replicate maxPending 0 }].foldl routerStep
      ⟨routerInit, fun _ => plainConn⟩

theorem reachable_fullWorld : Reachable fullWorld :=
  Reachable.run (.init _ fun _ => rfl) _

theorem replayOut_fullWorld (sid : Bytes) :
    replayOut .succeeds sid (replayed fullWorld.router (lit ">")) (fullWorld.conns 0).out =
      ((fullWorld.conns 0).out, false) := by
  have hentries : replayed fullWorld.router (lit ">") = [(⟨lit "a", lit "1"⟩, 0)] := by
    decide +kernel
  have hout : (fullWorld.conns 0).out = List.replicate maxPending 0 := rfl
  have hpos := replayFrame_pos sid ⟨lit "a", lit "1"⟩
  have hfits : replayFits .succeeds sid (fullWorld.conns 0).out (⟨lit "a", lit "1"⟩, 0) = false := by
    rw [replayFits, Bool.and_eq_false_iff, decide_eq_false_iff_not, hout, List.length_replicate]
    dsimp only
    exact .inl (by omega)
  rw [hentries, replayOut, hfits]
  rfl

/-- A replay that does not fit takes an older subscription with its sid away. -/
theorem reused_sid_lost :
    ¬∀ (A : Alloc) (w : World) (conn : ConnId) (subject queue sid : Bytes), Reachable w →
      (subscribeQueue A w conn subject queue sid).2 = false →
      SubUndone w (subscribeQueue A w conn subject queue sid).1 := by
  intro hall
  have heq := @subscribeQueue_of_stored .succeeds fullWorld 0 (lit "$LVC.>") [] (lit "7")
    (by decide +kernel)
  have hsubject : (newSub 0 (lit "$LVC.>") [] (lit "7")).subject = lit ">" := by decide +kernel
  rw [if_pos (by decide +kernel), hsubject, replayOut_fullWorld] at heq
  dsimp only at heq
  rw [if_neg (by decide)] at heq
  have hundone := hall .succeeds fullWorld 0 (lit "$LVC.>") [] (lit "7") reachable_fullWorld
    (by rw [heq])
  rw [heq] at hundone
  exact absurd hundone.subs.length_eq (by decide +kernel)

/-- With a new sid, the same request is undone. -/
theorem new_sid_undone :
    (subscribeQueue .succeeds fullWorld 0 (lit "$LVC.>") [] (lit "8")).2 = false ∧
      SubUndone fullWorld (subscribeQueue .succeeds fullWorld 0 (lit "$LVC.>") [] (lit "8")).1 := by
  have heq := @subscribeQueue_of_stored .succeeds fullWorld 0 (lit "$LVC.>") [] (lit "8")
    (by decide +kernel)
  have hsubject : (newSub 0 (lit "$LVC.>") [] (lit "8")).subject = lit ">" := by decide +kernel
  have hreplay := replayOut_fullWorld (lit "8")
  rw [if_pos (by decide +kernel), hsubject, hreplay] at heq
  dsimp only at heq
  rw [if_neg (by decide)] at heq
  have hfail : (subscribeQueue .succeeds fullWorld 0 (lit "$LVC.>") [] (lit "8")).2 = false := by
    rw [heq]
  refine ⟨hfail, (failed_sub_undone_iff reachable_fullWorld hfail).mpr ?_⟩
  rintro ⟨-, hold | hfits⟩
  · exact absurd hold (by decide +kernel)
  · have hself := replayOut_eq_self.mp (show
      (replayOut .succeeds (lit "8") (replayed fullWorld.router (lit ">")) (fullWorld.conns 0).out).1 =
        (fullWorld.conns 0).out by rw [hreplay])
    obtain ⟨x, hx, hfit⟩ := hfits
    rw [hsubject] at hx
    rw [hself x hx] at hfit
    exact absurd hfit (by decide)

end Monoblok
