import Monoblok.Router.Subscribe
import Monoblok.Router.Turns

/-!
# The books of the router

The counters of the router and of its connections agree with the lists, within
the limits, and no stored subscription has reached its maximum. The scratch
arrays of a publish are large enough: a connection is noted at most once in each
of them, and there are no more connections than subscriptions.
-/

namespace Monoblok

open SwapRemove

structure Accounted (w : World) : Prop where
  conns : ∀ c, (w.conns c).subCount = subsOf c (allSubs w.router)
  perConn : ∀ c, (w.conns c).subCount ≤ maxSubsPerConn
  total : w.router.subCount ≤ maxSubsTotal
  withinMax : WithinMax w.router

theorem Accounted.sameRouting {w : World} (h : Accounted w) {r : Router}
    (hs : SameRouting w.router r) : Accounted { w with router := r } := by
  have hall : allSubs r = allSubs w.router := by
    rw [allSubs, allSubs, hs.literal, hs.wildcard, hs.wildcardGlobal]
  refine ⟨?_, h.perConn, ?_, ?_⟩
  · intro c
    rw [hall]
    exact h.conns c
  · rw [hs.subCount]
    exact h.total
  · intro s hs
    rw [hall] at hs
    exact h.withinMax s hs

/-! ## Sweeps -/

/-- A sweep step that keeps subscriptions below their maximum. -/
def KeepsWithinMax (f : Subscription → Option Subscription) : Prop :=
  ∀ s s', f s = some s' → (s.hasMaxMsgs = true → s.delivered < s.maxMsgs) →
    s'.hasMaxMsgs = true → s'.delivered < s'.maxMsgs

theorem Accounted.sweep {w : World} (h : Accounted w) {f : Subscription → Option Subscription}
    (hconn : KeepsConn f) (hmax : KeepsWithinMax f) : Accounted (sweepRouter f w) := by
  have hperm := allSubs_sweepRouter f w
  have hcount : (sweepRouter f w).router.subCount ≤ w.router.subCount := by
    rw [sweepRouter, foldl_noteSubRemoved_router]
    exact Nat.sub_le _ _
  refine ⟨fun c => ?_, fun c => ?_, hcount.trans h.total, fun s hs => ?_⟩
  · have hsplit := subsOf_filterMap hconn c (allSubs w.router)
    have hbefore := h.conns c
    rw [sweepRouter_conns, subsOf_perm hperm]
    dsimp only
    omega
  · rw [sweepRouter_conns]
    exact (Nat.sub_le _ _).trans (h.perConn c)
  · rw [hperm.mem_iff, List.mem_filterMap] at hs
    obtain ⟨s₀, hs₀, hf⟩ := hs
    exact hmax s₀ s hf (h.withinMax s₀ hs₀)

theorem keepsWithinMax_removeForConn (conn : ConnId) : KeepsWithinMax (removeForConn conn) := by
  intro s s' hf h
  unfold removeForConn at hf
  split_ifs at hf
  rw [← Option.some.inj hf]
  exact h

theorem keepsWithinMax_unsubscribeOne (conn : ConnId) (sid : Bytes) (maxMsgs : Option ℕ) :
    KeepsWithinMax (unsubscribeOne conn sid maxMsgs) := by
  intro s s' hf h
  unfold unsubscribeOne at hf
  split_ifs at hf
  · rw [← Option.some.inj hf]
    exact h
  · split at hf
    · cases hf
    · split_ifs at hf with hle
      rw [← Option.some.inj hf]
      exact fun _ => not_le.mp hle

/-! ## Subscribing -/

theorem Accounted.stored {w : World} (h : Accounted w) (hinv : RouterInv w.router) {A : Alloc}
    {conn : ConnId} {subject queue sid : Bytes}
    (hstored : subStored A w conn subject queue sid = true) (out : Bytes) :
    Accounted ((storedWorld A w conn subject queue sid).updateConn conn
      fun c => { c with out := out }) := by
  obtain ⟨hperm, hcount, hconns⟩ := failedReplay hinv hstored out
  have hallowed : ¬(maxSubsPerConn ≤ (w.conns conn).subCount ∨ maxSubsTotal ≤ w.router.subCount) := by
    simp only [subStored, subAllowed, Bool.and_eq_true, Bool.not_eq_true',
      decide_eq_false_iff_not] at hstored
    exact hstored.1.1.1.2
  refine ⟨fun c => ?_, fun c => ?_, ?_, fun s hs => ?_⟩
  · rw [(hconns c).1, subsOf_perm hperm, subsOf, List.countP_cons, h.conns c]
    by_cases hc : c = conn
    · simp [newSub, hc, subsOf]
    · simp [newSub, hc, subsOf, Ne.symm hc]
  · rw [(hconns c).1]
    have hlimit := h.perConn c
    split_ifs with hc
    · rw [hc]
      omega
    · exact hlimit
  · rw [hcount]
    omega
  · rcases List.mem_cons.mp (hperm.mem_iff.mp hs) with rfl | hs
    · intro hno
      exact absurd hno (by simp [newSub])
    · exact h.withinMax s hs

theorem Accounted.subscribeQueue {w : World} (h : Accounted w) (hinv : RouterInv w.router)
    (A : Alloc) (conn : ConnId) (subject queue sid : Bytes) :
    Accounted (subscribeQueue A w conn subject queue sid).1 := by
  cases hstored : subStored A w conn subject queue sid with
  | false =>
    obtain ⟨r, heq, hperm, hcount, -⟩ := subscribeQueue_of_not_stored hinv hstored
    rw [heq]
    refine ⟨fun c => ?_, h.perConn, ?_, fun s hs => h.withinMax s (hperm.mem_iff.mp hs)⟩
    · rw [subsOf_perm hperm]
      exact h.conns c
    · rw [hcount]
      exact h.total
  | true =>
    have hdone := h.stored hinv hstored
    rw [subscribeQueue_of_stored hstored]
    dsimp only
    split_ifs
    · exact hdone _
    · exact (hdone _).sweep (keepsConn_unsubscribeOne _ _ _) (keepsWithinMax_unsubscribeOne _ _ _)
    · have hsame : (storedWorld A w conn subject queue sid).updateConn conn
          (fun c => { c with out := ((storedWorld A w conn subject queue sid).conns conn).out }) =
          storedWorld A w conn subject queue sid := by
        simp only [World.updateConn, Function.update_eq_self]
      rw [← hsame]
      exact hdone _

/-! ## Publishing -/

theorem updateConn_conns (w : World) (c d : ConnId) (f : RouterConn → RouterConn) :
    (w.updateConn c f).conns d = if d = c then f (w.conns c) else w.conns d := by
  by_cases hd : d = c
  · subst hd
    simp [World.updateConn]
  · simp [World.updateConn, hd]

theorem queueConnClose_subCount (p : Pub) (c d : ConnId) :
    ((queueConnClose p c).1.world.conns d).subCount = (p.world.conns d).subCount := by
  unfold queueConnClose
  dsimp only
  split_ifs
  · rfl
  all_goals
    simp only [updateConn_conns]
    split_ifs with hd
    · rw [hd]
    · rfl

theorem noteKick_subCount (p : Pub) (c d : ConnId) :
    ((noteKick p c).world.conns d).subCount = (p.world.conns d).subCount := by
  unfold noteKick
  dsimp only
  split_ifs
  · simp only [updateConn_conns]
    split_ifs with hd
    · rw [hd]
    · rfl
  · rfl

theorem deliverToSub_subCount (A : Alloc) (p : Pub) (sub : Subscription) (m : Message)
    (d : ConnId) :
    ((deliverToSub A p sub m).2.1.world.conns d).subCount = (p.world.conns d).subCount := by
  unfold deliverToSub
  dsimp only
  split
  · rfl
  · rfl
  · split_ifs
    · exact queueConnClose_subCount p sub.conn d
    · simp only [updateConn_conns]
      split_ifs with hd
      · rw [hd]
      · rfl
    · rw [noteKick_subCount]
      simp only [updateConn_conns]
      split_ifs with hd
      · rw [hd]
      · rfl

/-- A list is swept after its turns, which count nothing themselves. -/
theorem Phase.result_subCount (A : Alloc) {m : Message} {ph : Phase}
    (hok : (ph.collect m).2.2 = true) (c : ConnId) :
    ((ph.result A m).2.1.world.conns c).subCount =
      (ph.pub.world.conns c).subCount - subsOf c (ph.removed A m) := by
  have hturns : ph.turns A m = loopTurns A m ph.checkFilter (ph.collect m).1 0 ph.subs
      { ph.pub with world.router.queueRng := (ph.collect m).2.1 } := if_pos hok
  have hlast : ((ph.last A m).world.conns c).subCount = (ph.pub.world.conns c).subCount := by
    rw [Phase.last, hturns]
    refine (loopTurns_invariant
      (I := fun q => (q.world.conns c).subCount = (ph.pub.world.conns c).subCount) ?_ ?_).2
    · intro t ht hq
      rw [← hturns] at ht
      obtain ⟨-, heq | ⟨-, heq⟩⟩ := Phase.turns_cases ht
      · rw [heq]
        exact hq
      · rw [heq]
        exact (deliverToSub_subCount A t.before t.sub m c).trans hq
    · rfl
  rw [Phase.result_eq hok]
  dsimp only
  rw [conns_foldl_noteSubRemoved, hlast]
  rfl

theorem Visits.subCount {A : Alloc} {m : Message} {p p' : Pub} {phs : List Phase} {ok : Bool}
    (hv : Visits A m p phs p' ok) (hcollect : ∀ ph ∈ phs, (ph.collect m).2.2 = true) (c : ConnId) :
    (p'.world.conns c).subCount =
      (p.world.conns c).subCount - subsOf c (phs.flatMap (Phase.removed A m)) := by
  have hvisit : ∀ {p p' : Pub} {ph : Option Phase} {ok : Bool}, Visit A m p ph p' ok →
      (∀ x ∈ ph, (x.collect m).2.2 = true) →
      (p'.world.conns c).subCount =
        (p.world.conns c).subCount - subsOf c (ph.toList.flatMap (Phase.removed A m)) := by
    intro p p' ph ok hv hph
    rw [hv.same.conns]
    cases ph with
    | none => rfl
    | some x =>
      rw [Option.elim_some, Phase.result_subCount A (hph x rfl), hv.start x rfl]
      simp
  induction hv with
  | nil p => rfl
  | stop hv => exact hvisit hv fun x hx => hcollect x (Option.mem_toList.mpr hx)
  | step hv _ ih =>
    rw [ih fun x hx => hcollect x (List.mem_append_right _ hx),
      hvisit hv fun x hx => hcollect x (List.mem_append_left _ (Option.mem_toList.mpr hx)),
      List.flatMap_append, subsOf, subsOf, subsOf, List.countP_append]
    omega

theorem subsOf_fates (c : ConnId) {l : List (Subscription × Subscription)}
    (h : ∀ x ∈ l, x.2 = x.1 ∨ x.2 = { x.1 with delivered := x.1.delivered + 1 }) :
    subsOf c (l.map Prod.snd) = subsOf c (l.map Prod.fst) := by
  rw [subsOf, subsOf, List.countP_map, List.countP_map]
  apply List.countP_congr
  intro x hx
  rcases h x hx with heq | heq
  · simp [heq]
  · simp [heq]

/-- The publish keeps the books. -/
theorem Accounted.publishWithReply {w : World} (h : Accounted w) (hinv : RouterInv w.router)
    (A : Alloc) (m : Message) : Accounted (publishWithReply A w m).world := by
  obtain ⟨hbefore, hafter, hserved⟩ := publish_fates A m hinv h.withinMax
  have hinv' := hinv.publishWithReply A m
  -- what is removed from the visited lists is all that is removed
  have hconns : ∀ c, ((Monoblok.publishWithReply A w m).world.conns c).subCount =
      (w.conns c).subCount -
        subsOf c (((publishFates A w m).map Prod.snd).filter fun s => (deliveredMax s).isNone) := by
    intro c
    have hothers : List.filter (fun s => (deliveredMax s).isNone)
        ((((allSubs w.router).diff ((publishPhases A w m).flatMap Phase.subs)).map
          fun s => (s, s)).map Prod.snd) = [] := by
      rw [List.filter_eq_nil_iff]
      intro s hs
      rw [List.map_map, List.mem_map] at hs
      obtain ⟨s₀, hs₀, rfl⟩ := hs
      have hmem := (List.diff_sublist _ _).subset hs₀
      simp [deliveredMax_of_lt (h.withinMax s₀ hmem)]
    rw [publishFates, List.map_append, List.filter_append, hothers, List.append_nil,
      List.map_flatMap, List.filter_flatMap]
    unfold publishPhases
    cases hstart : publishStart A w m with
    | none =>
      obtain ⟨-, -, -, hsame, -⟩ := publishWithReply_of_no_start hstart
      rw [hsame]
      rfl
    | some p =>
      obtain ⟨hsame, -, -, -, -, hp⟩ := publishStart_router hstart
      rw [publishWithReply_of_start hstart, ← hsame]
      have hvalid := publishStart_valid hstart
      exact (deliverAll_visits A hvalid (hp hinv)).subCount
        (fun ph hph => (phasesFrom_collect hvalid (hp hinv) ph hph).2.2) c
  have hkeeps : KeepsConn deliveredMax := by
    intro s s' hs
    rw [deliveredMax_eq_some hs]
  refine ⟨fun c => ?_, fun c => ?_, ?_, fun s hs => ?_⟩
  · have hsplit := subsOf_filterMap hkeeps c ((publishFates A w m).map Prod.snd)
    have hsum := subsOf_fates c hserved
    rw [subsOf_perm hbefore, ← h.conns c] at hsum
    rw [hconns c, subsOf_perm hafter]
    omega
  · rw [hconns c]
    exact (Nat.sub_le _ _).trans (h.perConn c)
  · have hlen := hafter.length_eq
    have hle := List.length_filterMap_le deliveredMax ((publishFates A w m).map Prod.snd)
    have hfates := hbefore.length_eq
    have htotal := h.total
    rw [List.length_map] at hle hfates
    rw [← hinv'.count]
    have hcount := hinv.count
    omega
  · rw [hafter.mem_iff, List.mem_filterMap] at hs
    obtain ⟨s₁, -, hmax⟩ := hs
    rw [deliveredMax_eq_some hmax]
    intro hhas
    unfold deliveredMax at hmax
    split_ifs at hmax with hdone
    simp only [Bool.and_eq_true, decide_eq_true_eq, not_and, not_le] at hdone
    exact hdone hhas

theorem Accounted.routerStep {w : World} (h : Accounted w) (hinv : RouterInv w.router)
    (call : RouterCall) : Accounted (routerStep w call) := by
  cases call with
  | configureLvc A filters =>
    unfold Monoblok.routerStep Monoblok.configureLvc
    dsimp only
    split_ifs
    all_goals exact ⟨h.conns, h.perConn, h.total, h.withinMax⟩
  | storeLvc A subject payload => exact h.sameRouting (sameRouting_lvcStore A _ _ _)
  | subscribe A conn subject queue sid => exact h.subscribeQueue hinv A conn subject queue sid
  | unsubscribe conn sid maxMsgs =>
    exact h.sweep (keepsConn_unsubscribeOne conn sid maxMsgs)
      (keepsWithinMax_unsubscribeOne conn sid maxMsgs)
  | removeAllFor conn =>
    exact h.sweep (keepsConn_removeForConn conn) (keepsWithinMax_removeForConn conn)
  | publish A m => exact h.publishWithReply hinv A m
  | server conns => exact ⟨h.conns, h.perConn, h.total, h.withinMax⟩

theorem accounted_init {conns : ConnId → RouterConn} (h : ∀ c, (conns c).subCount = 0) :
    Accounted ⟨routerInit, conns⟩ := by
  refine ⟨fun c => ?_, fun c => ?_, Nat.zero_le _, fun s hs => ?_⟩
  · rw [h c]
    rfl
  · rw [h c]
    exact Nat.zero_le _
  · exact absurd hs (by simp [allSubs, routerInit, BucketTable.subs])

theorem Reachable.accounted {w : World} (h : Reachable w) : Accounted w :=
  h.invariant (fun _ => accounted_init) fun _ call hr ih => ih.routerStep hr.inv call

/-! ## Scratch arrays -/

/-- The connections noted in a scratch array: no two alike, all of them with a
mark, and all with a subscription. -/
structure Noted (subs : List Subscription) (marked : ConnId → Prop) (l : List ConnId) : Prop where
  nodup : l.Nodup
  marked : ∀ c ∈ l, marked c
  subs : l ⊆ subs.map Subscription.conn

section Noted

variable {subs : List Subscription} {marked marked' : ConnId → Prop} {l : List ConnId}

theorem Noted.imp (h : Noted subs marked l) (hmarks : ∀ c, marked c → marked' c) :
    Noted subs marked' l :=
  ⟨h.nodup, fun c hc => hmarks c (h.marked c hc), h.subs⟩

/-- A connection without a mark is new. -/
theorem Noted.append (h : Noted subs marked l) {sub : Subscription} (hsub : sub ∈ subs)
    (hnew : ¬marked sub.conn) (hmark : marked' sub.conn) (hmarks : ∀ c, marked c → marked' c) :
    Noted subs marked' (l ++ [sub.conn]) := by
  refine ⟨?_, fun c hc => ?_, fun c hc => ?_⟩
  · rw [List.nodup_append]
    refine ⟨h.nodup, List.nodup_singleton _, fun a ha b hb => ?_⟩
    rw [List.mem_singleton.mp hb]
    rintro rfl
    exact hnew (h.marked _ ha)
  · rcases List.mem_append.mp hc with hc | hc
    · exact hmarks c (h.marked c hc)
    · rw [List.mem_singleton.mp hc]
      exact hmark
  · rcases List.mem_append.mp hc with hc | hc
    · exact h.subs hc
    · rw [List.mem_singleton.mp hc]
      exact List.mem_map_of_mem hsub

theorem Noted.length_le (h : Noted subs marked l) : l.length ≤ subs.length := by
  have hle := (h.nodup.subperm h.subs).length_le
  rwa [List.length_map] at hle

end Noted

def KickMarked (w : World) (c : ConnId) : Prop := (w.conns c).kickSeenEpoch = w.router.kickEpoch

def CloseMarked (w : World) (c : ConnId) : Prop := (w.conns c).closed = true

theorem KickMarked.updateConn {w : World} {d : ConnId} (h : KickMarked w d) (c : ConnId)
    {f : RouterConn → RouterConn} (hf : ∀ x, (f x).kickSeenEpoch = x.kickSeenEpoch) :
    KickMarked (w.updateConn c f) d := by
  unfold KickMarked at h ⊢
  rw [updateConn_conns]
  split_ifs with hd
  · rw [hf, ← hd]
    exact h
  · exact h

theorem CloseMarked.updateConn {w : World} {d : ConnId} (h : CloseMarked w d) (c : ConnId)
    {f : RouterConn → RouterConn} (hf : ∀ x, x.closed = true → (f x).closed = true) :
    CloseMarked (w.updateConn c f) d := by
  unfold CloseMarked at h ⊢
  rw [updateConn_conns]
  split_ifs with hd
  · rw [hd] at h
    exact hf _ h
  · exact h

/-- Both arrays list connections that are marked. -/
structure ScratchInv (subs : List Subscription) (kickCap closeCap : ℕ) (p : Pub) : Prop where
  kicked : Noted subs (KickMarked p.world) p.kicked
  closed : Noted subs (CloseMarked p.world) p.closed
  kickCap : p.world.router.kickCap = kickCap
  closeCap : p.world.router.closeCap = closeCap

section Scratch

variable {subs : List Subscription} {K C : ℕ}

/-- A change of a connection that keeps its marks. -/
theorem ScratchInv.updateConn {p : Pub} (h : ScratchInv subs K C p) (c : ConnId)
    {f : RouterConn → RouterConn} (hkick : ∀ x, (f x).kickSeenEpoch = x.kickSeenEpoch)
    (hclose : ∀ x, x.closed = true → (f x).closed = true) (writes : ℕ) :
    ScratchInv subs K C { p with world := p.world.updateConn c f, writes := writes } :=
  ⟨h.kicked.imp fun _ hd => hd.updateConn c hkick, h.closed.imp fun _ hd => hd.updateConn c hclose,
    h.kickCap, h.closeCap⟩

theorem queueConnClose_scratch {p : Pub} (h : ScratchInv subs K C p) {sub : Subscription}
    (hsub : sub ∈ subs) (hopen : (p.world.conns sub.conn).closed = false) :
    ScratchInv subs K C (queueConnClose p sub.conn).1 := by
  have hnew : ¬CloseMarked p.world sub.conn := by
    rw [CloseMarked, hopen]
    decide
  have hclosing := h.updateConn sub.conn (f := fun conn => { conn with closed := true })
    (fun _ => rfl) (fun _ _ => rfl) p.writes
  unfold queueConnClose
  dsimp only
  rw [if_neg (by simp [hopen])]
  split_ifs
  · exact hclosing
  · exact hclosing
  · have hseen := hclosing.updateConn sub.conn
      (f := fun conn => { conn with closeSeenEpoch := p.world.router.kickEpoch })
      (fun _ => rfl) (fun _ hx => hx) p.writes
    refine ⟨hseen.kicked, h.closed.append hsub hnew ?_ fun c hc => ?_, h.kickCap, h.closeCap⟩
    · simp [CloseMarked, updateConn_conns]
    · dsimp only
      refine CloseMarked.updateConn (hc.updateConn sub.conn ?_) sub.conn ?_
      · exact fun _ _ => rfl
      · exact fun _ hx => hx

theorem noteKick_scratch {p : Pub} (h : ScratchInv subs K C p) {sub : Subscription}
    (hsub : sub ∈ subs) : ScratchInv subs K C (noteKick p sub.conn) := by
  unfold noteKick
  dsimp only
  split_ifs with hkick
  · simp only [Bool.and_eq_true, bne_iff_ne] at hkick
    refine ⟨h.kicked.append hsub hkick.2 ?_ fun c hc => ?_, h.closed.imp fun c hc => ?_, h.kickCap,
      h.closeCap⟩
    · rw [KickMarked, updateConn_conns, if_pos rfl]
      rfl
    · rw [KickMarked, updateConn_conns]
      split_ifs
      · rfl
      · exact hc
    · dsimp only
      refine hc.updateConn sub.conn ?_
      exact fun _ hx => hx
  · exact h

theorem deliverToSub_scratch (A : Alloc) {p : Pub} (h : ScratchInv subs K C p) (m : Message)
    {sub : Subscription} (hsub : sub ∈ subs) (hopen : (p.world.conns sub.conn).closed = false) :
    ScratchInv subs K C (deliverToSub A p sub m).2.1 := by
  unfold deliverToSub
  dsimp only
  split
  · exact h
  · exact h
  · split_ifs
    · exact queueConnClose_scratch h hsub hopen
    · refine h.updateConn sub.conn ?_ ?_ (p.writes + 1)
      · exact fun _ => rfl
      · exact fun _ hx => hx
    · refine noteKick_scratch (h.updateConn sub.conn ?_ ?_ (p.writes + 1)) hsub
      · exact fun _ => rfl
      · exact fun _ hx => hx

theorem pubInvariant_scratch (subs : List Subscription) (K C : ℕ) :
    PubInvariant (ScratchInv subs K C) := by
  constructor
  · intro p p' hsame h
    refine ⟨?_, ?_, hsame.kickCap.trans h.kickCap, hsame.closeCap.trans h.closeCap⟩
    · rw [hsame.kicked]
      refine h.kicked.imp fun c hc => ?_
      rw [KickMarked, hsame.conns, hsame.kickEpoch]
      exact hc
    · rw [hsame.closed]
      refine h.closed.imp fun c hc => ?_
      rw [CloseMarked, hsame.conns]
      exact hc
  · intro p sub h
    have hless : ScratchInv subs K C
        { p with world.router.subCount := p.world.router.subCount - 1 } :=
      ⟨h.kicked, h.closed, h.kickCap, h.closeCap⟩
    refine hless.updateConn sub.conn ?_ ?_ p.writes
    · exact fun _ => rfl
    · exact fun _ hx => hx

theorem Phase.turns_scratch {A : Alloc} {m : Message} {ph : Phase} (hsubs : ph.subs ⊆ subs)
    {t : Turn} (ht : t ∈ ph.turns A m) (h : ScratchInv subs K C t.before) :
    ScratchInv subs K C t.after := by
  obtain ⟨hsub, heq | ⟨hopen, heq⟩⟩ := Phase.turns_cases ht
  · rw [heq]
    exact h
  · rw [heq]
    exact deliverToSub_scratch A h m (hsubs hsub) hopen

/-- A turn writes at most one entry to each array. -/
theorem deliverToSub_appends (A : Alloc) (p : Pub) (sub : Subscription) (m : Message) :
    ((deliverToSub A p sub m).2.1.kicked = p.kicked ∨
        ∃ c, (deliverToSub A p sub m).2.1.kicked = p.kicked ++ [c]) ∧
      ((deliverToSub A p sub m).2.1.closed = p.closed ∨
        ∃ c, (deliverToSub A p sub m).2.1.closed = p.closed ++ [c]) := by
  unfold deliverToSub
  dsimp only
  split
  · exact ⟨.inl rfl, .inl rfl⟩
  · exact ⟨.inl rfl, .inl rfl⟩
  · split_ifs
    · unfold queueConnClose
      dsimp only
      split_ifs
      · exact ⟨.inl rfl, .inl rfl⟩
      · exact ⟨.inl rfl, .inl rfl⟩
      · exact ⟨.inl rfl, .inl rfl⟩
      · exact ⟨.inl rfl, .inr ⟨_, rfl⟩⟩
    · exact ⟨.inl rfl, .inl rfl⟩
    · unfold noteKick
      dsimp only
      split_ifs
      · exact ⟨.inr ⟨_, rfl⟩, .inl rfl⟩
      · exact ⟨.inl rfl, .inl rfl⟩

end Scratch

/-- A group is made for a member of the list. -/
theorem length_collectLoop (w : World) (subject : Bytes) (checkFilter : Bool) (i : ℕ)
    (subs : List Subscription) (groups : List QueueDelivery) (rng : UInt64) :
    (collectLoop w subject checkFilter i subs groups rng).1.length ≤ groups.length + subs.length := by
  induction subs generalizing i groups rng with
  | nil => exact le_rfl
  | cons sub subs ih =>
    unfold collectLoop
    rw [List.length_cons]
    split_ifs
    · have hrest := ih (i + 1) groups rng
      omega
    · split
      · exact Nat.le_add_right _ _
      · rename_i groups' rng' heq
        have hrest := ih (i + 1) groups' rng'
        have hgrow : groups'.length ≤ groups.length + 1 := by
          unfold collectQueueDelivery at heq
          split at heq
          · split at heq
            · cases heq
            · cases heq
              rw [List.length_set]
              omega
          · split_ifs at heq
            cases heq
            rw [List.length_append]
            rfl
        omega

/-- The array grows in a turn only where there is room. -/
def GrowsWithin (cap : ℕ) (before after : List ConnId) : Prop :=
  after = before ∨ before.length < cap ∧ ∃ c, after = before ++ [c]

/-- **Accounting and scratch bounds.** After any run of calls the counters are
right and within the limits, and in every publish from there the queue groups,
the kicks and the closes stay within their arrays. -/
theorem accounting_and_scratch_bounds {conns : ConnId → RouterConn}
    (hconns : ∀ c, (conns c).subCount = 0) (calls : List RouterCall) :
    let w := calls.foldl routerStep ⟨routerInit, conns⟩
    w.router.subCount = (allSubs w.router).length ∧
      (∀ c, (w.conns c).subCount = (allSubs w.router).countP fun s => s.conn == c) ∧
      w.router.subCount ≤ maxSubsTotal ∧ (∀ c, (w.conns c).subCount ≤ maxSubsPerConn) ∧
      w.router.subCount ≤ w.router.kickCap ∧ w.router.subCount ≤ w.router.closeCap ∧
      w.router.subCount ≤ w.router.queueCap ∧
      ∀ A m, ∀ ph ∈ publishPhases A w m,
        (ph.collect m).2.2 = true ∧ (ph.collect m).1.length ≤ w.router.queueCap ∧
        ∀ t ∈ ph.turns A m,
          GrowsWithin w.router.kickCap t.before.kicked t.after.kicked ∧
            GrowsWithin w.router.closeCap t.before.closed t.after.closed := by
  intro w
  have hr : Reachable w := Reachable.run (.init conns hconns) calls
  have hinv := hr.inv
  have hacc := hr.accounted
  refine ⟨hinv.count.symm, hacc.conns, hacc.total, hacc.perConn, hinv.kick, hinv.close, hinv.queue,
    fun A m ph hph => ?_⟩
  unfold publishPhases at hph
  cases hstart : publishStart A w m with
  | none =>
    rw [hstart] at hph
    exact absurd hph List.not_mem_nil
  | some p =>
    rw [hstart] at hph
    obtain ⟨-, hkicked, hclosed, hall, ⟨hkick, hclose, hqueue⟩, hp⟩ := publishStart_router hstart
    have hvalid := publishStart_valid hstart
    have hphases := phasesFrom_collect (A := A) hvalid (hp hinv)
    rw [hall] at hphases
    obtain ⟨hsubset, hroom, hok⟩ := hphases ph hph
    -- the scratch arrays start empty and list connections of stored subscriptions
    have hscratch : ScratchInv (allSubs w.router) w.router.kickCap w.router.closeCap p := by
      refine ⟨?_, ?_, hkick, hclose⟩
      · rw [hkicked]
        exact ⟨List.nodup_nil, fun c hc => absurd hc List.not_mem_nil, List.nil_subset _⟩
      · rw [hclosed]
        exact ⟨List.nodup_nil, fun c hc => absurd hc List.not_mem_nil, List.nil_subset _⟩
    have hturns := ((pubInvariant_scratch (allSubs w.router) _ _).visits
      (deliverAll_visits A hvalid (hp hinv))
      (fun x hx t ht => Phase.turns_scratch (hphases x hx).1 ht) hscratch).1 ph hph
    have hcap := ((pubInvariant_queueCap w.router.queueCap).visits (deliverAll_visits A hvalid (hp hinv))
      (fun x _ t ht hq => (congrArg Router.queueCap (Phase.turns_router ht)).trans hq) hqueue).1
      ph hph
    refine ⟨hok, ?_, fun t ht => ?_⟩
    · have hlen := length_collectLoop ph.pub.world m.subject ph.checkFilter 0 ph.subs []
        ph.pub.world.router.queueRng
      rw [List.length_nil, Nat.zero_add] at hlen
      exact hlen.trans (hroom.trans_eq hcap.1)
    · obtain ⟨-, hafter⟩ := hturns.2 t ht
      have hlen := hinv.count
      have hkicks := hafter.kicked.length_le.trans (hlen.trans_le hinv.kick)
      have hcloses := hafter.closed.length_le.trans (hlen.trans_le hinv.close)
      obtain ⟨-, heq | ⟨-, heq⟩⟩ := Phase.turns_cases ht
      · rw [heq]
        exact ⟨.inl rfl, .inl rfl⟩
      · have hdeliver : t.after = (deliverToSub A t.before t.sub m).2.1 := congrArg Turn.after heq
        obtain ⟨hk, hc⟩ := deliverToSub_appends A t.before t.sub m
        rw [← hdeliver] at hk hc
        refine ⟨?_, ?_⟩
        · rcases hk with hk | ⟨c, hk⟩
          · exact .inl hk
          · rw [hk, List.length_append, List.length_singleton] at hkicks
            exact .inr ⟨hkicks, c, hk⟩
        · rcases hc with hc | ⟨c, hc⟩
          · exact .inl hc
          · rw [hc, List.length_append, List.length_singleton] at hcloses
            exact .inr ⟨hcloses, c, hc⟩

/-- Connection 0 subscribes twice, connection 1 once in a group. -/
def threeSubs : List RouterCall :=
  [.subscribe .succeeds 0 (lit "a.b") [] (lit "1"), .subscribe .succeeds 0 (lit "a.*") [] (lit "2"),
    .subscribe .succeeds 1 (lit "a.b") (lit "q") (lit "1")]

theorem threeSubs_accounted :
    ((threeSubs.foldl routerStep ⟨routerInit, fun _ => plainConn⟩).conns 0).subCount = 2 ∧
      (threeSubs.foldl routerStep ⟨routerInit, fun _ => plainConn⟩).router.subCount = 3 ∧
      3 ≤ (threeSubs.foldl routerStep ⟨routerInit, fun _ => plainConn⟩).router.kickCap := by
  obtain ⟨hcount, hconns, -, -, hkick, -⟩ :=
    @accounting_and_scratch_bounds (fun _ => plainConn) (fun _ => rfl) threeSubs
  have hthree : (allSubs (threeSubs.foldl routerStep
      ⟨routerInit, fun _ => plainConn⟩).router).length = 3 := by decide +kernel
  rw [hthree] at hcount
  refine ⟨(hconns 0).trans (by decide +kernel), hcount, hcount ▸ hkick⟩

end Monoblok
