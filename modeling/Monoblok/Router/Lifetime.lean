import Monoblok.Router.Accounting

/-!
# The life of a subscription

Every call decides what becomes of each stored subscription: it stays, counts a
message, gets a maximum or is removed. A life follows one subscription through a
run of calls. With a maximum it ends in the very call in which its count
reaches that number.
-/

namespace Monoblok

/-- Every stored subscription with what a call makes of it. -/
def callFates (w : World) : RouterCall → List (Subscription × Option Subscription)
  | .publish A m => (publishFates A w m).map fun x => (x.1, deliveredMax x.2)
  | .unsubscribe conn sid maxMsgs =>
    (allSubs w.router).map fun s => (s, unsubscribeOne conn sid maxMsgs s)
  | .removeAllFor conn => (allSubs w.router).map fun s => (s, removeForConn conn s)
  | .subscribe A conn subject queue sid =>
    if subStored A w conn subject queue sid && !(subscribeQueue A w conn subject queue sid).2 then
      (allSubs w.router).map fun s => (s, unsubscribeOne conn sid none s)
    else (allSubs w.router).map fun s => (s, some s)
  | _ => (allSubs w.router).map fun s => (s, some s)

/-- The subscription a call adds. -/
def callAdds (w : World) : RouterCall → List Subscription
  | .subscribe A conn subject queue sid =>
    if (subscribeQueue A w conn subject queue sid).2 then [newSub conn subject queue sid] else []
  | _ => []

/-- The stored subscriptions before and after a call. -/
structure Fates (w w' : World) (fates : List (Subscription × Option Subscription))
    (added : List Subscription) : Prop where
  before : (fates.map Prod.fst).Perm (allSubs w.router)
  after : (allSubs w'.router).Perm (fates.filterMap Prod.snd ++ added)

theorem fates_map {w w' : World} {f : Subscription → Option Subscription}
    {added : List Subscription}
    (h : (allSubs w'.router).Perm ((allSubs w.router).filterMap f ++ added)) :
    Fates w w' ((allSubs w.router).map fun s => (s, f s)) added := by
  refine ⟨?_, ?_⟩
  · rw [List.map_map]
    exact .of_eq (List.map_id _)
  · rw [List.filterMap_map]
    exact h

theorem subscribe_fates {w : World} (hinv : RouterInv w.router) (A : Alloc) (conn : ConnId)
    (subject queue sid : Bytes) :
    Fates w (subscribeQueue A w conn subject queue sid).1
      (callFates w (.subscribe A conn subject queue sid))
      (callAdds w (.subscribe A conn subject queue sid)) := by
  have hsome : (allSubs w.router).filterMap (fun s => some s) = allSubs w.router :=
    List.filterMap_some
  cases hstored : subStored A w conn subject queue sid with
  | false =>
    obtain ⟨r, heq, hperm, -⟩ := subscribeQueue_of_not_stored hinv hstored
    rw [callFates, callAdds, hstored, heq, Bool.false_and, if_neg (by decide), if_neg (by simp)]
    refine fates_map ?_
    rw [hsome, List.append_nil]
    exact hperm
  | true =>
    have hperm := fun out => (failedReplay hinv hstored out).1
    have heq := subscribeQueue_of_stored hstored
    rw [callFates, callAdds, hstored, Bool.true_and]
    cases hok : (subscribeQueue A w conn subject queue sid).2 with
    | false =>
      -- the replay has failed, and the new subscription goes with its sid
      rw [if_pos (by decide), if_neg (by decide)]
      refine fates_map ?_
      dsimp only at heq
      split_ifs at heq with hlvc hreplay
      · rw [heq] at hok
        exact absurd hok (by simp)
      · rw [heq, List.append_nil]
        refine (allSubs_sweepRouter _ _).trans (((hperm _).filterMap _).trans (.of_eq ?_))
        rw [List.filterMap_cons_none]
        rw [unsubscribeOne_none, if_pos ⟨rfl, rfl⟩]
      · rw [heq] at hok
        exact absurd hok (by simp)
    | true =>
      rw [if_neg (by decide), if_pos rfl]
      refine fates_map ?_
      rw [hsome]
      refine List.Perm.trans ?_ (List.perm_append_singleton _ _).symm
      dsimp only at heq
      split_ifs at heq with hlvc hreplay
      · rw [heq]
        exact hperm _
      · rw [heq] at hok
        exact absurd hok (by simp)
      · rw [heq]
        exact allSubs_storedRouter hinv hstored

theorem routerStep_fates {w : World} (hr : Reachable w) (call : RouterCall) :
    Fates w (routerStep w call) (callFates w call) (callAdds w call) := by
  have hstay : ∀ {w' : World}, (allSubs w'.router).Perm (allSubs w.router) →
      Fates w w' ((allSubs w.router).map fun s => (s, some s)) [] := by
    intro w' hperm
    refine fates_map ?_
    rw [List.filterMap_some, List.append_nil]
    exact hperm
  cases call with
  | configureLvc A filters =>
    refine hstay (.of_eq ?_)
    unfold routerStep configureLvc
    dsimp only
    split_ifs <;> rfl
  | storeLvc A subject payload =>
    have hsame := sameRouting_lvcStore A w.router subject payload
    refine hstay (.of_eq ?_)
    rw [routerStep, allSubs, allSubs, hsame.literal, hsame.wildcard, hsame.wildcardGlobal]
  | subscribe A conn subject queue sid => exact subscribe_fates hr.inv A conn subject queue sid
  | unsubscribe conn sid maxMsgs =>
    exact fates_map ((allSubs_sweepRouter _ w).trans (.of_eq (List.append_nil _).symm))
  | removeAllFor conn =>
    exact fates_map ((allSubs_sweepRouter _ w).trans (.of_eq (List.append_nil _).symm))
  | publish A m =>
    obtain ⟨hbefore, hafter, -⟩ := publish_fates A m hr.inv hr.accounted.withinMax
    refine ⟨?_, ?_⟩
    · rw [callFates, List.map_map]
      exact hbefore
    · rw [List.filterMap_map] at hafter
      simp only [callFates, callAdds, List.append_nil, List.filterMap_map]
      exact hafter
  | server conns => exact hstay (.refl _)

/-! ## Lives -/

/-- The first subscription, stored in the first world, is the second one after
the calls. -/
inductive Life : World → List RouterCall → Subscription → Subscription → Prop
  | nil {w : World} {s : Subscription} : s ∈ allSubs w.router → Life w [] s s
  | cons {w : World} {call : RouterCall} {calls : List RouterCall} {s s' s'' : Subscription} :
      (s, some s') ∈ callFates w call → Life (routerStep w call) calls s' s'' →
      Life w (call :: calls) s s''

/-- The call does not set a new maximum for a connection and sid. -/
def KeepsMaximum (conn : ConnId) (sid : Bytes) : RouterCall → Prop
  | .unsubscribe conn' sid' (some _) => ¬(conn' = conn ∧ sid' = sid)
  | _ => True

/-- What a publish may make of a subscription. -/
theorem mem_publishFates {A : Alloc} {w : World} {m : Message} (hr : Reachable w)
    {x : Subscription × Subscription} (hx : x ∈ publishFates A w m) :
    x.1 ∈ allSubs w.router ∧ (x.2 = x.1 ∨ x.2 = { x.1 with delivered := x.1.delivered + 1 }) := by
  obtain ⟨hbefore, -, hserved⟩ := publish_fates A m hr.inv hr.accounted.withinMax
  exact ⟨hbefore.mem_iff.mp (List.mem_map_of_mem hx), hserved x hx⟩

/-- A subscription that has a maximum counts up to it and goes when it has
reached it. -/
theorem deliveredMax_eq_none {s x : Subscription}
    (hserved : x = s ∨ x = { s with delivered := s.delivered + 1 })
    (hmax : s.hasMaxMsgs = true → s.delivered < s.maxMsgs) :
    (s.hasMaxMsgs = true → x.delivered ≤ s.maxMsgs) ∧
      (deliveredMax x = none ↔ s.hasMaxMsgs = true ∧ x.delivered = s.maxMsgs) := by
  cases hhas : s.hasMaxMsgs with
  | false =>
    have hx : x.hasMaxMsgs = false := by
      rcases hserved with rfl | rfl
      · exact hhas
      · exact hhas
    simp [deliveredMax, hx]
  | true =>
    have hlt := hmax hhas
    rcases hserved with rfl | rfl
    · simp only [deliveredMax, hhas, Bool.true_and, true_and, forall_const]
      split_ifs with hdone
      · simp only [decide_eq_true_eq] at hdone
        omega
      · simp only [false_iff]
        omega
    · simp only [deliveredMax, hhas, Bool.true_and, true_and, forall_const]
      split_ifs with hdone
      · simp only [decide_eq_true_eq] at hdone
        simp only [true_iff]
        omega
      · simp only [decide_eq_true_eq, not_le] at hdone
        simp only [false_iff]
        omega

/-- A call that sets no maximum for a subscription leaves its maximum alone. -/
theorem callFates_maximum {w : World} (hr : Reachable w) {call : RouterCall} {s s' : Subscription}
    (hcall : KeepsMaximum s.conn s.sid call) (h : (s, some s') ∈ callFates w call) :
    s'.conn = s.conn ∧ s'.sid = s.sid ∧ s'.hasMaxMsgs = s.hasMaxMsgs ∧ s'.maxMsgs = s.maxMsgs ∧
      s.delivered ≤ s'.delivered := by
  have hsame : s' = s ∨ s' = { s with delivered := s.delivered + 1 } := by
    have hsweep : ∀ conn sid, unsubscribeOne conn sid none s = some s' → s' = s := by
      intro conn sid hs
      rw [unsubscribeOne_none] at hs
      split_ifs at hs
      exact (Option.some.inj hs).symm
    cases call with
    | configureLvc A filters =>
      obtain ⟨s₀, -, heq⟩ := List.mem_map.mp h
      cases heq
      exact .inl rfl
    | storeLvc A subject payload =>
      obtain ⟨s₀, -, heq⟩ := List.mem_map.mp h
      cases heq
      exact .inl rfl
    | subscribe A conn subject queue sid =>
      rw [callFates] at h
      split_ifs at h
      · obtain ⟨s₀, -, heq⟩ := List.mem_map.mp h
        rw [Prod.mk.injEq] at heq
        obtain ⟨rfl, heq⟩ := heq
        exact .inl (hsweep conn sid heq)
      · obtain ⟨s₀, -, heq⟩ := List.mem_map.mp h
        cases heq
        exact .inl rfl
    | unsubscribe conn sid maxMsgs =>
      obtain ⟨s₀, -, heq⟩ := List.mem_map.mp h
      rw [Prod.mk.injEq] at heq
      obtain ⟨rfl, heq⟩ := heq
      cases maxMsgs with
      | none => exact .inl (hsweep conn sid heq)
      | some n =>
        have hother : s₀.conn ≠ conn ∨ (!sliceEq s₀.sid sid) = true := by
          by_contra hno
          rw [not_or, not_not, Bool.not_eq_true, Bool.not_eq_false', sliceEq_iff] at hno
          exact hcall ⟨hno.1.symm, hno.2.symm⟩
        rw [unsubscribeOne, if_pos hother, Option.some.injEq] at heq
        exact .inl heq.symm
    | removeAllFor conn =>
      obtain ⟨s₀, -, heq⟩ := List.mem_map.mp h
      rw [Prod.mk.injEq] at heq
      obtain ⟨rfl, heq⟩ := heq
      unfold removeForConn at heq
      split_ifs at heq
      exact .inl (Option.some.inj heq).symm
    | publish A m =>
      obtain ⟨x, hx, heq⟩ := List.mem_map.mp h
      rw [Prod.mk.injEq] at heq
      obtain ⟨rfl, heq⟩ := heq
      rw [deliveredMax_eq_some heq]
      exact (mem_publishFates hr hx).2
    | server conns =>
      obtain ⟨s₀, -, heq⟩ := List.mem_map.mp h
      cases heq
      exact .inl rfl
  rcases hsame with rfl | rfl
  · exact ⟨rfl, rfl, rfl, rfl, le_rfl⟩
  · exact ⟨rfl, rfl, rfl, rfl, Nat.le_succ _⟩

theorem Life.maximum {w : World} {calls : List RouterCall} {s s' : Subscription}
    (h : Life w calls s s') (hr : Reachable w)
    (hcalls : ∀ call ∈ calls, KeepsMaximum s.conn s.sid call) :
    s' ∈ allSubs (calls.foldl routerStep w).router ∧ s'.hasMaxMsgs = s.hasMaxMsgs ∧
      s'.maxMsgs = s.maxMsgs ∧ s.delivered ≤ s'.delivered := by
  induction h with
  | nil hs => exact ⟨hs, rfl, rfl, le_rfl⟩
  | cons hfate _ ih =>
    obtain ⟨hconn, hsid, hhas, hmax, hle⟩ :=
      callFates_maximum hr (hcalls _ List.mem_cons_self) hfate
    obtain ⟨hmem, hhas', hmax', hle'⟩ := ih (hr.step _) fun c hc => by
      rw [hconn, hsid]
      exact hcalls c (List.mem_cons_of_mem _ hc)
    exact ⟨hmem, hhas'.trans hhas, hmax'.trans hmax, hle.trans hle'⟩

/-- **Auto-unsubscribe.** After any run of calls no stored subscription has
reached its maximum; a publish counts up to the maximum and removes exactly what
has reached it. An UNSUB with a maximum removes at once what is beyond it, and
from then on the subscription gets no message beyond that number, until another
UNSUB. -/
theorem auto_unsubscribe {conns : ConnId → RouterConn} (hconns : ∀ c, (conns c).subCount = 0)
    (calls : List RouterCall) :
    let w := calls.foldl routerStep ⟨routerInit, conns⟩
    (∀ s ∈ allSubs w.router, s.hasMaxMsgs = true → s.delivered < s.maxMsgs) ∧
      (∀ call, Fates w (routerStep w call) (callFates w call) (callAdds w call)) ∧
      (∀ A m, ∀ x ∈ publishFates A w m,
        (x.2 = x.1 ∨ x.2 = { x.1 with delivered := x.1.delivered + 1 }) ∧
          (x.1.hasMaxMsgs = true → x.2.delivered ≤ x.1.maxMsgs) ∧
          (deliveredMax x.2 = none ↔ x.1.hasMaxMsgs = true ∧ x.2.delivered = x.1.maxMsgs)) ∧
      ∀ conn sid n, ∀ s ∈ allSubs w.router, s.conn = conn → s.sid = sid →
        (unsubscribeOne conn sid (some n) s = none ↔ n ≤ s.delivered) ∧
          ∀ later s₁ s₂, (∀ call ∈ later, KeepsMaximum conn sid call) →
            unsubscribeOne conn sid (some n) s = some s₁ →
            Life (unsubscribe w conn sid (some n)) later s₁ s₂ →
            s₂.hasMaxMsgs = true ∧ s₂.maxMsgs = n ∧ s₂.delivered < n ∧
              ∀ A m x,
                (s₂, x) ∈ publishFates A (later.foldl routerStep (unsubscribe w conn sid (some n))) m →
                x.delivered ≤ max n s.delivered ∧ (deliveredMax x = none ↔ x.delivered = n) := by
  intro w
  have hr : Reachable w := Reachable.run (.init conns hconns) calls
  have hmax := hr.accounted.withinMax
  refine ⟨hmax, routerStep_fates hr, fun A m x hx => ?_, fun conn sid n s hs hconn hsid => ?_⟩
  · obtain ⟨hmem, hserved⟩ := mem_publishFates hr hx
    exact ⟨hserved, deliveredMax_eq_none hserved (hmax _ hmem)⟩
  · have hone : unsubscribeOne conn sid (some n) s =
        if n ≤ s.delivered then none else some { s with maxMsgs := n, hasMaxMsgs := true } := by
      rw [unsubscribeOne, if_neg (by simp [hconn, hsid])]
    refine ⟨?_, fun later s₁ s₂ hlater hs₁ hlife => ?_⟩
    · rw [hone]
      split_ifs with hle
      · simp [hle]
      · simp [hle]
    · rw [hone] at hs₁
      split_ifs at hs₁ with hle
      cases hs₁
      have hr₁ : Reachable (unsubscribe w conn sid (some n)) := .unsubscribe conn sid (some n) hr
      obtain ⟨hmem, hhas, hn, -⟩ := hlife.maximum hr₁ fun c hc => by
        dsimp only
        rw [hconn, hsid]
        exact hlater c hc
      dsimp only at hhas hn
      have hr₂ := hr₁.run later
      have hbelow := hr₂.accounted.withinMax s₂ hmem hhas
      rw [hn] at hbelow
      refine ⟨hhas, hn, hbelow, fun A m x hx => ?_⟩
      obtain ⟨-, hserved⟩ := mem_publishFates hr₂ hx
      obtain ⟨hupto, hgone⟩ := deliveredMax_eq_none hserved fun _ => hn ▸ hbelow
      rw [hn] at hupto hgone
      refine ⟨(hupto hhas).trans (le_max_left _ _), ?_⟩
      rw [hgone]
      exact and_iff_right hhas

/-- A subscription with a maximum of one is gone after one message. -/
theorem max_one_gone :
    let w := [RouterCall.subscribe .succeeds 0 (lit "a") [] (lit "1"),
      .unsubscribe 0 (lit "1") (some 1)].foldl routerStep ⟨routerInit, fun _ => plainConn⟩
    (∀ s ∈ allSubs w.router, s.delivered < s.maxMsgs) ∧
      (allSubs w.router).length = 1 ∧
      (allSubs (routerStep w (.publish .succeeds ⟨lit "a", [], []⟩)).router).length = 0 := by
  intro w
  obtain ⟨hmax, -, -, -⟩ := @auto_unsubscribe (fun _ => plainConn) (fun _ => rfl)
    [.subscribe .succeeds 0 (lit "a") [] (lit "1"), .unsubscribe 0 (lit "1") (some 1)]
  refine ⟨fun s hs => hmax s hs ?_, by decide +kernel, by decide +kernel⟩
  revert s
  decide +kernel

end Monoblok
