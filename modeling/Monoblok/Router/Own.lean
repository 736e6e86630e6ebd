import Monoblok.Router.Lifetime
import Monoblok.Router.Live
import Monoblok.Router.Writers

/-!
# What a publish does for one connection

A publish takes turns through the lists it visits, and the turns of the other
subscriptions leave a connection alone. For a connection whose subscriptions
have no queue group what remains is a walk through its own subscriptions, in
some order: each that the message is for adds its frame, and the first frame that
does not fit closes the connection.
-/

namespace Monoblok

open SwapRemove

/-! ## Following the turns -/

section Following

variable {A : Alloc} {m : Message}

theorem loopTurns_foldl {α : Type*} {v : Pub → α} {g : α → Subscription → α} {checkFilter : Bool}
    {groups : List QueueDelivery} {i : ℕ} {subs : List Subscription} {p : Pub}
    (hturn : ∀ t ∈ loopTurns A m checkFilter groups i subs p, v t.after = g (v t.before) t.sub) :
    v (endOf p (loopTurns A m checkFilter groups i subs p)) =
      ((loopTurns A m checkFilter groups i subs p).map Turn.sub).foldl g (v p) := by
  induction subs generalizing i p with
  | nil => rfl
  | cons sub subs ih =>
    have hstart : (takeTurn A m checkFilter groups i sub p).before = p := by
      unfold takeTurn
      split_ifs <;> rfl
    unfold loopTurns at hturn ⊢
    dsimp only at hturn ⊢
    have hfirst := hturn _ List.mem_cons_self
    rw [hstart] at hfirst
    rw [endOf_cons, List.map_cons, List.foldl_cons, ← hfirst]
    split_ifs at hturn ⊢
    · exact ih fun t ht => hturn t (List.mem_cons_of_mem _ ht)
    · rfl

/-- What a turn has brought about and every turn keeps holds when the loop ends. -/
theorem loopTurns_end {I : Pub → Prop} {checkFilter : Bool} {groups : List QueueDelivery} {i : ℕ}
    {subs : List Subscription} {p : Pub}
    (hturn : ∀ t ∈ loopTurns A m checkFilter groups i subs p, I t.before → I t.after) {t : Turn}
    (ht : t ∈ loopTurns A m checkFilter groups i subs p) (hafter : I t.after) :
    I (endOf p (loopTurns A m checkFilter groups i subs p)) := by
  induction subs generalizing i p with
  | nil => exact absurd ht List.not_mem_nil
  | cons sub subs ih =>
    unfold loopTurns at hturn ht ⊢
    dsimp only at hturn ht ⊢
    rw [endOf_cons]
    split_ifs at hturn ht ⊢
    · have hrest := fun t ht => hturn t (List.mem_cons_of_mem _ ht)
      rcases List.mem_cons.mp ht with rfl | ht
      · exact (loopTurns_invariant hrest hafter).2
      · exact ih hrest ht
    · rw [List.mem_singleton.mp ht] at hafter
      exact hafter

variable {I : Pub → Prop}

theorem PubInvariant.phase_end (h : PubInvariant I) {ph : Phase} (hcollect : (ph.collect m).2.2 = true)
    (hturn : ∀ t ∈ ph.turns A m, I t.before → I t.after) {t : Turn} (ht : t ∈ ph.turns A m)
    (hafter : I t.after) : I (ph.result A m).2.1 := by
  rw [Phase.result_eq hcollect]
  apply h.sweep
  unfold Phase.last
  unfold Phase.turns at hturn ht ⊢
  rw [if_pos hcollect] at hturn ht ⊢
  exact loopTurns_end hturn ht hafter

theorem PubInvariant.visits_end (h : PubInvariant I) {p p' : Pub} {phs : List Phase} {ok : Bool}
    (hv : Visits A m p phs p' ok) (hcollect : ∀ ph ∈ phs, (ph.collect m).2.2 = true)
    (hturn : ∀ ph ∈ phs, ∀ t ∈ ph.turns A m, I t.before → I t.after) {ph : Phase} (hph : ph ∈ phs)
    {t : Turn} (ht : t ∈ ph.turns A m) (hafter : I t.after) : I p' := by
  induction hv with
  | nil p => exact absurd hph List.not_mem_nil
  | stop hv =>
    have hmem := Option.mem_toList.mp hph
    have hend := h.phase_end (hcollect ph hph) (hturn ph hph) ht hafter
    refine h.congr _ _ hv.same ?_
    rw [hmem]
    exact hend
  | step hv hrest ih =>
    have hrestTurn := fun x hx => hturn x (List.mem_append_right _ hx)
    rcases List.mem_append.mp hph with hfirst | hlater
    · have hmem := Option.mem_toList.mp hfirst
      have hend := h.phase_end (hcollect ph hph) (hturn ph hph) ht hafter
      refine (h.visits hrest hrestTurn ?_).2
      refine h.congr _ _ hv.same ?_
      rw [hmem]
      exact hend
    · exact ih (fun x hx => hcollect x (List.mem_append_right _ hx)) hrestTurn hlater

/-- Something that only turns change is changed by all of them in their order. -/
theorem Visits.foldl {α : Type*} {v : Pub → α} {g : α → Subscription → α}
    (hv : ∀ a, PubInvariant fun p => v p = a) {p p' : Pub} {phs : List Phase} {ok : Bool}
    (h : Visits A m p phs p' ok) (hcollect : ∀ ph ∈ phs, (ph.collect m).2.2 = true)
    (hturn : ∀ ph ∈ phs, ∀ t ∈ ph.turns A m, v t.after = g (v t.before) t.sub) :
    v p' = ((phs.flatMap (Phase.turns A m)).map Turn.sub).foldl g (v p) := by
  have hphase : ∀ ph : Phase, (ph.collect m).2.2 = true →
      (∀ t ∈ ph.turns A m, v t.after = g (v t.before) t.sub) →
      v (ph.result A m).2.1 = ((ph.turns A m).map Turn.sub).foldl g (v ph.pub) := by
    intro ph hok hturns
    rw [Phase.result_eq hok]
    apply (hv _).sweep
    have hrng : v { ph.pub with world.router.queueRng := (ph.collect m).2.1 } = v ph.pub := by
      apply (hv _).congr ph.pub
      · constructor <;> rfl
      · rfl
    unfold Phase.last
    unfold Phase.turns at hturns ⊢
    rw [if_pos hok] at hturns ⊢
    rw [loopTurns_foldl hturns, hrng]
  have hvisit : ∀ {p p₁ : Pub} {ph : Option Phase} {ok : Bool}, Visit A m p ph p₁ ok →
      (∀ x ∈ ph, (x.collect m).2.2 = true) →
      (∀ x ∈ ph, ∀ t ∈ x.turns A m, v t.after = g (v t.before) t.sub) →
      v p₁ = ((ph.toList.flatMap (Phase.turns A m)).map Turn.sub).foldl g (v p) := by
    intro p p₁ ph ok hvisit hok hturns
    cases ph with
    | none => exact (hv (v p)).congr _ _ hvisit.same rfl
    | some x =>
      have hx := hphase x (hok x rfl) (hturns x rfl)
      rw [hvisit.start x rfl] at hx
      simp only [Option.toList_some, List.flatMap_cons, List.flatMap_nil, List.append_nil]
      exact (hv _).congr _ _ hvisit.same hx
  induction h with
  | nil p => rfl
  | stop hv₁ =>
    exact hvisit hv₁ (fun x hx => hcollect x (Option.mem_toList.mpr hx))
      fun x hx => hturn x (Option.mem_toList.mpr hx)
  | step hv₁ _ ih =>
    have hfirst := hvisit hv₁
      (fun x hx => hcollect x (List.mem_append_left _ (Option.mem_toList.mpr hx)))
      fun x hx => hturn x (List.mem_append_left _ (Option.mem_toList.mpr hx))
    rw [ih (fun x hx => hcollect x (List.mem_append_right _ hx))
      fun x hx => hturn x (List.mem_append_right _ hx), hfirst, List.flatMap_append,
      List.map_append, List.foldl_append]

end Following

/-! ## The turns of a connection -/

/-- The connection has no writer of its own. -/
def RouterConn.Plain (conn : RouterConn) : Prop :=
  conn.msgLenFn = none ∧ conn.writeMsgFn = none

/-- The stored subscriptions of a connection. -/
def ownSubs (c : ConnId) (r : Router) : List Subscription :=
  (allSubs r).filter fun s => s.conn == c

/-- What the turn of a subscription makes of its connection. -/
def turnLine (r : Router) (m : Message) (l : Line) (s : Subscription) : Line :=
  if due r m s && !l.closed then
    if l.fits (subFrame s m) then ⟨l.out ++ subFrame s m, l.closed⟩ else ⟨l.out, true⟩
  else l

/-- A subscription after a message that has been delivered where it is due. -/
def serve (r : Router) (m : Message) (s : Subscription) : Subscription :=
  if due r m s then { s with delivered := s.delivered + 1 } else s

section Serve

variable (r : Router) (m : Message) (s : Subscription)

@[simp] theorem serve_subject : (serve r m s).subject = s.subject := by
  unfold serve
  split_ifs <;> rfl

@[simp] theorem serve_sid : (serve r m s).sid = s.sid := by
  unfold serve
  split_ifs <;> rfl

@[simp] theorem serve_isLvc : (serve r m s).isLvc = s.isLvc := by
  unfold serve
  split_ifs <;> rfl

@[simp] theorem serve_hasMaxMsgs : (serve r m s).hasMaxMsgs = s.hasMaxMsgs := by
  unfold serve
  split_ifs <;> rfl

variable {s}

/-- Without a maximum a subscription stays. -/
theorem deliveredMax_serve (h : s.hasMaxMsgs = false) :
    deliveredMax (serve r m s) = some (serve r m s) := by
  simp [deliveredMax, h]

end Serve

section Turns

variable {A : Alloc} {m : Message} {w : World} {c : ConnId}

/-- A delivery to a connection without a writer of its own that does not fail. -/
theorem deliverToSub_line {p : Pub} {sub : Subscription}
    (hplain : (p.world.conns sub.conn).Plain) (hopen : (p.world.conns sub.conn).closed = false)
    (hok : (deliverToSub A p sub m).2.2 = true) :
    (deliverToSub A p sub m).2.1.world.line sub.conn =
      if (p.world.line sub.conn).fits (subFrame sub m) then
        ⟨(p.world.conns sub.conn).out ++ subFrame sub m, false⟩
      else ⟨(p.world.conns sub.conn).out, true⟩ := by
  have hmeasure : measureMsg (p.world.conns sub.conn) sub m =
      if (subFrame sub m).length ≤ sizeMax then some (subFrame sub m).length else none := by
    rw [measureMsg, hplain.1]
    exact msgFrameLen_eq _ _ _ _ _
  have hmax := maxPending_le_sizeMax
  have hpos := subFrame_pos sub m
  unfold deliverToSub at hok ⊢
  dsimp only at hok ⊢
  by_cases hsize : (subFrame sub m).length ≤ sizeMax
  · rw [if_pos hsize] at hmeasure
    obtain ⟨n, hn⟩ := Nat.exists_eq_add_one_of_ne_zero hpos.ne'
    rw [hmeasure, hn] at hok ⊢
    simp only at hok ⊢
    by_cases hfits : (p.world.conns sub.conn).out.length + (subFrame sub m).length ≤ maxPending
    · have hroom : ¬(maxPending < (p.world.conns sub.conn).out.length ∨
          maxPending - (p.world.conns sub.conn).out.length < n + 1) := by omega
      rw [if_neg hroom] at hok ⊢
      have hwrite : writeMsgTo A p.writes (p.world.conns sub.conn) sub m =
          if A (.out p.writes) then ((p.world.conns sub.conn).out ++ subFrame sub m, true)
          else ((p.world.conns sub.conn).out, false) := by
        rw [writeMsgTo, hplain.2]
        cases A (.out p.writes) with
        | false => rfl
        | true =>
          have hall : (p.world.conns sub.conn).out.length + (msgFrame (subPrefix sub) m.subject
              sub.sid m.replyTo m.payload).length ≤ sizeMax := hfits.trans hmax
          simp only [Bool.not_true, Bool.false_eq_true, if_false, if_true]
          rw [writeMsg_eq ((Nat.le_add_right _ _).trans hall), if_pos hall]
          rfl
      rw [hwrite] at hok ⊢
      have hfit : (p.world.line sub.conn).fits (subFrame sub m) = true := decide_eq_true hfits
      rw [if_pos hfit]
      cases hmem : A (.out p.writes) with
      | false => simp [hmem] at hok
      | true =>
        simp only [if_true, Bool.not_true, Bool.false_eq_true, if_false, World.line, noteKick_out,
          noteKick_closed, updateConn_conns, hopen]
    · have hroom : maxPending < (p.world.conns sub.conn).out.length ∨
          maxPending - (p.world.conns sub.conn).out.length < n + 1 := by omega
      have hfit : (p.world.line sub.conn).fits (subFrame sub m) = false := decide_eq_false hfits
      rw [if_pos hroom, if_neg (by simp [hfit])]
      simp [World.line, queueConnClose_out, queueConnClose_closed]
  · rw [if_neg hsize] at hmeasure
    rw [hmeasure] at hok
    exact absurd hok (by simp)

/-- What the turns of a publish rely on at a connection. -/
structure Attends (w : World) (c : ConnId) (p : Pub) : Prop where
  plain : (p.world.conns c).Plain
  configured : Configured w p

theorem pubInvariant_attends (w : World) (c : ConnId) : PubInvariant (Attends w c) := by
  have hconf := pubInvariant_configured w
  constructor
  · intro p p' hsame h
    refine ⟨?_, hconf.congr p p' hsame h.configured⟩
    rw [hsame.conns]
    exact h.plain
  · intro p sub h
    refine ⟨?_, hconf.remove p sub h.configured⟩
    rw [noteSubRemoved, updateConn_conns]
    split_ifs with hc
    · rw [← hc]
      exact h.plain
    · exact h.plain

theorem pubInvariant_line (c : ConnId) (l : Line) : PubInvariant fun p => p.world.line c = l := by
  constructor
  · intro p p' hsame h
    rw [← h, World.line, World.line, hsame.conns]
  · intro p sub h
    rw [← h, World.line, World.line, noteSubRemoved, updateConn_conns]
    split_ifs with hc
    · rw [hc]
    · rfl

theorem pubInvariant_closed (c : ConnId) :
    PubInvariant fun p => (p.world.conns c).closed = true := by
  constructor
  · intro p p' hsame h
    rw [hsame.conns]
    exact h
  · intro p sub h
    rw [noteSubRemoved, updateConn_conns]
    split_ifs with hc
    · rw [← hc]
      exact h
    · exact h

theorem Attends.turn {ph : Phase} {t : Turn} (ht : t ∈ ph.turns A m) (h : Attends w c t.before) :
    Attends w c t.after := by
  have hrouter := Phase.turns_router ht
  refine ⟨?_, (congrArg Router.lvcEnabled hrouter).trans h.configured.lvcEnabled,
    (congrArg Router.lvcFilters hrouter).trans h.configured.lvcFilters⟩
  obtain ⟨-, heq | ⟨-, heq⟩⟩ := Phase.turns_cases ht
  · rw [heq]
    exact h.plain
  · obtain ⟨hlen, hwrite, -⟩ := worldStep_deliverToSub A t.before t.sub m c
    rw [heq]
    exact ⟨hlen.trans h.plain.1, hwrite.trans h.plain.2⟩

/-- A turn of the connection's own subscriptions is a step of the walk, and the
others leave the connection alone. -/
theorem Attends.turn_line {ph : Phase} {t : Turn} (ht : t ∈ ph.turns A m)
    (hcheck : ∀ s ∈ ph.subs, ph.checkFilter = true ∨ subjectMatches s.subject m.subject = true)
    (h : Attends w c t.before) (hqueue : t.sub.conn = c → t.sub.queue = []) (hok : t.ok = true) :
    t.after.world.line c =
      if t.sub.conn = c then turnLine w.router m (t.before.world.line c) t.sub
      else t.before.world.line c := by
  obtain ⟨j, hj⟩ := List.mem_iff_getElem?.mp ht
  obtain ⟨hsub, hcases⟩ := Phase.turns_getElem? hj
  by_cases hc : t.sub.conn = c
  · rw [if_pos hc]
    subst hc
    have hselected : queueSelected (ph.collect m).1 t.sub j = true := by
      rw [queueSelected, hqueue rfl]
      rfl
    have hchosen : ph.chosen m j t.before t.sub =
        (due w.router m t.sub && !(t.before.world.line t.sub.conn).closed) := by
      rw [Phase.chosen, subDeliverable_eq (hcheck t.sub (List.mem_of_getElem? hsub)), hselected,
        Bool.and_true, due_congr h.configured.lvcEnabled h.configured.lvcFilters]
    rw [turnLine, ← hchosen]
    rcases hcases with ⟨hno, heq⟩ | ⟨hyes, heq⟩
    · rw [hno, if_neg (by decide), show t.after = t.before from congrArg Turn.after heq]
    · have hopen : (t.before.world.conns t.sub.conn).closed = false := by
        rw [hchosen, Bool.and_eq_true, Bool.not_eq_true'] at hyes
        exact hyes.2
      have hdeliver : (deliverToSub A t.before t.sub m).2.2 = true := by
        rw [← hok, show t.ok = (deliverToSub A t.before t.sub m).2.2 from congrArg Turn.ok heq]
      rw [hyes, if_pos rfl,
        show t.after = (deliverToSub A t.before t.sub m).2.1 from congrArg Turn.after heq,
        deliverToSub_line h.plain hopen hdeliver]
      simp [World.line, hopen]
  · rw [if_neg hc]
    rcases hcases with ⟨-, heq⟩ | ⟨-, heq⟩
    · rw [show t.after = t.before from congrArg Turn.after heq]
    · rw [show t.after = (deliverToSub A t.before t.sub m).2.1 from congrArg Turn.after heq,
        World.line, World.line, (deliverToSub_out t.before t.sub).1 c (Ne.symm hc),
        (deliverToSub_closed t.before t.sub).1 c (Ne.symm hc)]

theorem turn_closed {ph : Phase} {t : Turn} (ht : t ∈ ph.turns A m) (c : ConnId)
    (h : (t.before.world.conns c).closed = true) : (t.after.world.conns c).closed = true := by
  obtain ⟨-, heq | ⟨hopen, heq⟩⟩ := Phase.turns_cases ht
  · rw [show t.after = t.before from congrArg Turn.after heq]
    exact h
  · have hc : c ≠ t.sub.conn := by
      rintro rfl
      rw [hopen] at h
      exact absurd h (by decide)
    rw [show t.after = (deliverToSub A t.before t.sub m).2.1 from congrArg Turn.after heq,
      (deliverToSub_closed t.before t.sub).1 c hc]
    exact h

/-- Where the connection stays open, its subscriptions get what they are due. -/
theorem Attends.turn_served {ph : Phase} {t : Turn} (ht : t ∈ ph.turns A m)
    (hcheck : ∀ s ∈ ph.subs, ph.checkFilter = true ∨ subjectMatches s.subject m.subject = true)
    (h : Attends w t.sub.conn t.before) (hqueue : t.sub.queue = []) (hok : t.ok = true)
    (hafter : (t.after.world.conns t.sub.conn).closed = false) :
    t.served = serve w.router m t.sub := by
  have hopen : (t.before.world.conns t.sub.conn).closed = false := by
    by_contra hclosed
    rw [turn_closed ht t.sub.conn (by simpa using hclosed)] at hafter
    exact absurd hafter (by decide)
  obtain ⟨j, hj⟩ := List.mem_iff_getElem?.mp ht
  obtain ⟨hsub, hcases⟩ := Phase.turns_getElem? hj
  have hselected : queueSelected (ph.collect m).1 t.sub j = true := by
    rw [queueSelected, hqueue]
    rfl
  have hchosen : ph.chosen m j t.before t.sub = due w.router m t.sub := by
    rw [Phase.chosen, subDeliverable_eq (hcheck t.sub (List.mem_of_getElem? hsub)), hselected,
      Bool.and_true, due_congr h.configured.lvcEnabled h.configured.lvcFilters]
    simp [World.line, hopen]
  rw [hchosen] at hcases
  rcases hcases with ⟨hno, heq⟩ | ⟨hyes, heq⟩
  · rw [serve, hno, if_neg (by decide)]
    exact congrArg Turn.served heq
  · rw [serve, hyes, if_pos rfl, show t.served = (deliverToSub A t.before t.sub m).1 from
      congrArg Turn.served heq]
    apply (deliverToSub_closed t.before t.sub).2 hopen
    · rw [← hok, show t.ok = (deliverToSub A t.before t.sub m).2.2 from congrArg Turn.ok heq]
    · rw [← hafter, show t.after = (deliverToSub A t.before t.sub m).2.1 from
        congrArg Turn.after heq]

end Turns

/-! ## The whole publish -/

/-- What a publish leaves of a connection without queue groups: its line has been
through its own subscriptions in some order, and while it is open they have got
what they are due. -/
structure OwnPublish (c : ConnId) (w : World) (m : Message) (w' : World) : Prop where
  line : ∃ subs : List Subscription, subs.Perm (ownSubs c w.router) ∧
    w'.line c = subs.foldl (turnLine w.router m) (w.line c)
  subs : (w'.line c).closed = false →
    (ownSubs c w'.router).Perm (((ownSubs c w.router).map (serve w.router m)).filterMap deliveredMax)

theorem ownSubs_perm {r r' : Router} (h : (allSubs r).Perm (allSubs r')) (c : ConnId) :
    (ownSubs c r).Perm (ownSubs c r') := h.filter _

theorem mem_ownSubs {c : ConnId} {r : Router} {s : Subscription} :
    s ∈ ownSubs c r ↔ s ∈ allSubs r ∧ s.conn = c := by
  simp [ownSubs]

theorem foldl_turnLine_of_not_due {r : Router} {m : Message} {subs : List Subscription}
    (h : ∀ s ∈ subs, due r m s = false) (l : Line) : subs.foldl (turnLine r m) l = l := by
  induction subs with
  | nil => rfl
  | cons s subs ih =>
    have hs : turnLine r m l s = l := by simp [turnLine, h s List.mem_cons_self]
    rw [List.foldl_cons, hs]
    exact ih fun x hx => h x (List.mem_cons_of_mem s hx)

theorem foldl_filter_conn {α : Type*} (g : α → Subscription → α) (c : ConnId)
    (subs : List Subscription) (a : α) :
    subs.foldl (fun a s => if s.conn = c then g a s else a) a =
      (subs.filter fun s => s.conn == c).foldl g a := by
  induction subs generalizing a with
  | nil => rfl
  | cons s subs ih =>
    rw [List.foldl_cons, List.filter_cons, ih]
    by_cases hs : s.conn = c
    · simp [hs]
    · simp [hs]

/-- The fates of a connection's subscriptions make up what is left of them. -/
theorem filterMap_fates {r : Router} {m : Message} {c : ConnId}
    {fates : List (Subscription × Subscription)} (hconn : ∀ x ∈ fates, x.2.conn = x.1.conn)
    (hserve : ∀ x ∈ fates, x.1.conn = c → x.2 = serve r m x.1) :
    ((fates.map Prod.snd).filterMap deliveredMax).filter (fun s => s.conn == c) =
      (((fates.map Prod.fst).filter fun s => s.conn == c).map (serve r m)).filterMap
        deliveredMax := by
  induction fates with
  | nil => rfl
  | cons x fates ih =>
    have hrest := ih (fun y hy => hconn y (List.mem_cons_of_mem x hy))
      fun y hy => hserve y (List.mem_cons_of_mem x hy)
    have hx := hconn x List.mem_cons_self
    rw [List.map_cons, List.map_cons]
    by_cases hc : x.1.conn = c
    · rw [List.filter_cons_of_pos (by simpa using hc), List.map_cons,
        ← hserve x List.mem_cons_self hc]
      cases hmax : deliveredMax x.2 with
      | none => rw [List.filterMap_cons_none hmax, List.filterMap_cons_none hmax, hrest]
      | some s =>
        have hs : s.conn = c := by rw [deliveredMax_eq_some hmax, hx, hc]
        rw [List.filterMap_cons_some hmax, List.filterMap_cons_some hmax,
          List.filter_cons_of_pos (by simpa using hs), hrest]
    · rw [List.filter_cons_of_neg (by simpa using hc)]
      cases hmax : deliveredMax x.2 with
      | none => rw [List.filterMap_cons_none hmax, hrest]
      | some s =>
        have hs : s.conn ≠ c := by rwa [deliveredMax_eq_some hmax, hx]
        rw [List.filterMap_cons_some hmax, List.filter_cons_of_neg (by simpa using hs), hrest]

section Publish

variable {A : Alloc} {m : Message} {w : World} {c : ConnId} {p : Pub}

/-- A publish that succeeds for a connection without queue groups. -/
structure Undivided (A : Alloc) (w : World) (m : Message) (c : ConnId) (p : Pub) : Prop where
  started : Started A w m p
  plain : (w.conns c).Plain
  queue : ∀ s ∈ ownSubs c w.router, s.queue = []
  ok : (publishWithReply A w m).ok = true

theorem Undivided.visits (h : Undivided A w m c p) :
    Visits A m p (phasesFrom A p m) (deliverAll A p m).1 (deliverAll A p m).2 :=
  deliverAll_visits A h.started.valid h.started.inv

theorem Undivided.collect (h : Undivided A w m c p) :
    ∀ ph ∈ phasesFrom A p m, (ph.collect m).2.2 = true :=
  fun ph hph => (phasesFrom_collect h.started.valid h.started.inv ph hph).2.2

/-- No turn of it fails, and each finds the connection as it is attended to. -/
theorem Undivided.turn (h : Undivided A w m c p) {ph : Phase} (hph : ph ∈ phasesFrom A p m)
    {t : Turn} (ht : t ∈ ph.turns A m) :
    t.ok = true ∧ Attends w c t.before ∧ (t.sub.conn = c → t.sub.queue = []) := by
  have hok := h.ok
  rw [publishWithReply_of_start h.started.start] at hok
  have hall := h.visits.ok_eq
  dsimp only at hok
  rw [hok, eq_comm, List.all_eq_true] at hall
  have hresult := hall ph hph
  rw [Phase.result_eq (h.collect ph hph)] at hresult
  obtain ⟨hconns, -, -, hsubs, -⟩ := publishStart_router h.started.start
  have hstart : Attends w c p := by
    constructor
    · rw [hconns]
      exact h.plain
    · exact ⟨h.started.undisturbed.lvcEnabled, h.started.undisturbed.lvcFilters⟩
  have hattends := ((pubInvariant_attends w c).visits h.visits
    (fun _ _ _ hturn hbefore => hbefore.turn hturn) hstart).1
  refine ⟨List.all_eq_true.mp hresult t ht, ((hattends ph hph).2 t ht).1, ?_⟩
  intro hc
  apply h.queue
  rw [mem_ownSubs, ← hsubs]
  exact ⟨(phasesFrom_collect h.started.valid h.started.inv ph hph).1 (Phase.turns_cases ht).1, hc⟩

theorem Undivided.turns_sub (h : Undivided A w m c p) {ph : Phase} (hph : ph ∈ phasesFrom A p m) :
    (ph.turns A m).map Turn.sub = ph.subs := by
  have hlength : (ph.turns A m).length = ph.subs.length :=
    Phase.turns_length (h.collect ph hph)
      (List.all_eq_true.mpr fun t ht => (h.turn hph ht).1)
  rw [Phase.turns_sub, hlength, List.take_length]

theorem Undivided.check (h : Undivided A w m c p) {ph : Phase} (hph : ph ∈ phasesFrom A p m) :
    ∀ s ∈ ph.subs, ph.checkFilter = true ∨ subjectMatches s.subject m.subject = true :=
  phasesFrom_check h.started.valid h.started.inv h.started.nonLiteral ph hph

/-- The walk of the line. -/
theorem Undivided.line (h : Undivided A w m c p) :
    (publishWithReply A w m).world.line c =
      (((phasesFrom A p m).flatMap Phase.subs).filter fun s => s.conn == c).foldl
        (turnLine w.router m) (w.line c) := by
  have hsubs : ((phasesFrom A p m).flatMap (Phase.turns A m)).map Turn.sub =
      (phasesFrom A p m).flatMap Phase.subs := by
    rw [List.map_flatMap]
    exact List.flatMap_congr fun ph hph => h.turns_sub hph
  have hwalk : (deliverAll A p m).1.world.line c = (((phasesFrom A p m).flatMap
      (Phase.turns A m)).map Turn.sub).foldl
        (fun l s => if s.conn = c then turnLine w.router m l s else l) (p.world.line c) :=
    h.visits.foldl (pubInvariant_line c) h.collect fun ph hph t ht =>
      (h.turn hph ht).2.1.turn_line ht (h.check hph) (h.turn hph ht).2.2 (h.turn hph ht).1
  rw [hsubs, foldl_filter_conn] at hwalk
  rw [publishWithReply_of_start h.started.start]
  rw [hwalk, World.line, World.line, (publishStart_router h.started.start).1]

/-- While the connection is open its subscriptions get what they are due. -/
theorem Undivided.fate (h : Undivided A w m c p)
    (hopen : ((publishWithReply A w m).world.conns c).closed = false) :
    ∀ x ∈ publishFates A w m, x.1.conn = c → x.2 = serve w.router m x.1 := by
  obtain ⟨others, hperm, hothers⟩ := h.started.others h.ok
  intro x hx hc
  rw [publishFates, publishPhases, h.started.start] at hx
  rcases List.mem_append.mp hx with hx | hx
  · obtain ⟨ph, hph, hx⟩ := List.mem_flatMap.mp hx
    have hsubs := h.turns_sub hph
    have hlength := congrArg List.length hsubs
    rw [List.length_map] at hlength
    rw [Phase.fates, hlength, List.drop_length, List.map_nil, List.append_nil] at hx
    obtain ⟨t, ht, rfl⟩ := List.mem_map.mp hx
    dsimp only at hc ⊢
    subst hc
    obtain ⟨hok, hattends, hqueue⟩ := h.turn hph ht
    apply hattends.turn_served ht (h.check hph) (hqueue rfl) hok
    by_contra hclosed
    have hend := (pubInvariant_closed t.sub.conn).visits_end h.visits h.collect
      (fun _ _ u hu => turn_closed hu t.sub.conn) hph ht (by simpa using hclosed)
    rw [publishWithReply_of_start h.started.start] at hopen
    dsimp only at hopen
    rw [hend] at hopen
    exact absurd hopen (by decide)
  · obtain ⟨s, hs, rfl⟩ := List.mem_map.mp hx
    have hmatch := hothers s ((diff_perm_of_append hperm).mem_iff.mp hs)
    simp [serve, due, hmatch]

theorem Undivided.own (h : Undivided A w m c p) (hr : Reachable w) :
    OwnPublish c w m (publishWithReply A w m).world := by
  constructor
  · obtain ⟨others, hperm, hothers⟩ := h.started.others h.ok
    refine ⟨((phasesFrom A p m).flatMap Phase.subs ++ others).filter fun s => s.conn == c,
      (hperm.filter _).symm, ?_⟩
    have hnot : ∀ s ∈ others.filter fun s => s.conn == c, due w.router m s = false := by
      intro s hs
      simp [due, hothers s (List.mem_of_mem_filter hs)]
    rw [h.line, List.filter_append, List.foldl_append]
    exact (foldl_turnLine_of_not_due hnot _).symm
  · intro hopen
    obtain ⟨hbefore, hafter, hserved⟩ := publish_fates A m hr.inv hr.accounted.withinMax
    refine (hafter.filter _).trans ?_
    rw [filterMap_fates (fun x hx => ?_) (h.fate hopen)]
    · exact ((hbefore.filter _).map _).filterMap _
    · rcases hserved x hx with heq | heq
      · rw [heq]
      · rw [heq]

/-- **A publish for one connection.** -/
theorem publish_own (hr : Reachable w) (hplain : (w.conns c).Plain)
    (hqueue : ∀ s ∈ ownSubs c w.router, s.queue = [])
    (hok : (publishWithReply A w m).ok = true) :
    OwnPublish c w m (publishWithReply A w m).world := by
  cases hstart : publishStart A w m with
  | none =>
    rw [(publishWithReply_of_no_start hstart).1] at hok
    exact absurd hok (by decide)
  | some p =>
    have h : Undivided A w m c p := ⟨started hr.inv hr.nonLiteral hstart, hplain, hqueue, hok⟩
    exact h.own hr

end Publish

/-! ## The walk in one step -/

/-- The bytes of the frames that are due. -/
def dueBytes (r : Router) (m : Message) (subs : List Subscription) : ℕ :=
  ((subs.filter (due r m)).map fun s => (subFrame s m).length).sum

section Walk

variable {r : Router} {m : Message} {l : Line}

theorem foldl_turnLine_of_closed (h : l.closed = true) (subs : List Subscription) :
    subs.foldl (turnLine r m) l = l := by
  induction subs with
  | nil => rfl
  | cons s subs ih =>
    have hs : turnLine r m l s = l := by simp [turnLine, h]
    rw [List.foldl_cons, hs, ih]

/-- The line is closed where the frames do not all fit, in whatever order they
come, and gets all of them where they do. -/
theorem foldl_turnLine_eq (hopen : l.closed = false) (subs : List Subscription) :
    ((subs.foldl (turnLine r m) l).closed = true ↔
        0 < dueBytes r m subs ∧ maxPending < l.out.length + dueBytes r m subs) ∧
      ((subs.foldl (turnLine r m) l).closed = false →
        (subs.foldl (turnLine r m) l).out =
          l.out ++ (subs.filter (due r m)).flatMap fun s => subFrame s m) := by
  induction subs generalizing l with
  | nil => simp [dueBytes, hopen]
  | cons s subs ih =>
    rw [List.foldl_cons]
    cases hdue : due r m s with
    | false =>
      have hs : turnLine r m l s = l := by simp [turnLine, hdue]
      have hbytes : dueBytes r m (s :: subs) = dueBytes r m subs := by simp [dueBytes, hdue]
      rw [hs, hbytes, List.filter_cons_of_neg (by simp [hdue])]
      exact ih hopen
    | true =>
      have hbytes : dueBytes r m (s :: subs) = (subFrame s m).length + dueBytes r m subs := by
        simp [dueBytes, hdue]
      have hpos := subFrame_pos s m
      rw [hbytes, List.filter_cons_of_pos hdue, List.flatMap_cons]
      cases hfit : l.fits (subFrame s m) with
      | false =>
        have hs : turnLine r m l s = ⟨l.out, true⟩ := by simp [turnLine, hdue, hopen, hfit]
        have hlong : ¬l.out.length + (subFrame s m).length ≤ maxPending := of_decide_eq_false hfit
        rw [hs, foldl_turnLine_of_closed rfl]
        constructor
        · simp only [true_iff]
          omega
        · intro h
          exact absurd h (by simp)
      | true =>
        have hs : turnLine r m l s = ⟨l.out ++ subFrame s m, false⟩ := by
          simp [turnLine, hdue, hopen, hfit]
        have hshort : l.out.length + (subFrame s m).length ≤ maxPending := of_decide_eq_true hfit
        obtain ⟨hclosed, hout⟩ := ih (l := ⟨l.out ++ subFrame s m, false⟩) rfl
        rw [hs]
        constructor
        · rw [hclosed, List.length_append]
          omega
        · intro h
          rw [hout h, List.append_assoc]

theorem dueBytes_perm {subs subs' : List Subscription} (h : subs.Perm subs') :
    dueBytes r m subs = dueBytes r m subs' :=
  ((h.filter _).map _).sum_eq

theorem length_dueFrames (subs : List Subscription) :
    ((subs.filter (due r m)).flatMap fun s => subFrame s m).length = dueBytes r m subs := by
  simp [dueBytes, List.length_flatMap]

end Walk

/-! ## The cache alone decides a store -/

section Store

variable {A : Alloc} {r r' : Router}

theorem lvcWrite_congr (h : cacheOf r = cacheOf r') (i base : ℕ) (payload : Bytes) :
    cacheOf (lvcWrite A r i base payload).1 = cacheOf (lvcWrite A r' i base payload).1 ∧
      (lvcWrite A r i base payload).2 = (lvcWrite A r' i base payload).2 := by
  simp only [cacheOf, Cache.mk.injEq] at h
  obtain ⟨hlvc, hcaps, hindex, hbytes, henabled, hfilters⟩ := h
  unfold lvcWrite
  rw [hcaps]
  cases payloadReserve (A .lvcPayload) (r'.lvcPayloadCaps.getD i 0) payload.length with
  | none => simp [cacheOf, hlvc, hindex, hbytes, henabled, hfilters]
  | some cap => simp [cacheOf, hlvc, hindex, henabled, hfilters]

theorem lvcAppend_congr (h : cacheOf r = cacheOf r') (subject : Bytes) (base : ℕ)
    (payload : Bytes) :
    cacheOf (lvcAppend A r subject base payload).1 =
        cacheOf (lvcAppend A r' subject base payload).1 ∧
      (lvcAppend A r subject base payload).2 = (lvcAppend A r' subject base payload).2 := by
  have hcache := h
  simp only [cacheOf, Cache.mk.injEq] at h
  obtain ⟨hlvc, hcaps, hindex, hbytes, henabled, hfilters⟩ := h
  unfold lvcAppend
  rw [lvcKeys, lvcKeys, hlvc, hindex]
  by_cases hfull : maxLvcEntries ≤ r'.lvc.length
  · rw [if_pos hfull, if_pos hfull]
    exact ⟨hcache, rfl⟩
  · rw [if_neg hfull, if_neg hfull]
    cases indexEnsure sliceHash (A .lvcIndex) r'.lvcIndex (r'.lvc.map LvcEntry.subject)
      (r'.lvc.length + 1) with
    | none => exact ⟨hcache, rfl⟩
    | some index =>
      dsimp only
      split_ifs
      · simp [cacheOf, hcaps, hbytes, henabled, hfilters]
      · simp [cacheOf, hcaps, hbytes, henabled, hfilters]
      · apply lvcWrite_congr
        simp [cacheOf, hcaps, hbytes, henabled, hfilters]

theorem lvcStoreEntry_congr (h : cacheOf r = cacheOf r') (subject payload : Bytes) :
    cacheOf (lvcStoreEntry A r subject payload).1 = cacheOf (lvcStoreEntry A r' subject payload).1 ∧
      (lvcStoreEntry A r subject payload).2 = (lvcStoreEntry A r' subject payload).2 := by
  have hcache := h
  simp only [cacheOf, Cache.mk.injEq] at h
  obtain ⟨hlvc, hcaps, hindex, hbytes, -, -⟩ := h
  have hfind : lvcEntryFind r subject = lvcEntryFind r' subject := by
    rw [lvcEntryFind, lvcEntryFind, lvcKeys, lvcKeys, hlvc, hindex]
  have hlen : lvcPayloadLen r = lvcPayloadLen r' := by
    funext i
    rw [lvcPayloadLen, lvcPayloadLen, hlvc]
  unfold lvcStoreEntry
  rw [hfind, hlen, hbytes]
  dsimp only
  split_ifs
  · exact ⟨hcache, rfl⟩
  · exact ⟨hcache, rfl⟩
  · exact ⟨hcache, rfl⟩
  · cases lvcEntryFind r' subject with
    | none => exact lvcAppend_congr hcache subject _ payload
    | some i => exact lvcWrite_congr hcache i _ payload

theorem lvcSubjectEnabled_congr (h : cacheOf r = cacheOf r') (subject : Bytes) :
    lvcSubjectEnabled r subject = lvcSubjectEnabled r' subject := by
  rw [lvcSubjectEnabled, lvcSubjectEnabled, show r.lvcEnabled = r'.lvcEnabled from
    congrArg Cache.enabled h, show r.lvcFilters = r'.lvcFilters from congrArg Cache.filters h]

/-- What a store does to the cache, and whether it succeeds. -/
theorem lvcStore_congr (h : cacheOf r = cacheOf r') (subject payload : Bytes) :
    cacheOf (lvcStore A r subject payload).1 = cacheOf (lvcStore A r' subject payload).1 ∧
      (lvcStore A r subject payload).2 = (lvcStore A r' subject payload).2 := by
  have hstats : lvcStatsSubjectEnabled r subject = lvcStatsSubjectEnabled r' subject := by
    rw [lvcStatsSubjectEnabled, lvcStatsSubjectEnabled, show r.lvcEnabled = r'.lvcEnabled from
      congrArg Cache.enabled h, show r.lvcFilters = r'.lvcFilters from congrArg Cache.filters h]
  unfold lvcStore
  rw [hstats, lvcSubjectEnabled_congr h]
  split_ifs
  · exact ⟨h, rfl⟩
  · exact ⟨h, rfl⟩
  · exact lvcStoreEntry_congr h subject payload
  · exact ⟨h, rfl⟩
  · exact lvcStoreEntry_congr h subject payload

theorem configureLvc_congr (h : cacheOf r = cacheOf r') (filters : List Bytes) :
    cacheOf (configureLvc A r filters).1 = cacheOf (configureLvc A r' filters).1 := by
  simp only [cacheOf, Cache.mk.injEq] at h
  obtain ⟨hlvc, hcaps, hindex, hbytes, -, -⟩ := h
  unfold configureLvc
  dsimp only
  split_ifs
  all_goals simp [cacheOf, hcaps, hlvc, hindex, hbytes]

end Store

end Monoblok
