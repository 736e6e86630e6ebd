import Monoblok.Router.Invariant

/-!
# Bucketed dispatch is a linear scan

A publish looks at three of the lists in which subscriptions are kept. The
result is the one of a scan over all of them: the subscriptions in the other
buckets do not match the subject. The scan works on what a subscriber can see
of its connection, the output and whether it is closed.
-/

namespace Monoblok

open Tokens SwapRemove

structure Line where
  out : Bytes
  closed : Bool
  deriving DecidableEq, Repr

def World.line (w : World) (c : ConnId) : Line := ⟨(w.conns c).out, (w.conns c).closed⟩

/-- The frame a subscription receives for a message. -/
def subFrame (sub : Subscription) (m : Message) : Bytes :=
  msgFrame (subPrefix sub) m.subject sub.sid m.replyTo m.payload

/-- The message is for this subscription. -/
def due (r : Router) (m : Message) (sub : Subscription) : Bool :=
  subjectMatches sub.subject m.subject && (!sub.isLvc || lvcSubjectEnabled r m.subject)

def Line.fits (l : Line) (frame : Bytes) : Bool := decide (l.out.length + frame.length ≤ maxPending)

/-- The turn of one subscription; `chosen` is false for the members of a queue
group that were not selected. -/
def scanStep (r : Router) (m : Message) (v : ConnId → Line) (x : Subscription × Bool) :
    ConnId → Line :=
  let line := v x.1.conn
  if due r m x.1 && !line.closed && x.2 then
    if line.fits (subFrame x.1 m) then
      Function.update v x.1.conn ⟨line.out ++ subFrame x.1 m, line.closed⟩
    else Function.update v x.1.conn ⟨line.out, true⟩
  else v

def scan (r : Router) (m : Message) (v : ConnId → Line) (turns : List (Subscription × Bool)) :
    ConnId → Line :=
  turns.foldl (scanStep r m) v

/-! ## Which buckets can match -/

theorem matchTokens_literal {ft st : List Bytes}
    (hft : ∀ t ∈ ft, t ≠ [] ∧ t ≠ [star] ∧ t ≠ [gt]) (hst : ∀ s ∈ st, s ≠ []) :
    matchTokens ft st = true ↔ ft = st := by
  induction ft generalizing st with
  | nil => cases st <;> simp [matchTokens]
  | cons f fs ih =>
    obtain ⟨hne, hstar, hgt⟩ := hft f List.mem_cons_self
    cases st with
    | nil => simp [matchTokens, hne, hgt]
    | cons s ss =>
      rw [matchTokens_cons hne hgt (hst s List.mem_cons_self), TokenMatches,
        ih (fun t ht => hft t (List.mem_cons_of_mem f ht))
          fun t ht => hst t (List.mem_cons_of_mem s ht), List.cons.injEq]
      simp [hstar]

theorem tokens_ne_nil_of_valid {s : Bytes} {w : Bool} (h : subjectValid s w = true) :
    ∀ t ∈ tokens s, t ≠ [] :=
  (subjectValid_iff.mp h).2.ne_nil

/-- A literal filter matches itself only. -/
theorem subjectMatches_literal {key subject : Bytes} (hlit : isLiteralFilter key = true)
    (hkey : subjectValid key true = true) (hs : subjectValid subject false = true) :
    subjectMatches key subject = true ↔ key = subject := by
  have hbytes : star ∉ key ∧ gt ∉ key := by
    simp only [isLiteralFilter, List.all_eq_true, Bool.not_eq_true', Bool.or_eq_false_iff,
      beq_eq_false_iff_ne] at hlit
    exact ⟨fun h => (hlit _ h).1 rfl, fun h => (hlit _ h).2 rfl⟩
  rw [subjectMatches_eq_matchTokens, matchTokens_literal _ (tokens_ne_nil_of_valid hs)]
  · exact ⟨tokens_injective, congrArg tokens⟩
  · intro t ht
    refine ⟨tokens_ne_nil_of_valid hkey t ht, ?_, ?_⟩
    · rintro rfl
      exact hbytes.1 (mem_of_mem_splitOn ht List.mem_cons_self)
    · rintro rfl
      exact hbytes.2 (mem_of_mem_splitOn ht List.mem_cons_self)

/-- A filter with a literal first token matches only subjects that start with it. -/
theorem subjectMatches_firstToken {filter subject : Bytes}
    (hwild : isWildcardToken (firstToken filter) = false)
    (hf : subjectValid filter true = true) (hs : subjectValid subject false = true)
    (h : subjectMatches filter subject = true) : firstToken filter = firstToken subject := by
  obtain ⟨fs, hfs⟩ := exists_splitOn_eq_cons dot filter
  obtain ⟨ss, hss⟩ := exists_splitOn_eq_cons dot subject
  rw [firstToken_eq] at hwild ⊢
  rw [firstToken_eq]
  simp only [isWildcardToken, Bool.or_eq_false_iff, beq_eq_false_iff_ne] at hwild
  have hne := tokens_ne_nil_of_valid hf (first dot filter) (by rw [tokens, hfs]; simp)
  have hne' := tokens_ne_nil_of_valid hs (first dot subject) (by rw [tokens, hss]; simp)
  rw [subjectMatches_eq_matchTokens, tokens, tokens, hfs, hss, matchTokens_cons hne hwild.2 hne'] at h
  exact h.1.resolve_left hwild.1

/-! ## Scanning -/

theorem scan_append (r : Router) (m : Message) (v : ConnId → Line)
    (ts us : List (Subscription × Bool)) :
    scan r m v (ts ++ us) = scan r m (scan r m v ts) us :=
  List.foldl_append

/-- Subscriptions the message is not for leave no trace. -/
theorem scan_of_not_due {r : Router} {m : Message} {ts : List (Subscription × Bool)}
    (h : ∀ x ∈ ts, due r m x.1 = false) (v : ConnId → Line) : scan r m v ts = v := by
  induction ts with
  | nil => rfl
  | cons x ts ih =>
    have hx : scanStep r m v x = v := by simp [scanStep, h x List.mem_cons_self]
    rw [scan, List.foldl_cons, hx]
    exact ih fun y hy => h y (List.mem_cons_of_mem x hy)

/-- The turns of a list of subscriptions: queue-less ones are always chosen. -/
structure Turns (subs : List Subscription) (ts : List (Subscription × Bool)) : Prop where
  subs : ts.map Prod.fst = subs
  queueless : ∀ x ∈ ts, x.1.queue = [] → x.2 = true

theorem Turns.append {ss ss' : List Subscription} {ts ts' : List (Subscription × Bool)}
    (h : Turns ss ts) (h' : Turns ss' ts') : Turns (ss ++ ss') (ts ++ ts') := by
  refine ⟨by rw [List.map_append, h.subs, h'.subs], fun x hx => ?_⟩
  rcases List.mem_append.mp hx with hx | hx
  · exact h.queueless x hx
  · exact h'.queueless x hx

theorem turns_all (ss : List Subscription) : Turns ss (ss.map (·, true)) := by
  refine ⟨by simp [Function.comp_def], fun x hx _ => ?_⟩
  obtain ⟨s, -, rfl⟩ := List.mem_map.mp hx
  rfl

/-! ## One subscription's turn -/

def DefaultWriters (w : World) : Prop :=
  ∀ c, (w.conns c).msgLenFn = none ∧ (w.conns c).writeMsgFn = none

theorem line_updateConn (w : World) (c : ConnId) (f : RouterConn → RouterConn) :
    (w.updateConn c f).line =
      Function.update w.line c ⟨(f (w.conns c)).out, (f (w.conns c)).closed⟩ := by
  funext d
  by_cases h : d = c
  · subst h
    simp [World.line, World.updateConn]
  · simp [World.line, World.updateConn, h]

/-- An update of a connection that installs no writer. -/
def KeepsWriters (f : RouterConn → RouterConn) : Prop :=
  ∀ x, (f x).msgLenFn = x.msgLenFn ∧ (f x).writeMsgFn = x.writeMsgFn

theorem DefaultWriters.updateConn {w : World} (h : DefaultWriters w) (c : ConnId)
    (f : RouterConn → RouterConn) (hf : KeepsWriters f) : DefaultWriters (w.updateConn c f) := by
  intro d
  by_cases hd : d = c
  · subst hd
    simpa [World.updateConn, hf (w.conns d)] using h d
  · simpa [World.updateConn, hd] using h d

theorem update_line_self (w : World) (c : ConnId) (l : Line) (hl : l = w.line c) :
    Function.update w.line c l = w.line := by
  subst hl
  exact Function.update_eq_self c _

/-- What a step of the delivery keeps: default writers, the router, and a close
list that grows by at most one. -/
structure StepKeeps (p p' : Pub) : Prop where
  defaults : DefaultWriters p.world → DefaultWriters p'.world
  router : p'.world.router = p.world.router
  closed : p'.closed.length ≤ p.closed.length + 1

theorem noteKick_keeps (p : Pub) (c : ConnId) :
    StepKeeps p (noteKick p c) ∧ (noteKick p c).world.line = p.world.line := by
  refine ⟨⟨fun h => ?_, noteKick_router p c, ?_⟩, ?_⟩ <;> unfold noteKick <;> dsimp only <;>
    split_ifs
  · dsimp only
    refine h.updateConn c _ ?_
    exact fun _ => ⟨rfl, rfl⟩
  · exact h
  · exact Nat.le_succ _
  · exact Nat.le_succ _
  · rw [line_updateConn]
    exact update_line_self _ _ _ rfl
  · rfl

/-- Closing succeeds while the close list has room. -/
theorem queueConnClose_spec {p : Pub} {c : ConnId} (hopen : (p.world.conns c).closed = false)
    (hroom : p.closed.length < p.world.router.closeCap) :
    (queueConnClose p c).2 = true ∧ StepKeeps p (queueConnClose p c).1 ∧
      (queueConnClose p c).1.world.line =
        Function.update p.world.line c ⟨(p.world.conns c).out, true⟩ := by
  unfold queueConnClose
  dsimp only
  rw [if_neg (by simp [hopen])]
  split_ifs with h₁ h₂
  · refine ⟨rfl, ⟨fun h => ?_, rfl, Nat.le_succ _⟩, ?_⟩
    · dsimp only
      refine h.updateConn c _ ?_
      exact fun _ => ⟨rfl, rfl⟩
    · rw [line_updateConn]
  · exact absurd h₂ (Nat.not_le.mpr hroom)
  · refine ⟨rfl, ⟨fun h => ?_, rfl, by simp⟩, ?_⟩
    · dsimp only
      refine DefaultWriters.updateConn (h.updateConn c _ ?_) c _ ?_
      · exact fun _ => ⟨rfl, rfl⟩
      · exact fun _ => ⟨rfl, rfl⟩
    · rw [line_updateConn, line_updateConn, Function.update_idem]
      simp [World.updateConn]

theorem measureMsg_eq {w : World} (hw : DefaultWriters w) (sub : Subscription) (m : Message)
    (hfit : (subFrame sub m).length ≤ sizeMax) :
    measureMsg (w.conns sub.conn) sub m = some (subFrame sub m).length := by
  rw [measureMsg, (hw sub.conn).1]
  simp only
  rw [msgFrameLen_eq]
  exact if_pos hfit

theorem subFrame_pos (sub : Subscription) (m : Message) : 0 < (subFrame sub m).length := by
  simp [subFrame, msgFrame, lit]

theorem maxPending_le_sizeMax : maxPending ≤ sizeMax := by decide

theorem writeMsgTo_eq {conn : RouterConn} (hconn : conn.writeMsgFn = none) (i : ℕ)
    (sub : Subscription) (m : Message)
    (hfit : conn.out.length + (subFrame sub m).length ≤ maxPending) :
    writeMsgTo .succeeds i conn sub m = (conn.out ++ subFrame sub m, true) := by
  have hmax := maxPending_le_sizeMax
  rw [writeMsgTo, hconn]
  simp only [Alloc.succeeds, Bool.not_true, Bool.false_eq_true, if_false]
  rw [writeMsg_eq (by omega), if_pos (by unfold subFrame at hfit; omega)]
  rfl

/-- A delivery either appends the frame of the subscription or closes the
connection. -/
theorem deliverToSub_eq {p : Pub} {sub : Subscription} {m : Message} (hw : DefaultWriters p.world)
    (hfit : (subFrame sub m).length ≤ sizeMax) :
    deliverToSub .succeeds p sub m =
      if (p.world.line sub.conn).fits (subFrame sub m) then
        ({ sub with delivered := sub.delivered + 1 },
          noteKick
            { p with
              world := p.world.updateConn sub.conn fun conn =>
                { conn with out := (p.world.conns sub.conn).out ++ subFrame sub m }
              writes := p.writes + 1 }
            sub.conn, true)
      else (sub, (queueConnClose p sub.conn).1, (queueConnClose p sub.conn).2) := by
  obtain ⟨n, hn⟩ := Nat.exists_eq_add_one_of_ne_zero (subFrame_pos sub m).ne'
  unfold deliverToSub
  dsimp only
  rw [measureMsg_eq hw sub m hfit, hn]
  simp only
  by_cases hfits : (p.world.line sub.conn).fits (subFrame sub m) = true
  · have hlen : (p.world.conns sub.conn).out.length + (subFrame sub m).length ≤ maxPending :=
      of_decide_eq_true hfits
    rw [if_neg (by omega), if_pos hfits]
    simp only [writeMsgTo_eq (hw sub.conn).2 p.writes sub m hlen, Bool.not_true,
      Bool.false_eq_true, if_false]
  · have hlen : ¬ (p.world.conns sub.conn).out.length + (subFrame sub m).length ≤ maxPending :=
      fun h => hfits (decide_eq_true h)
    rw [if_pos (by omega), if_neg hfits]

theorem deliverToSub_spec {p : Pub} {sub : Subscription} {m : Message}
    (hw : DefaultWriters p.world) (hopen : (p.world.conns sub.conn).closed = false)
    (hfit : (subFrame sub m).length ≤ sizeMax)
    (hroom : p.closed.length < p.world.router.closeCap) :
    (deliverToSub .succeeds p sub m).2.2 = true ∧
      StepKeeps p (deliverToSub .succeeds p sub m).2.1 ∧
      (deliverToSub .succeeds p sub m).2.1.world.line =
        if (p.world.line sub.conn).fits (subFrame sub m) then
          Function.update p.world.line sub.conn
            ⟨(p.world.line sub.conn).out ++ subFrame sub m, (p.world.line sub.conn).closed⟩
        else Function.update p.world.line sub.conn ⟨(p.world.line sub.conn).out, true⟩ := by
  rw [deliverToSub_eq hw hfit]
  split_ifs with hfits
  · have hkick := noteKick_keeps
      { p with
        world := p.world.updateConn sub.conn fun conn =>
          { conn with out := (p.world.conns sub.conn).out ++ subFrame sub m }
        writes := p.writes + 1 } sub.conn
    refine ⟨rfl, ⟨fun _ => hkick.1.defaults ?_, hkick.1.router, hkick.1.closed⟩, ?_⟩
    · dsimp only
      refine hw.updateConn sub.conn _ ?_
      exact fun _ => ⟨rfl, rfl⟩
    · rw [hkick.2, line_updateConn]
      rfl
  · exact queueConnClose_spec hopen hroom

/-! ## One list -/

theorem due_congr {r r' : Router} (he : r'.lvcEnabled = r.lvcEnabled)
    (hf : r'.lvcFilters = r.lvcFilters) (m : Message) : due r' m = due r m := by
  funext sub
  rw [due, due, lvcSubjectEnabled, lvcSubjectEnabled, he, hf]

theorem scan_congr {r r' : Router} (he : r'.lvcEnabled = r.lvcEnabled)
    (hf : r'.lvcFilters = r.lvcFilters) (m : Message) : scan r' m = scan r m := by
  have hstep : scanStep r' m = scanStep r m := by
    funext v x
    rw [scanStep, scanStep, due_congr he hf m]
  funext v ts
  rw [scan, scan, hstep]

/-- The turns of a list whose queue groups have chosen their members. -/
def queueTurns (groups : List QueueDelivery) (i : ℕ) (subs : List Subscription) :
    List (Subscription × Bool) :=
  (subs.zipIdx i).map fun x => (x.1, queueSelected groups x.1 x.2)

theorem turns_queueTurns (groups : List QueueDelivery) (i : ℕ) (subs : List Subscription) :
    Turns subs (queueTurns groups i subs) := by
  constructor
  · rw [queueTurns, List.map_map]
    exact List.zipIdx_map_fst i subs
  · intro x hx hqueue
    obtain ⟨y, -, rfl⟩ := List.mem_map.mp hx
    simp only at hqueue
    simp [queueSelected, hqueue]

/-- There is room for a group of every subscription. -/
theorem collectLoop_ok (w : World) (subject : Bytes) (checkFilter : Bool) (i : ℕ)
    (subs : List Subscription) (groups : List QueueDelivery) (rng : UInt64)
    (hroom : groups.length + subs.length ≤ w.router.queueCap) :
    (collectLoop w subject checkFilter i subs groups rng).2.2 = true := by
  induction subs generalizing i groups rng with
  | nil => rfl
  | cons sub subs ih =>
    simp only [List.length_cons] at hroom
    unfold collectLoop
    split_ifs
    · exact ih (i + 1) groups rng (by omega)
    · have hcollect : ∃ groups' rng', groups'.length ≤ groups.length + 1 ∧
          collectQueueDelivery w.router.queueCap groups rng sub i = some (groups', rng') := by
        unfold collectQueueDelivery
        cases hfind : groups.findIdx? (queueGroupEq · sub) with
        | none =>
          simp only
          rw [if_neg (by omega)]
          exact ⟨_, _, by simp, rfl⟩
        | some j =>
          have hj : j < groups.length := (List.findIdx?_eq_some_iff_findIdx_eq.mp hfind).1
          simp only [List.getElem?_eq_getElem hj]
          exact ⟨_, _, by simp, rfl⟩
      obtain ⟨groups', rng', hlen, heq⟩ := hcollect
      rw [heq]
      exact ih (i + 1) groups' rng' (by omega)

/-- What delivering to some subscriptions does: it succeeds, and the lines are
those of a scan. -/
structure ScanSpec (p : Pub) (m : Message) (n : ℕ) (ts : List (Subscription × Bool))
    (p' : Pub) (ok : Bool) : Prop where
  ok : ok = true
  defaults : DefaultWriters p'.world
  closed : p'.closed.length ≤ p.closed.length + n
  line : p'.world.line = scan p.world.router m p.world.line ts

theorem subDeliverable_eq {p : Pub} {sub : Subscription} {m : Message} {checkFilter : Bool}
    (h : checkFilter = true ∨ subjectMatches sub.subject m.subject = true) :
    subDeliverable p.world sub m.subject checkFilter =
      (due p.world.router m sub && !(p.world.line sub.conn).closed) := by
  unfold subDeliverable due World.line
  rcases h with rfl | h
  · cases (p.world.conns sub.conn).closed <;> cases subjectMatches sub.subject m.subject <;> simp
  · cases (p.world.conns sub.conn).closed <;> simp [h]

theorem deliverLoop_scan {m : Message} {checkFilter : Bool} (groups : List QueueDelivery) (i : ℕ)
    (subs : List Subscription) (p : Pub) (hw : DefaultWriters p.world)
    (hfit : ∀ s ∈ subs, (subFrame s m).length ≤ sizeMax)
    (hmatch : ∀ s ∈ subs, checkFilter = true ∨ subjectMatches s.subject m.subject = true)
    (hroom : p.closed.length + subs.length ≤ p.world.router.closeCap) :
    ScanSpec p m subs.length (queueTurns groups i subs)
      (deliverLoop .succeeds m checkFilter groups i subs p).2.1
      (deliverLoop .succeeds m checkFilter groups i subs p).2.2 := by
  induction subs generalizing i p with
  | nil => exact ⟨rfl, hw, le_rfl, rfl⟩
  | cons sub subs ih =>
    have hfit' := fun s hs => hfit s (List.mem_cons_of_mem sub hs)
    have hmatch' := fun s hs => hmatch s (List.mem_cons_of_mem sub hs)
    have hcons : scan p.world.router m p.world.line (queueTurns groups i (sub :: subs)) =
        scan p.world.router m
          (scanStep p.world.router m p.world.line (sub, queueSelected groups sub i))
          (queueTurns groups (i + 1) subs) := by
      rw [queueTurns, List.zipIdx_cons]
      rfl
    rw [List.length_cons] at hroom ⊢
    unfold deliverLoop
    rw [subDeliverable_eq (hmatch sub List.mem_cons_self)]
    by_cases hturn : (due p.world.router m sub && !(p.world.line sub.conn).closed &&
        queueSelected groups sub i) = true
    · obtain ⟨hdue, hsel⟩ := Bool.and_eq_true_iff.mp hturn
      have hopen : (p.world.conns sub.conn).closed = false := by
        simpa [World.line] using (Bool.and_eq_true_iff.mp hdue).2
      obtain ⟨hok, hkeeps, hline⟩ := deliverToSub_spec hw hopen (hfit sub List.mem_cons_self)
        (by omega)
      rw [if_neg (by simp [hdue, hsel])]
      generalize deliverToSub .succeeds p sub m = d at hok hkeeps hline
      obtain ⟨sub', p', ok⟩ := d
      obtain ⟨hdefaults, hrouter, hclosed⟩ := hkeeps
      dsimp only at hok hline hdefaults hrouter hclosed
      subst hok
      have hrest := ih (i + 1) p' (hdefaults hw) hfit' hmatch' (by rw [hrouter]; omega)
      refine ⟨hrest.ok, hrest.defaults, hrest.closed.trans (by omega), ?_⟩
      rw [hcons, scanStep]
      dsimp only
      rw [if_pos hturn, ← hline, ← hrouter]
      exact hrest.line
    · have hrest := ih (i + 1) p hw hfit' hmatch' (by omega)
      rw [← Bool.not_and, Bool.eq_false_iff.mpr hturn, Bool.not_false, if_pos rfl]
      refine ⟨hrest.ok, hrest.defaults, hrest.closed.trans (by omega), ?_⟩
      rw [hcons, scanStep]
      dsimp only
      rw [if_neg hturn]
      exact hrest.line

theorem foldl_noteSubRemoved_conns (l : List Subscription) (w : World) :
    (l.foldl noteSubRemoved w).line = w.line ∧
      (DefaultWriters w → DefaultWriters (l.foldl noteSubRemoved w)) := by
  induction l generalizing w with
  | nil => exact ⟨rfl, id⟩
  | cons s l ih =>
    obtain ⟨h₁, h₂⟩ := ih (noteSubRemoved w s)
    have hline : (noteSubRemoved w s).line = w.line := by
      unfold noteSubRemoved
      rw [line_updateConn]
      exact update_line_self _ _ _ rfl
    refine ⟨h₁.trans hline, fun h => h₂ ?_⟩
    unfold noteSubRemoved
    refine DefaultWriters.updateConn ?_ s.conn _ fun _ => ⟨rfl, rfl⟩
    exact h

theorem deliverMatchingList_scan {p : Pub} {subs : List Subscription} {m : Message}
    {checkFilter : Bool} (hw : DefaultWriters p.world)
    (hfit : ∀ s ∈ subs, (subFrame s m).length ≤ sizeMax)
    (hmatch : ∀ s ∈ subs, checkFilter = true ∨ subjectMatches s.subject m.subject = true)
    (hclose : p.closed.length + subs.length ≤ p.world.router.closeCap)
    (hqueue : subs.length ≤ p.world.router.queueCap) :
    ∃ ts, Turns subs ts ∧
      ScanSpec p m subs.length ts (deliverMatchingList .succeeds p subs m checkFilter).2.1
        (deliverMatchingList .succeeds p subs m checkFilter).2.2 := by
  have hcollect := collectLoop_ok p.world m.subject checkFilter 0 subs [] p.world.router.queueRng
    (by simpa using hqueue)
  unfold deliverMatchingList
  generalize collectLoop p.world m.subject checkFilter 0 subs [] p.world.router.queueRng = c
    at hcollect
  obtain ⟨groups, rng, ok⟩ := c
  dsimp only at hcollect
  subst hcollect
  refine ⟨queueTurns groups 0 subs, turns_queueTurns groups 0 subs, ?_⟩
  have hloop := deliverLoop_scan groups 0 subs
    { p with world.router.queueRng := rng } hw hfit hmatch hclose
  obtain ⟨h₁, h₂, h₃, h₄⟩ := hloop
  dsimp only [removeDeliveredMax]
  obtain ⟨hline, hdef⟩ := foldl_noteSubRemoved_conns
    ((deliverLoop .succeeds m checkFilter groups 0 subs { p with world.router.queueRng := rng }).1.filter
      fun s => (deliveredMax s).isNone)
    (deliverLoop .succeeds m checkFilter groups 0 subs { p with world.router.queueRng := rng }).2.1.world
  refine ⟨h₁, hdef h₂, h₃, hline.trans (h₄.trans ?_)⟩
  rw [scan_congr (r := p.world.router) rfl rfl]
  rfl

/-! ## One table -/

theorem turns_not_due {r : Router} {m : Message} {subs : List Subscription}
    (h : ∀ s ∈ subs, due r m s = false) (v : ConnId → Line) :
    scan r m v (subs.map (·, true)) = v := by
  refine scan_of_not_due (fun x hx => ?_) v
  obtain ⟨s, hs, rfl⟩ := List.mem_map.mp hx
  exact h s hs

theorem BucketTable.mem_placed {t : BucketTable} {b : Bucket} (hb : b ∈ t.buckets)
    {s : Subscription} (hs : s ∈ b.subs) : (b.key, s) ∈ t.placed := by
  rw [placed, List.mem_flatMap]
  exact ⟨b, hb, List.mem_map_of_mem hs⟩

section Table

variable {at' : Bytes → Bytes → Prop} {t : BucketTable} {r : Router} {m : Message} {key : Bytes}

/-- A key without a bucket: nothing in the table is due. -/
theorem scan_table_of_none (ht : TableInv at' t)
    (hother : ∀ k (s : Subscription), at' k s.subject → k ≠ key → due r m s = false)
    (hfind : bucketFind t key = none) (v : ConnId → Line) :
    scan r m v (t.subs.map (·, true)) = v := by
  apply turns_not_due
  intro s hs
  obtain ⟨b, hb, hsb⟩ := List.mem_flatMap.mp hs
  refine hother b.key s (ht.placed _ (BucketTable.mem_placed hb hsb)) fun hkey => ?_
  exact (bucketFind_eq_none ht.ok).mp hfind (hkey ▸ List.mem_map_of_mem hb)

/-- The turns of one bucket are those of the whole table. -/
theorem scan_table_of_some (ht : TableInv at' t)
    (hother : ∀ k (s : Subscription), at' k s.subject → k ≠ key → due r m s = false) {i : ℕ} {b : Bucket}
    (hb : t.buckets[i]? = some b) (hkey : b.key = key) {ts : List (Subscription × Bool)}
    (hts : Turns b.subs ts) :
    ∃ ts', Turns t.subs ts' ∧ ∀ v, scan r m v ts' = scan r m v ts := by
  obtain ⟨l₁, l₂, hl, -⟩ := split_at hb
  have hnodup := ht.ok.nodup
  rw [BucketTable.keys, hl, List.map_append, List.map_cons, List.nodup_append] at hnodup
  obtain ⟨-, hnodup₂, hdisjoint⟩ := hnodup
  -- the other buckets have other keys
  have hskip : ∀ l : List Bucket, (∀ c ∈ l, c ∈ t.buckets) → (∀ c ∈ l, c.key ≠ key) →
      ∀ v, scan r m v ((l.flatMap Bucket.subs).map (·, true)) = v := by
    intro l hsub hne
    apply turns_not_due
    intro s hs
    obtain ⟨c, hc, hsc⟩ := List.mem_flatMap.mp hs
    exact hother c.key s (ht.placed _ (BucketTable.mem_placed (hsub c hc) hsc)) (hne c hc)
  refine ⟨(l₁.flatMap Bucket.subs).map (·, true) ++ (ts ++ (l₂.flatMap Bucket.subs).map (·, true)),
    ?_, fun v => ?_⟩
  · have hsubs : t.subs = l₁.flatMap Bucket.subs ++ (b.subs ++ l₂.flatMap Bucket.subs) := by
      rw [BucketTable.subs, hl, List.flatMap_append, List.flatMap_cons]
    rw [hsubs]
    exact (turns_all _).append (hts.append (turns_all _))
  · rw [scan_append, scan_append, hskip l₁, hskip l₂]
    · intro c hc
      rw [hl]
      exact List.mem_append_right _ (List.mem_cons_of_mem b hc)
    · rintro c hc rfl
      rw [hkey] at hnodup₂
      exact (List.nodup_cons.mp hnodup₂).1 (List.mem_map_of_mem hc)
    · intro c hc
      rw [hl]
      exact List.mem_append_left _ hc
    · rintro c hc rfl
      exact hdisjoint c.key (List.mem_map_of_mem hc) b.key List.mem_cons_self hkey.symm

/-- Delivering to the bucket of the key does what a scan of the table would. -/
theorem deliverBucket_scan {p : Pub} {checkFilter : Bool} (ht : TableInv at' t)
    (hother : ∀ k (s : Subscription), at' k s.subject → k ≠ key → due p.world.router m s = false)
    (hsame : ∀ s : Subscription, at' key s.subject →
      checkFilter = true ∨ subjectMatches s.subject m.subject = true)
    {i : ℕ} (hfind : bucketFind t key = some i) (hw : DefaultWriters p.world)
    (hfit : ∀ s ∈ t.subs, (subFrame s m).length ≤ sizeMax)
    (hclose : p.closed.length + t.subs.length ≤ p.world.router.closeCap)
    (hqueue : t.subs.length ≤ p.world.router.queueCap) :
    ∃ ts, Turns t.subs ts ∧
      ScanSpec p m t.subs.length ts
        (deliverMatchingList .succeeds p (bucketSubs t i) m checkFilter).2.1
        (deliverMatchingList .succeeds p (bucketSubs t i) m checkFilter).2.2 := by
  obtain ⟨b, hb, hkey⟩ := (bucketFind_eq_some ht.ok).mp hfind
  have hmem : b ∈ t.buckets := List.mem_of_getElem? hb
  have hsub : ∀ s ∈ b.subs, s ∈ t.subs := fun s hs => List.mem_flatMap.mpr ⟨b, hmem, hs⟩
  have hlen : b.subs.length ≤ t.subs.length := by
    have hset := length_setBucketSubs hb []
    simp only [List.length_nil] at hset
    omega
  rw [bucketSubs_eq hb]
  obtain ⟨ts, hts, hspec⟩ := deliverMatchingList_scan (p := p) hw (fun s hs => hfit s (hsub s hs))
    (fun s hs => hsame s (hkey ▸ ht.placed _ (BucketTable.mem_placed hmem hs)))
    (by omega) (by omega)
  obtain ⟨ts', hts', hscan⟩ := scan_table_of_some ht hother hb hkey hts
  refine ⟨ts', hts', hspec.ok, hspec.defaults, hspec.closed.trans (by omega), ?_⟩
  rw [hscan]
  exact hspec.line

end Table

/-- What the delivery to one list leaves of the router for the next lists. -/
structure LaterLists (r r' : Router) : Prop where
  closeCap : r'.closeCap = r.closeCap
  queueCap : r'.queueCap = r.queueCap
  lvcEnabled : r'.lvcEnabled = r.lvcEnabled
  lvcFilters : r'.lvcFilters = r.lvcFilters
  wildcardGlobal : r'.wildcardGlobal = r.wildcardGlobal

theorem due_eq_false {r : Router} {m : Message} {s : Subscription}
    (h : subjectMatches s.subject m.subject ≠ true) : due r m s = false := by
  simp [due, h]

theorem deliverLiteral_scan {p : Pub} {m : Message} (hr : RouterInv p.world.router)
    (hw : DefaultWriters p.world) (hvalid : subjectValid m.subject false = true)
    (hfit : ∀ s ∈ p.world.router.literal.subs, (subFrame s m).length ≤ sizeMax)
    (hclose : p.closed.length + p.world.router.literal.subs.length ≤ p.world.router.closeCap)
    (hqueue : p.world.router.literal.subs.length ≤ p.world.router.queueCap) :
    LaterLists p.world.router (deliverLiteral .succeeds p m).1.world.router ∧
      (deliverLiteral .succeeds p m).1.world.router.wildcard = p.world.router.wildcard ∧
      ∃ ts, Turns p.world.router.literal.subs ts ∧
        ScanSpec p m p.world.router.literal.subs.length ts (deliverLiteral .succeeds p m).1
          (deliverLiteral .succeeds p m).2 := by
  have hother : ∀ k (s : Subscription), LiteralAt k s.subject → k ≠ m.subject →
      due p.world.router m s = false := by
    rintro k s ⟨rfl, hlit, hkey⟩ hne
    exact due_eq_false fun h => hne ((subjectMatches_literal hlit hkey hvalid).mp h)
  have hsame : ∀ s : Subscription, LiteralAt m.subject s.subject →
      false = true ∨ subjectMatches s.subject m.subject = true := by
    rintro s ⟨hsubject, hlit, hkey⟩
    rw [hsubject]
    exact .inr ((subjectMatches_literal hlit hkey hvalid).mpr rfl)
  unfold deliverLiteral
  cases hfind : bucketFind p.world.router.literal m.subject with
  | none =>
    refine ⟨⟨rfl, rfl, rfl, rfl, rfl⟩, rfl, _, turns_all _, rfl, hw, Nat.le_add_right _ _, ?_⟩
    exact (scan_table_of_none hr.literal hother hfind _).symm
  | some i =>
    obtain ⟨ts, hts, h₁, h₂, h₃, h₄⟩ :=
      deliverBucket_scan hr.literal hother hsame hfind hw hfit hclose hqueue
    obtain ⟨⟨rng, hrouter⟩, -, -⟩ := deliverMatchingList_spec .succeeds p
      (bucketSubs p.world.router.literal i) m false
    dsimp only
    rw [hrouter]
    exact ⟨⟨rfl, rfl, rfl, rfl, rfl⟩, rfl, ts, hts, h₁, h₂, h₃, h₄⟩

theorem deliverWildcard_scan {p : Pub} {m : Message} (hr : RouterInv p.world.router)
    (hw : DefaultWriters p.world) (hvalid : subjectValid m.subject false = true)
    (hfit : ∀ s ∈ p.world.router.wildcard.subs, (subFrame s m).length ≤ sizeMax)
    (hclose : p.closed.length + p.world.router.wildcard.subs.length ≤ p.world.router.closeCap)
    (hqueue : p.world.router.wildcard.subs.length ≤ p.world.router.queueCap) :
    LaterLists p.world.router (deliverWildcard .succeeds p m).1.world.router ∧
      ∃ ts, Turns p.world.router.wildcard.subs ts ∧
        ScanSpec p m p.world.router.wildcard.subs.length ts (deliverWildcard .succeeds p m).1
          (deliverWildcard .succeeds p m).2 := by
  have hother : ∀ k (s : Subscription), WildcardAt k s.subject → k ≠ firstToken m.subject →
      due p.world.router m s = false := by
    rintro k s ⟨rfl, hwild, hs⟩ hne
    exact due_eq_false fun h => hne (subjectMatches_firstToken hwild hs hvalid h)
  unfold deliverWildcard
  cases hfind : bucketFind p.world.router.wildcard (firstToken m.subject) with
  | none =>
    refine ⟨⟨rfl, rfl, rfl, rfl, rfl⟩, _, turns_all _, rfl, hw, Nat.le_add_right _ _, ?_⟩
    exact (scan_table_of_none hr.wildcard hother hfind _).symm
  | some i =>
    obtain ⟨ts, hts, h₁, h₂, h₃, h₄⟩ :=
      deliverBucket_scan hr.wildcard hother (fun _ _ => .inl rfl) hfind hw hfit hclose hqueue
    obtain ⟨⟨rng, hrouter⟩, -, -⟩ := deliverMatchingList_spec .succeeds p
      (bucketSubs p.world.router.wildcard i) m true
    dsimp only
    rw [hrouter]
    exact ⟨⟨rfl, rfl, rfl, rfl, rfl⟩, ts, hts, h₁, h₂, h₃, h₄⟩

theorem deliverGlobal_scan {p : Pub} {m : Message} (hw : DefaultWriters p.world)
    (hfit : ∀ s ∈ p.world.router.wildcardGlobal, (subFrame s m).length ≤ sizeMax)
    (hclose : p.closed.length + p.world.router.wildcardGlobal.length ≤ p.world.router.closeCap)
    (hqueue : p.world.router.wildcardGlobal.length ≤ p.world.router.queueCap) :
    ∃ ts, Turns p.world.router.wildcardGlobal ts ∧
      ScanSpec p m p.world.router.wildcardGlobal.length ts (deliverGlobal .succeeds p m).1
        (deliverGlobal .succeeds p m).2 := by
  obtain ⟨ts, hts, h₁, h₂, h₃, h₄⟩ :=
    deliverMatchingList_scan (p := p) hw hfit (fun _ _ => .inl rfl) hclose hqueue
  exact ⟨ts, hts, h₁, h₂, h₃, h₄⟩

/-- The three phases together scan every subscription. -/
theorem deliverAll_scan {p : Pub} {m : Message} (hr : RouterInv p.world.router)
    (hw : DefaultWriters p.world) (hvalid : subjectValid m.subject false = true)
    (hfit : ∀ s ∈ allSubs p.world.router, (subFrame s m).length ≤ sizeMax)
    (hclosed : p.closed = []) :
    ∃ ts, Turns (allSubs p.world.router) ts ∧ (deliverAll .succeeds p m).2 = true ∧
      (deliverAll .succeeds p m).1.world.line = scan p.world.router m p.world.line ts := by
  have hcount := hr.count
  have hcap := hr.close
  have hqueue := hr.queue
  simp only [allSubs, List.length_append, List.mem_append] at hcount hfit
  have hnil : p.closed.length = 0 := by rw [hclosed, List.length_nil]
  obtain ⟨hlater₁, hwild, ts₁, hts₁, hok₁, hw₁, hclosed₁, hline₁⟩ := deliverLiteral_scan hr hw hvalid
    (fun s hs => hfit s (.inl (.inl hs))) (by omega) (by omega)
  have hr₁ := hr.deliverLiteral .succeeds m
  unfold deliverAll
  generalize deliverLiteral .succeeds p m = q at hlater₁ hwild hok₁ hw₁ hclosed₁ hline₁ hr₁ ⊢
  obtain ⟨p₁, ok₁⟩ := q
  dsimp only at hlater₁ hwild hok₁ hw₁ hclosed₁ hline₁ hr₁ ⊢
  subst hok₁
  simp only
  obtain ⟨hlater₂, ts₂, hts₂, hok₂, hw₂, hclosed₂, hline₂⟩ := deliverWildcard_scan hr₁ hw₁ hvalid
    (fun s hs => hfit s (.inl (.inr (hwild ▸ hs))))
    (by rw [hlater₁.closeCap, hwild]; omega) (by rw [hlater₁.queueCap, hwild]; omega)
  rw [hwild] at hts₂ hclosed₂
  generalize deliverWildcard .succeeds p₁ m = q at hlater₂ hok₂ hw₂ hclosed₂ hline₂ ⊢
  obtain ⟨p₂, ok₂⟩ := q
  dsimp only at hlater₂ hok₂ hw₂ hclosed₂ hline₂ ⊢
  subst hok₂
  simp only
  have hglobal : p₂.world.router.wildcardGlobal = p.world.router.wildcardGlobal :=
    hlater₂.wildcardGlobal.trans hlater₁.wildcardGlobal
  obtain ⟨ts₃, hts₃, hok₃, -, -, hline₃⟩ := deliverGlobal_scan (m := m) hw₂
    (fun s hs => hfit s (.inr (hglobal ▸ hs)))
    (by rw [hlater₂.closeCap, hlater₁.closeCap, hglobal]; omega)
    (by rw [hlater₂.queueCap, hlater₁.queueCap, hglobal]; omega)
  rw [hglobal] at hts₃
  refine ⟨ts₁ ++ ts₂ ++ ts₃, (hts₁.append hts₂).append hts₃, hok₃, ?_⟩
  rw [scan_append, scan_append, hline₃, hline₂, hline₁,
    scan_congr (hlater₂.lvcEnabled.trans hlater₁.lvcEnabled)
      (hlater₂.lvcFilters.trans hlater₁.lvcFilters),
    scan_congr hlater₁.lvcEnabled hlater₁.lvcFilters]

/-! ## The whole publish -/

/-- What the turn of a subscription without a queue group does: one frame if
the message is for it, its connection is open and has room, else no output. -/
structure QueuelessTurn (r : Router) (m : Message) (sub : Subscription)
    (before after : ConnId → Line) : Prop where
  delivers : due r m sub = true → (before sub.conn).closed = false →
    (before sub.conn).out.length + (subFrame sub m).length ≤ maxPending →
    after = Function.update before sub.conn ⟨(before sub.conn).out ++ subFrame sub m, false⟩
  silent : ¬ (due r m sub = true ∧ (before sub.conn).closed = false ∧
      (before sub.conn).out.length + (subFrame sub m).length ≤ maxPending) →
    ∀ c, (after c).out = (before c).out

theorem queuelessTurn_scanStep (r : Router) (m : Message) (v : ConnId → Line)
    (sub : Subscription) : QueuelessTurn r m sub v (scanStep r m v (sub, true)) := by
  constructor
  · intro hdue hopen hfit
    have hfits : (v sub.conn).fits (subFrame sub m) = true := decide_eq_true hfit
    simp [scanStep, hdue, hopen, hfits]
  · intro hnot c
    unfold scanStep
    dsimp only
    split_ifs with hturn hfits
    · simp only [Bool.and_true, Bool.and_eq_true, Bool.not_eq_true'] at hturn
      exact absurd ⟨hturn.1, hturn.2, of_decide_eq_true hfits⟩ hnot
    · by_cases hc : c = sub.conn
      · subst hc
        rw [Function.update_self]
      · rw [Function.update_of_ne hc]
    · rfl

theorem scan_take_succ {r : Router} {m : Message} {v : ConnId → Line}
    {ts : List (Subscription × Bool)} {i : ℕ} {x : Subscription × Bool} (h : ts[i]? = some x) :
    scan r m v (ts.take (i + 1)) = scanStep r m (scan r m v (ts.take i)) x := by
  rw [List.take_add_one, h, scan_append]
  rfl

theorem Turns.queuelessTurn {r : Router} {m : Message} {v : ConnId → Line}
    {subs : List Subscription} {ts : List (Subscription × Bool)} (h : Turns subs ts) {i : ℕ}
    {sub : Subscription} {chosen : Bool} (hi : ts[i]? = some (sub, chosen))
    (hqueue : sub.queue = []) :
    QueuelessTurn r m sub (scan r m v (ts.take i)) (scan r m v (ts.take (i + 1))) := by
  have hchosen : chosen = true := h.queueless _ (List.mem_of_getElem? hi) hqueue
  subst hchosen
  rw [scan_take_succ hi]
  exact queuelessTurn_scanStep r m _ sub

/-- **Bucketed dispatch is a linear scan.** A publish that passes its store
leaves the lines a scan over all subscriptions leaves, and in that scan every
subscription without a queue group gets its own frame or nothing. -/
theorem publish_eq_scan {w : World} (hr : Reachable w) (hw : DefaultWriters w) {m : Message}
    (hvalid : subjectValid m.subject false = true)
    (hreply : m.replyTo = [] ∨ subjectValid m.replyTo false = true)
    (hlvc : subjectHasLvcPrefix m.subject = false)
    (hstore : (lvcStore .succeeds w.router m.subject m.payload).2 = true)
    (hfit : ∀ s ∈ allSubs w.router, (subFrame s m).length ≤ sizeMax) :
    ∃ ts, Turns (allSubs w.router) ts ∧ (publishWithReply .succeeds w m).ok = true ∧
      (publishWithReply .succeeds w m).world.line = scan w.router m w.line ts ∧
      ∀ i sub chosen, ts[i]? = some (sub, chosen) → sub.queue = [] →
        QueuelessTurn w.router m sub (scan w.router m w.line (ts.take i))
          (scan w.router m w.line (ts.take (i + 1))) := by
  have hinv := hr.inv
  have hsame := sameRouting_lvcStore .succeeds w.router m.subject m.payload
  have hreply' : (!m.replyTo.isEmpty && !subjectValid m.replyTo false) = false := by
    rcases hreply with h | h
    · simp [h]
    · simp [h]
  unfold publishWithReply
  generalize lvcStore .succeeds w.router m.subject m.payload = st at hstore hsame
  obtain ⟨r, ok⟩ := st
  dsimp only at hstore hsame
  subst hstore
  have hinv' := hinv.sameRouting hsame
  have hcap : ¬ (r.kickCap < r.subCount ∨ r.closeCap < r.subCount ∨ r.queueCap < r.subCount) := by
    have h₁ := hinv'.kick
    have h₂ := hinv'.close
    have h₃ := hinv'.queue
    omega
  have hall : allSubs r = allSubs w.router := by
    rw [allSubs, allSubs, hsame.literal, hsame.wildcard, hsame.wildcardGlobal]
  rw [hvalid, hreply', hlvc, if_neg (by decide), if_neg (by decide), if_neg (by decide)]
  simp only [if_neg hcap]
  obtain ⟨ts, hts, hok, hline⟩ := deliverAll_scan (m := m)
    (p := ⟨{ w with router := { r with kickEpoch := nextKickEpoch r.kickEpoch } }, [], [], 0⟩)
    ⟨hinv'.1, hinv'.2, hinv'.3, hinv'.4, hinv'.5, hinv'.6, hinv'.7⟩ hw hvalid
    (fun s hs => hfit s (hall ▸ hs)) rfl
  have hturns : Turns (allSubs w.router) ts := hall ▸ hts
  refine ⟨ts, hturns, hok, hline.trans ?_, fun i sub chosen => hturns.queuelessTurn⟩
  exact congrFun₂ (scan_congr (r := w.router) hsame.lvcEnabled hsame.lvcFilters m) _ ts

def plainConn : RouterConn := ⟨[], 0, 0, 0, false, none, none, true, true⟩

/-- Connection 0 has asked for `a.*`. -/
def starWorld : World :=
  (subscribeQueue .succeeds ⟨routerInit, fun _ => plainConn⟩ 0 (lit "a.*") [] (lit "7")).1

theorem publish_eq_scan_star :
    ∃ ts, Turns (allSubs starWorld.router) ts ∧
      (publishWithReply .succeeds starWorld ⟨lit "a.b", lit "hi", []⟩).world.line =
        scan starWorld.router ⟨lit "a.b", lit "hi", []⟩ starWorld.line ts ∧
      (allSubs starWorld.router).length = 1 := by
  have hw : DefaultWriters starWorld := by
    have hconns : starWorld.conns =
        Function.update (fun _ => plainConn) 0 { plainConn with subCount := 1 } := rfl
    intro c
    rw [hconns]
    rcases eq_or_ne c 0 with rfl | hc
    · rw [Function.update_self]
      exact ⟨rfl, rfl⟩
    · rw [Function.update_of_ne hc]
      exact ⟨rfl, rfl⟩
  obtain ⟨ts, hts, -, hline, -⟩ := publish_eq_scan (w := starWorld) (m := ⟨lit "a.b", lit "hi", []⟩)
    (.subscribe _ 0 _ _ _ (.init _ fun _ => rfl)) hw (by decide) (.inl rfl) (by decide) (by decide)
    (by decide)
  exact ⟨ts, hts, hline, by decide⟩

end Monoblok
