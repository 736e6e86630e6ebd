import Monoblok.Router.Invariant

/-!
# Who appends to a connection

A connection can install its own writer. Deliveries go through it; the replay
of cached values at subscribe time does not, so a subscription that replays
something is the one way in which the router appends other bytes.
-/

namespace Monoblok

open SwapRemove

/-- What calls of a writer make of a buffer, each for a message and a subscription. -/
inductive Writes (f : WriteMsgFn) (out : Bytes) : Bytes → Prop
  | refl : Writes f out out
  | call {out' : Bytes} (ok : ℕ → Bool) (sub : Subscription) (m : Message) :
      Writes f out out' →
        Writes f out (f ok out' (subPrefix sub) m.subject sub.sid m.replyTo m.payload).1

theorem Writes.trans {f : WriteMsgFn} {a b c : Bytes} (h : Writes f a b) (g : Writes f b c) :
    Writes f a c := by
  induction g with
  | refl => exact h
  | call ok sub m _ ih => exact .call ok sub m ih

/-- The router leaves the writers alone and appends through them. -/
structure ConnStep (x x' : RouterConn) : Prop where
  msgLenFn : x'.msgLenFn = x.msgLenFn
  writeMsgFn : x'.writeMsgFn = x.writeMsgFn
  out : ∀ f, x.writeMsgFn = some f → Writes f x.out x'.out

theorem ConnStep.refl (x : RouterConn) : ConnStep x x := ⟨rfl, rfl, fun _ _ => .refl⟩

theorem ConnStep.trans {x y z : RouterConn} (h : ConnStep x y) (g : ConnStep y z) :
    ConnStep x z := by
  refine ⟨g.msgLenFn.trans h.msgLenFn, g.writeMsgFn.trans h.writeMsgFn, fun f hf => ?_⟩
  exact (h.out f hf).trans (g.out f (h.writeMsgFn.trans hf))

/-- A change of the other fields. -/
theorem ConnStep.of_eq {x x' : RouterConn} (h₁ : x'.msgLenFn = x.msgLenFn)
    (h₂ : x'.writeMsgFn = x.writeMsgFn) (h₃ : x'.out = x.out) : ConnStep x x' :=
  ⟨h₁, h₂, fun _ _ => h₃ ▸ .refl⟩

def WorldStep (w w' : World) : Prop := ∀ c, ConnStep (w.conns c) (w'.conns c)

theorem WorldStep.refl (w : World) : WorldStep w w := fun c => .refl (w.conns c)

theorem WorldStep.trans {u v w : World} (h : WorldStep u v) (g : WorldStep v w) : WorldStep u w :=
  fun c => (h c).trans (g c)

/-- A change of one connection. -/
theorem WorldStep.of_conns {w w' : World} (c : ConnId) {x : RouterConn}
    (h : w'.conns = Function.update w.conns c x) (hx : ConnStep (w.conns c) x) :
    WorldStep w w' := by
  intro d
  rw [h]
  by_cases hd : d = c
  · subst hd
    rw [Function.update_self]
    exact hx
  · rw [Function.update_of_ne hd]
    exact .refl _

/-! ## Publishing -/

theorem worldStep_queueConnClose (p : Pub) (c : ConnId) :
    WorldStep p.world (queueConnClose p c).1.world := by
  unfold queueConnClose
  dsimp only
  split_ifs
  · exact .refl p.world
  · exact .of_conns c rfl (.of_eq rfl rfl rfl)
  · exact .of_conns c rfl (.of_eq rfl rfl rfl)
  · refine WorldStep.trans (v := p.world.updateConn c fun conn => { conn with closed := true }) ?_ ?_
    · exact .of_conns c rfl (.of_eq rfl rfl rfl)
    · exact .of_conns c rfl (.of_eq rfl rfl rfl)

theorem worldStep_noteKick (p : Pub) (c : ConnId) : WorldStep p.world (noteKick p c).world := by
  unfold noteKick
  dsimp only
  split_ifs
  · exact .of_conns c rfl (.of_eq rfl rfl rfl)
  · exact .refl p.world

theorem writes_writeMsgTo (A : Alloc) (i : ℕ) (conn : RouterConn) (sub : Subscription)
    (m : Message) (f : WriteMsgFn) (hf : conn.writeMsgFn = some f) :
    Writes f conn.out (writeMsgTo A i conn sub m).1 := by
  rw [writeMsgTo, hf]
  exact .call _ sub m .refl

theorem worldStep_deliverToSub (A : Alloc) (p : Pub) (sub : Subscription) (m : Message) :
    WorldStep p.world (deliverToSub A p sub m).2.1.world := by
  unfold deliverToSub
  dsimp only
  split
  · exact .refl p.world
  · exact .refl p.world
  · split
    · exact worldStep_queueConnClose p sub.conn
    · have hwrite : WorldStep p.world (p.world.updateConn sub.conn fun conn =>
          { conn with out := (writeMsgTo A p.writes (p.world.conns sub.conn) sub m).1 }) := by
        refine .of_conns sub.conn rfl ?_
        exact ⟨rfl, rfl, writes_writeMsgTo A p.writes _ sub m⟩
      split_ifs
      · exact hwrite
      · exact hwrite.trans
          (worldStep_noteKick { p with world := _, writes := p.writes + 1 } sub.conn)

theorem worldStep_deliverLoop (A : Alloc) (m : Message) (checkFilter : Bool)
    (groups : List QueueDelivery) (i : ℕ) (subs : List Subscription) (p : Pub) :
    WorldStep p.world (deliverLoop A m checkFilter groups i subs p).2.1.world := by
  induction subs generalizing i p with
  | nil => exact .refl p.world
  | cons sub subs ih =>
    unfold deliverLoop
    split
    · exact ih (i + 1) p
    · have hstep := worldStep_deliverToSub A p sub m
      split
      · rename_i heq
        rw [heq] at hstep
        exact hstep
      · rename_i p' heq
        rw [heq] at hstep
        exact hstep.trans (ih (i + 1) p')

theorem worldStep_noteSubRemoved (w : World) (sub : Subscription) :
    WorldStep w (noteSubRemoved w sub) := by
  exact .of_conns sub.conn rfl (.of_eq rfl rfl rfl)

theorem worldStep_foldl_noteSubRemoved (l : List Subscription) (w : World) :
    WorldStep w (l.foldl noteSubRemoved w) := by
  induction l generalizing w with
  | nil => exact .refl w
  | cons s l ih => exact (worldStep_noteSubRemoved w s).trans (ih (noteSubRemoved w s))

theorem worldStep_deliverMatchingList (A : Alloc) (p : Pub) (subs : List Subscription)
    (m : Message) (checkFilter : Bool) :
    WorldStep p.world (deliverMatchingList A p subs m checkFilter).2.1.world := by
  unfold deliverMatchingList
  split
  · exact fun c => .refl (p.world.conns c)
  · rename_i groups rng _
    exact (worldStep_deliverLoop A m checkFilter groups 0 subs
      { p with world.router.queueRng := rng }).trans (worldStep_foldl_noteSubRemoved _ _)

theorem worldStep_deliverAll (A : Alloc) (p : Pub) (m : Message) :
    WorldStep p.world (deliverAll A p m).1.world := by
  have hliteral : ∀ p : Pub, WorldStep p.world (deliverLiteral A p m).1.world := by
    intro p
    unfold deliverLiteral
    split
    · exact .refl p.world
    · exact worldStep_deliverMatchingList A p _ m false
  have hwildcard : ∀ p : Pub, WorldStep p.world (deliverWildcard A p m).1.world := by
    intro p
    unfold deliverWildcard
    split
    · exact .refl p.world
    · exact worldStep_deliverMatchingList A p _ m true
  have hglobal : ∀ p : Pub, WorldStep p.world (deliverGlobal A p m).1.world :=
    fun p => worldStep_deliverMatchingList A p _ m true
  unfold deliverAll
  have h₁ := hliteral p
  split
  · rename_i p₁ heq
    rw [heq] at h₁
    exact h₁
  · rename_i p₁ heq
    rw [heq] at h₁
    have h₂ := hwildcard p₁
    split
    · rename_i p₂ heq₂
      rw [heq₂] at h₂
      exact h₁.trans h₂
    · rename_i p₂ heq₂
      rw [heq₂] at h₂
      exact (h₁.trans h₂).trans (hglobal p₂)

/-- Whatever a publish appends goes through the writer of the connection. -/
theorem worldStep_publish (A : Alloc) (w : World) (m : Message) :
    WorldStep w (publishWithReply A w m).world := by
  unfold publishWithReply
  split
  · exact .refl w
  · split
    · exact .refl w
    · split
      · exact .refl w
      · split
        · exact fun c => .refl (w.conns c)
        · rename_i r _
          split
          · exact fun c => .refl (w.conns c)
          · exact worldStep_deliverAll A
              ⟨{ w with router := { r with kickEpoch := nextKickEpoch r.kickEpoch } }, [], [], 0⟩ m

/-! ## Subscribing -/

theorem worldStep_sweep (f : Subscription → Option Subscription) (w : World) :
    WorldStep w (sweepRouter f w) := by
  have hfold := worldStep_foldl_noteSubRemoved
    ((allSubs w.router).filter fun s => (f s).isNone)
    { w with
      router := { w.router with
        literal := sweepTable f w.router.literal
        wildcard := sweepTable f w.router.wildcard
        wildcardGlobal := sweepSubs f w.router.wildcardGlobal } }
  exact hfold

/-- A subscription to `subject` replays cached values. -/
def replays (r : Router) (subject : Bytes) : Bool :=
  subjectHasLvcPrefix subject && r.lvc.any fun e =>
    lvcSubjectEnabled r e.subject && subjectMatches (lvcInnerSubject subject) e.subject

theorem emitCached_of_quiet (A : Alloc) (r : Router) (filter sid : Bytes) (i : ℕ)
    {entries : List LvcEntry} (conn : RouterConn)
    (h : ∀ e ∈ entries, lvcSubjectEnabled r e.subject = true →
      subjectMatches filter e.subject = false) :
    emitCached A r filter sid i entries conn = (conn, true) := by
  induction entries generalizing i with
  | nil => rfl
  | cons e entries ih =>
    have hrest := ih (i + 1) fun e' he' => h e' (List.mem_cons_of_mem e he')
    rw [emitCached]
    by_cases hen : lvcSubjectEnabled r e.subject = true
    · rw [if_neg (by simp [hen]), if_pos (by simp [h e List.mem_cons_self hen])]
      exact hrest
    · rw [if_pos (by simp [hen])]
      exact hrest

theorem emitCached_writers (A : Alloc) (r : Router) (filter sid : Bytes) (i : ℕ)
    (entries : List LvcEntry) (conn : RouterConn) :
    (emitCached A r filter sid i entries conn).1.msgLenFn = conn.msgLenFn ∧
      (emitCached A r filter sid i entries conn).1.writeMsgFn = conn.writeMsgFn := by
  induction entries generalizing i conn with
  | nil => exact ⟨rfl, rfl⟩
  | cons e entries ih =>
    unfold emitCached
    split
    · exact ih (i + 1) conn
    · split
      · exact ih (i + 1) conn
      · split
        · exact ⟨rfl, rfl⟩
        · split
          · exact ⟨rfl, rfl⟩
          · split
            · exact ⟨rfl, rfl⟩
            · split
              · exact ⟨rfl, rfl⟩
              · rename_i out _
                exact ih (i + 1) { conn with out := out }

theorem insertSub_lvc (A : Alloc) (r : Router) (filter : Bytes) (sub : Subscription) :
    (insertSub A r filter sub).1.lvc = r.lvc ∧
      (insertSub A r filter sub).1.lvcEnabled = r.lvcEnabled ∧
      (insertSub A r filter sub).1.lvcFilters = r.lvcFilters := by
  unfold insertSub
  split_ifs <;> exact ⟨rfl, rfl, rfl⟩

theorem replays_congr {r r' : Router} (h : r'.lvc = r.lvc ∧ r'.lvcEnabled = r.lvcEnabled ∧
    r'.lvcFilters = r.lvcFilters) (subject : Bytes) : replays r' subject = replays r subject := by
  unfold replays lvcSubjectEnabled
  rw [h.1, h.2.1, h.2.2]

/-- A replay that finds nothing leaves the connection as it was. -/
theorem connStep_emitCached (A : Alloc) (w : World) (conn : ConnId) {subject : Bytes} (sid : Bytes)
    (hlvcPre : subjectHasLvcPrefix subject = true) (c : ConnId)
    (hquiet : c = conn → replays w.router subject = false ∨ (w.conns c).writeMsgFn = none) :
    ConnStep (w.conns c) ((w.updateConn conn fun _ =>
      (emitCached A w.router (lvcInnerSubject subject) sid 0 w.router.lvc (w.conns conn)).1).conns c)
    := by
  by_cases hc : c = conn
  · subst hc
    refine WorldStep.of_conns (w := w) c rfl ?_ c
    rcases hquiet rfl with hq | hq
    · rw [emitCached_of_quiet]
      · exact .refl _
      · intro e he hen
        simp only [replays, hlvcPre, Bool.true_and, List.any_eq_false, Bool.and_eq_true, not_and,
          Bool.not_eq_true] at hq
        exact hq e he hen
    · obtain ⟨h₁, h₂⟩ := emitCached_writers A w.router (lvcInnerSubject subject) sid 0 w.router.lvc
        (w.conns c)
      refine ⟨h₁, h₂, fun f hf => ?_⟩
      rw [hq] at hf
      cases hf
  · simpa [World.updateConn, hc] using ConnStep.refl (w.conns c)

/-- A subscription appends to its own connection at most, and not even there
when it replays nothing. -/
theorem connStep_subscribeQueue (A : Alloc) (w : World) (conn : ConnId)
    (subject queue sid : Bytes) (c : ConnId)
    (hquiet : c = conn → replays w.router subject = false ∨ (w.conns c).writeMsgFn = none) :
    ConnStep (w.conns c) ((subscribeQueue A w conn subject queue sid).1.conns c) := by
  unfold subscribeQueue
  dsimp only
  generalize hfilter : (if subjectHasLvcPrefix subject then lvcInnerSubject subject else subject) =
    filter
  split
  · exact .refl _
  · split
    · exact .refl _
    · split
      · exact .refl _
      · have hcap := ensurePublishCapacity_spec A w.router (w.router.subCount + 1)
        split
        · exact .refl _
        · rename_i r heq
          rw [heq] at hcap
          split
          · exact .refl _
          · have hlvc := insertSub_lvc A r filter
              ⟨conn, filter, queue, sid, 0, 0, false, subjectHasLvcPrefix subject⟩
            split
            · exact .refl _
            · rename_i r₂ heq₂
              rw [heq₂] at hlvc
              obtain ⟨hentries, henabled, hfilters⟩ := hlvc
              dsimp only at hentries henabled hfilters
              -- the subscription is counted
              have hcount : WorldStep w (World.updateConn
                  { w with router := { r₂ with subCount := r₂.subCount + 1 } } conn fun x =>
                    { x with subCount := x.subCount + 1 }) :=
                .of_conns conn rfl (.of_eq rfl rfl rfl)
              have hrouter : ∀ w₁ : World,
                  w₁.router = { r₂ with subCount := r₂.subCount + 1 } →
                  replays w₁.router subject = replays w.router subject := by
                intro w₁ h
                rw [h]
                exact replays_congr ⟨hentries.trans (congrArg Router.lvc hcap.eq),
                  henabled.trans (congrArg Router.lvcEnabled hcap.eq),
                  hfilters.trans (congrArg Router.lvcFilters hcap.eq)⟩ subject
              split
              · rename_i hlvcPre
                rw [if_pos hlvcPre] at hfilter
                subst hfilter
                split
                · exact (hcount c).trans (worldStep_sweep _ _ c)
                · have hemit := connStep_emitCached A (World.updateConn
                    { w with router := { r₂ with subCount := r₂.subCount + 1 } } conn fun x =>
                      { x with subCount := x.subCount + 1 }) conn sid hlvcPre c (fun h => by
                        rw [hrouter _ rfl, (hcount c).writeMsgFn]
                        exact hquiet h)
                  split
                  · rename_i x heq₃
                    rw [heq₃] at hemit
                    exact (hcount c).trans hemit
                  · rename_i x heq₃
                    rw [heq₃] at hemit
                    exact ((hcount c).trans hemit).trans (worldStep_sweep _ _ c)
              · exact hcount c

/-! ## All operations -/

inductive RouterOp where
  | configureLvc (A : Alloc) (filters : List Bytes)
  | storeLvc (A : Alloc) (subject payload : Bytes)
  | subscribe (A : Alloc) (conn : ConnId) (subject queue sid : Bytes)
  | unsubscribe (conn : ConnId) (sid : Bytes) (maxMsgs : Option ℕ)
  | removeAllFor (conn : ConnId)
  | publish (A : Alloc) (m : Message)

def RouterOp.apply (w : World) : RouterOp → World
  | .configureLvc A filters => { w with router := (Monoblok.configureLvc A w.router filters).1 }
  | .storeLvc A subject payload => { w with router := (lvcStore A w.router subject payload).1 }
  | .subscribe A conn subject queue sid => (subscribeQueue A w conn subject queue sid).1
  | .unsubscribe conn sid maxMsgs => Monoblok.unsubscribe w conn sid maxMsgs
  | .removeAllFor conn => Monoblok.removeAllFor w conn
  | .publish A m => (publishWithReply A w m).world

/-- No connection with a writer of its own subscribes to something that replays
cached values. -/
def RouterOp.Quiet (w : World) : RouterOp → Prop
  | .subscribe _ conn subject _ _ =>
    replays w.router subject = false ∨ (w.conns conn).writeMsgFn = none
  | _ => True

theorem worldStep_apply {w : World} {op : RouterOp} (h : op.Quiet w) : WorldStep w (op.apply w) := by
  cases op with
  | configureLvc A filters => exact fun c => .refl (w.conns c)
  | storeLvc A subject payload => exact fun c => .refl (w.conns c)
  | subscribe A conn subject queue sid =>
    intro c
    refine connStep_subscribeQueue A w conn subject queue sid c ?_
    rintro rfl
    exact h
  | unsubscribe conn sid maxMsgs => exact worldStep_sweep _ w
  | removeAllFor conn => exact worldStep_sweep _ w
  | publish A m => exact worldStep_publish A w m

end Monoblok
