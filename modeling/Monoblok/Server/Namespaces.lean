import Monoblok.Lib.Runs
import Monoblok.Patchbay.Permitted
import Monoblok.Patchbay.Whole
import Monoblok.Router.Publish

/-!
# The reserved namespaces

Everything of the server that hands messages to its router: client publishes,
core imports, stream messages, ticks and `mb_server_emit_stats`. The router keeps
a journal of the subjects it took for delivery and of whose messages they were.
Every event brings its own surroundings, so that no two allocations or callbacks
need to go alike. When the timer comes is left open here.
-/

namespace Monoblok.Reserved

open Patchbay

/-- Whose message it is: a client's, a rule's, or one of the counters. -/
inductive Origin where
  | client
  | rules
  | stats
  deriving DecidableEq, Repr

structure Accepted where
  origin : Origin
  subject : Bytes
  deriving DecidableEq, Repr

/-- The router with its journal; `calls` counts the publishes. -/
structure Outlet where
  world : World
  calls : ℕ
  journal : List Accepted

/-- What the server runs on. Memory and the callbacks of the connections, which
do not publish, may answer differently at every publish. -/
structure Site (N : Type) where
  alloc : EvalAlloc → Bool
  readJson : Bytes → Option (Json N)
  rewritten : Bytes → Bytes → Bytes
  drawn : ℕ → Bytes → Bytes → TextOrigin × TextOrigin
  memory : ℕ → Alloc
  callbacks : ℕ → PublishResult → World
  fuel : ℕ

/-! ## Publishes -/

/-- Whether a publish gets as far as the first delivery. -/
def takesForDelivery (A : Alloc) (w : World) (m : Message) : Bool :=
  subjectValid m.subject false && (m.replyTo.isEmpty || subjectValid m.replyTo false) &&
    !subjectHasLvcPrefix m.subject &&
    match lvcStore A w.router m.subject m.payload with
    | (_, false) => false
    | (r, true) => !decide (r.kickCap < r.subCount ∨ r.closeCap < r.subCount ∨ r.queueCap < r.subCount)

variable {N : Type}

/-- `mb_router_publish_with_reply`. -/
def Site.publish (S : Site N) (origin : Origin) (o : Outlet) (m : Message) : Outlet × Bool :=
  let r := publishWithReply (S.memory o.calls) o.world m
  let taken := if takesForDelivery (S.memory o.calls) o.world m then [⟨origin, m.subject⟩] else []
  (⟨S.callbacks o.calls r, o.calls + 1, o.journal ++ taken⟩, r.ok)

def Site.env (S : Site N) : Env N Outlet where
  alloc := S.alloc
  readJson := S.readJson
  rewritten := S.rewritten
  drawn := S.drawn
  route o subject payload := S.publish .rules o ⟨subject, payload, []⟩
  fuel := S.fuel

structure System (N : Type) where
  machine : Machine N Outlet
  totalPubs : UInt64
  clientPubsEnabled : Bool
  closing : Bool

/-! ## The counters -/

/-- The counters of the bridge and of the imports, where the server has them. -/
structure Counters where
  bridge : Option (UInt64 × UInt64)
  imports : Option (UInt64 × UInt64 × UInt64 × UInt64)

def ruleStatSubject (i : ℕ) (what : String) : Option Bytes :=
  let subject := lit ("$STATS.rules." ++ toString i ++ "." ++ what)
  if subject.length < 64 then some subject else none

/-- The subjects and values `mb_server_emit_stats` goes through; a subject that
does not fit its buffer is missing. -/
def statsOf (s : System N) (c : Counters) : List (Option Bytes × UInt64) :=
  (some (lit "$STATS.global.pubs"), s.totalPubs) ::
    (s.machine.program.rules.zipIdx.flatMap (fun r =>
        [(ruleStatSubject r.2 "emitted", r.1.publishesEmitted),
          (ruleStatSubject r.2 "suppressed", r.1.publishesSuppressed)]) ++
      (match c.bridge with
        | none => []
        | some (published, dropped) =>
          [(some (lit "$STATS.bridge.published"), published),
            (some (lit "$STATS.bridge.dropped"), dropped)]) ++
      (match c.imports with
        | none => []
        | some (received, processed, dropped, failed) =>
          [(some (lit "$STATS.import.received"), received),
            (some (lit "$STATS.import.processed"), processed),
            (some (lit "$STATS.import.dropped"), dropped),
            (some (lit "$STATS.import.failed"), failed)]))

def publishStat (S : Site N) (o : Outlet) (subject : Bytes) (value : UInt64) : Outlet × Bool :=
  let payload := lit (toString value.toNat)
  if 32 ≤ payload.length then (o, false) else S.publish .stats o ⟨subject, payload, []⟩

/-- All counters are published, also after one that fails. -/
def publishStats (S : Site N) : List (Option Bytes × UInt64) → Outlet → Outlet × Bool
  | [], o => (o, true)
  | (none, _) :: rest, o => ((publishStats S rest o).1, false)
  | (some subject, value) :: rest, o =>
    let (o, ok) := publishStat S o subject value
    let (o, ok') := publishStats S rest o
    (o, ok && ok')

def emitStats (S : Site N) (c : Counters) (s : System N) : System N × Bool :=
  let (o, ok) := publishStats S (statsOf s c) s.machine.world
  ({ s with machine.world := o }, ok)

/-! ## Events -/

def System.run {α : Type} (s : System N) (m : MachineM N Outlet α) : Option (System N) :=
  (m s.machine).map fun x => { s with machine := x.2 }

section Events

variable [Number N] (S : Site N)

/-- `mb_server_client_publish`, at the given times of the rules' clock and of the
wall clock. -/
def clientPublish (nowMs : UInt64) (wallMs : ℤ) (m : Message) (s : System N) : Option (System N) :=
  if !s.clientPubsEnabled then some s
  else if subjectHasLvcPrefix m.subject then some s
  else if subjectHasStatsPrefix m.subject then some s
  else
    let (o, routed) := S.publish .client s.machine.world m
    let s := { s with machine.world := o }
    if !routed then some s
    else
      { s with totalPubs := s.totalPubs + 1 }.run
        (evalPublish S.env ⟨nowMs, wallMs, false⟩ m.subject m.payload)

def importIngress (nowMs : UInt64) (wallMs : ℤ) (subject payload : Bytes) (s : System N) :
    Option (System N) :=
  if s.closing then some s
  else
    { s with totalPubs := s.totalPubs + 1 }.run
      (evalPublish S.env ⟨nowMs, wallMs, false⟩ subject payload)

/-- A stream message, at the time of its event. -/
def jetstreamIngress (t : Moment) (subject payload : Bytes) (s : System N) : Option (System N) :=
  if s.closing then some s
  else do
    let s ← { s with totalPubs := s.totalPubs + 1 }.run (tickUntil S.env t)
    s.run (evalPublish S.env t subject payload)

inductive Event where
  /-- A `PUB` of a client. -/
  | pub (nowMs : UInt64) (wallMs : ℤ) (m : Message)
  /-- A `POST` of a client, which names no reply subject. -/
  | post (nowMs : UInt64) (wallMs : ℤ) (subject payload : Bytes)
  | importIngress (nowMs : UInt64) (wallMs : ℤ) (subject payload : Bytes)
  | jetstreamIngress (t : Moment) (subject payload : Bytes)
  /-- The timer of the rules' clock. -/
  | patchbayTimer (nowMs : UInt64) (wallMs : ℤ)
  /-- The end of the catch-up with the streams. -/
  | switchToLive (wallMs : ℤ)
  | statsTimer (c : Counters)
  /-- Another callback, which publishes nothing. -/
  | other (w : World)
  | signal

def System.step (s : System N) (x : Site N × Event) : Option (System N) :=
  match x.2 with
  | .pub nowMs wallMs m => clientPublish x.1 nowMs wallMs m s
  | .post nowMs wallMs subject payload => clientPublish x.1 nowMs wallMs ⟨subject, payload, []⟩ s
  | .importIngress nowMs wallMs subject payload => importIngress x.1 nowMs wallMs subject payload s
  | .jetstreamIngress t subject payload => jetstreamIngress x.1 t subject payload s
  | .patchbayTimer nowMs wallMs => s.run (tick x.1.env ⟨nowMs, wallMs, false⟩)
  | .switchToLive wallMs => s.run (tickUntil x.1.env ⟨UInt64.ofInt wallMs, wallMs, true⟩)
  | .statsTimer c => some (if s.closing then s else (emitStats x.1 c s).1)
  | .other w => some { s with machine.world.world := w }
  | .signal => some { s with closing := true }

end Events

/-- A server before its first event. -/
def start (p : Program N) (w : World) (clientPubsEnabled : Bool) : System N :=
  ⟨⟨p, ⟨w, 0, []⟩⟩, 0, clientPubsEnabled, false⟩

/-! ## What the journal stands for -/

/-- The router refuses a message, and no connection sees anything of it. -/
def DeliversNothing (A : Alloc) (w : World) (m : Message) : Prop :=
  (publishWithReply A w m).ok = false ∧ (publishWithReply A w m).world.conns = w.conns ∧
    (publishWithReply A w m).kicked = [] ∧ (publishWithReply A w m).closed = []

/-- A message goes to the subscriptions, from the router once it has been stored. -/
def GoesToDeliveries (A : Alloc) (w : World) (m : Message) : Prop :=
  ∃ r, publishWithReply A w m =
    ⟨(deliverAll A ⟨{ w with router := r }, [], [], 0⟩ m).1.world,
      (deliverAll A ⟨{ w with router := r }, [], [], 0⟩ m).2,
      (deliverAll A ⟨{ w with router := r }, [], [], 0⟩ m).1.closed,
      (deliverAll A ⟨{ w with router := r }, [], [], 0⟩ m).1.kicked⟩

theorem publishWithReply_refused {A : Alloc} {w : World} {m : Message}
    (h : takesForDelivery A w m = false) : DeliversNothing A w m := by
  unfold takesForDelivery at h
  unfold DeliversNothing publishWithReply
  by_cases hsubject : (!subjectValid m.subject false) = true
  · rw [if_pos hsubject]
    exact ⟨rfl, rfl, rfl, rfl⟩
  rw [if_neg hsubject]
  by_cases hreply : (!m.replyTo.isEmpty && !subjectValid m.replyTo false) = true
  · rw [if_pos hreply]
    exact ⟨rfl, rfl, rfl, rfl⟩
  rw [if_neg hreply]
  by_cases hlvc : subjectHasLvcPrefix m.subject = true
  · rw [if_pos hlvc]
    exact ⟨rfl, rfl, rfl, rfl⟩
  rw [if_neg hlvc]
  have hreply' : (m.replyTo.isEmpty || subjectValid m.replyTo false) = true := by
    simpa [or_iff_not_imp_left] using hreply
  have hvalid : subjectValid m.subject false = true := by simpa using hsubject
  rw [hvalid, hreply', Bool.eq_false_of_not_eq_true hlvc] at h
  match hstore : lvcStore A w.router m.subject m.payload with
  | (r, false) => exact ⟨rfl, rfl, rfl, rfl⟩
  | (r, true) =>
    rw [hstore] at h
    have hcaps : r.kickCap < r.subCount ∨ r.closeCap < r.subCount ∨ r.queueCap < r.subCount :=
      by
      apply of_decide_eq_true
      simpa only [Bool.not_false, Bool.true_and, Bool.not_eq_eq_eq_not, Bool.not_false] using h
    dsimp only
    rw [if_pos hcaps]
    exact ⟨rfl, rfl, rfl, rfl⟩

theorem publishWithReply_taken {A : Alloc} {w : World} {m : Message}
    (h : takesForDelivery A w m = true) : GoesToDeliveries A w m := by
  simp only [takesForDelivery, Bool.and_eq_true, Bool.not_eq_true'] at h
  obtain ⟨⟨⟨hvalid, hreply⟩, hlvc⟩, hstored⟩ := h
  have hreply' : ¬ (!m.replyTo.isEmpty && !subjectValid m.replyTo false) = true := by
    simpa [or_iff_not_imp_left] using hreply
  unfold GoesToDeliveries publishWithReply
  rw [hvalid, Bool.not_true, if_neg Bool.false_ne_true, if_neg hreply', hlvc,
    if_neg Bool.false_ne_true]
  match hstore : lvcStore A w.router m.subject m.payload with
  | (r, false) =>
    rw [hstore] at hstored
    cases hstored
  | (r, true) =>
    rw [hstore] at hstored
    have hcaps : ¬ (r.kickCap < r.subCount ∨ r.closeCap < r.subCount ∨ r.queueCap < r.subCount) := by
      simpa using hstored
    dsimp only
    rw [if_neg hcaps]
    exact ⟨_, rfl⟩

/-- What a publish adds to the journal is what goes to the subscriptions. -/
def Site.Records (S : Site N) (origin : Origin) (o : Outlet) (m : Message) : Prop :=
  (S.publish origin o m).1.journal = o.journal ++ [⟨origin, m.subject⟩] ∧
      GoesToDeliveries (S.memory o.calls) o.world m ∨
    (S.publish origin o m).1.journal = o.journal ∧ DeliversNothing (S.memory o.calls) o.world m

theorem records (S : Site N) (origin : Origin) (o : Outlet) (m : Message) : S.Records origin o m := by
  have hjournal : (S.publish origin o m).1.journal = o.journal ++
      if takesForDelivery (S.memory o.calls) o.world m then [⟨origin, m.subject⟩] else [] := rfl
  cases htakes : takesForDelivery (S.memory o.calls) o.world m with
  | true =>
    rw [htakes, if_pos rfl] at hjournal
    exact .inl ⟨hjournal, publishWithReply_taken htakes⟩
  | false =>
    rw [htakes, if_neg Bool.false_ne_true, List.append_nil] at hjournal
    exact .inr ⟨hjournal, publishWithReply_refused htakes⟩

/-! ## What is accepted -/

/-- A valid subject without wildcards, outside the cache's namespace, and in that
of the counters only as one of them. -/
structure Accepted.Permitted (x : Accepted) : Prop where
  valid : subjectValid x.subject false = true
  literal : ∀ tok ∈ tokens x.subject, LiteralToken tok
  not_lvc : ¬ lvcPrefix <+: x.subject
  stats : statsPrefix <+: x.subject → x.origin = .stats

def Outlet.Permitted (o : Outlet) : Prop := ∀ x ∈ o.journal, x.Permitted

theorem literalToken_of_validTokens {toks : List Bytes} (h : ValidTokens false toks) :
    ∀ tok ∈ toks, LiteralToken tok := by
  have hliteral : ∀ {tok : Bytes} {P : Prop}, LiteralToken tok ∨ false = true ∧ P → LiteralToken tok :=
    fun h => h.resolve_right fun h => Bool.false_ne_true h.1
  induction toks with
  | nil => exact h.elim
  | cons tok toks ih =>
    intro tok' hmem
    cases toks with
    | nil =>
      obtain rfl := List.mem_singleton.mp hmem
      exact hliteral h
    | cons next toks =>
      obtain ⟨hfirst, hrest⟩ := validTokens_cons_cons.mp h
      rcases List.mem_cons.mp hmem with rfl | hmem
      · exact hliteral hfirst
      · exact ih hrest tok' hmem

/-- The router looks after everything but the counters' namespace. -/
theorem permitted_publish (S : Site N) {origin : Origin} {o : Outlet} {m : Message}
    (ho : o.Permitted) (hstats : statsPrefix <+: m.subject → origin = .stats) :
    (S.publish origin o m).1.Permitted := by
  intro x hx
  rcases List.mem_append.mp hx with hx | hx
  · exact ho x hx
  by_cases htaken : takesForDelivery (S.memory o.calls) o.world m = true
  · rw [if_pos htaken] at hx
    obtain rfl := List.mem_singleton.mp hx
    simp only [takesForDelivery, Bool.and_eq_true, Bool.not_eq_true'] at htaken
    obtain ⟨⟨⟨hvalid, -⟩, hlvc⟩, -⟩ := htaken
    refine ⟨hvalid, literalToken_of_validTokens (subjectValid_iff.mp hvalid).2, ?_, hstats⟩
    intro hprefix
    exact Bool.false_ne_true (hlvc.symm.trans (sliceHasPrefix_iff.mpr hprefix))
  · rw [if_neg htaken] at hx
    cases hx

/-- A rule's message has been through `publish_cb`. -/
theorem keptByPermitted_env (S : Site N) : KeptByPermitted S.env Outlet.Permitted := by
  intro o subject payload hvalid ho
  apply permitted_publish S ho
  intro hprefix
  have hstats : subjectHasStatsPrefix subject = true := sliceHasPrefix_iff.mpr hprefix
  rw [publishSubjectValid, hstats] at hvalid
  simp at hvalid

theorem permitted_publishStat (S : Site N) {o : Outlet} {subject : Bytes} {value : UInt64}
    (ho : o.Permitted) : (publishStat S o subject value).1.Permitted := by
  unfold publishStat
  dsimp only
  split
  · exact ho
  · exact permitted_publish S ho fun _ => rfl

theorem permitted_publishStats (S : Site N) (stats : List (Option Bytes × UInt64)) {o : Outlet}
    (ho : o.Permitted) : (publishStats S stats o).1.Permitted := by
  induction stats generalizing o with
  | nil => exact ho
  | cons x stats ih =>
    obtain ⟨subject, value⟩ := x
    cases subject with
    | none => exact ih ho
    | some subject =>
      exact ih (permitted_publishStat S ho)

/-! ## Steps and runs -/

section Runs

variable [Number N] {S : Site N} {s s' : System N}

omit [Number N] in
theorem run_eq_some {α : Type} {m : MachineM N Outlet α} (h : s.run m = some s') :
    ∃ a, m s.machine = some (a, s'.machine) := by
  obtain ⟨x, hx, rfl⟩ := Option.map_eq_some_iff.mp h
  exact ⟨x.1, hx⟩

theorem permitted_run_evalPublish {t : Moment} {subject payload : Bytes}
    (h : s.machine.world.Permitted) (hrun : s.run (evalPublish S.env t subject payload) = some s') :
    s'.machine.world.Permitted := by
  obtain ⟨ok, hrun⟩ := run_eq_some hrun
  exact kept_evalPublish (keptByPermitted_env S) h hrun

theorem permitted_run_tickUntil {t : Moment} (h : s.machine.world.Permitted)
    (hrun : s.run (tickUntil S.env t) = some s') : s'.machine.world.Permitted := by
  obtain ⟨ok, hrun⟩ := run_eq_some hrun
  exact kept_tickUntil (keptByPermitted_env S) h hrun

theorem permitted_clientPublish {nowMs : UInt64} {wallMs : ℤ} {m : Message}
    (h : s.machine.world.Permitted) (hrun : clientPublish S nowMs wallMs m s = some s') :
    s'.machine.world.Permitted := by
  unfold clientPublish at hrun
  by_cases henabled : (!s.clientPubsEnabled) = true
  · rw [if_pos henabled] at hrun
    cases hrun
    exact h
  rw [if_neg henabled] at hrun
  by_cases hlvc : subjectHasLvcPrefix m.subject = true
  · rw [if_pos hlvc] at hrun
    cases hrun
    exact h
  rw [if_neg hlvc] at hrun
  by_cases hstats : subjectHasStatsPrefix m.subject = true
  · rw [if_pos hstats] at hrun
    cases hrun
    exact h
  rw [if_neg hstats] at hrun
  -- neither the router's own checks nor the prefix check let a counter through
  have hpub : (S.publish .client s.machine.world m).1.Permitted :=
    permitted_publish S h fun hprefix => absurd (sliceHasPrefix_iff.mpr hprefix) hstats
  dsimp only at hrun
  split at hrun
  · cases hrun
    exact hpub
  · exact permitted_run_evalPublish
      (s := { s with
        machine.world := (S.publish .client s.machine.world m).1
        totalPubs := s.totalPubs + 1 }) hpub hrun

theorem permitted_step {x : Site N × Event} (h : s.machine.world.Permitted)
    (hstep : s.step x = some s') : s'.machine.world.Permitted := by
  obtain ⟨S, e⟩ := x
  cases e with
  | pub nowMs wallMs m => exact permitted_clientPublish h hstep
  | post nowMs wallMs subject payload => exact permitted_clientPublish h hstep
  | importIngress nowMs wallMs subject payload =>
    change importIngress S nowMs wallMs subject payload s = some s' at hstep
    unfold importIngress at hstep
    split at hstep
    · cases hstep
      exact h
    · exact permitted_run_evalPublish (s := { s with totalPubs := s.totalPubs + 1 }) h hstep
  | jetstreamIngress t subject payload =>
    change jetstreamIngress S t subject payload s = some s' at hstep
    unfold jetstreamIngress at hstep
    split at hstep
    · cases hstep
      exact h
    · obtain ⟨s₁, htick, hstep⟩ := Option.bind_eq_some_iff.mp hstep
      have h₁ : s₁.machine.world.Permitted :=
        permitted_run_tickUntil (s := { s with totalPubs := s.totalPubs + 1 }) h htick
      exact permitted_run_evalPublish h₁ hstep
  | patchbayTimer nowMs wallMs =>
    obtain ⟨ok, hrun⟩ := run_eq_some (show s.run _ = some s' from hstep)
    exact kept_tick (keptByPermitted_env S) h hrun
  | switchToLive wallMs => exact permitted_run_tickUntil h hstep
  | statsTimer c =>
    cases hstep
    split
    · exact h
    · exact permitted_publishStats S (statsOf s c) h
  | other w =>
    cases hstep
    exact h
  | signal =>
    cases hstep
    exact h

/-- In every run, whatever the router took for delivery was a valid subject
without wildcards and outside the cache's namespace, and only a counter was in
that of the counters. The journal has all that any publish delivers. -/
theorem reserved_stay_reserved (p : Program N) (w : World) (clientPubsEnabled : Bool)
    (events : List (Site N × Event))
    (hrun : events.foldlM System.step (start p w clientPubsEnabled) = some s) :
    (∀ x ∈ s.machine.world.journal, subjectValid x.subject false = true ∧
      (∀ tok ∈ tokens x.subject, LiteralToken tok) ∧ ¬ lvcPrefix <+: x.subject ∧
      (statsPrefix <+: x.subject → x.origin = .stats)) ∧
    ∀ (S : Site N) (origin : Origin) (o : Outlet) (m : Message), S.Records origin o m := by
  have hstart : (start p w clientPubsEnabled).machine.world.Permitted := fun x hx => by cases hx
  have hend : s.machine.world.Permitted :=
    Runs.foldlM_invariant (I := fun s : System N => s.machine.world.Permitted)
      (fun _ _ _ h hstep => permitted_step h hstep) hstart hrun
  refine ⟨fun x hx => ?_, records⟩
  obtain ⟨htoken, hliteral, hlvc, hstats⟩ := hend x hx
  exact ⟨htoken, hliteral, hlvc, hstats⟩

end Runs

/-! ## A run with a message in each namespace -/

def plainSite : Site ℤ :=
  ⟨fun _ => true, fun _ => none, writtenOver, payloadDrawn, fun _ => Alloc.succeeds, fun _ r => r.world, 10⟩

def publishForm (subject : Bytes) : Value ℤ :=
  .list [.symbol (lit "publish!"), .string subject, .symbol (lit "payload")]

/-- One rule publishes to `b`, another tries its luck with a counter. -/
def twoPublishers : Program ℤ :=
  loadProgram [⟨lit "a", publishForm (lit "b"), false⟩,
    ⟨lit "a", publishForm (lit "$STATS.global.pubs"), false⟩] false

def mixedEvents : List (Site ℤ × Event) :=
  [(plainSite, .pub 5 1000 ⟨lit "a", lit "1", []⟩), (plainSite, .statsTimer ⟨none, none⟩),
    (plainSite, .post 6 1001 (lit "$LVC.a") (lit "1")),
    (plainSite, .importIngress 7 1002 (lit "a") (lit "2"))]

def afterMixedEvents : Option (System ℤ) :=
  mixedEvents.foldlM System.step (start twoPublishers ⟨routerInit, fun _ =>
    ⟨[], 0, 0, 0, false, none, none, true, true⟩⟩ true)

theorem reserved_stay_reserved_mixed : ∃ s, afterMixedEvents = some s ∧
    s.machine.world.journal =
      [⟨.client, lit "a"⟩, ⟨.rules, lit "b"⟩, ⟨.stats, lit "$STATS.global.pubs"⟩,
        ⟨.stats, lit "$STATS.rules.0.emitted"⟩, ⟨.stats, lit "$STATS.rules.0.suppressed"⟩,
        ⟨.stats, lit "$STATS.rules.1.emitted"⟩, ⟨.stats, lit "$STATS.rules.1.suppressed"⟩,
        ⟨.rules, lit "b"⟩] ∧
    ∀ x ∈ s.machine.world.journal, subjectValid x.subject false = true ∧
      (∀ tok ∈ tokens x.subject, LiteralToken tok) ∧ ¬ lvcPrefix <+: x.subject ∧
      (statsPrefix <+: x.subject → x.origin = .stats) := by
  have hjournal : afterMixedEvents.map (fun s => s.machine.world.journal) = some
      [⟨.client, lit "a"⟩, ⟨.rules, lit "b"⟩, ⟨.stats, lit "$STATS.global.pubs"⟩,
        ⟨.stats, lit "$STATS.rules.0.emitted"⟩, ⟨.stats, lit "$STATS.rules.0.suppressed"⟩,
        ⟨.stats, lit "$STATS.rules.1.emitted"⟩, ⟨.stats, lit "$STATS.rules.1.suppressed"⟩,
        ⟨.rules, lit "b"⟩] := by decide +kernel
  obtain ⟨s, hs, hjournal⟩ := Option.map_eq_some_iff.mp hjournal
  exact ⟨s, hs, hjournal, (reserved_stay_reserved twoPublishers _ true mixedEvents hs).1⟩

end Monoblok.Reserved
