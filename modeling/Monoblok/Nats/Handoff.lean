import Monoblok.Nats.JetStream
import Mathlib.Data.List.Nodup

/-!
# Every fetched message is dealt with once

A message that has been fetched and not yet destroyed is in exactly one place: in
the hands of the worker, in the shared field, or with the callback. The worker
waits for its own message only, and nobody else moves it.
-/

namespace Monoblok.Nats

open Trace

/-! ## What was done -/

def HandoffEvent.fetched? : HandoffEvent → Option MsgRef
  | .fetched m => some m
  | _ => none

def HandoffEvent.handled? : HandoffEvent → Option MsgRef
  | .handled m _ _ _ _ _ => some m
  | _ => none

def HandoffEvent.processed? : HandoffEvent → Option MsgRef
  | .processed m _ => some m
  | _ => none

def HandoffEvent.destroyed? : HandoffEvent → Option MsgRef
  | .destroyed m => some m
  | _ => none

def fetchedOf (c : List HandoffEvent) : List MsgRef := c.filterMap HandoffEvent.fetched?

def handledOf (c : List HandoffEvent) : List MsgRef := c.filterMap HandoffEvent.handled?

def processedMsgs (c : List HandoffEvent) : List MsgRef := c.filterMap HandoffEvent.processed?

def destroyedOf (c : List HandoffEvent) : List MsgRef := c.filterMap HandoffEvent.destroyed?

theorem fetchedOf_append (c d : List HandoffEvent) :
    fetchedOf (c ++ d) = fetchedOf c ++ fetchedOf d :=
  List.filterMap_append

theorem handledOf_append (c d : List HandoffEvent) :
    handledOf (c ++ d) = handledOf c ++ handledOf d :=
  List.filterMap_append

theorem processedMsgs_append (c d : List HandoffEvent) :
    processedMsgs (c ++ d) = processedMsgs c ++ processedMsgs d :=
  List.filterMap_append

theorem destroyedOf_append (c d : List HandoffEvent) :
    destroyedOf (c ++ d) = destroyedOf c ++ destroyedOf d :=
  List.filterMap_append

theorem destroyedOf_map (ms : List MsgRef) : destroyedOf (ms.map .destroyed) = ms := by
  unfold destroyedOf
  rw [List.filterMap_map]
  exact List.filterMap_some

theorem fetchedOf_map (ms : List MsgRef) : fetchedOf (ms.map .fetched) = ms := by
  unfold fetchedOf
  rw [List.filterMap_map]
  exact List.filterMap_some

/-! ## Who holds a message -/

/-- The messages the worker has to destroy, or to hand on. -/
def WorkerPoint.held : WorkerPoint → List MsgRef
  | .listing rest => rest.filterMap id
  | .awaitingRoom m rest _ => m :: rest.filterMap id
  | .awaitingResult _ rest _ => rest.filterMap id
  | .returned m rest consumed _ =>
    if consumed then rest.filterMap id else m :: rest.filterMap id
  | .freeing rest => rest.filterMap id
  | _ => []

def LoopPoint.held : LoopPoint → List MsgRef
  | .processing m => [m]
  | _ => []

def HandoffState.custody (s : HandoffState) : List MsgRef :=
  s.worker.held ++ s.stream.pendingMsg.toList ++ s.loop.held

theorem held_broadcast (w : WorkerPoint) : w.broadcast.held = w.held := by
  cases w <;> rfl

/-! ## Whose turn it is -/

/-- Nothing is handed over. -/
structure Vacant (s : HandoffState) : Prop where
  pendingMsg : s.stream.pendingMsg = none
  pendingReady : s.stream.pendingReady = false
  pendingInProcess : s.stream.pendingInProcess = false
  loop : s.loop = .idle

/-- How far a message is that has been handed over. -/
inductive Handed (c : List HandoffEvent) (st : JsStream) (m : MsgRef) : LoopPoint → Prop
  | posted (pendingMsg : st.pendingMsg = some m) (ready : st.pendingReady = true)
      (idle : st.pendingInProcess = false) (waiting : st.pendingDone = false) :
      Handed c st m .idle
  | taken (pendingMsg : st.pendingMsg = none) (ready : st.pendingReady = false)
      (busy : st.pendingInProcess = true) (waiting : st.pendingDone = false) :
      Handed c st m (.processing m)
  | processed {ok : Bool} (pendingMsg : st.pendingMsg = none) (ready : st.pendingReady = false)
      (busy : st.pendingInProcess = true) (waiting : st.pendingDone = false)
      (result : .processed m ok ∈ c) : Handed c st m (.finishing ok)
  | done (pendingMsg : st.pendingMsg = none) (ready : st.pendingReady = false)
      (idle : st.pendingInProcess = false) (finished : st.pendingDone = true)
      (result : .processed m st.pendingOk ∈ c) : Handed c st m .idle

/-- A worker that has been told nothing new may sleep. -/
def MaySleep (st : JsStream) : Prop :=
  st.pendingDone = false ∧ (st.closing = true → st.pendingReady = false)

def Turn (c : List HandoffEvent) (s : HandoffState) : Prop :=
  match s.worker with
  | .awaitingRoom _ _ _ => False
  | .awaitingResult m _ asleep =>
    Handed c s.stream m s.loop ∧ (asleep = true → MaySleep s.stream)
  | _ => Vacant s

/-! ## The invariant -/

/-- Every message is fetched once, and is destroyed or held by somebody. -/
structure Books (c : List HandoffEvent) (s : HandoffState) : Prop where
  fresh : ∀ m ∈ fetchedOf c, m.address < s.nextAddress
  nodup : (fetchedOf c).Nodup
  custody : (fetchedOf c).Perm (destroyedOf c ++ s.custody)
  processed : (processedMsgs c).Sublist (destroyedOf c)
  handled : (handledOf c).Sublist (processedMsgs c)
  acked : ∀ m, .acked m ∈ c →
    ∃ subject payload nowMs wallMs, .handled m subject payload nowMs wallMs true ∈ c

/-- What the worker was told is so. -/
structure Reports (c : List HandoffEvent) (s : HandoffState) : Prop where
  consumed : ∀ m ok, .reported m true ok ∈ c → .processed m ok ∈ c
  unconsumed : ∀ m ok, .reported m false ok ∈ c →
    m ∉ processedMsgs c ∧ (m ∈ destroyedOf c ∨ ∃ rest, s.worker = .returned m rest false ok)
  returned : ∀ m rest consumed ok, s.worker = .returned m rest consumed ok →
    .reported m consumed ok ∈ c ∧ (consumed = false → ok = false)

structure HandoffInv (c : List HandoffEvent) (s : HandoffState) : Prop where
  books : Books c s
  reports : Reports c s
  turn : Turn c s

theorem Books.held_unprocessed {c : List HandoffEvent} {s : HandoffState} (h : Books c s) {m : MsgRef}
    (hm : m ∈ s.custody) : m ∉ destroyedOf c := by
  have hnodup := h.custody.nodup_iff.mp h.nodup
  intro hdestroyed
  exact List.disjoint_of_nodup_append hnodup hdestroyed hm

/-! ## Steps that only move messages -/

/-- A step that neither fetches nor processes: what it takes out of somebody's
hands it destroys. -/
structure Moves (s : HandoffState) (d : List HandoffEvent) (s' : HandoffState) : Prop where
  events : ∀ e ∈ d, (∃ m, e = .destroyed m) ∨ ∃ m consumed ok, e = .reported m consumed ok
  address : s'.nextAddress = s.nextAddress
  custody : s.custody.Perm (destroyedOf d ++ s'.custody)

theorem Moves.quiet {s s' : HandoffState} {d : List HandoffEvent} (h : Moves s d s') :
    fetchedOf d = [] ∧ processedMsgs d = [] ∧ handledOf d = [] ∧ ∀ m, .acked m ∉ d := by
  refine ⟨?_, ?_, ?_, ?_⟩
  · apply List.filterMap_eq_nil_iff.mpr
    intro e he
    rcases h.events e he with ⟨m, rfl⟩ | ⟨m, consumed, ok, rfl⟩
    · rfl
    · rfl
  · apply List.filterMap_eq_nil_iff.mpr
    intro e he
    rcases h.events e he with ⟨m, rfl⟩ | ⟨m, consumed, ok, rfl⟩
    · rfl
    · rfl
  · apply List.filterMap_eq_nil_iff.mpr
    intro e he
    rcases h.events e he with ⟨m, rfl⟩ | ⟨m, consumed, ok, rfl⟩
    · rfl
    · rfl
  · intro m hm
    rcases h.events _ hm with ⟨_, heq⟩ | ⟨_, _, _, heq⟩
    · cases heq
    · cases heq

theorem Books.moves {c d : List HandoffEvent} {s s' : HandoffState} (hs : Books c s)
    (h : Moves s d s') : Books (c ++ d) s' := by
  obtain ⟨hfetched, hprocessed, hhandled, hacked⟩ := h.quiet
  constructor
  · rw [fetchedOf_append, hfetched, List.append_nil, h.address]
    exact hs.fresh
  · rw [fetchedOf_append, hfetched, List.append_nil]
    exact hs.nodup
  · rw [fetchedOf_append, hfetched, List.append_nil, destroyedOf_append, List.append_assoc]
    exact hs.custody.trans (h.custody.append_left _)
  · rw [processedMsgs_append, hprocessed, List.append_nil, destroyedOf_append]
    exact hs.processed.trans (List.sublist_append_left _ _)
  · rw [handledOf_append, hhandled, List.append_nil, processedMsgs_append, hprocessed, List.append_nil]
    exact hs.handled
  · intro m hm
    rcases List.mem_append.mp hm with hm | hm
    · obtain ⟨subject, payload, nowMs, wallMs, hhandled⟩ := hs.acked m hm
      exact ⟨subject, payload, nowMs, wallMs, List.mem_append_left _ hhandled⟩
    · exact absurd hm (hacked m)

/-- What the worker does after it has been told takes care of its message. -/
theorem Reports.moves {c d : List HandoffEvent} {s s' : HandoffState} (hs : Reports c s)
    (h : Moves s d s') (hnone : ∀ m consumed ok, .reported m consumed ok ∉ d)
    (hleft : ∀ m rest ok, s.worker = .returned m rest false ok →
      m ∈ destroyedOf d ∨ s'.worker = .returned m rest false ok)
    (hworker : ∀ m rest consumed ok, s'.worker = .returned m rest consumed ok →
      s.worker = .returned m rest consumed ok) : Reports (c ++ d) s' := by
  obtain ⟨-, hprocessed, -, -⟩ := h.quiet
  constructor
  · intro m ok hm
    rcases List.mem_append.mp hm with hm | hm
    · exact List.mem_append_left _ (hs.consumed m ok hm)
    · exact absurd hm (hnone m true ok)
  · intro m ok hm
    rcases List.mem_append.mp hm with hm | hm
    · obtain ⟨hnot, hplace⟩ := hs.unconsumed m ok hm
      rw [processedMsgs_append, hprocessed, List.append_nil, destroyedOf_append, List.mem_append]
      refine ⟨hnot, ?_⟩
      rcases hplace with hplace | ⟨rest, hplace⟩
      · exact .inl (.inl hplace)
      · rcases hleft m rest ok hplace with hplace | hplace
        · exact .inl (.inr hplace)
        · exact .inr ⟨rest, hplace⟩
    · exact absurd hm (hnone m false ok)
  · intro m rest consumed ok hw
    obtain ⟨hreported, hok⟩ := hs.returned m rest consumed ok (hworker m rest consumed ok hw)
    exact ⟨List.mem_append_left _ hreported, hok⟩

/-! ## Steps of the worker -/

def WorkerPoint.told : WorkerPoint → Bool
  | .returned _ _ _ _ => true
  | _ => false

/-- A step of the worker that is told nothing. -/
theorem HandoffInv.moves {c d : List HandoffEvent} {s s' : HandoffState} (hs : HandoffInv c s)
    (h : Moves s d s') (hd : ∀ m consumed ok, .reported m consumed ok ∉ d)
    (hbefore : s.worker.told = false) (hafter : s'.worker.told = false) (hturn : Turn (c ++ d) s') :
    HandoffInv (c ++ d) s' := by
  refine ⟨hs.books.moves h, hs.reports.moves h hd ?_ ?_, hturn⟩
  · intro m rest ok hw
    rw [hw] at hbefore
    cases hbefore
  · intro m rest consumed ok hw
    rw [hw] at hafter
    cases hafter

/-- The worker is told what became of its message. -/
theorem handoffInv_report {c : List HandoffEvent} {s s₁ : HandoffState} {m : MsgRef}
    {rest : List (Option MsgRef)} {consumed ok : Bool} (hs : HandoffInv c s)
    (hbefore : s.worker.told = false) (hvacant : Vacant s₁)
    (haddress : s₁.nextAddress = s.nextAddress)
    (hcustody : s.custody.Perm (s₁.report m rest consumed ok).2.custody)
    (hconsumed : consumed = true → .processed m ok ∈ c)
    (hunconsumed : consumed = false → ok = false ∧ m ∈ s.custody) :
    HandoffInv (c ++ (s₁.report m rest consumed ok).1) (s₁.report m rest consumed ok).2 := by
  have hmoves : Moves s [.reported m consumed ok] (s₁.report m rest consumed ok).2 := by
    refine ⟨?_, haddress, hcustody⟩
    intro _ he
    exact .inr ⟨m, consumed, ok, List.mem_singleton.mp he⟩
  obtain ⟨-, hprocessed, -, -⟩ := hmoves.quiet
  refine ⟨hs.books.moves hmoves, ⟨?_, ?_, ?_⟩, ⟨hvacant.1, hvacant.2, hvacant.3, hvacant.4⟩⟩
  · intro m' ok' hm
    rcases List.mem_append.mp hm with hm | hm
    · exact List.mem_append_left _ (hs.reports.consumed m' ok' hm)
    · obtain ⟨rfl, rfl, rfl⟩ := HandoffEvent.reported.inj (List.mem_singleton.mp hm)
      exact List.mem_append_left _ (hconsumed rfl)
  · intro m' ok' hm
    rw [show (s₁.report m rest consumed ok).1 = [.reported m consumed ok] from rfl,
      processedMsgs_append, hprocessed, List.append_nil]
    rcases List.mem_append.mp hm with hm | hm
    · obtain ⟨hnot, hplace⟩ := hs.reports.unconsumed m' ok' hm
      refine ⟨hnot, ?_⟩
      rcases hplace with hplace | ⟨rest', hplace⟩
      · rw [destroyedOf_append]
        exact .inl (List.mem_append_left _ hplace)
      · rw [hplace] at hbefore
        cases hbefore
    · obtain ⟨rfl, rfl, rfl⟩ := HandoffEvent.reported.inj (List.mem_singleton.mp hm)
      constructor
      · intro hmem
        exact hs.books.held_unprocessed (hunconsumed rfl).2 (hs.books.processed.subset hmem)
      · exact .inr ⟨rest, rfl⟩
  · intro m' rest' consumed' ok' hworker
    cases hworker
    exact ⟨List.mem_append_right _ List.mem_cons_self, fun hnot => (hunconsumed hnot).1⟩

theorem moves_nothing {s s' : HandoffState} (haddress : s'.nextAddress = s.nextAddress)
    (hcustody : s.custody.Perm s'.custody) : Moves s [] s' :=
  ⟨fun _ he => absurd he List.not_mem_nil, haddress, hcustody⟩

/-- A step of the worker in which nothing happens to messages. -/
theorem HandoffInv.still {c : List HandoffEvent} {s s' : HandoffState} (hs : HandoffInv c s)
    (haddress : s'.nextAddress = s.nextAddress) (hcustody : s.custody.Perm s'.custody)
    (hbefore : s.worker.told = false) (hafter : s'.worker.told = false) (hturn : Turn c s') :
    HandoffInv (c ++ []) s' := by
  apply hs.moves (moves_nothing haddress hcustody) _ hbefore hafter
  · rw [List.append_nil]
    exact hturn
  · intro m consumed ok hm
    exact absurd hm List.not_mem_nil

/-- A look at the result of a message that has been handed over. -/
theorem handoffInv_awaitResult {c : List HandoffEvent} {s s₁ : HandoffState} {m : MsgRef}
    {rest : List (Option MsgRef)} (hs : HandoffInv c s) (hbefore : s.worker.told = false)
    (hhanded : Handed c s₁.stream m s₁.loop) (haddress : s₁.nextAddress = s.nextAddress)
    (hcustody : s.custody.Perm
      ({ s₁ with worker := .awaitingResult m rest false } : HandoffState).custody) :
    HandoffInv (c ++ (s₁.awaitResult m rest).1) (s₁.awaitResult m rest).2 := by
  unfold HandoffState.awaitResult
  split_ifs with hdone hreclaim
  · -- only a message that is done has a result
    generalize hloop : s₁.loop = loop at hhanded
    cases hhanded with
    | posted _ _ _ hwaiting => simp [hwaiting] at hdone
    | taken _ _ _ hwaiting => simp [hwaiting] at hdone
    | processed _ _ _ hwaiting _ => simp [hwaiting] at hdone
    | done hmsg hready hidle hfinished hresult =>
      exact handoffInv_report hs hbefore ⟨hmsg, hready, hidle, hloop⟩ haddress hcustody
        (fun _ => hresult) (fun h => by cases h)
  · obtain ⟨-, hready, hmsg, hidle⟩ := hreclaim
    have hidle : s₁.stream.pendingInProcess = false := by simpa using hidle
    have hloop : s₁.loop = .idle := by
      generalize s₁.loop = loop at hhanded
      cases hhanded with
      | posted => rfl
      | taken _ hnot _ _ => simp [hnot] at hready
      | processed _ hnot _ _ _ => simp [hnot] at hready
      | done _ hnot _ _ _ => simp [hnot] at hready
    have hback : s.custody.Perm (m :: (rest.filterMap id ++ s₁.loop.held)) := by
      refine hcustody.trans ?_
      unfold HandoffState.custody WorkerPoint.held
      dsimp only
      rw [hmsg, List.append_assoc]
      exact List.perm_middle
    have hvacant : Vacant { s₁ with stream := s₁.stream.reclaim } := ⟨rfl, rfl, hidle, hloop⟩
    apply handoffInv_report hs hbefore hvacant haddress
    · refine hback.trans (.of_eq ?_)
      simp [HandoffState.custody, HandoffState.report, JsStream.reclaim, WorkerPoint.held]
    · exact fun h => by cases h
    · exact fun _ => ⟨rfl, hback.mem_iff.mpr List.mem_cons_self⟩
  · apply @HandoffInv.still c s { s₁ with worker := .awaitingResult m rest true } hs haddress hcustody
      hbefore rfl
    refine ⟨hhanded, fun _ => ⟨by simpa using hdone, ?_⟩⟩
    intro hclosing
    generalize s₁.loop = loop at hhanded
    cases hhanded with
    | posted hmsg hready hidle _ => exact absurd ⟨hclosing, hready, hmsg, by simp [hidle]⟩ hreclaim
    | taken _ hready _ _ => exact hready
    | processed _ hready _ _ _ => exact hready
    | done _ hready _ _ _ => exact hready

/-- A message at its turn. -/
theorem handoffInv_enter {c : List HandoffEvent} {s : HandoffState} {m : MsgRef}
    {rest : List (Option MsgRef)} (asyncOk : Bool) (hs : HandoffInv c s)
    (hworker : s.worker = .listing (some m :: rest)) :
    HandoffInv (c ++ (s.enter asyncOk m rest).1) (s.enter asyncOk m rest).2 := by
  have hvacant : Vacant s := by
    have hturn := hs.turn
    unfold Turn at hturn
    rw [hworker] at hturn
    exact hturn
  have hbefore : s.worker.told = false := by
    rw [hworker]
    rfl
  have hcustody : s.custody = m :: rest.filterMap id := by
    unfold HandoffState.custody
    rw [hworker, hvacant.pendingMsg, hvacant.loop]
    simp [WorkerPoint.held, LoopPoint.held]
  unfold HandoffState.enter
  rw [hvacant.pendingReady, hvacant.pendingInProcess, Bool.or_false, Bool.and_false, if_neg Bool.false_ne_true]
  by_cases hclosing : s.stream.closing = true
  · rw [if_pos hclosing]
    apply handoffInv_report hs hbefore hvacant rfl
    · rw [hcustody]
      simp [HandoffState.custody, HandoffState.report, WorkerPoint.held, hvacant.pendingMsg, hvacant.loop,
        LoopPoint.held]
    · exact fun h => by cases h
    · exact fun _ => ⟨rfl, hcustody ▸ List.mem_cons_self⟩
  rw [if_neg hclosing]
  by_cases hasync : asyncOk = true
  · rw [hasync, Bool.not_true, if_neg Bool.false_ne_true]
    apply handoffInv_awaitResult hs hbefore
    · dsimp only
      rw [hvacant.loop]
      exact .posted rfl rfl rfl rfl
    · rfl
    · rw [hcustody]
      unfold HandoffState.custody JsStream.post
      rw [hvacant.loop]
      simpa [WorkerPoint.held, LoopPoint.held] using (List.perm_append_singleton _ _).symm
  · rw [Bool.eq_false_iff.mpr hasync, Bool.not_false, if_pos rfl]
    have hback : Vacant { s with stream := (s.stream.post m).reclaim } :=
      ⟨rfl, rfl, rfl, hvacant.loop⟩
    apply handoffInv_report hs hbefore hback rfl
    · rw [hcustody]
      simp [HandoffState.custody, HandoffState.report, JsStream.reclaim, WorkerPoint.held, hvacant.loop,
        LoopPoint.held]
    · exact fun h => by cases h
    · exact fun _ => ⟨rfl, hcustody ▸ List.mem_cons_self⟩

/-- Away from the hand-off nothing is handed over. -/
theorem vacant_of_turn {c : List HandoffEvent} {s : HandoffState} {point : WorkerPoint}
    (hturn : Turn c s) (hworker : s.worker = point)
    (hroom : ∀ m rest asleep, point ≠ .awaitingRoom m rest asleep)
    (hresult : ∀ m rest asleep, point ≠ .awaitingResult m rest asleep) : Vacant s := by
  unfold Turn at hturn
  rw [hworker] at hturn
  split at hturn
  · exact hturn.elim
  · rename_i m rest asleep
    exact absurd rfl (hresult m rest asleep)
  · exact hturn

theorem lt_of_mem_allocate {m : MsgRef} {list : List (Option NatsMsg)} {address : ℕ}
    (h : m ∈ (allocate address list).filterMap id) :
    address ≤ m.address ∧ m.address < address + list.length := by
  induction list generalizing address with
  | nil => exact absurd h List.not_mem_nil
  | cons entry list ih =>
    cases entry with
    | none =>
      obtain ⟨hle, hlt⟩ := ih h
      exact ⟨hle, by rw [List.length_cons]; omega⟩
    | some msg =>
      rcases List.mem_cons.mp h with rfl | h
      · exact ⟨le_rfl, by rw [List.length_cons]; dsimp only; omega⟩
      · obtain ⟨hle, hlt⟩ := ih h
        exact ⟨by omega, by rw [List.length_cons]; omega⟩

theorem nodup_allocate (list : List (Option NatsMsg)) (address : ℕ) :
    ((allocate address list).filterMap id).Nodup := by
  induction list generalizing address with
  | nil => exact List.nodup_nil
  | cons entry list ih =>
    cases entry with
    | none => exact ih address
    | some msg =>
      apply List.nodup_cons.mpr
      constructor
      · intro hmem
        exact absurd (lt_of_mem_allocate hmem).1 (Nat.not_succ_le_self address)
      · exact ih (address + 1)

/-- Fetched messages come into the hands of the worker. -/
theorem handoffInv_fetch {c : List HandoffEvent} {s : HandoffState} (result : FetchResult)
    (hs : HandoffInv c s) (hworker : s.worker = .fetching) :
    HandoffInv (c ++ (s.fetch result).1) (s.fetch result).2 := by
  have hvacant : Vacant s :=
    vacant_of_turn hs.turn hworker (fun _ _ _ h => by cases h) (fun _ _ _ h => by cases h)
  have hcustody : s.custody = [] := by
    unfold HandoffState.custody
    rw [hworker, hvacant.pendingMsg, hvacant.loop]
    rfl
  have hbefore : s.worker.told = false := by
    rw [hworker]
    rfl
  cases result with
  | timeout =>
    have hafter : Vacant (s.fetch .timeout).2 := ⟨hvacant.1, hvacant.2, hvacant.3, hvacant.4⟩
    apply @HandoffInv.still c s (s.fetch .timeout).2 hs rfl _ hbefore rfl hafter
    rw [hcustody]
    simp [HandoffState.custody, HandoffState.fetch, WorkerPoint.held, hvacant.pendingMsg, hvacant.loop,
      LoopPoint.held]
  | failed status =>
    have hafter : Vacant (s.fetch (.failed status)).2 :=
      ⟨hvacant.1, hvacant.2, hvacant.3, hvacant.4⟩
    apply @HandoffInv.still c s (s.fetch (.failed status)).2 hs rfl _ hbefore rfl hafter
    rw [hcustody]
    simp [HandoffState.custody, HandoffState.fetch, WorkerPoint.held, hvacant.pendingMsg, hvacant.loop,
      LoopPoint.held]
  | messages list =>
    have hcustody' : (s.fetch (.messages list)).2.custody =
        (allocate s.nextAddress list).filterMap id := by
      unfold HandoffState.custody HandoffState.fetch
      simp [WorkerPoint.held, hvacant.pendingMsg, hvacant.loop, LoopPoint.held]
    unfold HandoffState.fetch at hcustody' ⊢
    dsimp only at hcustody' ⊢
    have hfresh := fun m => @lt_of_mem_allocate m list s.nextAddress
    have hdistinct := nodup_allocate list s.nextAddress
    generalize (allocate s.nextAddress list).filterMap id = ms at hcustody' hfresh hdistinct ⊢
    have hquiet : ∀ e ∈ ms.map HandoffEvent.fetched, ∃ m, e = .fetched m := by
      intro e he
      obtain ⟨m, -, rfl⟩ := List.mem_map.mp he
      exact ⟨m, rfl⟩
    have hdestroyed : destroyedOf (ms.map .fetched) = [] := by
      apply List.filterMap_eq_nil_iff.mpr
      intro e he
      obtain ⟨m, rfl⟩ := hquiet e he
      rfl
    have hprocessed : processedMsgs (ms.map .fetched) = [] := by
      apply List.filterMap_eq_nil_iff.mpr
      intro e he
      obtain ⟨m, rfl⟩ := hquiet e he
      rfl
    have hhandled : handledOf (ms.map .fetched) = [] := by
      apply List.filterMap_eq_nil_iff.mpr
      intro e he
      obtain ⟨m, rfl⟩ := hquiet e he
      rfl
    have hfetched := hs.books.custody
    rw [hcustody, List.append_nil] at hfetched
    refine ⟨⟨?_, ?_, ?_, ?_, ?_, ?_⟩, ⟨?_, ?_, ?_⟩, ⟨hvacant.1, hvacant.2, hvacant.3, hvacant.4⟩⟩
    · intro m hm
      rw [fetchedOf_append, fetchedOf_map, List.mem_append] at hm
      rcases hm with hm | hm
      · exact lt_of_lt_of_le (hs.books.fresh m hm) (Nat.le_add_right _ _)
      · exact (hfresh m hm).2
    · rw [fetchedOf_append, fetchedOf_map]
      apply List.Nodup.append hs.books.nodup hdistinct
      intro m hold hnew
      exact absurd (hs.books.fresh m hold) (Nat.not_lt.mpr (hfresh m hnew).1)
    · rw [fetchedOf_append, fetchedOf_map, destroyedOf_append, hdestroyed, List.append_nil, hcustody']
      exact hfetched.append_right ms
    · rw [processedMsgs_append, hprocessed, List.append_nil, destroyedOf_append, hdestroyed, List.append_nil]
      exact hs.books.processed
    · rw [handledOf_append, hhandled, List.append_nil, processedMsgs_append, hprocessed, List.append_nil]
      exact hs.books.handled
    · intro m hm
      rcases List.mem_append.mp hm with hm | hm
      · obtain ⟨subject, payload, nowMs, wallMs, hhandled⟩ := hs.books.acked m hm
        exact ⟨subject, payload, nowMs, wallMs, List.mem_append_left _ hhandled⟩
      · obtain ⟨_, heq⟩ := hquiet _ hm
        cases heq
    · intro m ok hm
      rcases List.mem_append.mp hm with hm | hm
      · exact List.mem_append_left _ (hs.reports.consumed m ok hm)
      · obtain ⟨_, heq⟩ := hquiet _ hm
        cases heq
    · intro m ok hm
      rcases List.mem_append.mp hm with hm | hm
      · obtain ⟨hnot, hplace⟩ := hs.reports.unconsumed m ok hm
        rw [processedMsgs_append, hprocessed, List.append_nil, destroyedOf_append, hdestroyed, List.append_nil]
        refine ⟨hnot, ?_⟩
        rcases hplace with hplace | ⟨rest, hplace⟩
        · exact .inl hplace
        · rw [hworker] at hplace
          cases hplace
      · obtain ⟨_, heq⟩ := hquiet _ hm
        cases heq
    · intro m rest consumed ok h
      cases h

/-- The worker goes on while nothing is handed over. -/
theorem HandoffInv.goOn {c : List HandoffEvent} {s : HandoffState} {point : WorkerPoint}
    (hs : HandoffInv c s) (hvacant : Vacant s) (hbefore : s.worker.told = false)
    (hafter : point.told = false) (hheld : s.worker.held = point.held)
    (hturn : Vacant { s with worker := point } → Turn c { s with worker := point }) :
    HandoffInv (c ++ []) { s with worker := point } := by
  apply @HandoffInv.still c s { s with worker := point } hs rfl _ hbefore hafter
  · exact hturn ⟨hvacant.1, hvacant.2, hvacant.3, hvacant.4⟩
  · unfold HandoffState.custody
    dsimp only
    rw [hheld]

/-- The worker deals with its message after it has been told. -/
theorem handoffInv_afterHandOff {c : List HandoffEvent} {s : HandoffState} {m : MsgRef}
    {rest : List (Option MsgRef)} {consumed ok : Bool} (hs : HandoffInv c s)
    (hworker : s.worker = .returned m rest consumed ok) :
    HandoffInv (c ++ if ok then [] else if consumed then [] else [.destroyed m])
      { s with worker := if ok then .listing rest else .freeing rest } := by
  have hvacant : Vacant s :=
    vacant_of_turn hs.turn hworker (fun _ _ _ h => by cases h) (fun _ _ _ h => by cases h)
  obtain ⟨-, hok⟩ := hs.reports.returned m rest consumed ok hworker
  have hmoves : Moves s (if ok then [] else if consumed then [] else [.destroyed m])
      { s with worker := if ok then .listing rest else .freeing rest } := by
    refine ⟨?_, rfl, ?_⟩
    · intro e he
      split_ifs at he
      · exact absurd he List.not_mem_nil
      · exact absurd he List.not_mem_nil
      · exact .inl ⟨m, List.mem_singleton.mp he⟩
    · unfold HandoffState.custody
      dsimp only
      rw [hworker, hvacant.pendingMsg, hvacant.loop]
      cases ok with
      | true =>
        -- a message that went well was taken
        cases consumed with
        | true => exact .refl _
        | false => exact absurd (hok rfl) Bool.noConfusion
      | false =>
        cases consumed with
        | true => exact .refl _
        | false => exact .refl _
  have hpoint : ({ s with worker := if ok then .listing rest else .freeing rest } : HandoffState).worker.told =
      false := by
    cases ok with
    | true => rfl
    | false => rfl
  refine ⟨hs.books.moves hmoves, hs.reports.moves hmoves ?_ ?_ ?_, ?_⟩
  · intro m' consumed' ok' he
    split_ifs at he
    · exact absurd he List.not_mem_nil
    · exact absurd he List.not_mem_nil
    · cases List.mem_singleton.mp he
  · intro m' rest' ok' hw
    rw [hworker] at hw
    cases hw
    rw [hok rfl]
    exact .inl List.mem_cons_self
  · intro m' rest' consumed' ok' hw
    rw [hw] at hpoint
    cases hpoint
  · cases ok with
    | true => exact ⟨hvacant.1, hvacant.2, hvacant.3, hvacant.4⟩
    | false => exact ⟨hvacant.1, hvacant.2, hvacant.3, hvacant.4⟩

/-- The rest of a list is freed. -/
theorem handoffInv_freeList {c : List HandoffEvent} {s : HandoffState} {rest : List (Option MsgRef)}
    (hs : HandoffInv c s) (hworker : s.worker = .freeing rest) :
    HandoffInv (c ++ (rest.filterMap id).map .destroyed) { s with worker := .checking } := by
  have hvacant : Vacant s :=
    vacant_of_turn hs.turn hworker (fun _ _ _ h => by cases h) (fun _ _ _ h => by cases h)
  apply @HandoffInv.moves c _ s { s with worker := .checking } hs _ _ _ rfl
  · exact ⟨hvacant.1, hvacant.2, hvacant.3, hvacant.4⟩
  · refine ⟨?_, rfl, ?_⟩
    · intro e he
      obtain ⟨m, -, rfl⟩ := List.mem_map.mp he
      exact .inl ⟨m, rfl⟩
    · rw [destroyedOf_map]
      unfold HandoffState.custody
      rw [hworker]
      simp [WorkerPoint.held]
  · intro m consumed ok he
    obtain ⟨_, -, heq⟩ := List.mem_map.mp he
    cases heq
  · rw [hworker]
    rfl

/-! ## Steps of the loop -/

theorem told_broadcast {w : WorkerPoint} {m : MsgRef} {rest : List (Option MsgRef)}
    {consumed ok : Bool} :
    w.broadcast = .returned m rest consumed ok ↔ w = .returned m rest consumed ok := by
  cases w <;> simp [WorkerPoint.broadcast]

/-- A step of the loop in which nothing happens to messages. -/
theorem HandoffInv.aside {c : List HandoffEvent} {s s' : HandoffState} (hs : HandoffInv c s)
    (haddress : s'.nextAddress = s.nextAddress) (hcustody : s.custody.Perm s'.custody)
    (hworker : s'.worker = s.worker ∨ s'.worker = s.worker.broadcast) (hturn : Turn c s') :
    HandoffInv (c ++ []) s' := by
  have hmoves : Moves s [] s' := moves_nothing haddress hcustody
  have hsame : ∀ m rest consumed ok, s'.worker = .returned m rest consumed ok ↔
      s.worker = .returned m rest consumed ok := by
    intro m rest consumed ok
    rcases hworker with hworker | hworker
    · rw [hworker]
    · rw [hworker]
      exact told_broadcast
  refine ⟨hs.books.moves hmoves, hs.reports.moves hmoves ?_ ?_ ?_, ?_⟩
  · exact fun m consumed ok he => absurd he List.not_mem_nil
  · exact fun m rest ok hw => .inr ((hsame m rest false ok).mpr hw)
  · exact fun m rest consumed ok hw => (hsame m rest consumed ok).mp hw
  · rw [List.append_nil]
    exact hturn

/-- The loop is busy only with what the worker waits for. -/
theorem handed_of_loop {c : List HandoffEvent} {s : HandoffState} (hturn : Turn c s)
    (hloop : s.loop ≠ .idle) :
    ∃ m rest asleep, s.worker = .awaitingResult m rest asleep ∧ Handed c s.stream m s.loop := by
  unfold Turn at hturn
  split at hturn
  · exact hturn.elim
  · rename_i m rest asleep hworker
    exact ⟨m, rest, asleep, hworker, hturn.1⟩
  · exact absurd hturn.loop hloop

theorem Turn.broadcast {c : List HandoffEvent} {s s' : HandoffState}
    (hworker : s'.worker = s.worker.broadcast) (hvacant : Vacant s → Vacant s')
    (hhanded : ∀ m, Handed c s.stream m s.loop → Handed c s'.stream m s'.loop) (hs : Turn c s) :
    Turn c s' := by
  unfold Turn at hs ⊢
  rw [hworker]
  cases hw : s.worker with
  | awaitingRoom m rest asleep =>
    rw [hw] at hs
    exact hs.elim
  | awaitingResult m rest asleep =>
    rw [hw] at hs
    exact ⟨hhanded m hs.1, fun h => by cases h⟩
  | _ =>
    rw [hw] at hs
    exact hvacant hs

theorem Turn.close {c : List HandoffEvent} {s : HandoffState} {close : ClosePoint} (hs : Turn c s) :
    Turn c { s with close := close } := by
  unfold Turn at hs ⊢
  dsimp only
  cases hw : s.worker with
  | awaitingRoom m rest asleep =>
    rw [hw] at hs
    exact hs
  | awaitingResult m rest asleep =>
    rw [hw] at hs
    exact hs
  | _ =>
    rw [hw] at hs
    exact ⟨hs.1, hs.2, hs.3, hs.4⟩

theorem handoffInv_wakeUp {c : List HandoffEvent} {s : HandoffState} (hs : HandoffInv c s) :
    HandoffInv (c ++ []) { s with worker := s.worker.broadcast } := by
  apply @HandoffInv.aside c s { s with worker := s.worker.broadcast } hs rfl _ (.inr rfl)
  · exact hs.turn.broadcast rfl (fun h => ⟨h.1, h.2, h.3, h.4⟩) (fun _ h => h)
  · unfold HandoffState.custody
    dsimp only
    rw [held_broadcast]

theorem handoffInv_onAsync {c : List HandoffEvent} {s : HandoffState} (hs : HandoffInv c s)
    (hloop : s.loop = .idle) : HandoffInv (c ++ []) s.onAsync := by
  by_cases hready : s.stream.pendingReady = true
  · -- a message is there, and it is the one the worker waits for
    have hturn := hs.turn
    unfold Turn at hturn
    split at hturn
    · exact hturn.elim
    · rename_i m rest asleep hworker
      obtain ⟨hhanded, hsleep⟩ := hturn
      have hmsg : s.stream.pendingMsg = some m ∧ s.stream.pendingDone = false := by
        generalize s.loop = loop at hhanded
        cases hhanded with
        | posted hmsg _ _ hwaiting => exact ⟨hmsg, hwaiting⟩
        | taken _ hnot _ _ => simp [hnot] at hready
        | processed _ hnot _ _ _ => simp [hnot] at hready
        | done _ hnot _ _ _ => simp [hnot] at hready
      have htake : s.onAsync = { s with stream := s.stream.take, loop := .processing m } := by
        unfold HandoffState.onAsync
        rw [if_pos hready, hmsg.1]
      rw [htake]
      apply @HandoffInv.aside c s { s with stream := s.stream.take, loop := .processing m } hs rfl _
        (.inl rfl)
      · unfold Turn
        dsimp only
        rw [hworker]
        exact ⟨.taken rfl rfl rfl hmsg.2, fun _ => ⟨hmsg.2, fun _ => rfl⟩⟩
      · unfold HandoffState.custody
        rw [hmsg.1, hloop]
        simp [JsStream.take, LoopPoint.held]
    · exact absurd hready (by simp [hturn.pendingReady])
  · unfold HandoffState.onAsync
    rw [if_neg hready]
    exact hs.aside rfl (.refl _) (.inl rfl) hs.turn

theorem handoffInv_finish {c : List HandoffEvent} {s : HandoffState} {ok : Bool}
    (hs : HandoffInv c s) (hloop : s.loop = .finishing ok) : HandoffInv (c ++ []) (s.finish ok) := by
  apply @HandoffInv.aside c s (s.finish ok) hs rfl _ (.inr rfl)
  · apply @Turn.broadcast c s (s.finish ok) rfl
    · intro hvacant
      exact absurd (hloop.symm.trans hvacant.loop) (fun h => by cases h)
    · intro m hhanded
      rw [hloop] at hhanded
      cases hhanded with
      | processed hmsg hready _ _ hresult => exact .done hmsg hready rfl rfl hresult
    · exact hs.turn
  · unfold HandoffState.custody HandoffState.finish
    dsimp only
    rw [held_broadcast, hloop]
    rfl

theorem handoffInv_beginClose {c : List HandoffEvent} {s : HandoffState} (hs : HandoffInv c s) :
    HandoffInv (c ++ []) s.beginClose := by
  apply @HandoffInv.aside c s s.beginClose hs rfl _ (.inr rfl)
  · apply @Turn.broadcast c s s.beginClose rfl
    · exact fun hvacant => ⟨hvacant.1, hvacant.2, hvacant.3, hvacant.4⟩
    · intro m hhanded
      unfold HandoffState.beginClose
      generalize s.loop = loop at hhanded ⊢
      cases hhanded with
      | posted hmsg hready hidle hwaiting => exact .posted hmsg hready hidle hwaiting
      | taken hmsg hready hbusy hwaiting => exact .taken hmsg hready hbusy hwaiting
      | processed hmsg hready hbusy hwaiting hresult =>
        exact .processed hmsg hready hbusy hwaiting hresult
      | done hmsg hready hidle hfinished hresult =>
        exact .done hmsg hready hidle hfinished hresult
    · exact hs.turn
  · unfold HandoffState.custody HandoffState.beginClose
    dsimp only
    rw [held_broadcast]

theorem handoffInv_finishClose {c : List HandoffEvent} {s : HandoffState} (hs : HandoffInv c s)
    (hvacant : Vacant s) : HandoffInv (c ++ s.finishClose.1) s.finishClose.2 := by
  have hclose : s.finishClose = ([], { s with close := .closed }) := by
    obtain ⟨stream, worker, loop, close, nextAddress⟩ := s
    obtain ⟨pendingMsg⟩ := stream
    obtain rfl : pendingMsg = none := hvacant.pendingMsg
    rfl
  rw [hclose]
  apply @HandoffInv.aside c s { s with close := .closed } hs rfl (.refl _) (.inl rfl)
  exact hs.turn.close

/-! ## Processing -/

/-- Only counters differ. -/
structure SameFlags (st st' : JsStream) : Prop where
  pendingMsg : st'.pendingMsg = st.pendingMsg
  pendingReady : st'.pendingReady = st.pendingReady
  pendingInProcess : st'.pendingInProcess = st.pendingInProcess
  pendingDone : st'.pendingDone = st.pendingDone
  closing : st'.closing = st.closing

theorem SameFlags.refl (st : JsStream) : SameFlags st st := ⟨rfl, rfl, rfl, rfl, rfl⟩

theorem SameFlags.trans {st₁ st₂ st₃ : JsStream} (h : SameFlags st₁ st₂) (h' : SameFlags st₂ st₃) :
    SameFlags st₁ st₃ :=
  ⟨h'.1.trans h.1, h'.2.trans h.2, h'.3.trans h.3, h'.4.trans h.4, h'.5.trans h.5⟩

/-- What the processing of a message may do with it. -/
inductive Processing (m : MsgRef) : List HandoffEvent → Prop
  | refused : Processing m []
  | handled (subject payload : Bytes) (nowMs : UInt64) (wallMs : ℤ) (ok : Bool) :
      Processing m [.handled m subject payload nowMs wallMs ok]
  | acked (subject payload : Bytes) (nowMs : UInt64) (wallMs : ℤ) :
      Processing m [.handled m subject payload nowMs wallMs true, .acked m]

theorem sameFlags_fail (st : JsStream) : SameFlags st st.fail.2 := ⟨rfl, rfl, rfl, rfl, rfl⟩

theorem sameFlags_setStatus (status : ℤ) (st : JsStream) :
    SameFlags st (st.setStatus status).2 := by
  unfold JsStream.setStatus
  split_ifs
  · exact .refl st
  · exact ⟨rfl, rfl, rfl, rfl, rfl⟩

theorem sameFlags_eventTimeFromMsg (msg : NatsMsg) (st : JsStream) :
    SameFlags st (st.eventTimeFromMsg msg).2 := by
  unfold JsStream.eventTimeFromMsg
  cases msg.metaData with
  | inl status => exact ⟨rfl, rfl, rfl, rfl, rfl⟩
  | inr info =>
    dsimp only
    split_ifs <;> exact .refl st

theorem processing_deliver (answers : Answers) (m : MsgRef) (info : MsgMetaData) (wallMs : ℤ)
    (subject payload : Bytes) (st : JsStream) :
    Processing m (st.deliver answers m info wallMs subject payload).1 ∧
      SameFlags st (st.deliver answers m info wallMs subject payload).2.2 := by
  unfold JsStream.deliver
  dsimp only
  have hredelivered : SameFlags st
      (if 1 < info.numDelivered then { st with redelivered := st.redelivered + 1 } else st) := by
    split_ifs
    · exact ⟨rfl, rfl, rfl, rfl, rfl⟩
    · exact .refl st
  generalize (if 1 < info.numDelivered then { st with redelivered := st.redelivered + 1 } else st) =
    st₁ at hredelivered ⊢
  have hstatus := hredelivered.trans (sameFlags_setStatus answers.ackStatus st₁)
  cases hok : answers.handlerOk with
  | false => exact ⟨.handled _ _ _ _ _, hredelivered.trans (sameFlags_fail st₁)⟩
  | true =>
    rw [Bool.not_true, if_neg Bool.false_ne_true]
    cases hset : st₁.setStatus answers.ackStatus with
    | mk acked st₂ =>
      rw [hset] at hstatus
      cases acked with
      | false => exact ⟨.handled _ _ _ _ _, hstatus.trans (sameFlags_fail st₂)⟩
      | true => exact ⟨.acked _ _ _ _, hstatus.1, hstatus.2, hstatus.3, hstatus.4, hstatus.5⟩

theorem processing_processMsg (answers : Answers) (m : MsgRef) (st : JsStream) :
    Processing m (st.processMsg answers m).1 ∧ SameFlags st (st.processMsg answers m).2.2 := by
  unfold JsStream.processMsg
  have hreceived : SameFlags st { st with received := st.received + 1 } := ⟨rfl, rfl, rfl, rfl, rfl⟩
  generalize ({ st with received := st.received + 1 } : JsStream) = st₁ at hreceived ⊢
  have htime := hreceived.trans (sameFlags_eventTimeFromMsg m.msg st₁)
  dsimp only
  cases hevent : st₁.eventTimeFromMsg m.msg with
  | mk time st₂ =>
    rw [hevent] at htime
    have hfail := htime.trans (sameFlags_fail st₂)
    cases time with
    | none => exact ⟨.refused, hfail⟩
    | some time =>
      dsimp only
      cases m.msg.subject with
      | none => exact ⟨.refused, hfail⟩
      | some subject =>
        dsimp only
        split_ifs
        · exact ⟨.refused, hfail⟩
        · exact ⟨.refused, hfail⟩
        · obtain ⟨hprocessing, hflags⟩ := processing_deliver answers m time.1 time.2 subject
            (m.msg.payload.getD []) st₂
          exact ⟨hprocessing, htime.trans hflags⟩

/-- The processing of a message destroys it, and nothing else. -/
theorem Processing.quiet {m : MsgRef} {d : List HandoffEvent} (h : Processing m d) :
    fetchedOf d = [] ∧ destroyedOf d = [] ∧ processedMsgs d = [] ∧
      (handledOf d).Sublist [m] ∧ (∀ m' consumed ok, .reported m' consumed ok ∉ d) ∧
      ∀ m', .acked m' ∈ d →
        ∃ subject payload nowMs wallMs, .handled m' subject payload nowMs wallMs true ∈ d := by
  cases h with
  | refused => exact ⟨rfl, rfl, rfl, List.nil_sublist _, by simp, by simp⟩
  | handled subject payload nowMs wallMs ok => exact ⟨rfl, rfl, rfl, .refl _, by simp, by simp⟩
  | acked subject payload nowMs wallMs =>
    refine ⟨rfl, rfl, rfl, .refl _, by simp, ?_⟩
    intro m' hm
    obtain rfl : m' = m := by simpa using hm
    exact ⟨subject, payload, nowMs, wallMs, List.mem_cons_self⟩

theorem handoffInv_process {c : List HandoffEvent} {s : HandoffState} {m : MsgRef} (answers : Answers)
    (hs : HandoffInv c s) (hloop : s.loop = .processing m) :
    HandoffInv (c ++ (s.process answers m).1) (s.process answers m).2 := by
  have hbusy : s.loop ≠ .idle := by
    rw [hloop]
    exact fun h => by cases h
  obtain ⟨m', rest, asleep, hworker, hhanded⟩ := handed_of_loop hs.turn hbusy
  rw [hloop] at hhanded
  obtain ⟨hprocessing, hflags⟩ := processing_processMsg answers m s.stream
  obtain ⟨hfetched, hdestroyed, hprocessed, hhandled, hreported, hacked⟩ := hprocessing.quiet
  unfold HandoffState.process
  dsimp only
  generalize s.stream.processMsg answers m = r at hflags hfetched hdestroyed hprocessed hhandled hreported hacked ⊢
  obtain ⟨d, ok, stream⟩ := r
  dsimp only at hflags hfetched hdestroyed hprocessed hhandled hreported hacked ⊢
  have hfetched' : fetchedOf (d ++ [.processed m ok, .destroyed m]) = [] := by
    rw [fetchedOf_append, hfetched]
    rfl
  have hdestroyed' : destroyedOf (d ++ [.processed m ok, .destroyed m]) = [m] := by
    rw [destroyedOf_append, hdestroyed]
    rfl
  have hprocessed' : processedMsgs (d ++ [.processed m ok, .destroyed m]) = [m] := by
    rw [processedMsgs_append, hprocessed]
    rfl
  have hhandled' : (handledOf (d ++ [.processed m ok, .destroyed m])).Sublist [m] := by
    rw [handledOf_append, show handledOf [.processed m ok, .destroyed m] = [] from rfl, List.append_nil]
    exact hhandled
  have hreported' : ∀ m' consumed ok',
      .reported m' consumed ok' ∉ d ++ [.processed m ok, .destroyed m] := by
    intro m' consumed ok' hm
    rcases List.mem_append.mp hm with hm | hm
    · exact hreported m' consumed ok' hm
    · simp at hm
  cases hhanded with
  | taken hmsg hready hbusy hwaiting =>
    have hcustody : s.custody.Perm (m :: rest.filterMap id) := by
      unfold HandoffState.custody
      rw [hworker, hmsg, hloop]
      simp [WorkerPoint.held, LoopPoint.held]
    have hcustody' : ({ s with stream := stream, loop := .finishing ok } : HandoffState).custody =
        rest.filterMap id := by
      unfold HandoffState.custody
      dsimp only
      rw [hworker, hflags.pendingMsg, hmsg]
      simp [WorkerPoint.held, LoopPoint.held]
    refine ⟨⟨?_, ?_, ?_, ?_, ?_, ?_⟩, ⟨?_, ?_, ?_⟩, ?_⟩
    · rw [fetchedOf_append, hfetched', List.append_nil]
      exact hs.books.fresh
    · rw [fetchedOf_append, hfetched', List.append_nil]
      exact hs.books.nodup
    · rw [fetchedOf_append, hfetched', List.append_nil, destroyedOf_append, hdestroyed', hcustody',
        List.append_assoc]
      exact hs.books.custody.trans (hcustody.append_left _)
    · rw [processedMsgs_append, hprocessed', destroyedOf_append, hdestroyed']
      exact hs.books.processed.append (.refl _)
    · rw [handledOf_append, processedMsgs_append, hprocessed']
      exact hs.books.handled.append hhandled'
    · intro m' hm
      rcases List.mem_append.mp hm with hm | hm
      · obtain ⟨subject, payload, nowMs, wallMs, hwas⟩ := hs.books.acked m' hm
        exact ⟨subject, payload, nowMs, wallMs, List.mem_append_left _ hwas⟩
      · have hm : .acked m' ∈ d := by simpa using hm
        obtain ⟨subject, payload, nowMs, wallMs, hwas⟩ := hacked m' hm
        exact ⟨subject, payload, nowMs, wallMs, List.mem_append_right _ (List.mem_append_left _ hwas)⟩
    · intro m' ok' hm
      rcases List.mem_append.mp hm with hm | hm
      · exact List.mem_append_left _ (hs.reports.consumed m' ok' hm)
      · exact absurd hm (hreported' m' true ok')
    · intro m' ok' hm
      rcases List.mem_append.mp hm with hm | hm
      · obtain ⟨hnot, hplace⟩ := hs.reports.unconsumed m' ok' hm
        rcases hplace with hplace | ⟨rest', hplace⟩
        · -- the message in hand has not been destroyed
          have hother : m' ≠ m := by
            rintro rfl
            exact hs.books.held_unprocessed (hcustody.mem_iff.mpr List.mem_cons_self) hplace
          rw [processedMsgs_append, hprocessed', destroyedOf_append, List.mem_append, List.mem_append,
            List.mem_singleton, not_or]
          exact ⟨⟨hnot, hother⟩, .inl (.inl hplace)⟩
        · rw [hworker] at hplace
          cases hplace
      · exact absurd hm (hreported' m' false ok')
    · intro m' rest' consumed ok' hw
      rw [hworker] at hw
      cases hw
    · unfold Turn
      dsimp only
      rw [hworker]
      have hsleep : MaySleep stream := by
        constructor
        · rw [hflags.pendingDone, hwaiting]
        · intro _
          rw [hflags.pendingReady, hready]
      refine ⟨.processed ?_ ?_ ?_ ?_ ?_, fun _ => hsleep⟩
      · rw [hflags.pendingMsg, hmsg]
      · rw [hflags.pendingReady, hready]
      · rw [hflags.pendingInProcess, hbusy]
      · rw [hflags.pendingDone, hwaiting]
      · simp

/-! ## Any step -/

theorem HandoffInv.listen {c : List HandoffEvent} {s : HandoffState} {point : WorkerPoint}
    (hs : HandoffInv c s) (hworker : s.worker = point) (hbefore : point.told = false)
    (hroom : ∀ m rest asleep, point ≠ .awaitingRoom m rest asleep)
    (hresult : ∀ m rest asleep, point ≠ .awaitingResult m rest asleep) {point' : WorkerPoint}
    (hafter : point'.told = false) (hheld : point.held = point'.held)
    (hturn : Vacant { s with worker := point' } → Turn c { s with worker := point' }) :
    HandoffInv (c ++ []) { s with worker := point' } := by
  have hvacant : Vacant s := vacant_of_turn hs.turn hworker hroom hresult
  subst hworker
  exact hs.goOn hvacant hbefore hafter hheld hturn

theorem handoffInv_step {c d : List HandoffEvent} {s s' : HandoffState} {a : HandoffAction}
    (hs : HandoffInv c s) (hstep : HandoffState.step a s = some (d, s')) : HandoffInv (c ++ d) s' := by
  unfold HandoffState.step at hstep
  cases a with
  | startLive =>
    dsimp only at hstep
    split at hstep
    · rename_i hworker _
      cases hstep
      exact hs.listen hworker rfl (fun _ _ _ h => by cases h) (fun _ _ _ h => by cases h) rfl rfl id
    · cases hstep
  | checkClosing =>
    dsimp only at hstep
    split at hstep
    · rename_i hworker
      cases hstep
      split_ifs
      · exact hs.listen hworker rfl (fun _ _ _ h => by cases h) (fun _ _ _ h => by cases h) rfl rfl id
      · exact hs.listen hworker rfl (fun _ _ _ h => by cases h) (fun _ _ _ h => by cases h) rfl rfl id
    · cases hstep
  | fetch result =>
    dsimp only at hstep
    split at hstep
    · rename_i hworker
      have hnext := handoffInv_fetch result hs hworker
      rw [Option.some.inj hstep] at hnext
      exact hnext
    · cases hstep
  | handOff asyncOk =>
    dsimp only at hstep
    split at hstep
    · rename_i hworker
      cases hstep
      exact hs.listen hworker rfl (fun _ _ _ h => by cases h) (fun _ _ _ h => by cases h) rfl rfl id
    · rename_i hworker
      cases hstep
      exact hs.listen hworker rfl (fun _ _ _ h => by cases h) (fun _ _ _ h => by cases h) rfl rfl id
    · rename_i m rest hworker
      have hnext := handoffInv_enter asyncOk hs hworker
      rw [Option.some.inj hstep] at hnext
      exact hnext
    · cases hstep
  | wakeUp =>
    dsimp only at hstep
    split at hstep
    · cases hstep
      exact handoffInv_wakeUp hs
    · cases hstep
      exact handoffInv_wakeUp hs
    · cases hstep
  | recheck asyncOk =>
    have hturn := hs.turn
    unfold Turn at hturn
    dsimp only at hstep
    split at hstep
    · rename_i hworker
      rw [hworker] at hturn
      exact hturn.elim
    · rename_i m rest hworker
      rw [hworker] at hturn
      have hbefore : s.worker.told = false := by
        rw [hworker]
        rfl
      have hsame : ({ s with worker := .awaitingResult m rest false } : HandoffState) = s := by
        rw [← hworker]
      have hcustody : s.custody.Perm
          ({ s with worker := .awaitingResult m rest false } : HandoffState).custody := by
        rw [hsame]
      have hnext := handoffInv_awaitResult hs hbefore hturn.1 rfl hcustody
      rw [Option.some.inj hstep] at hnext
      exact hnext
    · cases hstep
  | afterHandOff =>
    dsimp only at hstep
    split at hstep
    · rename_i m rest consumed ok hworker
      have hnext := handoffInv_afterHandOff hs hworker
      cases ok with
      | true =>
        cases hstep
        exact hnext
      | false =>
        cases hstep
        exact hnext
    · cases hstep
  | freeList =>
    dsimp only at hstep
    split at hstep
    · rename_i rest hworker
      cases hstep
      exact handoffInv_freeList hs hworker
    · cases hstep
  | onAsync =>
    dsimp only at hstep
    split at hstep
    · rename_i hloop _
      cases hstep
      exact handoffInv_onAsync hs hloop
    · rename_i hloop _
      cases hstep
      exact handoffInv_onAsync hs hloop
    · cases hstep
  | process answers =>
    dsimp only at hstep
    split at hstep
    · rename_i m hloop
      have hnext := handoffInv_process answers hs hloop
      rw [Option.some.inj hstep] at hnext
      exact hnext
    · cases hstep
  | finish =>
    dsimp only at hstep
    split at hstep
    · rename_i ok hloop
      cases hstep
      exact handoffInv_finish hs hloop
    · cases hstep
  | beginClose =>
    dsimp only at hstep
    split at hstep
    · cases hstep
      exact handoffInv_beginClose hs
    · cases hstep
  | finishClose =>
    dsimp only at hstep
    split at hstep
    · rename_i hworker
      have hvacant : Vacant s :=
        vacant_of_turn hs.turn hworker (fun _ _ _ h => by cases h) (fun _ _ _ h => by cases h)
      have hnext := handoffInv_finishClose hs hvacant
      rw [Option.some.inj hstep] at hnext
      exact hnext
    · rename_i hworker
      have hvacant : Vacant s :=
        vacant_of_turn hs.turn hworker (fun _ _ _ h => by cases h) (fun _ _ _ h => by cases h)
      have hnext := handoffInv_finishClose hs hvacant
      rw [Option.some.inj hstep] at hnext
      exact hnext
    · cases hstep

theorem handoffInv_start (stream : JsStream) : HandoffInv [] (.start stream) := by
  refine ⟨⟨?_, .nil, .refl _, .refl _, .refl _, ?_⟩, ⟨?_, ?_, ?_⟩, ⟨rfl, rfl, rfl, rfl⟩⟩
  · exact fun m hm => absurd hm List.not_mem_nil
  · exact fun m hm => absurd hm List.not_mem_nil
  · exact fun m ok hm => absurd hm List.not_mem_nil
  · exact fun m ok hm => absurd hm List.not_mem_nil
  · exact fun m rest consumed ok h => by cases h

/-- In every run. -/
theorem handoffInv_collect (stream : JsStream) {actions : List HandoffAction} {c : List HandoffEvent}
    {s : HandoffState} (hrun : collect HandoffState.step actions (.start stream) = some (c, s)) :
    HandoffInv c s := by
  have hstep : ∀ c s a d s', HandoffInv c s → HandoffState.step a s = some (d, s') →
      HandoffInv (c ++ d) s' := fun c s a d s' => handoffInv_step
  exact collect_invariant hstep (handoffInv_start stream) hrun

end Monoblok.Nats
