import Monoblok.Nats.Handoff

/-!
# The hand-off ends

The stream can be closed in any state: the callback finishes what it has begun,
and the worker, which the close has woken, ends without it. Then nobody holds a
message any more.
-/

namespace Monoblok.Nats

open Trace

/-! ## The end of a run -/

/-- The close knows what it waits for. -/
structure CloseOk (s : HandoffState) : Prop where
  closing : s.close ≠ .opened → s.stream.closing = true
  closed : s.close = .closed → s.worker = .unstarted ∨ s.worker = .ended

/-- A step that neither closes nor opens, and leaves a worker alone that has
ended. -/
theorem CloseOk.kept {s s' : HandoffState} (hs : CloseOk s) (hclose : s'.close = s.close)
    (hclosing : s'.stream.closing = s.stream.closing)
    (hworker : s.worker = .unstarted ∨ s.worker = .ended → s'.worker = s.worker) : CloseOk s' := by
  constructor
  · intro hne
    rw [hclosing]
    exact hs.closing (hclose ▸ hne)
  · intro hclosed
    have hended := hs.closed (hclose.symm.trans hclosed)
    rw [hworker hended]
    exact hended

/-- A step of a worker that has not ended. -/
theorem CloseOk.busy {s s' : HandoffState} {point : WorkerPoint} (hs : CloseOk s)
    (hworker : s.worker = point) (hstarted : point ≠ .unstarted) (hgoing : point ≠ .ended)
    (hclose : s'.close = s.close) (hclosing : s'.stream.closing = s.stream.closing) : CloseOk s' := by
  apply hs.kept hclose hclosing
  rintro (hnot | hnot)
  · exact absurd (hworker.symm.trans hnot) hstarted
  · exact absurd (hworker.symm.trans hnot) hgoing

theorem closing_awaitResult (s : HandoffState) (m : MsgRef) (rest : List (Option MsgRef)) :
    (s.awaitResult m rest).2.close = s.close ∧
      (s.awaitResult m rest).2.stream.closing = s.stream.closing := by
  unfold HandoffState.awaitResult
  split_ifs <;> exact ⟨rfl, rfl⟩

theorem closing_enter (asyncOk : Bool) (s : HandoffState) (m : MsgRef) (rest : List (Option MsgRef)) :
    (s.enter asyncOk m rest).2.close = s.close ∧
      (s.enter asyncOk m rest).2.stream.closing = s.stream.closing := by
  unfold HandoffState.enter
  split_ifs
  · exact ⟨rfl, rfl⟩
  · exact ⟨rfl, rfl⟩
  · exact ⟨rfl, rfl⟩
  · exact closing_awaitResult { s with stream := s.stream.post m } m rest

theorem closing_fetch (result : FetchResult) (s : HandoffState) :
    (s.fetch result).2.close = s.close ∧
      (s.fetch result).2.stream.closing = s.stream.closing := by
  cases result <;> exact ⟨rfl, rfl⟩

theorem broadcast_of_ended {w : WorkerPoint} (h : w = .unstarted ∨ w = .ended) :
    w.broadcast = w := by
  rcases h with rfl | rfl
  · rfl
  · rfl

theorem closeOk_step {s s' : HandoffState} {a : HandoffAction} {d : List HandoffEvent}
    (hs : CloseOk s) (hstep : HandoffState.step a s = some (d, s')) : CloseOk s' := by
  unfold HandoffState.step at hstep
  cases a with
  | startLive =>
    dsimp only at hstep
    split at hstep
    · rename_i _ hopened
      cases hstep
      exact ⟨hs.closing, fun hclosed => absurd (hopened.symm.trans hclosed) (fun h => by cases h)⟩
    · cases hstep
  | checkClosing =>
    dsimp only at hstep
    split at hstep
    · rename_i hworker
      cases hstep
      exact hs.busy hworker (fun h => by cases h) (fun h => by cases h) rfl rfl
    · cases hstep
  | fetch result =>
    dsimp only at hstep
    split at hstep
    · rename_i hworker
      obtain ⟨hclose, hclosing⟩ := closing_fetch result s
      rw [Option.some.inj hstep] at hclose hclosing
      exact hs.busy hworker (fun h => by cases h) (fun h => by cases h) hclose hclosing
    · cases hstep
  | handOff asyncOk =>
    dsimp only at hstep
    split at hstep
    · rename_i hworker
      cases hstep
      exact hs.busy hworker (fun h => by cases h) (fun h => by cases h) rfl rfl
    · rename_i hworker
      cases hstep
      exact hs.busy hworker (fun h => by cases h) (fun h => by cases h) rfl rfl
    · rename_i m rest hworker
      obtain ⟨hclose, hclosing⟩ := closing_enter asyncOk s m rest
      rw [Option.some.inj hstep] at hclose hclosing
      exact hs.busy hworker (fun h => by cases h) (fun h => by cases h) hclose hclosing
    · cases hstep
  | wakeUp =>
    dsimp only at hstep
    split at hstep
    · cases hstep
      exact hs.kept rfl rfl broadcast_of_ended
    · cases hstep
      exact hs.kept rfl rfl broadcast_of_ended
    · cases hstep
  | recheck asyncOk =>
    dsimp only at hstep
    split at hstep
    · rename_i m rest hworker
      obtain ⟨hclose, hclosing⟩ := closing_enter asyncOk s m rest
      rw [Option.some.inj hstep] at hclose hclosing
      exact hs.busy hworker (fun h => by cases h) (fun h => by cases h) hclose hclosing
    · rename_i m rest hworker
      obtain ⟨hclose, hclosing⟩ := closing_awaitResult s m rest
      rw [Option.some.inj hstep] at hclose hclosing
      exact hs.busy hworker (fun h => by cases h) (fun h => by cases h) hclose hclosing
    · cases hstep
  | afterHandOff =>
    dsimp only at hstep
    split at hstep
    · rename_i m rest consumed ok hworker
      split_ifs at hstep with hok
      · cases hstep
        exact hs.busy hworker (fun h => by cases h) (fun h => by cases h) rfl rfl
      · cases hstep
        exact hs.busy hworker (fun h => by cases h) (fun h => by cases h) rfl rfl
      · cases hstep
        exact hs.busy hworker (fun h => by cases h) (fun h => by cases h) rfl rfl
    · cases hstep
  | freeList =>
    dsimp only at hstep
    split at hstep
    · rename_i rest hworker
      cases hstep
      exact hs.busy hworker (fun h => by cases h) (fun h => by cases h) rfl rfl
    · cases hstep
  | onAsync =>
    have hkept : CloseOk s.onAsync := by
      unfold HandoffState.onAsync
      split
      · exact hs
      · exact hs.kept rfl rfl (fun _ => rfl)
    dsimp only at hstep
    split at hstep
    · cases hstep
      exact hkept
    · cases hstep
      exact hkept
    · cases hstep
  | process answers =>
    dsimp only at hstep
    split at hstep
    · rename_i m hloop
      have hflags := (processing_processMsg answers m s.stream).2
      have hkept : CloseOk (s.process answers m).2 := hs.kept rfl hflags.closing (fun _ => rfl)
      rw [Option.some.inj hstep] at hkept
      exact hkept
    · cases hstep
  | finish =>
    dsimp only at hstep
    split at hstep
    · cases hstep
      exact hs.kept rfl rfl broadcast_of_ended
    · cases hstep
  | beginClose =>
    dsimp only at hstep
    split at hstep
    · cases hstep
      exact ⟨fun _ => rfl, fun h => by cases h⟩
    · cases hstep
  | finishClose =>
    dsimp only at hstep
    split at hstep
    · rename_i hjoining hworker
      cases hstep
      exact ⟨fun _ => hs.closing (fun h => by rw [hjoining] at h; cases h), fun _ => .inl hworker⟩
    · rename_i hjoining hworker
      cases hstep
      exact ⟨fun _ => hs.closing (fun h => by rw [hjoining] at h; cases h), fun _ => .inr hworker⟩
    · cases hstep

theorem closeOk_collect (stream : JsStream) {actions : List HandoffAction} {c : List HandoffEvent}
    {s : HandoffState} (hrun : collect HandoffState.step actions (.start stream) = some (c, s)) :
    CloseOk s := by
  have hstep : ∀ (c : List HandoffEvent) s a d s', CloseOk s →
      HandoffState.step a s = some (d, s') → CloseOk s' := fun _ s a d s' => closeOk_step
  have hstart : CloseOk (.start stream) := ⟨fun h => absurd rfl h, fun h => by cases h⟩
  exact @collect_invariant _ _ _ _ (fun _ => CloseOk) hstep actions _ _ [] c hstart hrun

/-- Both threads are done. -/
structure HandoffState.Over (s : HandoffState) : Prop where
  worker : s.worker = .unstarted ∨ s.worker = .ended
  loop : s.loop = .idle
  close : s.close = .closed

theorem custody_of_over {c : List HandoffEvent} {s : HandoffState} (hs : HandoffInv c s)
    (hover : s.Over) : s.custody = [] := by
  have hvacant : Vacant s := by
    rcases hover.worker with hworker | hworker
    · exact vacant_of_turn hs.turn hworker (fun _ _ _ h => by cases h) (fun _ _ _ h => by cases h)
    · exact vacant_of_turn hs.turn hworker (fun _ _ _ h => by cases h) (fun _ _ _ h => by cases h)
  unfold HandoffState.custody
  rw [hvacant.pendingMsg, hvacant.loop]
  rcases hover.worker with hworker | hworker
  · rw [hworker]
    rfl
  · rw [hworker]
    rfl

/-- A worker that finds the stream closing ends, by itself. -/
structure WindsDown (s : HandoffState) : Prop where
  closing : s.stream.closing = true
  loop : s.loop = .idle
  close : s.close = .joining

def JoinOver (s : HandoffState) : Prop :=
  (s.worker = .unstarted ∨ s.worker = .ended) ∧ s.loop = .idle ∧ s.close = .joining

theorem canReach_checking {s : HandoffState} (hs : WindsDown s) (hworker : s.worker = .checking) :
    CanReach HandoffState.step JoinOver s := by
  have hstep : HandoffState.step .checkClosing s = some ([], { s with worker := .ended }) := by
    unfold HandoffState.step
    dsimp only
    rw [hworker, hs.closing]
    rfl
  exact .after .checkClosing hstep (.here ⟨.inr rfl, hs.loop, hs.close⟩)

theorem canReach_freeing {s : HandoffState} {rest : List (Option MsgRef)} (hs : WindsDown s)
    (hworker : s.worker = .freeing rest) : CanReach HandoffState.step JoinOver s := by
  have hstep : HandoffState.step .freeList s =
      some ((rest.filterMap id).map .destroyed, { s with worker := .checking }) := by
    unfold HandoffState.step
    dsimp only
    rw [hworker]
  exact .after .freeList hstep (canReach_checking ⟨hs.closing, hs.loop, hs.close⟩ rfl)

theorem canReach_refused {s : HandoffState} {m : MsgRef} {rest : List (Option MsgRef)}
    {consumed : Bool} (hs : WindsDown s) (hworker : s.worker = .returned m rest consumed false) :
    CanReach HandoffState.step JoinOver s := by
  have hstep : HandoffState.step .afterHandOff s =
      some (if consumed then [] else [.destroyed m], { s with worker := .freeing rest }) := by
    unfold HandoffState.step
    dsimp only
    rw [hworker]
    rfl
  exact .after .afterHandOff hstep (canReach_freeing ⟨hs.closing, hs.loop, hs.close⟩ rfl)

/-- No further message is handed over. -/
theorem canReach_listing {s : HandoffState} {rest : List (Option MsgRef)} (hs : WindsDown s)
    (hworker : s.worker = .listing rest) : CanReach HandoffState.step JoinOver s := by
  induction rest generalizing s with
  | nil =>
    have hstep : HandoffState.step (.handOff true) s = some ([], { s with worker := .freeing [] }) := by
      unfold HandoffState.step
      dsimp only
      rw [hworker]
    exact .after (.handOff true) hstep (canReach_freeing ⟨hs.closing, hs.loop, hs.close⟩ rfl)
  | cons entry rest ih =>
    cases entry with
    | none =>
      have hstep : HandoffState.step (.handOff true) s =
          some ([], { s with worker := .listing rest }) := by
        unfold HandoffState.step
        dsimp only
        rw [hworker]
      exact .after (.handOff true) hstep (ih ⟨hs.closing, hs.loop, hs.close⟩ rfl)
    | some m =>
      have hstep : HandoffState.step (.handOff true) s = some (s.report m rest false false) := by
        unfold HandoffState.step HandoffState.enter
        dsimp only
        rw [hworker, hs.closing]
        rfl
      exact .after (.handOff true) hstep (canReach_refused ⟨hs.closing, hs.loop, hs.close⟩ rfl)

/-- The worker never waits in vain. -/
theorem canReach_joinOver {c : List HandoffEvent} {s : HandoffState} (hinv : HandoffInv c s)
    (hs : WindsDown s) : CanReach HandoffState.step JoinOver s := by
  have hturn := hinv.turn
  unfold Turn at hturn
  cases hworker : s.worker with
  | unstarted => exact .here ⟨.inl hworker, hs.loop, hs.close⟩
  | checking => exact canReach_checking hs hworker
  | fetching =>
    have hstep : HandoffState.step (.fetch .timeout) s =
        some ([], { s with worker := .checking }) := by
      unfold HandoffState.step
      dsimp only
      rw [hworker]
      rfl
    exact .after _ hstep (canReach_checking ⟨hs.closing, hs.loop, hs.close⟩ rfl)
  | listing rest => exact canReach_listing hs hworker
  | awaitingRoom m rest asleep =>
    rw [hworker] at hturn
    exact hturn.elim
  | awaitingResult m rest asleep =>
    rw [hworker] at hturn
    obtain ⟨hhanded, hsleep⟩ := hturn
    rw [hs.loop] at hhanded
    -- the broadcast of the close or that of the callback has woken it
    have hawake : asleep = false := by
      by_contra hasleep
      obtain ⟨hwaiting, hquiet⟩ := hsleep (Bool.eq_true_of_not_eq_false hasleep)
      cases hhanded with
      | posted _ hready _ _ =>
        rw [hquiet hs.closing] at hready
        cases hready
      | done _ _ _ hfinished _ =>
        rw [hwaiting] at hfinished
        cases hfinished
    subst hawake
    have hstep : HandoffState.step (.recheck true) s = some (s.awaitResult m rest) := by
      unfold HandoffState.step
      dsimp only
      rw [hworker]
    cases hhanded with
    | posted hmsg hready hidle hwaiting =>
      have hreclaim : s.awaitResult m rest =
          { s with stream := s.stream.reclaim }.report m rest false false := by
        unfold HandoffState.awaitResult
        rw [hwaiting, hs.closing, hready, hmsg, hidle]
        simp
      rw [hreclaim] at hstep
      exact .after _ hstep (canReach_refused ⟨hs.closing, hs.loop, hs.close⟩ rfl)
    | done hmsg hready hidle hfinished hresult =>
      have hresult : s.awaitResult m rest = s.report m rest true s.stream.pendingOk := by
        unfold HandoffState.awaitResult
        rw [if_pos hfinished]
      rw [hresult] at hstep
      cases hok : s.stream.pendingOk with
      | false =>
        rw [hok] at hstep
        exact .after _ hstep (canReach_refused ⟨hs.closing, hs.loop, hs.close⟩ rfl)
      | true =>
        rw [hok] at hstep
        have hnext : HandoffState.step .afterHandOff (s.report m rest true true).2 =
            some ([], { s with worker := .listing rest }) := rfl
        exact .after _ hstep
          (.after _ hnext (canReach_listing ⟨hs.closing, hs.loop, hs.close⟩ rfl))
  | returned m rest consumed ok =>
    cases ok with
    | false => exact canReach_refused hs hworker
    | true =>
      have hstep : HandoffState.step .afterHandOff s =
          some ([], { s with worker := .listing rest }) := by
        unfold HandoffState.step
        dsimp only
        rw [hworker]
        rfl
      exact .after _ hstep (canReach_listing ⟨hs.closing, hs.loop, hs.close⟩ rfl)
  | freeing rest => exact canReach_freeing hs hworker
  | ended => exact .here ⟨.inr hworker, hs.loop, hs.close⟩

/-- The callback can always finish its message. -/
theorem canReach_idle (s : HandoffState) : CanReach HandoffState.step (fun s' => s'.loop = .idle) s := by
  have hfinish : ∀ (s : HandoffState) ok, s.loop = .finishing ok →
      CanReach HandoffState.step (fun s' => s'.loop = .idle) s := by
    intro s ok hloop
    have hstep : HandoffState.step .finish s = some ([], s.finish ok) := by
      unfold HandoffState.step
      dsimp only
      rw [hloop]
    exact .after .finish hstep (.here rfl)
  cases hloop : s.loop with
  | idle => exact .here hloop
  | processing m =>
    have hstep : HandoffState.step (.process ⟨true, 0⟩) s = some (s.process ⟨true, 0⟩ m) := by
      unfold HandoffState.step
      dsimp only
      rw [hloop]
    exact .after _ hstep (hfinish _ _ rfl)
  | finishing ok => exact hfinish s ok hloop

/-- Every run can be brought to an end: the callback finishes, the close begins, and
the worker ends while the loop waits for it. -/
theorem canReach_over {c : List HandoffEvent} {s : HandoffState} (hinv : HandoffInv c s)
    (hclose : CloseOk s) : CanReach HandoffState.step HandoffState.Over s := by
  have hkept : ∀ {c : List HandoffEvent} {s : HandoffState} {actions d s'},
      HandoffInv c s ∧ CloseOk s → collect HandoffState.step actions s = some (d, s') →
        HandoffInv (c ++ d) s' ∧ CloseOk s' := by
    intro c s actions d s' hs hrun
    have hstep : ∀ c s a d s', HandoffInv c s ∧ CloseOk s → HandoffState.step a s = some (d, s') →
        HandoffInv (c ++ d) s' ∧ CloseOk s' :=
      fun c s a d s' h hstep => ⟨handoffInv_step h.1 hstep, closeOk_step h.2 hstep⟩
    exact collect_invariant hstep hs hrun
  -- while the loop waits in the join
  have hjoin : ∀ {c : List HandoffEvent} {s : HandoffState}, HandoffInv c s ∧ CloseOk s →
      s.loop = .idle → s.close = .joining → CanReach HandoffState.step HandoffState.Over s := by
    intro c s hs hloop hjoining
    have hclosing : s.stream.closing = true :=
      hs.2.closing (fun h => by rw [hjoining] at h; cases h)
    apply (canReach_joinOver hs.1 ⟨hclosing, hloop, hjoining⟩).trans
    intro actions d s' hrun hover
    obtain ⟨hworker, hloop, hjoining⟩ := hover
    have hstep : HandoffState.step .finishClose s' = some s'.finishClose := by
      unfold HandoffState.step
      dsimp only
      rw [hjoining]
      rcases hworker with hworker | hworker
      · rw [hworker]
      · rw [hworker]
    exact .after .finishClose hstep (.here ⟨hworker, hloop, rfl⟩)
  apply (canReach_idle s).trans
  intro actions d s' hrun hloop
  have hs' := hkept ⟨hinv, hclose⟩ hrun
  cases hclose : s'.close with
  | opened =>
    have hstep : HandoffState.step .beginClose s' = some ([], s'.beginClose) := by
      unfold HandoffState.step
      dsimp only
      rw [hclose]
    apply CanReach.after .beginClose hstep
    exact hjoin ⟨handoffInv_step hs'.1 hstep, closeOk_step hs'.2 hstep⟩ hloop rfl
  | joining => exact hjoin hs' hloop hclose
  | closed => exact .here ⟨hs'.2.closed hclose, hloop, hclose⟩

/-! ## Exactly once -/

/-- What became of the messages, with the state it left. -/
structure ExactlyOnce (c : List HandoffEvent) (s : HandoffState) : Prop where
  fetched : (fetchedOf c).Nodup
  /-- A message is destroyed once, as soon as nobody holds it. -/
  destroyed : (fetchedOf c).Perm (destroyedOf c ++ s.custody)
  unheld : s.Over → s.custody = []
  ends : CanReach HandoffState.step HandoffState.Over s
  processed : (processedMsgs c).Nodup ∧ processedMsgs c ⊆ fetchedOf c
  unconsumed : ∀ m ok, .reported m false ok ∈ c → m ∉ processedMsgs c
  /-- The result is that of the message. -/
  consumed : ∀ m ok, .reported m true ok ∈ c → .processed m ok ∈ c
  handled : (handledOf c).Nodup
  acked : ∀ m, .acked m ∈ c →
    ∃ subject payload nowMs wallMs, .handled m subject payload nowMs wallMs true ∈ c

/-- Whatever turns the worker, the callback and the close take. -/
theorem handOff_exactly_once (stream : JsStream) (actions : List HandoffAction)
    (c : List HandoffEvent) (s : HandoffState)
    (hrun : collect HandoffState.step actions (.start stream) = some (c, s)) : ExactlyOnce c s := by
  have hinv := handoffInv_collect stream hrun
  have hbooks := hinv.books
  have hnodup : (destroyedOf c).Nodup :=
    (List.nodup_append.mp (hbooks.custody.nodup_iff.mp hbooks.nodup)).1
  have hprocessed : (processedMsgs c).Nodup := hbooks.processed.nodup hnodup
  constructor
  · exact hbooks.nodup
  · exact hbooks.custody
  · exact custody_of_over hinv
  · exact canReach_over hinv (closeOk_collect stream hrun)
  · refine ⟨hprocessed, fun m hm => ?_⟩
    exact hbooks.custody.mem_iff.mpr (List.mem_append_left _ (hbooks.processed.subset hm))
  · intro m ok hm
    exact (hinv.reports.unconsumed m ok hm).1
  · exact hinv.reports.consumed
  · exact hbooks.handled.nodup hprocessed
  · exact hbooks.acked

/-- The stream closes after the first message, with the second one left for the loop. -/
def closedInBetween : List HandoffAction :=
  let first : NatsMsg :=
    ⟨.inr ⟨1700000000000000000, 7, 1⟩, some (lit "raw.one"), some (lit "1"), 1,
      fun _ h => by cases h; rfl⟩
  let second : NatsMsg :=
    ⟨.inr ⟨1700000000000000000, 8, 1⟩, some (lit "raw.two"), none, 0, fun _ h => by cases h⟩
  [.startLive, .checkClosing, .fetch (.messages [some first, none, some second]), .handOff true,
    .onAsync, .process ⟨true, 0⟩, .finish, .recheck true, .afterHandOff, .handOff true, .handOff true,
    .beginClose, .recheck true, .afterHandOff, .freeList, .checkClosing, .finishClose]

/-- A stream without a past. -/
def freshStream : JsStream :=
  ⟨none, false, false, false, false, false, 0, 0, 0, 0, 0, 0, 0, 0, 0⟩

theorem closedInBetween_once : ∃ c s,
    collect HandoffState.step closedInBetween (.start freshStream) = some (c, s) ∧
      (destroyedOf c).map MsgRef.address = [0, 1] ∧ (processedMsgs c).map MsgRef.address = [0] ∧
        ExactlyOnce c s := by
  have hrun : (collect HandoffState.step closedInBetween (.start freshStream)).map
      (fun x => ((destroyedOf x.1).map MsgRef.address, (processedMsgs x.1).map MsgRef.address)) =
      some ([0, 1], [0]) := by
    decide +kernel
  obtain ⟨⟨c, s⟩, hrun, hseen⟩ := Option.map_eq_some_iff.mp hrun
  obtain ⟨hdestroyed, hprocessed⟩ := Prod.mk.inj hseen
  exact ⟨c, s, hrun, hdestroyed, hprocessed,
    handOff_exactly_once freshStream closedInBetween c s hrun⟩

end Monoblok.Nats
