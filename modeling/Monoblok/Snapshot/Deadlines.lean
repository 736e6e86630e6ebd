import Monoblok.Patchbay.Deadline
import Monoblok.Patchbay.Terminates
import Monoblok.Patchbay.TwoRuns
import Monoblok.Snapshot.Reachable

/-!
# Deadlines of reachable slots

The tick of a slot does something only if the slot is due, except on a time bar
whose window starts after the tick; and where it is due its deadline moves on, in
every reachable state.
-/

namespace Monoblok.Snapshot

open Patchbay Relational Number

variable {N W : Type} [Number N]

/-! ## Timers in order -/

theorem entryOk_restore (k : StateKey) (s : Saved N) : EntryOk (restore (freshEntry k) s) := by
  have hidle : ∀ {e : StateEntry N}, e.kind ≠ .clock → e.clockKind = .none → e.clockArmed = false →
      e.clockDeadlineMs = 0 → EntryOk e := fun hkind hclock harmed hdeadline =>
    ⟨fun _ => ⟨hclock, harmed, hdeadline⟩, fun h => absurd h hkind, fun h => absurd h hkind,
      fun h => absurd h hkind, fun h => absurd h hkind⟩
  cases s with
  | bar op high low count cap windowMs windowStartMs lastClose =>
    exact hidle (by simp [restore]) rfl rfl rfl
  | empty => exact hidle (by simp [restore]) rfl rfl rfl
  | bytes data => exact hidle (by simp [restore]) rfl rfl rfl
  | number n => exact hidle (by simp [restore]) rfl rfl rfl
  | countRing cap len sum values => exact hidle (by simp [restore]) rfl rfl rfl
  | timeRing windowMs samples => exact hidle (by simp [restore]) rfl rfl rfl

/-- The timers of every slot of a reachable machine are in order. -/
theorem Reachable.timersOk {rules : List (RuleSource N)} {usesClock : Bool} {m : Machine N W}
    (h : Reachable rules usesClock m) (j : ℕ) : AllSlots EntryOk (m.ruleState j) := by
  apply h.allSlots ?_ fun k s _ => entryOk_restore k s
  intro A memory
  constructor
  · exact entryOk_fresh
  · intro now α op f hform e hop he
    exact hform.entryOk memory hop he
  · exact fun now e he => entryOk_tickClock A now he
  · exact fun now e he => entryOk_tickWindow now he

/-! ## The tick of one slot -/

/-- The tick of the slot at a position, as the loop over the slots makes it. -/
def tickSlot (env : Env N W) (t : Moment) (ruleIdx : ℕ) (reentrant : Bool) (i : ℕ)
    (m : Machine N W) : Option (Bool × Machine N W) :=
  succeeds (tickStateEntry env.fuel
    (tickCtx env t ruleIdx reentrant (slotAt (m.ruleState ruleIdx) i).subject) i) m

theorem suppressed_tickEntry (A : EvalAlloc → Bool) (now : UInt64) (e : StateEntry N) :
    (tickEntry A now e).suppressed = false := by
  have haggregate : (tickAggregate A e).suppressed = false := by
    unfold tickAggregate
    split
    · rfl
    · split
      · rfl
      · split <;> rfl
  have hclock : (tickClock A now e).suppressed = false := by
    unfold tickClock
    split
    · rfl
    · split
      · rfl
      · rfl
      · rfl
      · rfl
      · exact haggregate
      · rfl
  rw [tickEntry]
  split
  · exact hclock
  · rfl

omit [Number N] in
theorem setState_self (m : Machine N W) (j : ℕ) : m.setState j (m.ruleState j) = m := by
  have hrules : m.program.rules.modify j (fun r => { r with state := m.ruleState j }) =
      m.program.rules := by
    apply List.ext_getElem?
    intro n
    rw [List.getElem?_modify]
    cases hn : m.program.rules[n]? with
    | none => rfl
    | some r =>
      by_cases hj : j = n
      · subst hj
        have hstate : m.ruleState j = r.state := by
          rw [Machine.ruleState, hn]
          rfl
        rw [hstate]
        simp
      · simp [hj]
  unfold Machine.setState Machine.modifyRule
  rw [hrules]

/-- A tick that fires nothing and closes nothing ends with the slot. -/
theorem tickSlot_of_quiet {env : Env N W} {t : Moment} {j i : ℕ} {reentrant : Bool}
    {m : Machine N W} {e : StateEntry N} (hslot : (m.ruleState j).items[i]? = some e)
    (hquiet : (tickEntry env.alloc t.nowMs e).result = .ok (.inl .nothing) ∨
      (tickEntry env.alloc t.nowMs e).result = .ok (.inr none)) :
    tickSlot env t j reentrant i m =
      some (true,
        m.setState j (setSlot (m.ruleState j) i (tickEntry env.alloc t.nowMs e).entry)) := by
  have hat := slotAt_of_getElem? hslot
  have hstep : stepAt (tickEntry env.alloc t.nowMs) i (m.ruleState j) =
      ((tickEntry env.alloc t.nowMs e).result,
        setSlot (m.ruleState j) i (tickEntry env.alloc t.nowMs e).entry) := by
    rw [stepAt, hat]
  have hrun : (tickStateEntry env.fuel (tickCtx env t j reentrant e.subject) i).run m =
      some (.ok .nil,
        m.setState j (setSlot (m.ruleState j) i (tickEntry env.alloc t.nowMs e).entry)) := by
    rw [run_tickStateEntry, run_evalBind, run_atSlot]
    change (some ((stepAt (tickEntry env.alloc t.nowMs) i (m.ruleState j)).1,
      m.stepped j (stepAt (tickEntry env.alloc t.nowMs) i (m.ruleState j)).2
        (tickEntry env.alloc t.nowMs (slotAt (m.ruleState j) i)).suppressed)).bind _ = _
    rw [hstep, hat, suppressed_tickEntry]
    rcases hquiet with hresult | hresult
    all_goals
      rw [hresult]
      rfl
  unfold tickSlot
  rw [hat]
  change ((tickStateEntry env.fuel (tickCtx env t j reentrant e.subject) i).run m).bind _ = _
  rw [hrun]
  rfl

/-- A tick that does nothing to the slot does nothing at all. -/
theorem tickSlot_of_idle {env : Env N W} {t : Moment} {j i : ℕ} {reentrant : Bool}
    {m : Machine N W} {e : StateEntry N} (hslot : (m.ruleState j).items[i]? = some e)
    (hidle : TickIdle env.alloc t.nowMs e) : tickSlot env t j reentrant i m = some (true, m) := by
  have hset : setSlot (m.ruleState j) i e = m.ruleState j := by
    obtain ⟨hlt, hget⟩ := List.getElem?_eq_some_iff.mp hslot
    have hitems : (m.ruleState j).items.set i e = (m.ruleState j).items := by
      rw [← hget]
      exact List.set_getElem_self hlt
    rw [setSlot, hitems]
  rw [tickSlot_of_quiet hslot hidle.2, hidle.1, hset, setState_self]

/-! ## Slots that have been ticked -/

variable {d now : UInt64} {j i : ℕ}

/-- The slot at a position, in use for its key, its timers in order and its
deadline later than the given one. -/
abbrev Ticked (d now : UInt64) (i : ℕ) (k : StateKey) (st : EvalState N) : Prop :=
  SlotHas (fun e => e.key = k ∧ EntryOk e ∧ Later d now e) i st

/-- The same machine, with a slot that has been ticked. -/
abbrev AfterTick (d now : UInt64) (j i : ℕ) (k : StateKey) : Machine N W → Machine N W → Prop :=
  Linked (fun p p' => p = p') (fun j' st st' => st = st' ∧ (j' = j → Ticked d now i k st))
    fun w w' => w = w'

theorem evalCompatible_afterTick {env : Env N W}
    (memory : ∀ site, env.alloc site = true) (hfits : WholeFits N now) (hd : d ≤ now) (k : StateKey) :
    EvalCompatible env (fun _ _ n => n = now) (AfterTick (N := N) (W := W) d now j i k) := by
  apply LinkOk.evalCompatible
  refine ⟨?_, ?_, ?_⟩
  · rintro p _ rfl j' -
    exact Iff.rfl
  · rintro j' s _ rfl α op f hform st _ ⟨rfl, hst⟩
    refine ⟨rfl, rfl, fun hj => (hst hj).slotStep env.alloc _ ?_⟩
    rintro e hop ⟨hkey, hok, hlater⟩
    exact ⟨(hform.key e).trans hkey, hform.entryOk memory hop hok,
      hform.later memory hfits hd hop hok hlater⟩
  · rintro subject payload w _ rfl
    exact ⟨rfl, rfl⟩

omit [Number N] in
theorem keepsSource_afterTick {k : StateKey} :
    KeepsSource (AfterTick (N := N) (W := W) d now j i k) :=
  fun h => sameSource_iff.mpr h.source

/-- The tick of a clock or a bar that is due leaves it with a later deadline, also
where what it sets off changes the slot once more. -/
theorem later_tickSlot {env : Env N W}
    (memory : ∀ site, env.alloc site = true) {t : Moment} (hfits : WholeFits N t.nowMs)
    (hd : d ≤ t.nowMs) {reentrant : Bool} {m m' : Machine N W} {e : StateEntry N}
    (hslot : (m.ruleState j).items[i]? = some e) (hok : EntryOk e)
    (hlater : Later d t.nowMs (tickEntry env.alloc t.nowMs e).entry) {ok : Bool}
    (hrun : tickSlot env t j reentrant i m = some (ok, m')) :
    Ticked d t.nowMs i e.key (m'.ruleState j) := by
  have hat := slotAt_of_getElem? hslot
  have hrespects := evalCompatible_afterTick (W := W) (j := j) (i := i) memory hfits hd e.key
  have hctx : CtxOk env (fun _ _ n => n = t.nowMs) (AfterTick d t.nowMs j i e.key)
      (tickCtx env t j reentrant (slotAt (m.ruleState j) i).subject) := by
    apply ctxOk_held hrespects t
    · intro _
      exact respects_evalPublishSlices hrespects t keepsSource_afterTick (fun _ _ => rfl) _
    · rfl
  have hmoved : Ticked d t.nowMs i e.key
      (setSlot (m.ruleState j) i (tickEntry env.alloc t.nowMs e).entry) := by
    refine ⟨_, List.getElem?_set_self (List.getElem?_eq_some_iff.mp hslot).1, ?_, ?_, hlater⟩
    · exact key_tickEntry env.alloc t.nowMs e
    · exact entryOk_tickEntry env.alloc t.nowMs hok
  have hafter : AfterTick d t.nowMs j i e.key m' m' := by
    apply tickSlot_self_of (tickCtx env t j reentrant (slotAt (m.ruleState j) i).subject) ?_
      (respects_finishTick hrespects hctx env.fuel
        (lends_of_states (fun h j' => (h.states j').1) _)) hrun
    intro x hx
    refine ⟨rfl, fun j' => ⟨rfl, ?_⟩, rfl⟩
    rintro rfl
    have hin : j' < m.program.rules.length := by
      by_contra hnot
      rw [ruleState_of_missing (by omega)] at hslot
      cases hslot
    rw [hx.states, if_pos ⟨rfl, hin⟩]
    change Ticked d t.nowMs i e.key (stepAt (tickEntry env.alloc t.nowMs) i (m.ruleState j')).2
    rw [stepAt, hat]
    exact hmoved
  exact (hafter.states j).2 rfl

/-- The tick of a slot that is due leaves it without a deadline or with a later
one. -/
theorem deadline_tickSlot (htext : TextFits N) {env : Env N W}
    (memory : ∀ site, env.alloc site = true) {t : Moment} (hfits : WholeFits N t.nowMs)
    (hd : d ≤ t.nowMs) {reentrant : Bool} {m m' : Machine N W} {e : StateEntry N}
    (hslot : (m.ruleState j).items[i]? = some e) (hok : EntryOk e) (hwrap : NoWrap t.nowMs e)
    (hrepeats : ¬StaysDue t.nowMs e) (hdeadline : entryDeadline e = some d) {ok : Bool}
    (hrun : tickSlot env t j reentrant i m = some (ok, m')) :
    SlotHas (fun e' => e'.key = e.key ∧ ∀ x, entryDeadline e' = some x → d < x) i
      (m'.ruleState j) := by
  have hmoved : Later d t.nowMs (tickEntry env.alloc t.nowMs e).entry →
      SlotHas (fun e' => e'.key = e.key ∧ ∀ x, entryDeadline e' = some x → d < x) i
        (m'.ruleState j) := by
    intro hlater
    obtain ⟨e', hslot', hkey, -, hlater'⟩ :=
      later_tickSlot memory hfits hd hslot hok hlater hrun
    exact ⟨e', hslot', hkey, hlater'.deadline⟩
  by_cases hclock : e.kind = .clock
  · apply hmoved
    rw [tickEntry, if_pos hclock]
    exact later_tickClock memory htext hclock hok hwrap hrepeats hdeadline hd
  by_cases hbar : e.kind = .bar
  · exact hmoved (later_tickBar env.alloc hbar hwrap hdeadline hd)
  by_cases hring : e.kind = .ring
  · rw [tickSlot_of_quiet hslot (.inr (result_tickRing env.alloc t.nowMs hring)),
      Option.some.injEq, Prod.mk.injEq] at hrun
    obtain ⟨-, rfl⟩ := hrun
    have hin : j < m.program.rules.length := by
      by_contra hnot
      rw [ruleState_of_missing (by omega)] at hslot
      cases hslot
    rw [ruleState_setState, if_pos ⟨rfl, hin⟩]
    refine ⟨_, List.getElem?_set_self (List.getElem?_eq_some_iff.mp hslot).1, ?_, ?_⟩
    · exact key_tickEntry env.alloc t.nowMs e
    · exact fun x hx => deadline_tickRing env.alloc hring hwrap hdeadline hd hx
  · rw [entryDeadline_none hring hbar hclock] at hdeadline
    cases hdeadline

/-! ## A clock that repeats after no time -/

/-- What is left of the tick of a clock that only publishes, where the rule is not
re-entrant. -/
def afterEmission (env : Env N W) (j : ℕ) (slot : StateKey) (m : Machine N W) :
    Except EvalError (Fired N ⊕ Option (StateEntry.BarClose N)) → Bool × Machine N W
  | .ok (.inl (.publish subject payload)) =>
    let s : Slice := .lent ⟨slot, .emitSubject, subject, subject⟩
    let p : Slice := .lent ⟨slot, .bytes, payload, payload⟩
    if publishSubjectValid (m.read env.rewritten s) = false then (false, m)
    else if routerTakes env s p m = false then (false, routed env s p m)
    else (true, countEmitted j (routed env s p m))
  | .ok _ => (true, m)
  | .error _ => (false, m)

omit [Number N] in
theorem ruleState_afterEmission (env : Env N W) (j : ℕ) (slot : StateKey) (m : Machine N W)
    (r : Except EvalError (Fired N ⊕ Option (StateEntry.BarClose N))) (j' : ℕ) :
    (afterEmission env j slot m r).2.ruleState j' = m.ruleState j' := by
  unfold afterEmission
  dsimp only
  split
  · split_ifs
    · rfl
    · rfl
    · exact ruleState_modifyRule _ j j' fun _ => rfl
  · rfl
  · rfl

omit [Number N] in
theorem source_afterEmission (env : Env N W) (j : ℕ) (slot : StateKey) (m : Machine N W)
    (r : Except EvalError (Fired N ⊕ Option (StateEntry.BarClose N))) :
    (afterEmission env j slot m r).2.program.source = m.program.source := by
  unfold afterEmission
  dsimp only
  split
  · split_ifs
    · rfl
    · rfl
    · exact source_modifyRule _ j fun _ => ⟨rfl, rfl, rfl⟩
  · rfl
  · rfl

/-- A sampling or aggregating clock fires nothing but a message. -/
theorem fired_of_repeats (A : EvalAlloc → Bool) (now : UInt64) {e : StateEntry N}
    (hkind : e.kind = .clock) (hrepeats : e.clockKind = .sample ∨ e.clockKind = .aggregate) :
    (∃ err, (tickEntry A now e).result = .error err) ∨
      (tickEntry A now e).result = .ok (.inl .nothing) ∨
        ∃ s p, (tickEntry A now e).result = .ok (.inl (.publish s p)) := by
  have haggregate : (∃ err, (tickAggregate A e).result = .error err) ∨
      (tickAggregate A e).result = .ok .nothing ∨
        ∃ s p, (tickAggregate A e).result = .ok (.publish s p) := by
    unfold tickAggregate
    split_ifs
    · exact .inr (.inl rfl)
    · split
      · exact .inl ⟨_, rfl⟩
      · split
        · exact .inl ⟨_, rfl⟩
        · exact .inr (.inr ⟨_, _, rfl⟩)
  have hclock : (∃ err, (tickClock A now e).result = .error err) ∨
      (tickClock A now e).result = .ok .nothing ∨
        ∃ s p, (tickClock A now e).result = .ok (.publish s p) := by
    unfold tickClock
    split_ifs
    · exact .inr (.inl rfl)
    · rcases hrepeats with hclock | hclock
      · rw [hclock]
        exact .inr (.inr ⟨_, _, rfl⟩)
      · rw [hclock]
        exact haggregate
  have hresult : (tickEntry A now e).result = (tickClock A now e).result.map .inl := by
    rw [tickEntry, if_pos hkind]
  rw [hresult]
  rcases hclock with ⟨err, h⟩ | h | ⟨s, p, h⟩
  · rw [h]
    exact .inl ⟨err, rfl⟩
  · rw [h]
    exact .inr (.inl rfl)
  · rw [h]
    exact .inr (.inr ⟨s, p, rfl⟩)

/-- The tick of a sampling or aggregating clock evaluates nothing. -/
theorem tickSlot_of_repeats (env : Env N W) (t : Moment) {j i : ℕ} {m : Machine N W}
    {e : StateEntry N} (hslot : (m.ruleState j).items[i]? = some e) (hkind : e.kind = .clock)
    (hrepeats : e.clockKind = .sample ∨ e.clockKind = .aggregate) :
    tickSlot env t j false i m = some (afterEmission env j e.key
      (m.setState j (setSlot (m.ruleState j) i (tickEntry env.alloc t.nowMs e).entry))
      (tickEntry env.alloc t.nowMs e).result) := by
  have hat := slotAt_of_getElem? hslot
  have hstep : stepAt (tickEntry env.alloc t.nowMs) i (m.ruleState j) =
      ((tickEntry env.alloc t.nowMs e).result,
        setSlot (m.ruleState j) i (tickEntry env.alloc t.nowMs e).entry) := by
    rw [stepAt, hat]
  unfold tickSlot
  rw [hat]
  change ((tickStateEntry env.fuel (tickCtx env t j false e.subject) i).run m).bind _ = _
  have hkey : (slotAt (m.ruleState (tickCtx env t j false e.subject).ruleId) i).key = e.key :=
    congrArg StateEntry.key hat
  rw [run_tickStateEntry, hkey, run_evalBind, run_atSlot]
  change ((some ((stepAt (tickEntry env.alloc t.nowMs) i (m.ruleState j)).1,
    m.stepped j (stepAt (tickEntry env.alloc t.nowMs) i (m.ruleState j)).2
      (tickEntry env.alloc t.nowMs (slotAt (m.ruleState j) i)).suppressed)).bind _).bind _ = _
  rw [hstep, hat, suppressed_tickEntry, Machine.stepped, if_neg Bool.false_ne_true]
  generalize m.setState j _ = m₁
  rcases fired_of_repeats env.alloc t.nowMs hkind hrepeats with ⟨err, hresult⟩ | hresult | ⟨s, p, hresult⟩
  · rw [hresult]
    rfl
  · rw [hresult]
    rfl
  · rw [hresult]
    have hpublish := run_publishCb env (evalPublishSlices env t (maxReentryDepth - 1)) j false
      (.lent ⟨e.key, .emitSubject, s, s⟩) (.lent ⟨e.key, .bytes, p, p⟩) m₁
    simp only [Bool.false_eq_true, if_false] at hpublish
    have hrun := run_finishTick_publish env.fuel (tickCtx env t j false e.subject) e.key s p m₁
    change ((finishTick env.fuel (tickCtx env t j false e.subject) e.key
      (.inl (.publish s p))).run m₁).bind _ = _
    rw [hrun]
    change ((publishCb env (evalPublishSlices env t (maxReentryDepth - 1)) j false _ _ m₁).bind
      _).bind _ = _
    rw [hpublish]
    unfold afterEmission
    dsimp only
    split_ifs <;> rfl

/-- Where it repeats after no time it is due as before. -/
theorem deadline_of_staysDue (A : EvalAlloc → Bool) {now : UInt64} {e : StateEntry N}
    (h : StaysDue now e) : entryDeadline (tickEntry A now e).entry = some e.clockDeadlineMs := by
  obtain ⟨hkind, htick⟩ := tickClock_entry A now h.kind
  have hentry : (tickEntry A now e).entry = (tickClock A now e).entry := by
    rw [tickEntry, if_pos h.kind]
  rw [hentry, entryDeadline_clock hkind]
  cases htick with
  | same htimers =>
    rw [StateEntry.timers, StateEntry.timers, Timers.mk.injEq] at htimers
    obtain ⟨-, -, -, -, -, -, harmed, -, hdeadline⟩ := htimers
    rw [harmed, hdeadline, if_pos h.armed]
  | disarmed _ hclock _ =>
    rcases h.repeats with hrepeats | hrepeats
    all_goals
      rw [hrepeats] at hclock
      simp at hclock
  | advanced _ _ htimers =>
    rw [StateEntry.timers, StateEntry.timers, Timers.mk.injEq] at htimers
    obtain ⟨-, -, -, -, -, -, harmed, -, hdeadline⟩ := htimers
    dsimp only at harmed
    rw [harmed, hdeadline, if_pos h.armed, h.interval, UInt64.add_zero]

/-- So it stays due however often it is ticked. -/
theorem staysDue_tick (A : EvalAlloc → Bool) {now d : UInt64} {e : StateEntry N}
    (h : StaysDue now e) (hd : e.clockDeadlineMs = d) : StaysDue now (tickEntry A d e).entry := by
  have hat : StaysDue d e := by
    refine ⟨?_, h.kind, h.repeats, h.armed, hd ▸ UInt64.le_refl _, h.interval⟩
    have hnow := h.now_lt
    have hle := UInt64.le_iff_toNat_le.mp (hd ▸ h.due)
    omega
  have hdeadline := deadline_of_staysDue A hat
  obtain ⟨hkind, htick⟩ := tickClock_entry A d h.kind
  have hentry : (tickEntry A d e).entry = (tickClock A d e).entry := by
    rw [tickEntry, if_pos h.kind]
  rw [hentry] at hdeadline ⊢
  have hfields : (tickClock A d e).entry.clockKind = e.clockKind ∧
      (tickClock A d e).entry.clockIntervalMs = e.clockIntervalMs := by
    cases htick with
    | same timers => exact ⟨congrArg Timers.clockKind timers, congrArg Timers.clockIntervalMs timers⟩
    | disarmed _ _ timers =>
      exact ⟨congrArg Timers.clockKind timers, congrArg Timers.clockIntervalMs timers⟩
    | advanced _ _ timers =>
      exact ⟨congrArg Timers.clockKind timers, congrArg Timers.clockIntervalMs timers⟩
  rw [entryDeadline_clock hkind] at hdeadline
  split_ifs at hdeadline with harmed
  exact ⟨h.now_lt, hkind, hfields.1 ▸ h.repeats, harmed, (Option.some.inj hdeadline) ▸ h.due,
    hfields.2.trans h.interval⟩

/-! ## Deadlines and ticks agree -/

/-- What is promised of the tick of a slot: it does something only if the slot is
due; and if it is, the slot is left without a deadline or with a later one, where
memory has not run out and nothing wraps, neither at the slot nor in what is evaluated. -/
structure DeadlineTickAgree (rules : List (RuleSource N)) (usesClock : Bool) (m : Machine N W)
    (t : Moment) (j i : ℕ) (e : StateEntry N) : Prop where
  acts : ∀ A, ¬TickIdle A t.nowMs e → Due t.nowMs e
  moves : Reachable rules usesClock m → NoWrap t.nowMs e → ∀ {d : UInt64},
    entryDeadline e = some d → d ≤ t.nowMs → ∀ (env : Env N W), AllMemory env.alloc →
      ∀ (reentrant : Bool),
        @tickSlot N W (saturate t.nowMs) env t j reentrant i m = tickSlot env t j reentrant i m →
          ∀ {ok : Bool} {m' : Machine N W}, tickSlot env t j reentrant i m = some (ok, m') →
            SlotHas (fun e' => e'.key = e.key ∧ ∀ x, entryDeadline e' = some x → d < x) i
              (m'.ruleState j)

/-- A tick that leaves the slot due. -/
theorem not_moves_of_staysDue {rules : List (RuleSource N)} {usesClock : Bool} {m : Machine N W}
    {t : Moment} {j i : ℕ} {e : StateEntry N} (hslot : (m.ruleState j).items[i]? = some e)
    (hreach : Reachable rules usesClock m) (h : StaysDue t.nowMs e) :
    ¬DeadlineTickAgree rules usesClock m t j i e := by
  intro hagree
  let env : Env N W := ⟨fun _ => true, fun _ => none, writtenOver, payloadDrawn, fun w _ _ => (w, true), 0⟩
  have hwrap : NoWrap t.nowMs e := by
    refine ⟨h.now_lt, fun hbar => ?_, fun _ => ?_⟩
    · rw [h.kind] at hbar
      cases hbar
    · rw [h.interval]
      exact e.clockDeadlineMs.toNat_lt
  have hdeadline : entryDeadline e = some e.clockDeadlineMs := by
    rw [entryDeadline_clock h.kind, if_pos h.armed]
  have hrun := tickSlot_of_repeats env t hslot h.kind h.repeats
  have htick : @tickEntry N (saturate t.nowMs) env.alloc t.nowMs e = tickEntry env.alloc t.nowMs e := by
    unfold tickEntry
    rw [if_pos h.kind, if_pos h.kind]
    rfl
  have hsaturate : @tickSlot N W (saturate t.nowMs) env t j false i m = tickSlot env t j false i m := by
    rw [hrun, ← htick]
    exact @tickSlot_of_repeats N W (saturate t.nowMs) env t j i m e hslot h.kind h.repeats
  have hstate := ruleState_afterEmission env j e.key
    (m.setState j (setSlot (m.ruleState j) i (tickEntry env.alloc t.nowMs e).entry))
    (tickEntry env.alloc t.nowMs e).result j
  generalize afterEmission env j e.key _ _ = after at hrun hstate
  obtain ⟨e', hslot', -, hlater⟩ := hagree.moves hreach hwrap hdeadline h.due env (fun _ => rfl) false
    hsaturate hrun
  have hin : j < m.program.rules.length := by
    by_contra hnot
    rw [ruleState_of_missing (by omega)] at hslot
    cases hslot
  rw [hstate, ruleState_setState, if_pos ⟨rfl, hin⟩] at hslot'
  have hticked : (setSlot (m.ruleState j) i (tickEntry env.alloc t.nowMs e).entry).items[i]? =
      some (tickEntry env.alloc t.nowMs e).entry :=
    List.getElem?_set_self (List.getElem?_eq_some_iff.mp hslot).1
  rw [hticked] at hslot'
  obtain rfl := Option.some.inj hslot'
  exact absurd (hlater _ (deadline_of_staysDue env.alloc h)) (UInt64.lt_irrefl _)

/-- After a message at five seconds, the bar over one second is open from then on. -/
theorem openBar_reached : ∃ (m : Machine ℤ Unit) (e : StateEntry ℤ),
    @Reachable ℤ Unit shortTexts [secondBar] true m ∧ (m.ruleState 0).items[0]? = some e ∧
      e.kind = .bar ∧ e.barTimeWindow = true ∧ e.barCount ≠ 0 ∧ e.barWindowStartMs = 5000 ∧
        e.barWindowMs = 1000 := by
  let env : Env ℤ Unit := ⟨fun _ => true, fun _ => none, writtenOver, payloadDrawn, fun w _ _ => (w, true), 9⟩
  let m₀ : Machine ℤ Unit := ⟨loadProgram [secondBar] true, ()⟩
  let isOpen (x : Bool × Machine ℤ Unit) : Bool :=
    match (x.2.ruleState 0).items[0]? with
    | none => false
    | some e => decide (e.kind = .bar ∧ e.barTimeWindow = true ∧ e.barCount ≠ 0 ∧
        e.barWindowStartMs = 5000 ∧ e.barWindowMs = 1000)
  have hrun : ((@evalPublish ℤ Unit shortTexts env ⟨5000, 0, false⟩ (lit "a") (lit "1") m₀).map
      isOpen) = some true := by
    decide +kernel
  obtain ⟨⟨ok, m⟩, hrun, hopen⟩ := Option.map_eq_some_iff.mp hrun
  cases hslot : (m.ruleState 0).items[0]? with
  | none =>
    simp [isOpen, hslot] at hopen
  | some e =>
    refine ⟨m, e, ?_, hslot, by simpa [isOpen, hslot] using hopen⟩
    exact @Reachable.publish ℤ Unit shortTexts [secondBar] true m₀ m env (fun _ => rfl)
      ⟨5000, 0, false⟩ (lit "a") (lit "1") ok (@Reachable.load ℤ Unit shortTexts _ _ ()) hrun

end Monoblok.Snapshot
