import Monoblok.Patchbay.Admitted

/-!
# Slots without a time

A slot has a deadline as the ring of a time window, as a bar of time or as an armed clock.
The operation it is looked up by tells whether a form may make one of it; the other forms
and the ticks leave slots without a time without one.
-/

namespace Monoblok.Patchbay

open Number Coinciding

variable {N W : Type}

/-! ## Operations -/

/-- The forms of windows. -/
def windowNames : List String := windowCalcOps ++ ["median", "percentile", "rate", "throttle"]

/-- The operations whose slots may come to have a deadline. -/
def timeOps : List Bytes := windowNames.map (fun op => lit op ++ lit "/m") ++ lit "bar/m" :: clockOps

theorem windowOp_timeOps {op : String} (hop : op ∈ windowNames) (w : Window) :
    windowOp op w ∈ timeOps ↔ w.timeWindow = true := by
  have hall : ∀ op ∈ windowNames, lit op ++ lit "/m" ∈ timeOps ∧ lit op ++ lit "/t" ∉ timeOps := by
    decide +kernel
  unfold windowOp
  cases w.timeWindow with
  | false => simpa using (hall op hop).2
  | true => simpa using (hall op hop).1

/-! ## Slots -/

structure Timeless (e : StateEntry N) : Prop where
  ring : e.kind = .ring → e.ringTimeWindow = false
  bar : e.kind = .bar → e.barTimeWindow = false
  clock : e.clockArmed = false

section Slots

variable [Number N] {A : EvalAlloc → Bool} {now : UInt64} {e : StateEntry N}

theorem timeless_fresh (k : StateKey) : Timeless (freshEntry k : StateEntry N) where
  ring h := by cases h
  bar h := by cases h
  clock := rfl

omit [Number N] in
theorem Timeless.deadline (h : Timeless e) : entryDeadline e = none := by
  have hring : ¬(e.kind = .ring ∧ e.ringTimeWindow = true ∧ 0 < e.ringLen) := by
    rintro ⟨hkind, htime, -⟩
    simp [h.ring hkind] at htime
  have hbar : ¬(e.kind = .bar ∧ e.barTimeWindow = true ∧ e.barCount ≠ 0) := by
    rintro ⟨hkind, htime, -⟩
    simp [h.bar hkind] at htime
  rw [entryDeadline, if_neg hring, if_neg hbar, if_neg (by simp [h.clock])]

theorem tickClock_timeless (h : Timeless e) : tickClock A now e = .done e .nothing := by
  simp [tickClock, h.clock]

theorem tickWindow_timeless (h : Timeless e) : tickWindow now e = .done e none := by
  have hring : ¬(e.kind = .ring ∧ e.ringTimeWindow = true ∧ 0 < e.ringLen) := by
    rintro ⟨hkind, htime, -⟩
    simp [h.ring hkind] at htime
  have hbar : e.kind ≠ .bar ∨ e.barTimeWindow = false ∨ e.barCount = 0 := by
    by_cases hkind : e.kind = .bar
    · exact .inr (.inl (h.bar hkind))
    · exact .inl hkind
  simp [tickWindow, hring, StateEntry.barTimeTick, if_pos hbar]

/-! ## Rings -/

/-- The ring of a slot has no time window. -/
def CountsOnly (e : StateEntry N) : Prop := e.kind = .ring → e.ringTimeWindow = false

omit [Number N] in
theorem countsOnly_setNumber (e : StateEntry N) (n : N) : CountsOnly (e.setNumber n) := by
  intro h
  cases h

omit [Number N] in
theorem CountsOnly.reserve {e' : StateEntry N} {cap : ℕ} {withTimes : Bool} (he : CountsOnly e)
    (h : e.ringReserve A cap withTimes = some e') : CountsOnly e' := by
  unfold StateEntry.ringReserve at h
  split_ifs at h
  all_goals
    cases h
    exact he

theorem CountsOnly.pushCount (he : CountsOnly e) (x : N) : CountsOnly (e.ringPushCount x) := by
  unfold StateEntry.ringPushCount
  split_ifs
  · exact he
  · exact he

omit [Number N] in
theorem countsOnly_windowSlot {w : Window} (hw : w.timeWindow = false) (he : CountsOnly e) :
    CountsOnly (windowSlot A w e).1 := by
  unfold windowSlot
  split
  · rw [hw]
    dsimp only
    split
    · exact fun _ => rfl
    · split
      · exact fun _ => rfl
      · rename_i hreserve
        exact CountsOnly.reserve (fun _ => rfl) hreserve
  · exact he

theorem countsOnly_windowStep {w : Window} (hw : w.timeWindow = false) (he : CountsOnly e) (x : N)
    (g : StateEntry N → Except EvalError (Value N)) : CountsOnly (windowStep A w now x g e).entry := by
  have hslot := countsOnly_windowSlot (A := A) hw he
  have hsample : CountsOnly (windowSample A w now x e).1 := by
    unfold windowSample
    generalize windowSlot A w e = r at hslot ⊢
    obtain ⟨e₁, ok⟩ := r
    cases ok with
    | false => exact hslot
    | true =>
      simp only [StateEntry.windowPush, hw, Bool.false_eq_true, if_false]
      split
      · exact hslot
      · rename_i e₂ hroom
        have hroom : CountsOnly e₂ := by
          split_ifs at hroom
          · exact hslot.reserve hroom
          · cases hroom
            exact hslot
        exact hroom.pushCount x
  unfold windowStep
  generalize windowSample A w now x e = r at hsample ⊢
  obtain ⟨e₁, ok⟩ := r
  cases ok with
  | false => exact hsample
  | true => exact hsample

theorem countsOnly_throttle {w : Window} (hw : w.timeWindow = false) (he : CountsOnly e) (max : N)
    (v : Value N) : CountsOnly (throttle A w now max v e).entry := by
  have hslot := countsOnly_windowSlot (A := A) hw he
  unfold throttle
  generalize windowSlot A w e = r at hslot ⊢
  obtain ⟨e₁, ok⟩ := r
  cases ok with
  | false => exact hslot
  | true =>
    simp only [hw, Bool.false_eq_true, if_false]
    exact hslot.pushCount _

theorem countsOnly_edge (rising cur : Bool) (he : CountsOnly e) :
    CountsOnly (edge rising cur e).entry := by
  unfold edge
  split
  · exact countsOnly_setNumber e _
  · exact countsOnly_setNumber e _
  · exact he

theorem countsOnly_statefulChanged (v : Value N) (boolMode : Bool) (he : CountsOnly e) :
    CountsOnly (statefulChanged A v boolMode e).entry := by
  unfold statefulChanged
  split
  · exact countsOnly_setNumber e _
  · split
    · exact he
    · split
      · split
        · exact he
        · rename_i hset
          unfold StateEntry.setBytes at hset
          split_ifs at hset
          cases hset
          intro h
          cases h
      · exact he

/-! ## Forms -/

theorem countsOnly_form {α : Type} {op : Bytes} {f : StateEntry N → SlotStep N α}
    (h : SlotForm A now op f) (hop : op ∉ timeOps) (he : CountsOnly e) :
    CountsOnly (f e).entry := by
  have hcount : ∀ {op : String} {w : Window}, op ∈ windowNames → windowOp op w ∉ timeOps →
      w.timeWindow = false := by
    intro op w hname hw
    simpa [windowOp_timeOps hname] using hw
  cases h with
  | squelch v => exact countsOnly_statefulChanged v false he
  | changed v => exact countsOnly_statefulChanged v true he
  | holdOff windowMs v =>
    unfold holdOff
    dsimp only
    split
    · exact countsOnly_setNumber e _
    · split_ifs
      · exact he
      · exact countsOnly_setNumber e _
    · exact he
  | risingEdge cur => exact countsOnly_edge true cur he
  | fallingEdge cur => exact countsOnly_edge false cur he
  | transition cur =>
    unfold levelChange
    split
    · exact countsOnly_setNumber e _
    · exact countsOnly_setNumber e _
    · exact he
  | deadband threshold x =>
    unfold deadband
    split_ifs
    · exact countsOnly_setNumber e _
    · exact he
  | delta x => exact countsOnly_setNumber e _
  | count => exact countsOnly_setNumber e _
  | windowCalc hname _ x what =>
    exact countsOnly_windowStep (hcount (List.mem_append_left _ hname) hop) he x _
  | percentile hname _ x p =>
    have hmem : ∀ op ∈ ["median", "percentile"], op ∈ windowNames := by decide
    exact countsOnly_windowStep (hcount (hmem _ hname) hop) he x _
  | rate _ => exact countsOnly_windowStep (hcount (by decide) hop) he _ _
  | throttle _ max v => exact countsOnly_throttle (hcount (by decide) hop) he max v
  | @bar args timeWindow count windowMs input hargs x =>
    rcases barSample_spec timeWindow count windowMs now x e with hsame | hstep
    · rwa [hsame]
    · intro hkind
      rw [hstep.kind] at hkind
      cases hkind
  | debounce | sample | aggregate | onSilence | dropout => exact absurd (by decide) hop

theorem timeless_form {α : Type} {op : Bytes} {f : StateEntry N → SlotStep N α}
    (h : SlotForm A now op f) (hop : op ∉ timeOps) (he : Timeless e) : Timeless (f e).entry := by
  have hring := countsOnly_form h hop he.ring
  rcases h.timed_or_untimed with htimed | ⟨-, huntimed⟩
  · cases htimed with
    | @bar args timeWindow count windowMs input hargs x =>
      cases timeWindow with
      | true => exact absurd (by decide) hop
      | false =>
        rcases barSample_spec false count windowMs now x e with hsame | hstep
        · rwa [hsame]
        · exact ⟨hring, fun _ => hstep.time, hstep.armed.trans he.clock⟩
    | debounce | sample | aggregate | onSilence | dropout => exact absurd (by decide) hop
  · obtain ⟨htimers, hkind⟩ := huntimed e
    have harmed : (f e).entry.clockArmed = e.clockArmed := congrArg Timers.clockArmed htimers
    have hbar : (f e).entry.barTimeWindow = e.barTimeWindow := congrArg Timers.barTimeWindow htimers
    refine ⟨hring, fun hbarKind => ?_, harmed.trans he.clock⟩
    rw [hbar]
    apply he.bar
    rcases hkind with hkind | hkind | hkind | ⟨-, hkind⟩
    · exact hkind.symm.trans hbarKind
    all_goals
      rw [hkind] at hbarKind
      cases hbarKind

end Slots

/-! ## Machines -/

section Machines

variable [Number N]

/-- A machine of a program whose slots are all without a time. -/
structure Untimely (p : Program N) (m : Machine N W) : Prop where
  source : m.program.source = p.source
  slots : ∀ j, AllSlots Timeless (m.ruleState j)

variable {p : Program N}

omit [Number N] in
theorem untimely_iff {m : Machine N W} :
    Untimely p m ↔ OfProgram p m.program.source ∧ ∀ j, AllSlots Timeless (m.ruleState j) :=
  ⟨fun h => ⟨h.source, h.slots⟩, fun h => ⟨h.1, h.2⟩⟩

/-- No form is stored: only slots with a time have some. -/
abbrev NoForms : List (Value N) → Prop := fun _ => False

theorem sameSlots_untimely (b : Bindings N) (publish publish' : Slice → Slice → MachineM N W Bool) :
    SameSlots (Untimely p) NoForms (· ∉ timeOps) b publish publish' where
  form hform hop hresult := by
    apply coincide_onSlot (fun m => untimely_iff) timeless_fresh
    · exact fun e he => timeless_form hform hop he
    · exact fun e _ => hresult e
  onSilence _ hbody := hbody.elim
  dropout _ hforms := hforms.elim
  suppressed := coincide_noteSuppressed (fun m => untimely_iff) b.ruleId

theorem sameSteps_untimely : SameSteps (W := W) (Untimely p) NoForms p where
  source hm := hm.source
  world _ hm := ⟨hm.source, hm.slots⟩
  emitted i hm :=
    holds_modifyRule (fun m => untimely_iff) hm i (fun _ => ⟨rfl, rfl, rfl⟩) fun _ => rfl
  tickClock A now i j := by
    apply coincide_atSlot (fun m => untimely_iff) timeless_fresh
    · intro e he
      rwa [tickClock_timeless he]
    · intro e he fired hfired
      rw [tickClock_timeless he] at hfired
      cases hfired
      trivial
  tickWindow now i j := by
    apply coincide_atSlot (fun m => untimely_iff) timeless_fresh
    · intro e he
      rwa [tickWindow_timeless he]
    · exact fun _ _ _ _ => trivial

end Machines

end Monoblok.Patchbay
