import Monoblok.Patchbay.Extended
import Monoblok.Patchbay.Schedule
import Monoblok.Patchbay.Terminates
import Monoblok.Snapshot.Deadlines

/-!
# Catching up

`pb_program_tick_until` makes the ticks that were missed, each at the next
deadline. The tick at a deadline leaves every later deadline past it, so the
deadlines go up to the given time and the loop ends.
-/

namespace Monoblok.Snapshot

open Patchbay Relational Number Fuel Filter

variable {N W : Type} [Number N]

/-! ## Slots of reachable machines -/

theorem slotOk_restore (k : StateKey) (s : Saved N) : SlotOk (restore (freshEntry k) s) := by
  have hother : ∀ {e : StateEntry N}, EntryOk e → e.kind ≠ .empty → e.kind ≠ .ring → SlotOk e :=
    fun hok hempty hring =>
      ⟨hok, ⟨fun h => absurd h hempty, fun h => absurd h hring⟩, fun h => absurd h hempty⟩
  have hok := entryOk_restore k s
  cases s with
  | empty => exact ⟨hok, ringFrom_fresh 0 k, fun _ => rfl⟩
  | bytes data => exact hother hok (by simp [restore]) (by simp [restore])
  | number n => exact hother hok (by simp [restore]) (by simp [restore])
  | bar op high low count cap windowMs windowStartMs lastClose =>
    exact hother hok (by simp [restore]) (by simp [restore])
  | countRing cap len sum values =>
    exact ⟨hok, ringFrom_counts rfl rfl, fun h => by cases h⟩
  | timeRing windowMs samples =>
    refine ⟨hok, ringFrom_times rfl ⟨⟨le_rfl, fun hcap => ?_⟩, fun _ => Nat.zero_le _⟩,
      fun h => by cases h⟩
    exact Nat.pos_of_ne_zero hcap

theorem Reachable.slotsOk {rules : List (RuleSource N)} {usesClock : Bool}
    {m : Machine N W} (h : Reachable rules usesClock m) (j : ℕ) :
    AllSlots SlotOk (m.ruleState j) := by
  apply h.allSlots ?_ fun k s _ => slotOk_restore k s
  intro A memory
  constructor
  · exact slotOk_fresh
  · intro now α op f hform e hop he
    exact hform.slotOk memory hop he
  · exact fun now e he => slotOk_tickClock A now he
  · exact fun now e he => slotOk_tickWindow now he

/-! ## The state during a tick -/

variable {d latest : UInt64} {past born : ℕ → ℕ → Prop} {p : Program N}

/-- What holds of the slot at a position during the tick at `d`: those that the
tick is past have later deadlines, and those that came up in it have started. -/
structure InTick (d latest : UInt64) (past born : Prop) (e : StateEntry N) : Prop where
  pending : OnTime d.toNat latest e
  past : past → OnTime (d.toNat + 1) latest e
  born : born → Patchbay.Started d e

/-- The same machine, of the given source, during a tick. -/
abbrev Ticking (p : Program N) (d latest : UInt64) (past born : ℕ → ℕ → Prop) :
    Machine N W → Machine N W → Prop :=
  Linked (fun q q' => q = q' ∧ q = p)
    (fun j st st' => st = st' ∧ SlotsAt (fun i => InTick d latest (past j i) (born j i)) st)
    fun w w' => w = w'

theorem evalCompatible_ticking {env : Env N W} (memory : AllMemory env.alloc)
    (hfits : WholeFits N latest) (hle : d ≤ latest) :
    EvalCompatible env (fun _ _ n => n = d)
      (Ticking (N := N) (W := W) p d latest past born) := by
  apply LinkOk.evalCompatible
  refine ⟨?_, ?_, ?_⟩
  · rintro q _ ⟨rfl, -⟩ j -
    exact Iff.rfl
  · rintro j s _ rfl α op f hform st _ ⟨rfl, hst⟩
    refine ⟨rfl, rfl, hst.slotStep env.alloc _ ?_ ?_⟩
    · intro i
      exact ⟨onTime_fresh _ _ _, fun _ => onTime_fresh _ _ _, fun _ h => by cases h⟩
    · rintro i e hop ⟨hpending, hpast, hborn⟩
      constructor
      · exact hform.onTime memory hfits hle (Nat.le_succ _) hop hpending
      · exact fun h => hform.onTime memory hfits hle le_rfl hop (hpast h)
      · exact fun h => hform.started memory hpending.ok.unused (hborn h)
  · rintro subject payload w _ rfl
    exact ⟨rfl, rfl⟩

omit [Number N] in
theorem keepsSource_ticking :
    KeepsSource (Ticking (N := N) (W := W) p d latest past born) :=
  fun h => sameSource_iff.mpr h.source.1

omit [Number N] in
theorem ticking_mono {past' born' : ℕ → ℕ → Prop} {m : Machine N W}
    (h : Ticking p d latest past born m m)
    (hpast : ∀ j i e, (m.ruleState j).items[i]? = some e → past' j i → past j i)
    (hborn : ∀ j i e, (m.ruleState j).items[i]? = some e → born' j i → born j i) :
    Ticking p d latest past' born' m m := by
  refine ⟨h.source, fun j => ⟨rfl, fun i e hslot => ?_⟩, rfl⟩
  obtain ⟨hpending, hpassed, hstarted⟩ := (h.states j).2 i e hslot
  exact ⟨hpending, fun h => hpassed (hpast j i e hslot h), fun h => hstarted (hborn j i e hslot h)⟩


/-! ## The tick of a slot -/

section Tick

variable {env : Env N W} {t : Moment}

/-- The tick of a slot comes to an end. -/
theorem total_tickSlot (j i : ℕ) (reentrant : Bool) (m : Machine N W) :
    Total (fun n => tickSlot (env.withFuel n) t j reentrant i) m fun _ _ => True := by
  let subject := (slotAt (m.ruleState j) i).subject
  let b : Bindings N := (tickCtx env t j reentrant subject).toBindings
  let publish (n : ℕ) : Slice → Slice → MachineM N W Bool :=
    publishCb (env.withFuel n) (evalPublishSlices (env.withFuel n) t (maxReentryDepth - 1)) j reentrant
  have hpub : HookEnds publish := total_publishCb env (total_evalPublishSlices env t _) j reentrant
  let slot := (slotAt (m.ruleState j) i).key
  have hfinish : ∀ (a : Fired N ⊕ Option (StateEntry.BarClose N)) (m : Machine N W),
      Ends (fun n => finishTick n ⟨b, publish n⟩ slot a) m := by
    intro a m
    cases a with
    | inl fired => exact ends_runFired hpub slot fired m
    | inr close => exact ends_emitBar hpub close m
  have hrun : ∀ n, ((tickStateEntry n ⟨b, publish n⟩ i).run m) =
      ((atSlot j i (tickEntry env.alloc t.nowMs) >>= finishTick n ⟨b, publish n⟩ slot :
        EvalM N W (Value N)).run m) := fun n => run_tickStateEntry n ⟨b, publish n⟩ i m
  obtain ⟨⟨r, m₁⟩, hslot, -⟩ := run_atSlot_spec j i (tickEntry env.alloc t.nowMs) m
  cases r with
  | error e =>
    refine ⟨false, m₁, trivial, .of_forall fun n => ?_⟩
    change ((tickStateEntry n ⟨b, publish n⟩ i).run m).bind _ = _
    rw [hrun, run_evalBind, hslot]
    rfl
  | ok a =>
    obtain ⟨r, m₂, -, hend⟩ := hfinish a m₁
    refine ⟨r.isOk, m₂, trivial, ?_⟩
    filter_upwards [hend] with n hend
    change ((tickStateEntry n ⟨b, publish n⟩ i).run m).bind _ = _
    rw [hrun, run_evalBind, hslot]
    dsimp only [Option.bind_some]
    rw [hend]
    cases r with
    | ok a => rfl
    | error e => rfl

/-- The tick of a slot puts it behind the tick. -/
theorem ticking_tickSlot (memory : AllMemory env.alloc) (htext : TextFits N)
    (hfits : WholeFits N latest) (hle : t.nowMs ≤ latest) {j i : ℕ} {reentrant : Bool}
    (hborn : ¬born j i) {m m' : Machine N W} (hm : Ticking p t.nowMs latest past born m m) {ok : Bool}
    (hrun : tickSlot env t j reentrant i m = some (ok, m')) :
    Ticking p t.nowMs latest (fun j' i' => past j' i' ∨ j' = j ∧ i' = i) born m' m' := by
  have hrespects := @evalCompatible_ticking _ W _ t.nowMs _
    (fun j' i' => past j' i' ∨ j' = j ∧ i' = i) born p _ memory hfits hle
  have hctx : CtxOk env (fun _ _ n => n = t.nowMs)
      (Ticking p t.nowMs latest (fun j' i' => past j' i' ∨ j' = j ∧ i' = i) born)
      (tickCtx env t j reentrant (slotAt (m.ruleState j) i).subject) := by
    apply ctxOk_held hrespects t ?_ rfl
    intro _
    exact respects_evalPublishSlices hrespects t keepsSource_ticking (fun _ _ => rfl) _
  apply tickSlot_self_of (tickCtx env t j reentrant (slotAt (m.ruleState j) i).subject) ?_
    (respects_finishTick hrespects hctx env.fuel
      (lends_of_states (fun hm j => (hm.states j).1) _)) hrun
  intro x hx
  have hstates : ∀ j', x.2.ruleState j' = if j = j' ∧ j < m.program.rules.length then
      setSlot (m.ruleState j) i (tickEntry env.alloc t.nowMs (slotAt (m.ruleState j) i)).entry
      else m.ruleState j' := hx.states
  refine ⟨⟨rfl, hx.source.trans hm.source.2⟩, fun j' => ⟨rfl, fun i' e hslot => ?_⟩, rfl⟩
  rw [hstates] at hslot
  have hother : ∀ {j' i' : ℕ} {e : StateEntry N}, (m.ruleState j').items[i']? = some e →
      ¬(j' = j ∧ i' = i) →
        InTick t.nowMs latest (past j' i' ∨ j' = j ∧ i' = i) (born j' i') e := by
    intro j' i' e hslot hne
    obtain ⟨hpending, hpassed, hstarted⟩ := (hm.states j').2 i' e hslot
    exact ⟨hpending, fun h => hpassed (h.resolve_right hne), hstarted⟩
  by_cases hj : j = j' ∧ j < m.program.rules.length
  · rw [if_pos hj] at hslot
    change ((m.ruleState j).items.set i
      (tickEntry env.alloc t.nowMs (slotAt (m.ruleState j) i)).entry)[i']? = some e at hslot
    rw [List.getElem?_set] at hslot
    obtain ⟨rfl, -⟩ := hj
    by_cases hi : i = i'
    · subst hi
      rw [if_pos rfl] at hslot
      split_ifs at hslot with hlt
      cases hslot
      have hold := List.getElem?_eq_getElem hlt
      rw [slotAt_of_getElem? hold]
      have hticked := onTime_tickEntry memory htext hle ((hm.states j).2 i _ hold).pending
      exact ⟨hticked.mono (Nat.le_succ _), fun _ => hticked, fun h => absurd h hborn⟩
    · rw [if_neg hi] at hslot
      exact hother hslot fun h => hi h.2.symm
  · rw [if_neg hj] at hslot
    refine hother hslot ?_
    rintro ⟨rfl, rfl⟩
    -- a rule that is not there has no slots
    rw [ruleState_of_missing (Nat.le_of_not_lt fun hlt => hj ⟨rfl, hlt⟩)] at hslot
    cases hslot

/-! ## The tick of a rule -/

theorem run_tickSlots (env : Env N W) (t : Moment) (j : ℕ) (reentrant : Bool) (fuel i : ℕ)
    (m : Machine N W) :
    tickSlots env t j reentrant (fuel + 1) i m =
      if i < (m.ruleState j).items.length then
        (tickSlot env t j reentrant i m).bind fun x =>
          (tickSlots env t j reentrant fuel (i + 1) x.2).bind fun y => some (x.1 && y.1, y.2)
      else some (true, m) := by
  rw [tickSlots]
  change (if i < (m.ruleState j).items.length then _ else _ : MachineM N W Bool) m = _
  split_ifs
  · rfl
  · rfl

/-- The rest of the slots, where the tick does nothing to them. -/
theorem tickSlots_of_idle {j i fuel : ℕ} {reentrant : Bool} {m : Machine N W}
    (hidle : ∀ i' e, i ≤ i' → (m.ruleState j).items[i']? = some e → TickIdle env.alloc t.nowMs e)
    (hfuel : (m.ruleState j).items.length - i < fuel) :
    tickSlots env t j reentrant fuel i m = some (true, m) := by
  induction fuel generalizing i with
  | zero => omega
  | succ fuel ih =>
    rw [run_tickSlots]
    by_cases hi : i < (m.ruleState j).items.length
    · have hslot := List.getElem?_eq_getElem hi
      rw [if_pos hi, tickSlot_of_idle hslot (hidle i _ le_rfl hslot), Option.bind_some,
        ih (fun i' e hle => hidle i' e (by omega)) (by omega)]
      rfl
    · rw [if_neg hi]

/-- The tick is past the rules `done` and, of rule `j`, past the slots before
position `i`; those from position `n` on came up during the tick. -/
abbrev InRule (p : Program N) (d latest : UInt64) (done : ℕ → Prop) (j n i : ℕ) :
    Machine N W → Machine N W → Prop :=
  Ticking p d latest (fun j' i' => done j' ∨ j' = j ∧ (i' < i ∨ n ≤ i')) fun j' i' => j' = j ∧ n ≤ i'

/-- The tick is past the given rules. -/
abbrev PastRules (p : Program N) (d latest : UInt64) (done : ℕ → Prop) :
    Machine N W → Machine N W → Prop :=
  Ticking p d latest (fun j _ => done j) fun _ _ => False

variable {done : ℕ → Prop}

/-- The loop over the slots of a rule comes to an end: those it finds at its start
are ticked one by one, and the others have nothing to do. -/
theorem total_tickSlots (memory : AllMemory env.alloc) (htext : TextFits N)
    (hfits : WholeFits N latest) (hle : t.nowMs ≤ latest) (hnow : t.nowMs.toNat + 1 < 2 ^ 64)
    {j n i : ℕ} (reentrant : Bool) {g : ℕ → ℕ} (hg : Tendsto g atTop atTop) {m : Machine N W}
    (hm : InRule p t.nowMs latest done j n i m m) :
    Total (fun k => tickSlots (env.withFuel k) t j reentrant (g k) i) m fun _ m' =>
      PastRules p t.nowMs latest (fun j' => done j' ∨ j' = j) m' m' := by
  induction hk : n - i generalizing i g m with
  | zero =>
    refine ⟨true, m, ?_, ?_⟩
    · apply ticking_mono hm
      · rintro j' i' e - (h | rfl)
        · exact .inl h
        · exact .inr ⟨rfl, by omega⟩
      · exact fun _ _ _ _ h => h.elim
    · filter_upwards [hg.eventually_gt_atTop ((m.ruleState j).items.length - i)] with k hfuel
      apply tickSlots_of_idle ?_ hfuel
      intro i' e hi' hslot
      obtain ⟨-, hpast, hborn⟩ := (hm.states j).2 i' e hslot
      exact idle_of_onTime hnow (hpast (.inr ⟨rfl, .inr (by omega)⟩)) (hborn ⟨rfl, by omega⟩)
  | succ left ih =>
    by_cases hi : i < (m.ruleState j).items.length
    · obtain ⟨a, m₁, hm₁, hrun⟩ := (total_tickSlot j i reentrant m).of_runs
        fun k a m₁ _ hrun => @ticking_tickSlot _ _ _ _ _ _ _ (env.withFuel k) _ memory htext hfits hle
          _ _ _ (fun h => by omega) _ _ hm _ hrun
      have hm₁ : InRule p t.nowMs latest done j n (i + 1) m₁ m₁ := by
        apply ticking_mono hm₁
        · rintro j' i' e - (h | ⟨rfl, h | h⟩)
          · exact .inl (.inl h)
          · by_cases heq : i' = i
            · exact .inr ⟨rfl, heq⟩
            · exact .inl (.inr ⟨rfl, .inl (by omega)⟩)
          · exact .inl (.inr ⟨rfl, .inr h⟩)
        · exact fun _ _ _ _ h => h
      obtain ⟨b, m₂, hm₂, hrest⟩ := ih ((tendsto_sub_atTop_nat 1).comp hg) hm₁ (by omega)
      refine ⟨a && b, m₂, hm₂, ?_⟩
      filter_upwards [hrun, hrest, hg.eventually_gt_atTop 0] with k hrun hrest hpos
      obtain ⟨fuel, hfuel⟩ := Nat.exists_eq_succ_of_ne_zero hpos.ne'
      simp only [Function.comp_apply, hfuel, Nat.succ_sub_one] at hrest
      rw [hfuel, run_tickSlots, if_pos hi, hrun, Option.bind_some, hrest]
      rfl
    · refine ⟨true, m, ?_, ?_⟩
      · apply ticking_mono hm
        · rintro j' i' e hslot (h | rfl)
          · exact .inl h
          · have hlt := (List.getElem?_eq_some_iff.mp hslot).1
            exact .inr ⟨rfl, .inl (by omega)⟩
        · exact fun _ _ _ _ h => h.elim
      · filter_upwards [hg.eventually_gt_atTop 0] with k hpos
        obtain ⟨fuel, hfuel⟩ := Nat.exists_eq_succ_of_ne_zero hpos.ne'
        rw [hfuel, run_tickSlots, if_neg hi]

/-! ## The tick of a program -/

theorem total_tickRules (memory : AllMemory env.alloc) (htext : TextFits N)
    (hfits : WholeFits N latest) (hle : t.nowMs ≤ latest) (hnow : t.nowMs.toNat + 1 < 2 ^ 64)
    (rs : List (ℕ × Bool)) {m : Machine N W} (hm : PastRules p t.nowMs latest done m m) :
    Total (fun k => tickRules (env.withFuel k) t rs) m fun _ m' =>
      PastRules p t.nowMs latest (fun j => done j ∨ j ∈ rs.map Prod.fst) m' m' := by
  induction rs generalizing done m with
  | nil =>
    refine .pure (ticking_mono hm ?_ fun _ _ _ _ h => h)
    rintro j i e - (h | h)
    · exact h
    · cases h
  | cons r rs ih =>
    have hstart : InRule p t.nowMs latest done r.1 (m.ruleState r.1).items.length 0 m m := by
      apply ticking_mono hm
      · rintro j i e hslot (h | ⟨rfl, h | h⟩)
        · exact h
        · cases h
        · have hlt := (List.getElem?_eq_some_iff.mp hslot).1
          omega
      · rintro j i e hslot ⟨rfl, h⟩
        have hlt := (List.getElem?_eq_some_iff.mp hslot).1
        omega
    apply (total_tickSlots memory htext hfits hle hnow r.2 tendsto_id hstart).bind
    intro a m₁ hm₁
    apply (ih hm₁).bind
    intro b m₂ hm₂
    refine .pure (ticking_mono hm₂ ?_ fun _ _ _ _ h => h)
    rintro j i e - (h | h)
    · exact .inl (.inl h)
    · rcases List.mem_cons.mp h with rfl | h
      · exact .inl (.inr rfl)
      · exact .inr h

/-- No slot of the machine has a deadline before the given time. -/
def AllOnTime (b : ℕ) (latest : UInt64) (m : Machine N W) : Prop :=
  ∀ j, AllSlots (OnTime b latest) (m.ruleState j)

/-- A tick before which no deadline has passed leaves none up to its time. -/
theorem total_tick (memory : AllMemory env.alloc) (htext : TextFits N)
    (hfits : WholeFits N latest) (hle : t.nowMs ≤ latest) (hnow : t.nowMs.toNat + 1 < 2 ^ 64)
    {m : Machine N W} (hm : AllOnTime t.nowMs.toNat latest m) :
    Total (fun k => tick (env.withFuel k) t) m fun _ m' =>
      AllOnTime (t.nowMs.toNat + 1) latest m' := by
  have hstart : PastRules m.program.source t.nowMs latest (fun _ => False) m m := by
    refine ⟨⟨rfl, rfl⟩, fun j => ⟨rfl, fun i e hslot => ?_⟩, rfl⟩
    exact ⟨hm j e (List.mem_of_getElem? hslot), fun h => h.elim, fun h => h.elim⟩
  apply Total.get_bind
  apply (total_tickRules memory htext hfits hle hnow _ hstart).mono
  intro _ m' hm' j e he
  obtain ⟨i, hslot⟩ := List.mem_iff_getElem?.mp he
  have hj : j < m'.program.rules.length := by
    by_contra hnot
    rw [ruleState_of_missing (Nat.le_of_not_lt hnot)] at hslot
    cases hslot
  rw [← length_source, hm'.source.2, length_source] at hj
  refine ((hm'.states j).2 i e hslot).past (.inr ?_)
  rw [List.map_map, List.mem_map]
  refine ⟨(m.program.rules[j], j), ?_, rfl⟩
  exact List.mem_zipIdx_iff_getElem?.mpr (List.getElem?_eq_getElem hj)

end Tick

/-! ## The next deadline -/

omit [Number N] in
theorem foldl_earlier_le {l : List (StateEntry N)} {best : Option UInt64} {d : UInt64}
    (h : l.foldl earlier best = some d) :
    (∀ b, best = some b → d ≤ b) ∧ ∀ e ∈ l, ∀ x, entryDeadline e = some x → d ≤ x := by
  induction l generalizing best with
  | nil =>
    cases h
    constructor
    · intro b hb
      cases hb
      exact UInt64.le_refl _
    · intro e he
      cases he
  | cons e l ih =>
    obtain ⟨hbest, hrest⟩ := ih h
    have hhead : (∀ b, best = some b → d ≤ b) ∧ ∀ x, entryDeadline e = some x → d ≤ x := by
      unfold earlier at hbest
      cases hx : entryDeadline e with
      | none =>
        rw [hx] at hbest
        refine ⟨hbest, fun x h => ?_⟩
        cases h
      | some x =>
        rw [hx] at hbest
        cases best with
        | none =>
          constructor
          · intro b h
            cases h
          · intro y h
            cases h
            exact hbest x rfl
        | some b =>
          have hle := hbest _ rfl
          have hboth : d ≤ b ∧ d ≤ x := by
            rw [UInt64.le_iff_toNat_le] at hle
            rw [UInt64.le_iff_toNat_le, UInt64.le_iff_toNat_le]
            split_ifs at hle with hlt
            · rw [UInt64.lt_iff_toNat_lt] at hlt
              omega
            · rw [UInt64.lt_iff_toNat_lt] at hlt
              omega
          constructor
          · intro y h
            cases h
            exact hboth.1
          · intro y h
            cases h
            exact hboth.2
    refine ⟨hhead.1, fun y hy => ?_⟩
    rcases List.mem_cons.mp hy with rfl | hy
    · exact hhead.2
    · exact hrest y hy

omit [Number N] in
/-- The next deadline is the earliest of all. -/
theorem nextClockDeadline_le {m : Machine N W} {d : UInt64}
    (h : nextClockDeadline m.program = some d) (j : ℕ) :
    AllSlots (fun e => ∀ x, entryDeadline e = some x → d ≤ x) (m.ruleState j) := by
  unfold nextClockDeadline at h
  split_ifs at h
  obtain ⟨-, hall⟩ := foldl_earlier_le h
  intro e he
  apply hall e
  rw [Machine.ruleState] at he
  cases hj : m.program.rules[j]? with
  | none =>
    rw [hj] at he
    cases he
  | some r =>
    rw [hj] at he
    exact List.mem_flatMap.mpr ⟨r, List.mem_of_getElem? hj, he⟩

omit [Number N] in
/-- No deadline is next only when there is none. -/
theorem foldl_earlier_none {l : List (StateEntry N)} {best : Option UInt64}
    (h : l.foldl earlier best = none) : best = none ∧ ∀ e ∈ l, entryDeadline e = none := by
  induction l generalizing best with
  | nil => exact ⟨h, by simp⟩
  | cons e l ih =>
    obtain ⟨hbest, hall⟩ := ih h
    unfold earlier at hbest
    cases hdeadline : entryDeadline e with
    | none =>
      rw [hdeadline] at hbest
      exact ⟨hbest, by simpa [hdeadline] using hall⟩
    | some d =>
      rw [hdeadline] at hbest
      cases best <;> cases hbest

omit [Number N] in
/-- Where the scan has found something, no deadline is overlooked. -/
theorem nextClockDeadline_of_slot {m : Machine N W} (hclock : m.program.usesClockTimer = true)
    {j : ℕ} {e : StateEntry N} (he : e ∈ (m.ruleState j).items) {x : UInt64}
    (hx : entryDeadline e = some x) : ∃ d, nextClockDeadline m.program = some d ∧ d ≤ x := by
  cases hnext : nextClockDeadline m.program with
  | some d => exact ⟨d, rfl, nextClockDeadline_le hnext j e he _ hx⟩
  | none =>
    rw [nextClockDeadline, if_pos hclock] at hnext
    obtain ⟨-, hall⟩ := foldl_earlier_none hnext
    rw [Machine.ruleState] at he
    cases hj : m.program.rules[j]? with
    | none =>
      rw [hj] at he
      cases he
    | some r =>
      rw [hj] at he
      have hnone := hall e (List.mem_flatMap.mpr ⟨r, List.mem_of_getElem? hj, he⟩)
      rw [hx] at hnone
      cases hnone

omit [Number N] in
theorem foldl_earlier_mem {l : List (StateEntry N)} {best : Option UInt64} {d : UInt64}
    (h : l.foldl earlier best = some d) :
    best = some d ∨ ∃ e ∈ l, entryDeadline e = some d := by
  induction l generalizing best with
  | nil => exact .inl h
  | cons e l ih =>
    rcases ih h with hbest | ⟨x, hx, hd⟩
    · unfold earlier at hbest
      cases hx : entryDeadline e with
      | none =>
        rw [hx] at hbest
        exact .inl hbest
      | some x =>
        rw [hx] at hbest
        cases best with
        | none => exact .inr ⟨e, List.mem_cons_self, hx.trans hbest⟩
        | some b =>
          dsimp only at hbest
          split_ifs at hbest
          · exact .inr ⟨e, List.mem_cons_self, hx.trans hbest⟩
          · exact .inl hbest
    · exact .inr ⟨x, List.mem_cons_of_mem _ hx, hd⟩

omit [Number N] in
theorem nextClockDeadline_mem {m : Machine N W} {d : UInt64}
    (h : nextClockDeadline m.program = some d) :
    ∃ j, ∃ e ∈ (m.ruleState j).items, entryDeadline e = some d := by
  unfold nextClockDeadline at h
  split_ifs at h
  obtain ⟨e, he, hd⟩ := (foldl_earlier_mem h).resolve_left (by simp)
  obtain ⟨r, hr, he⟩ := List.mem_flatMap.mp he
  obtain ⟨j, hj⟩ := List.mem_iff_getElem?.mp hr
  refine ⟨j, e, ?_, hd⟩
  rw [Machine.ruleState, hj]
  exact he

/-! ## The loop -/

/-- The ticks the loop makes from one machine to another, each at the next
deadline of the machine it finds. -/
inductive Ticks (env : Env N W) (t : Moment) : Machine N W → List UInt64 → Machine N W → Prop
  | nil (m : Machine N W) : Ticks env t m [] m
  | cons {m m₁ m₂ : Machine N W} {d : UInt64} {ds : List UInt64} {ok : Bool}
      (next : nextClockDeadline m.program = some d) (due : d ≤ t.nowMs)
      (run : ∀ᶠ fuel in atTop, tick (env.withFuel fuel) (tickMoment t d) m = some (ok, m₁))
      (rest : Ticks env t m₁ ds m₂) : Ticks env t m (d :: ds) m₂

/-- No tick of the loop converts a number of milliseconds to 0 or takes the given time
past the last one with it: to raise such numbers to 1, or cut them to what is left of the
time, changes nothing. -/
def Unwrapped (env : Env N W) (t : Moment) (m : Machine N W) : Prop :=
  ∀ (ds : List UInt64) (m' : Machine N W) (d : UInt64), Ticks env t m ds m' →
    nextClockDeadline m'.program = some d → d ≤ t.nowMs → ∀ᶠ fuel in atTop,
      @tick N W (saturate t.nowMs) (env.withFuel fuel) (tickMoment t d) m' =
        tick (env.withFuel fuel) (tickMoment t d) m'

theorem run_tickUntilLoop (env : Env N W) (t : Moment) (fuel : ℕ) (m : Machine N W) :
    tickUntilLoop env t (fuel + 1) m =
      match nextClockDeadline m.program with
      | none => some (true, m)
      | some d =>
        if d ≤ t.nowMs then
          (tick env (tickMoment t d) m).bind fun x =>
            (tickUntilLoop env t fuel x.2).bind fun y => some (x.1 && y.1, y.2)
        else some (true, m) := by
  rw [tickUntilLoop]
  change (match nextClockDeadline m.program with
    | none => pure true
    | some d => if d ≤ t.nowMs then _ else pure true : MachineM N W Bool) m = _
  cases nextClockDeadline m.program with
  | none => rfl
  | some d =>
    dsimp only
    split_ifs
    · rfl
    · rfl

/-- What the loop comes to: ticks at deadlines that go up, from `b` on, and no
deadline left up to the given time. -/
structure CaughtUp (env : Env N W) (t : Moment) (b : ℕ) (m m' : Machine N W)
    (ds : List UInt64) : Prop where
  ticks : Ticks env t m ds m'
  increasing : ds.Pairwise (· < ·)
  due : ∀ d ∈ ds, b ≤ d.toNat ∧ d ≤ t.nowMs
  later : ∀ d, nextClockDeadline m'.program = some d → t.nowMs < d

/-- Nothing is left to do. -/
theorem caughtUp_stop {env : Env N W} {t : Moment} {b : ℕ} {m : Machine N W}
    (h : ∀ d, nextClockDeadline m.program = some d → t.nowMs < d) : CaughtUp env t b m m [] :=
  ⟨.nil m, .nil, fun _ hd => absurd hd List.not_mem_nil, h⟩

/-- The loop makes these ticks, and ends when no deadline is left. -/
theorem Ticks.tickUntilLoop {env : Env N W} {t : Moment} {m m' : Machine N W} {ds : List UInt64}
    (h : Ticks env t m ds m') (hlater : ∀ d, nextClockDeadline m'.program = some d → t.nowMs < d) :
    ∃ ok, ∀ g : ℕ → ℕ, Tendsto g atTop atTop →
      ∀ᶠ k in atTop, Patchbay.tickUntilLoop (env.withFuel k) t (g k) m = some (ok, m') := by
  induction h with
  | nil m =>
    refine ⟨true, fun g hg => ?_⟩
    filter_upwards [hg.eventually_gt_atTop 0] with k hpos
    obtain ⟨fuel, hfuel⟩ := Nat.exists_eq_succ_of_ne_zero hpos.ne'
    rw [hfuel, run_tickUntilLoop]
    cases hd : nextClockDeadline m.program with
    | none => rfl
    | some d => exact if_neg (UInt64.not_le.mpr (hlater d hd))
  | @cons m m₁ m₂ d ds ok next due run rest ih =>
    obtain ⟨ok', hloop⟩ := ih hlater
    refine ⟨ok && ok', fun g hg => ?_⟩
    filter_upwards [run, hloop _ ((tendsto_sub_atTop_nat 1).comp hg), hg.eventually_gt_atTop 0]
      with k hrun hloop hpos
    obtain ⟨fuel, hfuel⟩ := Nat.exists_eq_succ_of_ne_zero hpos.ne'
    simp only [Function.comp_apply, hfuel, Nat.succ_sub_one] at hloop
    rw [hfuel, run_tickUntilLoop, next]
    change (if d ≤ t.nowMs then _ else _) = _
    rw [if_pos due, hrun, Option.bind_some, hloop]
    rfl

/-- `pb_program_tick_until` comes to where it has caught up. -/
theorem CaughtUp.tickUntil {env : Env N W} {t : Moment} {b : ℕ} {m m' : Machine N W}
    {ds : List UInt64} (h : CaughtUp env t b m m' ds) :
    ∃ ok, ∀ᶠ fuel in atTop, Patchbay.tickUntil (env.withFuel fuel) t m = some (ok, m') := by
  obtain ⟨ok, hloop⟩ := h.ticks.tickUntilLoop h.later
  exact ⟨ok, hloop _ tendsto_id⟩

theorem caughtUp_of_onTime (htext : TextFits N) {env : Env N W}
    (memory : AllMemory env.alloc) {t : Moment} (hnow : t.nowMs.toNat + 1 < 2 ^ 64) {b : ℕ}
    (hb : b < 2 ^ 64) {m : Machine N W} (hm : AllOnTime b t.nowMs m) (hwrap : Unwrapped env t m) :
    ∃ m' ds, CaughtUp env t b m m' ds := by
  induction hleft : t.nowMs.toNat + 1 - b using Nat.strong_induction_on generalizing b m with
  | _ left ih =>
    by_cases hstop : ∀ d, nextClockDeadline m.program = some d → t.nowMs < d
    · exact ⟨m, [], caughtUp_stop hstop⟩
    push Not at hstop
    obtain ⟨d, hd, hdue⟩ := hstop
    rw [UInt64.not_lt] at hdue
    have hdue' := UInt64.le_iff_toNat_le.mp hdue
    have hbd : b ≤ d.toNat := by
      obtain ⟨j, e, he, hdeadline⟩ := nextClockDeadline_mem hd
      exact (hm j e he).deadline hb hdeadline
    have hpending : AllOnTime d.toNat t.nowMs m := fun j e he =>
      onTime_of_deadline (hm j e he).ok (hm j e he).fits fun x hx =>
        UInt64.le_iff_toNat_le.mp (nextClockDeadline_le hd j e he x hx)
    obtain ⟨a, m₁, hm₁, hrun⟩ := (@total_tick N W (saturate t.nowMs) t.nowMs env (tickMoment t d)
      memory htext (wholeFits_saturate hnow) hdue (by change d.toNat + 1 < _; omega) m
      hpending).congr ((hwrap [] m d (.nil m) hd hdue).mono fun _ h => h.symm)
    have hwrap₁ : Unwrapped env t m₁ := fun ds m' d' hticks =>
      hwrap (d :: ds) m' d' (.cons hd hdue hrun hticks)
    obtain ⟨m', ds, hcaught⟩ := ih (t.nowMs.toNat + 1 - (d.toNat + 1)) (by omega)
      (b := d.toNat + 1) (by omega) hm₁ hwrap₁ rfl
    refine ⟨m', d :: ds, .cons hd hdue hrun hcaught.ticks, ?_, ?_, hcaught.later⟩
    · refine .cons (fun x hx => ?_) hcaught.increasing
      exact UInt64.lt_iff_toNat_lt.mpr (hcaught.due x hx).1
    · intro x hx
      rcases List.mem_cons.mp hx with rfl | hx
      · exact ⟨hbd, hdue⟩
      · exact ⟨by have := (hcaught.due x hx).1; omega, (hcaught.due x hx).2⟩

/-- `pb_program_tick_until` comes to an end, from every reachable state and for
every router, with ticks at strictly increasing deadlines up to the given time and
the next deadline after it. -/
theorem tickUntil_terminates (htext : TextFits N)
    {rules : List (RuleSource N)} {usesClock : Bool} {m : Machine N W}
    (hreach : Reachable rules usesClock m) (env : Env N W) (memory : AllMemory env.alloc)
    (t : Moment) (hnow : t.nowMs.toNat + 1 < 2 ^ 64)
    (hfits : ∀ j, AllSlots (Fits t.nowMs) (m.ruleState j)) (hwrap : Unwrapped env t m) :
    ∃ ok m' ds, Ticks env t m ds m' ∧ ds.Pairwise (· < ·) ∧ (∀ d ∈ ds, d ≤ t.nowMs) ∧
      (∀ d, nextClockDeadline m'.program = some d → t.nowMs < d) ∧
        ∀ᶠ fuel in atTop, tickUntil (env.withFuel fuel) t m = some (ok, m') := by
  have hstart : AllOnTime 0 t.nowMs m := fun j e he =>
    onTime_of_deadline (hreach.slotsOk j e he) (hfits j e he) fun _ _ => Nat.zero_le _
  obtain ⟨m', ds, hcaught⟩ := caughtUp_of_onTime htext memory hnow (by decide) hstart hwrap
  obtain ⟨ok, hloop⟩ := hcaught.tickUntil
  exact ⟨ok, m', ds, hcaught.ticks, hcaught.increasing, fun d hd => (hcaught.due d hd).2,
    hcaught.later, hloop⟩

/-! ## A loop that does not end -/

/-- A machine of one rule, whose only slot stays due. -/
structure Stuck (t : Moment) (p : Program N) (m : Machine N W) : Prop where
  source : m.program.source = p
  rules : p.rules.map (fun r => r.reentrant) = [false]
  clock : p.usesClockTimer = true
  slot : ∃ e, (m.ruleState 0).items = [e] ∧ StaysDue t.nowMs e

section Stuck

variable {t : Moment} {p : Program N} {m m' : Machine N W}

omit [Number N] in
theorem Stuck.rule (h : Stuck t p m) : ∃ r, m.program.rules = [r] ∧ r.reentrant = false := by
  have hrules : m.program.rules.map (fun r => r.reentrant) = [false] := by
    have hsame := congrArg (fun q : Program N => q.rules.map fun r => r.reentrant) h.source
    dsimp only [Program.source] at hsame
    rw [List.map_map] at hsame
    exact hsame.trans h.rules
  cases hlist : m.program.rules with
  | nil => simp [hlist] at hrules
  | cons r rs =>
    rw [hlist, List.map_cons, List.cons.injEq, List.map_eq_nil_iff] at hrules
    exact ⟨r, by rw [hrules.2], hrules.1⟩

omit [Number N] in
theorem Stuck.next (h : Stuck t p m) {e : StateEntry N} (hslot : (m.ruleState 0).items = [e])
    (hdue : StaysDue t.nowMs e) : nextClockDeadline m.program = some e.clockDeadlineMs := by
  obtain ⟨r, hrules, -⟩ := h.rule
  have hclock : m.program.usesClockTimer = true :=
    (congrArg Program.usesClockTimer h.source).trans h.clock
  have hstate : m.ruleState 0 = r.state := by
    rw [Machine.ruleState, hrules]
    rfl
  rw [hstate] at hslot
  have hdeadline : entryDeadline e = some e.clockDeadlineMs := by
    rw [entryDeadline_clock hdue.kind, if_pos hdue.armed]
  simp [nextClockDeadline, hclock, hrules, hslot, earlier, hdeadline]

/-- A tick at the deadline leaves the slot due. -/
theorem Stuck.tick (h : Stuck t p m) {env : Env N W} {d : UInt64}
    (hnext : nextClockDeadline m.program = some d) {ok : Bool}
    (hrun : Patchbay.tick env (tickMoment t d) m = some (ok, m')) : Stuck t p m' := by
  obtain ⟨e, hitems, hdue⟩ := h.slot
  obtain ⟨r, hrules, hplain⟩ := h.rule
  have hd : e.clockDeadlineMs = d := Option.some.inj ((h.next hitems hdue).symm.trans hnext)
  have hslot : (m.ruleState 0).items[0]? = some e := by rw [hitems]; rfl
  have hin : 0 < m.program.rules.length := by simp [hrules]
  have htick := tickSlot_of_repeats env (tickMoment t d) hslot hdue.kind hdue.repeats
  have hstate := ruleState_afterEmission env 0 e.key
    (m.setState 0 (setSlot (m.ruleState 0) 0 (tickEntry env.alloc d e).entry))
    (tickEntry env.alloc d e).result 0
  have hsource := source_afterEmission env 0 e.key
    (m.setState 0 (setSlot (m.ruleState 0) 0 (tickEntry env.alloc d e).entry))
    (tickEntry env.alloc d e).result
  rw [ruleState_setState, if_pos ⟨rfl, hin⟩] at hstate
  change tickSlot env (tickMoment t d) 0 false 0 m = some (afterEmission env 0 e.key
    (m.setState 0 (setSlot (m.ruleState 0) 0 (tickEntry env.alloc d e).entry))
    (tickEntry env.alloc d e).result) at htick
  generalize afterEmission env 0 e.key _ _ = after at htick hstate hsource
  have hafter : (after.2.ruleState 0).items = [(tickEntry env.alloc d e).entry] := by
    rw [hstate, setSlot, hitems]
    rfl
  have hslots : ∀ fuel x, tickSlots env (tickMoment t d) 0 false fuel 0 m = some x → x.2 = after.2 := by
    intro fuel x hx
    cases fuel with
    | zero => cases hx
    | succ fuel =>
      rw [run_tickSlots, hitems, if_pos (by simp), htick, Option.bind_some] at hx
      cases fuel with
      | zero => cases hx
      | succ fuel =>
        rw [run_tickSlots, hafter, if_neg (by simp), Option.bind_some, Option.some.injEq] at hx
        rw [← hx]
  have hunfold : Patchbay.tick env (tickMoment t d) m =
      (tickSlots env (tickMoment t d) 0 false env.fuel 0 m).bind fun x => some (x.1 && true, x.2) := by
    change tickRules env (tickMoment t d)
      (m.program.rules.zipIdx.map fun r => (r.2, r.1.reentrant)) m = _
    rw [hrules, List.zipIdx_singleton, List.map_singleton, hplain]
    rfl
  rw [hunfold] at hrun
  obtain ⟨x, hx, heq⟩ := Option.bind_eq_some_iff.mp hrun
  cases heq
  rw [hslots _ x hx]
  have hset := source_modifyRule m 0 (f := fun r => { r with
    state := setSlot (m.ruleState 0) 0 (tickEntry env.alloc d e).entry }) fun _ => ⟨rfl, rfl, rfl⟩
  exact ⟨hsource.trans (hset.trans h.source), h.rules, h.clock, _, hafter,
    staysDue_tick env.alloc hdue hd⟩

/-- The loop has no result, whatever it is given. -/
theorem Stuck.endless (h : Stuck t p m) (env : Env N W) (fuel : ℕ) :
    tickUntilLoop env t fuel m = none := by
  induction fuel generalizing m with
  | zero => rfl
  | succ fuel ih =>
    obtain ⟨e, hitems, hdue⟩ := h.slot
    have hnext := h.next hitems hdue
    rw [run_tickUntilLoop, hnext]
    change (if e.clockDeadlineMs ≤ t.nowMs then _ else _) = _
    rw [if_pos hdue.due]
    cases hrun : Patchbay.tick env (tickMoment t e.clockDeadlineMs) m with
    | none => rfl
    | some x =>
      rw [Option.bind_some, ih (h.tick hnext hrun)]
      rfl

end Stuck

theorem unwrapped_of_fits {t : Moment} (h : WholeFits N t.nowMs) (env : Env N W)
    (m : Machine N W) : Unwrapped env t m := by
  intro ds m' d _ _ _
  rw [saturate_of_fits h]
  exact .of_forall fun _ => rfl

/-- The whole numbers with short texts, as intervals up to seven weeks. -/
abbrev shortIntervals : Number ℤ :=
  { shortTexts with toU64 := fun n => UInt64.ofNat (min n.toNat (2 ^ 32 - 1)) }

theorem toNat_shortIntervals (n : ℤ) :
    (@toU64 ℤ shortIntervals n).toNat = min n.toNat (2 ^ 32 - 1) := by
  have hfits : min n.toNat (2 ^ 32 - 1) < UInt64.size := by
    change _ < 2 ^ 64
    omega
  exact UInt64.toNat_ofNat_of_lt' hfits

theorem wholeFits_shortIntervals {now : UInt64} (hnow : now.toNat < 2 ^ 63) :
    @WholeFits ℤ shortIntervals now := by
  intro n hn
  change (!decide (n < 1) && decide (n = n)) = true at hn
  have hone : 1 ≤ n := by simpa using hn
  have hnat := toNat_shortIntervals n
  constructor
  · intro hzero
    rw [hzero, UInt64.toNat_zero] at hnat
    omega
  · omega

/-- A bar opened at five seconds, and a catch-up to seven. -/
theorem openBar_caught_up : ∃ (m : Machine ℤ Unit) (env : Env ℤ Unit) (ok : Bool)
    (m' : Machine ℤ Unit) (ds : List UInt64),
    nextClockDeadline m.program = some 6000 ∧
      @Ticks ℤ Unit shortIntervals env ⟨7000, 0, false⟩ m ds m' ∧ ds.Pairwise (· < ·) ∧
        (∀ d ∈ ds, d ≤ 7000) ∧ (∀ d, nextClockDeadline m'.program = some d → 7000 < d) ∧
          ∀ᶠ fuel in atTop,
            @tickUntil ℤ Unit shortIntervals (env.withFuel fuel) ⟨7000, 0, false⟩ m =
              some (ok, m') := by
  let env : Env ℤ Unit := ⟨fun _ => true, fun _ => none, writtenOver, payloadDrawn, fun w _ _ => (w, true), 9⟩
  let m₀ : Machine ℤ Unit := ⟨loadProgram [secondBar] true, ()⟩
  let isOpen (x : Bool × Machine ℤ Unit) : Bool :=
    decide (nextClockDeadline x.2.program = some 6000 ∧ x.2.program.rules.length = 1 ∧
      ∀ e ∈ (x.2.ruleState 0).items, e.kind = .bar ∧ e.barWindowMs = 1000)
  have hrun : ((@evalPublish ℤ Unit shortIntervals env ⟨5000, 0, false⟩ (lit "a") (lit "1") m₀).map
      isOpen) = some true := by
    decide +kernel
  obtain ⟨⟨ok, m⟩, hrun, hopen⟩ := Option.map_eq_some_iff.mp hrun
  obtain ⟨hnext, hrules, hbar⟩ := of_decide_eq_true hopen
  dsimp only at hnext hrules hbar
  have hreach := @Reachable.publish ℤ Unit shortIntervals [secondBar] true m₀ m env (fun _ => rfl)
    ⟨5000, 0, false⟩ (lit "a") (lit "1") ok (@Reachable.load ℤ Unit shortIntervals _ _ ()) hrun
  have hfits : ∀ j, AllSlots (Fits 7000) (m.ruleState j) := by
    intro j e he
    by_cases hj : j < m.program.rules.length
    · obtain rfl : j = 0 := by omega
      obtain ⟨hkind, hwindow⟩ := hbar e he
      constructor
      · intro _ _
        rw [hwindow]
        exact ⟨by decide, by decide⟩
      · intro h
        rw [hkind] at h
        cases h
    · rw [ruleState_of_missing (Nat.le_of_not_lt hj)] at he
      cases he
  obtain ⟨ok', m', ds, hall⟩ := @tickUntil_terminates ℤ Unit shortIntervals textFits_shortTexts
    [secondBar] true m hreach env (fun _ => rfl) ⟨7000, 0, false⟩ (by decide) hfits
    (@unwrapped_of_fits ℤ Unit shortIntervals ⟨7000, 0, false⟩
      (wholeFits_shortIntervals (by decide)) env m)
  exact ⟨m, env, ok', m', ds, hnext, hall⟩

/-- `(on "a" (sample! :ms "inf" "b" payload))` -/
def infiniteSample : RuleSource (Extended ℤ) :=
  ⟨lit "a", .list [.symbol (lit "sample!"), .keyword (lit "ms"), .string (lit "inf"),
    .string (lit "b"), .symbol (lit "payload")], false⟩

/-- The interval is accepted and comes to 0. After one message at five the loop has no
result, although no sum wraps. -/
theorem infinite_sample_endless :
    ¬∀ (rules : List (RuleSource (Extended ℤ))) (usesClock : Bool) (m : Machine (Extended ℤ) Unit),
      Reachable rules usesClock m → ∀ env : Env (Extended ℤ) Unit, AllMemory env.alloc →
        ∀ t : Moment, t.nowMs.toNat + 1 < 2 ^ 64 →
          (∀ j, AllSlots (fun e => t.nowMs.toNat + e.barWindowMs.toNat < 2 ^ 64 ∧
            t.nowMs.toNat + e.clockIntervalMs.toNat < 2 ^ 64) (m.ruleState j)) →
          ∃ ok m', ∀ᶠ fuel in atTop, tickUntil (env.withFuel fuel) t m = some (ok, m') := by
  intro hclaim
  let env : Env (Extended ℤ) Unit := ⟨fun _ => true, fun _ => none, writtenOver, payloadDrawn, fun w _ _ => (w, true), 9⟩
  let m₀ : Machine (Extended ℤ) Unit := ⟨loadProgram [infiniteSample] true, ()⟩
  let stuck (x : Bool × Machine (Extended ℤ) Unit) : Bool :=
    decide (x.2.program.rules.map (fun r => r.reentrant) = [false] ∧
      x.2.program.usesClockTimer = true ∧ (x.2.ruleState 0).items.length = 1 ∧
      ∀ e ∈ (x.2.ruleState 0).items, e.kind = .clock ∧ e.clockKind = .sample ∧
        e.clockArmed = true ∧ e.clockDeadlineMs = 5 ∧ e.clockIntervalMs = 0 ∧ e.barWindowMs = 0)
  have hrun : ((evalPublish env ⟨5, 0, false⟩ (lit "a") (lit "1") m₀).map stuck) = some true := by
    decide +kernel
  obtain ⟨⟨ok, m⟩, hrun, hstuck⟩ := Option.map_eq_some_iff.mp hrun
  obtain ⟨hrules, hclock, hone, hslots⟩ := of_decide_eq_true hstuck
  dsimp only at hrules hclock hone hslots
  obtain ⟨e, hitems⟩ := List.length_eq_one_iff.mp hone
  obtain ⟨hkind, hsample, harmed, hdeadline, hinterval, -⟩ := hslots e (by simp [hitems])
  have hreach : Reachable [infiniteSample] true m :=
    .publish env (fun _ => rfl) ⟨5, 0, false⟩ (lit "a") (lit "1") (.load ()) hrun
  have hfits : ∀ j, AllSlots (fun e => (7 : UInt64).toNat + e.barWindowMs.toNat < 2 ^ 64 ∧
      (7 : UInt64).toNat + e.clockIntervalMs.toNat < 2 ^ 64) (m.ruleState j) := by
    intro j e he
    have hlen : m.program.rules.length = 1 := by simpa using congrArg List.length hrules
    by_cases hj : j < m.program.rules.length
    · obtain rfl : j = 0 := by omega
      obtain ⟨-, -, -, -, hinterval, hwindow⟩ := hslots e he
      rw [hinterval, hwindow]
      decide
    · rw [ruleState_of_missing (Nat.le_of_not_lt hj)] at he
      cases he
  have hstays : Stuck ⟨7, 0, false⟩ m.program.source m := by
    refine ⟨rfl, ?_, hclock, e, hitems, by decide, hkind, .inl hsample, harmed, ?_, hinterval⟩
    · simpa [Program.source] using hrules
    · rw [hdeadline]
      decide
  obtain ⟨ok', m', hends⟩ := hclaim _ _ m hreach env (fun _ => rfl) ⟨7, 0, false⟩ (by decide) hfits
  obtain ⟨fuel, hends⟩ := hends.exists
  rw [tickUntil, hstays.endless] at hends
  cases hends

end Monoblok.Snapshot
