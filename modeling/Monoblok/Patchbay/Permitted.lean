import Monoblok.Patchbay.Linked

/-!
# What rules may publish

A rule reaches the router through `publish_cb` only, and `publish_cb` turns a
subject away that is not valid or is reserved, before the router sees it. So an
evaluation runs the same if the router itself refuses such subjects, and what
the router's state keeps under all other messages it keeps under an evaluation.
-/

namespace Monoblok.Patchbay

open Relational

variable {N W : Type}

/-- The same surroundings with a router that refuses what rules may not publish. -/
def Env.guarded (env : Env N W) : Env N W :=
  { env with
    route := fun w subject payload =>
      if publishSubjectValid subject then env.route w subject payload else (w, false) }

/-! ## The guard changes nothing -/

theorem publishCb_guarded (env : Env N W) (again : Slice → Slice → MachineM N W Bool) (ruleIdx : ℕ)
    (reentrant : Bool) :
    publishCb env.guarded again ruleIdx reentrant = publishCb env again ruleIdx reentrant := by
  funext subject payload m
  have hget : ∀ f : Machine N W → MachineM N W Bool, (get >>= f) m = f m m := fun _ => rfl
  have hread : ∀ s, m.read env.guarded.rewritten s = m.read env.rewritten s := fun _ => rfl
  unfold publishCb
  rw [hget, hget]
  simp only [hread]
  by_cases hvalid : publishSubjectValid (m.read env.rewritten subject) = true
  · have hroute : ∀ w pl, env.guarded.route w (m.read env.rewritten subject) pl =
        env.route w (m.read env.rewritten subject) pl := fun _ _ => if_pos hvalid
    simp only [hroute]
  · have hrefused : (!publishSubjectValid (m.read env.rewritten subject)) = true := by
      simpa using hvalid
    rw [if_pos hrefused, if_pos hrefused]

section Guarded

variable [Number N] (env : Env N W) (t : Moment)

omit [Number N] in
theorem ruleCtx_guarded (again : Slice → Slice → MachineM N W Bool) (ruleIdx : ℕ) (reentrant : Bool)
    (subject payload : Slice) :
    ruleCtx env.guarded t again ruleIdx reentrant subject payload =
      ruleCtx env t again ruleIdx reentrant subject payload := by
  unfold ruleCtx
  rw [publishCb_guarded]
  rfl

theorem evalRules_guarded (again : Slice → Slice → MachineM N W Bool) (subject payload : Slice)
    (is : List ℕ) :
    evalRules env.guarded t again subject payload is = evalRules env t again subject payload is := by
  have hrule : ∀ i, evalRuleForPublish env.guarded t again subject payload i =
      evalRuleForPublish env t again subject payload i := by
    intro i
    unfold evalRuleForPublish
    simp only [ruleCtx_guarded]
    rfl
  induction is with
  | nil => rfl
  | cons i is ih => rw [evalRules, evalRules, hrule, ih]

theorem evalRulesFor_guarded (again : Slice → Slice → MachineM N W Bool) :
    evalRulesFor env.guarded t again = evalRulesFor env t again := by
  funext subject payload
  unfold evalRulesFor
  simp only [evalRules_guarded]
  rfl

theorem evalPublishSlices_guarded (left : ℕ) :
    evalPublishSlices env.guarded t left = evalPublishSlices env t left := by
  induction left with
  | zero => exact evalRulesFor_guarded env t _
  | succ left ih => rw [evalPublishSlices, evalPublishSlices, evalRulesFor_guarded, ih]

theorem tickSlots_guarded (ruleIdx : ℕ) (reentrant : Bool) (fuel : ℕ) :
    tickSlots env.guarded t ruleIdx reentrant fuel = tickSlots env t ruleIdx reentrant fuel := by
  have hctx : ∀ subject,
      tickCtx env.guarded t ruleIdx reentrant subject = tickCtx env t ruleIdx reentrant subject := by
    intro subject
    rw [tickCtx, tickCtx, evalPublishSlices_guarded, ruleCtx_guarded]
  induction fuel with
  | zero => rfl
  | succ fuel ih =>
    funext i
    rw [tickSlots, tickSlots, ih]
    simp only [hctx]
    rfl

theorem tick_guarded : tick env.guarded t = tick env t := by
  have hrules : ∀ rs, tickRules env.guarded t rs = tickRules env t rs := by
    intro rs
    induction rs with
    | nil => rfl
    | cons r rs ih =>
      rw [tickRules, tickRules, ih, tickSlots_guarded]
      rfl
  unfold tick
  simp only [hrules]

theorem tickUntil_guarded : tickUntil env.guarded t = tickUntil env t := by
  have hloop : ∀ fuel, tickUntilLoop env.guarded t fuel = tickUntilLoop env t fuel := by
    intro fuel
    induction fuel with
    | zero => rfl
    | succ fuel ih =>
      rw [tickUntilLoop, tickUntilLoop, ih]
      simp only [tick_guarded]
  exact hloop env.fuel

end Guarded

/-! ## What the router keeps -/

section Kept

variable [Number N] {env : Env N W} {I : W → Prop}

/-- A router that keeps what it is to keep under every message a rule may publish. -/
def KeptByPermitted (env : Env N W) (I : W → Prop) : Prop :=
  ∀ w subject payload, publishSubjectValid subject = true → I w → I (env.route w subject payload).1

theorem compatible_guarded (hI : KeptByPermitted env I) :
    Compatible env.guarded (fun m m' : Machine N W => m = m' ∧ I m.world) where
  onSlot {α ctx op f} _ _ _ := by
    apply Respects.of_invariant
    intro m hm r m' hrun
    obtain ⟨x, hx, hsteps⟩ := run_onSlot_spec ctx op f m
    obtain rfl : x = (r, m') := Option.some.inj (hx.symm.trans hrun)
    exact hsteps.world ▸ hm
  tickClock ruleId i now := by
    apply Respects.of_invariant
    intro m hm r m' hrun
    obtain ⟨x, hx, hsteps⟩ := run_atSlot_spec ruleId i (Patchbay.tickClock env.guarded.alloc now) m
    obtain rfl : x = (r, m') := Option.some.inj (hx.symm.trans hrun)
    exact hsteps.world ▸ hm
  tickWindow ruleId i now := by
    apply Respects.of_invariant
    intro m hm r m' hrun
    obtain ⟨x, hx, hsteps⟩ := run_atSlot_spec ruleId i (Patchbay.tickWindow now) m
    obtain rfl : x = (r, m') := Option.some.inj (hx.symm.trans hrun)
    exact hsteps.world ▸ hm
  suppressed ruleId := by
    apply Respects.of_invariant
    intro m hm r m' hrun
    cases hrun
    exact hm
  emitted ruleId := by
    rintro m _ ⟨rfl, hm⟩
    exact ⟨rfl, hm⟩
  route subject payload := by
    rintro m _ ⟨rfl, hm⟩
    refine ⟨rfl, rfl, ?_⟩
    change I (if publishSubjectValid subject then env.route m.world subject payload
      else (m.world, false)).1
    by_cases hvalid : publishSubjectValid subject = true
    · rw [if_pos hvalid]
      exact hI m.world subject payload hvalid hm
    · rw [if_neg hvalid]
      exact hm
  source := by
    rintro m _ ⟨rfl, -⟩
    exact ⟨rfl, rfl, rfl, rfl⟩
  slots ruleId := by
    rintro m _ ⟨rfl, -⟩
    rfl
  lends _ _ _ _ _ _ := lends_of_states (fun h => h.1 ▸ fun _ => rfl) _
  deadline := by
    rintro m _ ⟨rfl, -⟩
    rfl

variable {t : Moment} {m m' : Machine N W} {ok : Bool} (hI : KeptByPermitted env I)

include hI

theorem kept_evalPublish {subject payload : Bytes} (hm : I m.world)
    (hrun : evalPublish env t subject payload m = some (ok, m')) : I m'.world := by
  have hguarded : evalPublish env.guarded t subject payload m = some (ok, m') := by
    rw [evalPublish, evalPublishSlices_guarded]
    exact hrun
  exact (respects_evalPublish (compatible_guarded hI) t subject payload).invariant
    (I := fun m : Machine N W => I m.world) hm hguarded

theorem kept_tick (hm : I m.world) (hrun : tick env t m = some (ok, m')) : I m'.world := by
  rw [← tick_guarded] at hrun
  exact (respects_tick (compatible_guarded hI) t).invariant
    (I := fun m : Machine N W => I m.world) hm hrun

theorem kept_tickUntil (hm : I m.world) (hrun : tickUntil env t m = some (ok, m')) :
    I m'.world := by
  rw [← tickUntil_guarded] at hrun
  exact (respects_tickUntil (compatible_guarded hI) t).invariant
    (I := fun m : Machine N W => I m.world) hm hrun

end Kept

end Monoblok.Patchbay
