import Monoblok.Patchbay.Totality

/-!
# Messages and ticks come to an end

The evaluation of a message with all it sets off, by induction on the levels of
re-entry that are left, and the tick of one slot.
-/

namespace Monoblok.Patchbay

open Fuel Filter

variable {N W : Type}

/-! ## Published messages -/

/-- The surroundings with another amount of fuel. -/
def Env.withFuel (env : Env N W) (n : ℕ) : Env N W := { env with fuel := n }

/-- A rule has published one message more. -/
def countEmitted (ruleIdx : ℕ) (m : Machine N W) : Machine N W :=
  m.modifyRule ruleIdx fun r => { r with publishesEmitted := r.publishesEmitted + 1 }

/-- The machine once the router has been given a message. -/
def routed (env : Env N W) (subject payload : Slice) (m : Machine N W) : Machine N W :=
  { m with
    world := (env.route m.world (m.read env.rewritten subject) (m.read env.rewritten payload)).1 }

/-- Whether the router accepts a message. -/
def routerTakes (env : Env N W) (subject payload : Slice) (m : Machine N W) : Bool :=
  (env.route m.world (m.read env.rewritten subject) (m.read env.rewritten payload)).2

theorem run_publishCb (env : Env N W) (again : Slice → Slice → MachineM N W Bool) (ruleIdx : ℕ)
    (reentrant : Bool) (subject payload : Slice) (m : Machine N W) :
    publishCb env again ruleIdx reentrant subject payload m =
      if publishSubjectValid (m.read env.rewritten subject) = false then some (false, m)
      else if routerTakes env subject payload m = false then
        some (false, routed env subject payload m)
      else if reentrant then
        (again subject payload (countEmitted ruleIdx (routed env subject payload m))).bind
          fun x => some (true, x.2)
      else some (true, countEmitted ruleIdx (routed env subject payload m)) := by
  have hget : ∀ f : Machine N W → MachineM N W Bool, (get >>= f) m = f m m := fun _ => rfl
  unfold publishCb routed routerTakes
  rw [hget]
  cases hvalid : publishSubjectValid (m.read env.rewritten subject) with
  | false => rfl
  | true =>
    rw [if_neg (by decide : ¬(!true) = true), if_neg (by decide : ¬true = false)]
    generalize env.route m.world (m.read env.rewritten subject) (m.read env.rewritten payload) = x
    obtain ⟨w, ok⟩ := x
    cases ok with
    | false => rfl
    | true =>
      cases reentrant with
      | false => rfl
      | true => rfl

theorem total_publishCb (env : Env N W) {again : ℕ → Slice → Slice → MachineM N W Bool}
    (hagain : HookEnds again) (ruleIdx : ℕ) (reentrant : Bool) :
    HookEnds fun n => publishCb (env.withFuel n) (again n) ruleIdx reentrant := by
  intro subject payload m
  have hcount : Fewer m (countEmitted ruleIdx (routed env subject payload m)) :=
    fewer_of_states fun j => ruleState_modifyRule (routed env subject payload m) ruleIdx j fun _ => rfl
  by_cases hvalid : publishSubjectValid (m.read env.rewritten subject) = false
  · refine ⟨false, m, fun _ => le_rfl, .of_forall fun n => ?_⟩
    dsimp only
    rw [run_publishCb]
    exact if_pos hvalid
  by_cases hok : routerTakes env subject payload m = false
  · refine ⟨false, routed env subject payload m, fun _ => le_rfl, .of_forall fun n => ?_⟩
    dsimp only
    rw [run_publishCb]
    exact (if_neg hvalid).trans (if_pos hok)
  cases hreentrant : reentrant with
  | false =>
    refine ⟨true, countEmitted ruleIdx (routed env subject payload m), hcount,
      .of_forall fun n => ?_⟩
    dsimp only
    rw [run_publishCb]
    exact (if_neg hvalid).trans (if_neg hok)
  | true =>
    obtain ⟨a, m', hfewer, hrun⟩ := hagain subject payload
      (countEmitted ruleIdx (routed env subject payload m))
    refine ⟨true, m', IsTrans.trans _ _ _ hcount hfewer, ?_⟩
    filter_upwards [hrun] with n hrun
    rw [run_publishCb]
    refine (if_neg hvalid).trans ((if_neg hok).trans ?_)
    change (again n subject payload (countEmitted ruleIdx (routed env subject payload m))).bind _ = _
    rw [hrun]
    rfl

/-! ## Rules -/

section Rules

variable [Number N] (env : Env N W) (t : Moment)

omit [Number N] in
theorem total_succeeds {α : Type} {c : ℕ → EvalM N W α} {m : Machine N W} {Q : α → Machine N W → Prop}
    (h : TotalRun Fewer c m Q) : Total (fun n => succeeds (c n)) m fun _ m' => Fewer m m' := by
  apply Total.bind h
  rintro r m' ⟨hfewer, -⟩
  cases r with
  | ok a => exact .pure hfewer
  | error e => exact .pure hfewer

theorem total_evalRuleForPublish {again : ℕ → Slice → Slice → MachineM N W Bool}
    (hagain : HookEnds again) (subject payload : Slice) (ruleIdx : ℕ) (m : Machine N W) :
    Total (fun n => evalRuleForPublish (env.withFuel n) t (again n) subject payload ruleIdx) m
      fun _ m' => Fewer m m' := by
  unfold evalRuleForPublish
  apply Total.get_bind
  have hpure : Total (fun _ => (pure true : MachineM N W Bool)) m fun _ m' => Fewer m m' :=
    .pure fun _ => le_rfl
  cases m.program.rules[ruleIdx]? with
  | none => exact hpure
  | some rule =>
    dsimp only
    have hread : ∀ n, (env.withFuel n).rewritten = env.rewritten := fun _ => rfl
    by_cases hmatch : (!subjectMatches rule.filter (m.read env.rewritten subject)) = true
    · simp only [hread, if_pos hmatch]
      exact hpure
    · simp only [hread, if_neg hmatch]
      exact total_succeeds (evalEnds
        (b := (ruleCtx env t (again 0) ruleIdx rule.reentrant subject payload).toBindings)
        (total_publishCb env hagain ruleIdx rule.reentrant) _ rule.body (fun n => n) tendsto_id m
        le_rfl)

theorem total_evalRules {again : ℕ → Slice → Slice → MachineM N W Bool} (hagain : HookEnds again)
    (subject payload : Slice) (is : List ℕ) (m : Machine N W) :
    Total (fun n => evalRules (env.withFuel n) t (again n) subject payload is) m
      fun _ m' => Fewer m m' := by
  induction is generalizing m with
  | nil => exact .pure fun _ => le_rfl
  | cons i is ih =>
    apply (total_evalRuleForPublish env t hagain subject payload i m).bind
    intro a m' hfewer
    apply (ih m').bind
    intro c m'' hfewer'
    exact .pure (IsTrans.trans _ _ _ hfewer hfewer')

theorem total_evalRulesFor {again : ℕ → Slice → Slice → MachineM N W Bool}
    (hagain : HookEnds again) :
    HookEnds fun n => evalRulesFor (env.withFuel n) t (again n) := by
  intro subject payload m
  exact total_evalRules env t hagain subject payload
    (ruleOrder m.program (m.read env.rewritten subject)) m

/-- The evaluation of a message comes to an end, with the levels of re-entry below
it. -/
theorem total_evalPublishSlices (left : ℕ) :
    HookEnds fun n => evalPublishSlices (env.withFuel n) t left := by
  induction left with
  | zero => exact total_evalRulesFor env t fun _ _ _ => .pure fun _ => le_rfl
  | succ left ih => exact total_evalRulesFor env t ih

theorem total_evalPublish (subject payload : Bytes) (m : Machine N W) :
    Total (fun n => evalPublish (env.withFuel n) t subject payload) m fun _ m' => Fewer m m' :=
  total_evalPublishSlices env t maxReentryDepth (.held subject) (.held payload) m

/-! ## The tick of a slot -/

theorem ends_runFired {b : Bindings N} {publish : ℕ → Slice → Slice → MachineM N W Bool}
    (hpub : HookEnds publish) (slot : StateKey) (fired : Fired N) (m : Machine N W) :
    Ends (fun n => runFired n ⟨b, publish n⟩ slot fired) m := by
  have hparts : ∀ (b : Bindings N) (v : Value N), PartEnds b publish (fun n => eval n)
      (lostCount (m.ruleState b.ruleId)) v :=
    fun b v => evalEnds hpub _ v (fun n => n) tendsto_id
  cases fired with
  | nothing => exact ends_pure (v := .nil) rfl m
  | body payload forms =>
    exact ends_evalDo
      (fun v _ => hparts { b with payloadAt := .lent ⟨slot, .bytes, payload, payload⟩ } v) le_rfl
  | form f => exact hparts b f m le_rfl
  | publish subject payload => exact ends_published hpub _ _ (ends_pure (v := .nil) rfl) m

end Rules

end Monoblok.Patchbay
