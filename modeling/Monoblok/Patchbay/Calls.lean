import Monoblok.Lib.Trace
import Monoblok.Patchbay.RuleIndex

/-!
# Runs and their calls

A run of a program is a sequence of messages and ticks. Each message is a
sequence of evaluations of rules, each tick one of ticks of slots. Here a run is
listed with these calls, so that what is published can be told by the rule and
the subject it is published for. The router is a journal that takes everything.
-/

namespace Monoblok.Patchbay

open Trace

variable {N : Type}

/-- What has been published, in order. -/
abbrev Journal := List (Bytes × Bytes)

/-- Memory does not run out, and the router takes every message. -/
def journalEnv (readJson : Bytes → Option (Json N)) (rewritten : Bytes → Bytes → Bytes)
    (drawn : ℕ → Bytes → Bytes → TextOrigin × TextOrigin) (fuel : ℕ) : Env N Journal where
  alloc _ := true
  readJson := readJson
  rewritten := rewritten
  drawn := drawn
  route w subject payload := (w ++ [(subject, payload)], true)
  fuel := fuel

inductive Event where
  | publish (t : Moment) (subject payload : Bytes)
  | tick (t : Moment)

/-- The evaluation of a rule for a subject, or the tick of one of its slots. -/
structure Call (N : Type) where
  rule : ℕ
  subject : Bytes
  before : Machine N Journal
  after : Machine N Journal

def Call.emitted (c : Call N) : Journal := c.after.world.drop c.before.world.length

/-- What a rule publishes for a subject. -/
def emissions (i : ℕ) (s : Bytes) (calls : List (Call N)) : Journal :=
  (calls.filter fun c => c.rule == i && c.subject == s).flatMap Call.emitted

variable [Number N]

section Events

variable (env : Env N Journal) (t : Moment)

def ruleCall (again : Slice → Slice → MachineM N Journal Bool) (subject payload : Bytes) (i : ℕ)
    (m : Machine N Journal) : Option (List (Call N) × Machine N Journal) :=
  (evalRuleForPublish env t again (.held subject) (.held payload) i m).map
    fun x => ([⟨i, subject, m, x.2⟩], x.2)

def slotCalls (ruleIdx : ℕ) (reentrant : Bool) :
    ℕ → ℕ → Machine N Journal → Option (List (Call N) × Machine N Journal)
  | 0, _, _ => none
  | fuel + 1, i, m =>
    if i < (m.ruleState ruleIdx).items.length then
      let subject := (slotAt (m.ruleState ruleIdx) i).subject
      (succeeds (tickStateEntry env.fuel (tickCtx env t ruleIdx reentrant subject) i) m).bind
        fun x =>
          (slotCalls ruleIdx reentrant fuel (i + 1) x.2).map fun y =>
            (⟨ruleIdx, subject, m, x.2⟩ :: y.1, y.2)
    else some ([], m)

def tickCalls (r : ℕ × Bool) (m : Machine N Journal) :
    Option (List (Call N) × Machine N Journal) :=
  slotCalls env t r.1 r.2 env.fuel 0 m

end Events

section Runs

variable (env : Env N Journal)

def eventCalls : Event → Machine N Journal → Option (List (Call N) × Machine N Journal)
  | .publish t subject payload, m =>
    collect (ruleCall env t (reentry env t maxReentryDepth) subject payload)
      (ruleOrder m.program subject) m
  | .tick t, m =>
    collect (tickCalls env t) (m.program.rules.zipIdx.map fun r => (r.2, r.1.reentrant)) m

def runCalls : List Event → Machine N Journal → Option (List (Call N) × Machine N Journal) :=
  collect (eventCalls env)

/-- The functions of the program an event calls. -/
def Event.eval : Event → MachineM N Journal Bool
  | .publish t subject payload => evalPublish env t subject payload
  | .tick t => Patchbay.tick env t

def evalEvents : List Event → Machine N Journal → Option (Machine N Journal)
  | [], m => some m
  | e :: es, m => (e.eval env m).bind fun x => evalEvents es x.2

/-! ## The calls are those of the run -/

/-- Two computations that come to the same states, and so do what follows them. -/
theorem map_snd_bind {α β γ δ ε ζ σ : Type} {a : Option (α × σ)} {b : Option (β × σ)}
    (h : a.map Prod.snd = b.map Prod.snd) {f : σ → Option (γ × σ)} {g : σ → Option (δ × σ)}
    (hfg : ∀ s, (f s).map Prod.snd = (g s).map Prod.snd) (p : α × σ → γ × σ → ε)
    (q : β × σ → δ × σ → ζ) :
    (a.bind fun x => (f x.2).map fun y => (p x y, y.2)).map Prod.snd =
      (b.bind fun x => (g x.2).bind fun y => some (q x y, y.2)).map Prod.snd := by
  cases a with
  | none =>
    cases b with
    | none => rfl
    | some y => simp at h
  | some x =>
    cases b with
    | none => simp at h
    | some y =>
      simp only [Option.map_some, Option.some.injEq] at h
      rw [Option.bind_some, Option.bind_some, h]
      have hs := hfg y.2
      generalize f y.2 = u at hs ⊢
      generalize g y.2 = v at hs ⊢
      cases u with
      | none =>
        cases v with
        | none => rfl
        | some z => simp at hs
      | some z =>
        cases v with
        | none => simp at hs
        | some z' => exact hs

theorem collect_ruleCall_snd (t : Moment) (again : Slice → Slice → MachineM N Journal Bool)
    (subject payload : Bytes) (is : List ℕ) (m : Machine N Journal) :
    (collect (ruleCall env t again subject payload) is m).map Prod.snd =
      (evalRules env t again (.held subject) (.held payload) is m).map Prod.snd := by
  induction is generalizing m with
  | nil => rfl
  | cons i is ih =>
    rw [evalRules_cons]
    refine map_snd_bind ?_ ih _ _
    rw [ruleCall, Option.map_map]
    rfl

theorem slotCalls_snd (t : Moment) (ruleIdx : ℕ) (reentrant : Bool) (fuel i : ℕ)
    (m : Machine N Journal) :
    (slotCalls env t ruleIdx reentrant fuel i m).map Prod.snd =
      (tickSlots env t ruleIdx reentrant fuel i m).map Prod.snd := by
  induction fuel generalizing i m with
  | zero => rfl
  | succ fuel ih =>
    have hunfold : tickSlots env t ruleIdx reentrant (fuel + 1) i m =
        (if i < (m.ruleState ruleIdx).items.length then do
          let a ← succeeds (tickStateEntry env.fuel
            (tickCtx env t ruleIdx reentrant (slotAt (m.ruleState ruleIdx) i).subject) i)
          let b ← tickSlots env t ruleIdx reentrant fuel (i + 1)
          pure (a && b)
        else pure true : MachineM N Journal Bool) m := rfl
    rw [hunfold, slotCalls]
    by_cases hi : i < (m.ruleState ruleIdx).items.length
    · rw [if_pos hi, if_pos hi]
      exact map_snd_bind rfl (ih (i + 1)) _ _
    · rw [if_neg hi, if_neg hi]
      rfl

theorem collect_tickCalls_snd (t : Moment) (rs : List (ℕ × Bool)) (m : Machine N Journal) :
    (collect (tickCalls env t) rs m).map Prod.snd = (tickRules env t rs m).map Prod.snd := by
  induction rs generalizing m with
  | nil => rfl
  | cons r rs ih => exact map_snd_bind (slotCalls_snd env t r.1 r.2 env.fuel 0 m) ih _ _

theorem eventCalls_snd (e : Event) (m : Machine N Journal) :
    (eventCalls env e m).map Prod.snd = (e.eval env m).map Prod.snd := by
  cases e with
  | publish t subject payload => exact collect_ruleCall_snd env t _ subject payload _ m
  | tick t => exact collect_tickCalls_snd env t _ m

/-- The listed run is the run. -/
theorem runCalls_snd (es : List Event) (m : Machine N Journal) :
    (runCalls env es m).map Prod.snd = evalEvents env es m := by
  induction es generalizing m with
  | nil => rfl
  | cons e es ih =>
    have hunfold : runCalls env (e :: es) m = (eventCalls env e m).bind fun x =>
        (runCalls env es x.2).map fun y => (x.1 ++ y.1, y.2) := rfl
    rw [hunfold, evalEvents]
    have h := eventCalls_snd env e m
    generalize eventCalls env e m = a at h ⊢
    generalize e.eval env m = b at h ⊢
    cases a with
    | none =>
      cases b with
      | none => rfl
      | some y => simp at h
    | some x =>
      cases b with
      | none => simp at h
      | some y =>
        simp only [Option.map_some, Option.some.injEq] at h
        rw [Option.bind_some, Option.bind_some, h, ← ih y.2, Option.map_map]
        rfl

end Runs

end Monoblok.Patchbay
