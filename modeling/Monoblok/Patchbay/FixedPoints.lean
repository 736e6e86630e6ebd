import Monoblok.Patchbay.Disciplined
import Monoblok.Patchbay.Terminates
import Monoblok.Patchbay.Whole

/-!
# Values evaluate to themselves

What an evaluation returns has no symbols and no calls in it, so evaluating it again
gives it back and has no effect. A thread puts its value into each step and has it
evaluated there; it does the same as binding the value once.
-/

namespace Monoblok.Patchbay

open Number Coinciding Fuel Filter

variable {N W : Type} [Number N]

/-! ## Evaluated values -/

/-- A vector with an item in it; evaluating it takes memory. -/
def Value.isFilled : Value N → Bool
  | .vector items => !items.isEmpty
  | _ => false

/-- The value, if there is memory to copy it. -/
def copyValue (ctx : Ctx N W) (v : Value N) : Except EvalError (Value N) :=
  if v.isFilled && !ctx.alloc .arena then .error .oom else .ok v

section Values

variable {ctx : Ctx N W}

omit [Number N] in
theorem copyValue_of_memory (harena : ctx.alloc .arena = true) (v : Value N) :
    copyValue ctx v = .ok v := by
  simp [copyValue, harena]

omit [Number N] in
theorem run_bind_ok {α β : Type} {x : EvalM N W α} {g : α → EvalM N W β} {a : α}
    {m m' : Machine N W} (h : x.run m = some (.ok a, m')) : (x >>= g).run m = (g a).run m' := by
  rw [run_evalBind, h]
  rfl

omit [Number N] in
theorem run_bind_none {α β : Type} {x : EvalM N W α} {g : α → EvalM N W β} {m : Machine N W}
    (h : x.run m = none) : (x >>= g).run m = none := by
  rw [run_evalBind, h]
  rfl

/-- The context with what its slices read in a machine. -/
def Ctx.rereadIn (ctx : Ctx N W) (m : Machine N W) : Ctx N W :=
  ⟨m.reread ctx.toBindings, ctx.publish⟩

omit [Number N] in
theorem afresh_rereadIn {α : Type} (m : Machine N W) (f : Ctx N W → EvalM N W α) :
    afresh (ctx.rereadIn m) f = afresh ctx f := rfl

/-- An evaluation reads its slices itself. -/
theorem eval_rereadIn (depth : ℕ) (m : Machine N W) :
    eval depth (ctx.rereadIn m) = eval depth ctx := by
  cases depth with
  | zero => rfl
  | succ depth => rfl

theorem evalEach_rereadIn (depth : ℕ) (m : Machine N W) (vs : List (Value N)) :
    evalEach (eval depth) (ctx.rereadIn m) vs = evalEach (eval depth) ctx vs := by
  induction vs with
  | nil => rfl
  | cons v vs ih => rw [evalEach, evalEach, ih, eval_rereadIn]

theorem run_vector (depth : ℕ) (items : List (Value N)) (m : Machine N W) :
    (eval (depth + 1) ctx (.vector items)).run m =
      (evalArgs (eval depth) (ctx.rereadIn m) items >>= fun vs => pure (.vector vs)).run m := rfl

theorem evalArgs_rereadIn (depth : ℕ) (m : Machine N W) (vs : List (Value N)) :
    evalArgs (eval depth) (ctx.rereadIn m) vs = evalArgs (eval depth) ctx vs := by
  rw [evalArgs, evalArgs, evalEach_rereadIn]
  rfl

omit [Number N] in
theorem evalEach_values {rec : Ctx N W → Value N → EvalM N W (Value N)} {vs : List (Value N)}
    {m : Machine N W} (h : ∀ v ∈ vs, (rec ctx v).run m = some (.ok v, m)) :
    (evalEach rec ctx vs).run m = some (.ok vs, m) := by
  induction vs with
  | nil => rfl
  | cons v vs ih =>
    obtain ⟨hv, hvs⟩ := List.forall_mem_cons.mp h
    rw [evalEach, run_bind_ok hv, run_bind_ok (ih hvs)]
    rfl

/-- An evaluated value that is evaluated again comes back, and nothing else happens. -/
theorem eval_evaluated {v : Value N} (hv : v.Evaluated) {depth : ℕ} (hdepth : sizeOf v ≤ depth)
    (m : Machine N W) : (eval depth ctx v).run m = some (copyValue ctx v, m) := by
  induction depth generalizing v with
  | zero => cases v <;> simp at hdepth
  | succ depth ih =>
    cases v with
    | vector items =>
      rw [run_vector, evalArgs_rereadIn, evalArgs, copyValue]
      cases hfull : ctx.alloc .arena with
      | false =>
        cases items with
        | nil => rfl
        | cons v vs => rfl
      | true =>
        have hitems : (evalEach (eval depth) ctx items).run m = some (.ok items, m) := by
          apply evalEach_values
          intro w hw
          have hlt := List.sizeOf_lt_of_mem hw
          simp only [Value.vector.sizeOf_spec] at hdepth
          rw [ih (evaluated_of_mem_vector hw hv) (by omega), copyValue_of_memory hfull]
        simp only [Bool.not_true, Bool.false_and, Bool.and_false, Bool.false_eq_true, if_false]
        rw [run_bind_ok hitems]
        rfl
    | symbol name => cases hv
    | list call => cases call <;> simp [Value.Evaluated, Value.weight] at hv
    | nil => rfl
    | bool b => rfl
    | number n => rfl
    | keyword text => rfl
    | string text => rfl

omit [Number N] in
theorem evalEach_values_or {rec : Ctx N W → Value N → EvalM N W (Value N)} {vs : List (Value N)}
    {m : Machine N W}
    (h : ∀ v ∈ vs, (rec ctx v).run m = none ∨ (rec ctx v).run m = some (.ok v, m)) :
    (evalEach rec ctx vs).run m = none ∨ (evalEach rec ctx vs).run m = some (.ok vs, m) := by
  induction vs with
  | nil => exact .inr rfl
  | cons v vs ih =>
    obtain ⟨hv, hvs⟩ := List.forall_mem_cons.mp h
    rcases hv with hv | hv
    · exact .inl (run_bind_none hv)
    · rw [evalEach, run_bind_ok hv]
      rcases ih hvs with ih | ih
      · exact .inl (run_bind_none ih)
      · exact .inr (run_bind_ok ih)

/-- With memory, and at a depth that may be too small. -/
theorem eval_evaluated_or {v : Value N} (hv : v.Evaluated) (harena : ctx.alloc .arena = true)
    (depth : ℕ) (m : Machine N W) :
    (eval depth ctx v).run m = none ∨ (eval depth ctx v).run m = some (.ok v, m) := by
  induction depth generalizing v with
  | zero => exact .inl rfl
  | succ depth ih =>
    cases v with
    | vector items =>
      have hitems := evalEach_values_or fun w hw => ih (evaluated_of_mem_vector hw hv)
      rw [run_vector, evalArgs_rereadIn, evalArgs]
      simp only [harena, Bool.not_true, Bool.false_and, Bool.false_eq_true, if_false]
      rcases hitems with hitems | hitems
      · exact .inl (run_bind_none hitems)
      · exact .inr (run_bind_ok hitems)
    | symbol name => cases hv
    | list call => cases call <;> simp [Value.Evaluated, Value.weight] at hv
    | nil => exact .inr rfl
    | bool b => exact .inr rfl
    | number n => exact .inr rfl
    | keyword text => exact .inr rfl
    | string text => exact .inr rfl

end Values

/-! ## Results -/

omit [Number N] in
theorem discipline_all : Discipline (N := N) (fun _ => True) (fun _ => True) where
  deferred _ _ _ := trivial
  evaluated _ := trivial
  items _ _ _ := trivial
  args _ _ _ := trivial
  onSilence _ _ _ := trivial
  dropout _ _ _ := trivial
  symbolStep _ _ _ _ _ _ := trivial
  listStep _ _ _ _ _ _ _ := trivial

omit [Number N] in
theorem keeping_all (m : Machine N W) : Keeping (fun _ => True) (fun _ => True) m :=
  ⟨trivial, fun _ _ _ => ⟨fun _ => trivial, fun _ => trivial⟩⟩

/-- Whatever an evaluation returns is evaluated, with any publish hook. -/
theorem evaluated_of_eval {depth : ℕ} {ctx : Ctx N W} {expr v : Value N} {m m' : Machine N W}
    (h : (eval depth ctx expr).run m = some (.ok v, m')) : v.Evaluated := by
  have hhook : SameHooks (Keeping (fun _ => True) fun _ => True) ctx.publish ctx.publish := by
    intro subject payload s hs
    exact ⟨rfl, fun a t _ => ⟨keeping_all t, trivial⟩⟩
  have hsame := sameRecs_guardedEval (W := W) discipline_all (G := fun _ => true)
    (fun _ _ => rfl) depth ctx.toBindings ctx.publish ctx.publish hhook expr trivial
  exact (hsame.left (keeping_all m) h).2 v rfl

/-! ## Threads -/

/-- The forms that are given their arguments as they are written. -/
def Form.isSpecial : Form → Bool
  | .doForm | .ifForm | .when | .and | .or | .thread | .transition | .onSilence | .dropout => true
  | _ => false

/-- A step of a thread that is no call of a special form. -/
def PlainStep (f : Value N) : Prop :=
  ∀ name args, f = .symbol name ∨ f = .list (.symbol name :: args) →
    ∀ form, findForm name = some form → form.isSpecial = false

section Threads

variable (rec : Ctx N W → Value N → EvalM N W (Value N)) (ctx : Ctx N W)

/-- A call whose last argument has a value already. -/
def callBound (name : Bytes) (args : List (Value N)) (x : Value N) : EvalM N W (Value N) :=
  match findForm name with
  | none => throw .unknownSymbol
  | some form =>
    if ctx.alloc .arena then do
      let as ← evalEach rec ctx args
      afresh ctx fun ctx => callForm ctx form (as ++ [x])
    else throw .oom

/-- One step of a thread, with its value bound. -/
def bindStep (x : Value N) : Value N → EvalM N W (Value N)
  | .symbol name => callBound rec ctx name [] x
  | .list (.symbol name :: args) =>
    if ctx.alloc .arena then callBound rec ctx name args x else throw .oom
  | _ => throw .type

def bindThread : Value N → List (Value N) → EvalM N W (Value N)
  | x, [] => pure x
  | x, f :: fs =>
    if x.isNil then pure x
    else do
      let a ← bindStep rec ctx x f
      bindThread a fs

end Threads

section Bound

variable {ctx : Ctx N W}

omit [Number N] in
theorem run_bind_cases {α β : Type} {x : EvalM N W α} {g : α → EvalM N W β} {m : Machine N W}
    {r : Except EvalError β × Machine N W} (h : (x >>= g).run m = some r) :
    (∃ e m', x.run m = some (.error e, m') ∧ r = (.error e, m')) ∨
      ∃ a m', x.run m = some (.ok a, m') ∧ (g a).run m' = some r := by
  rw [run_evalBind] at h
  obtain ⟨⟨y, m'⟩, hx, hr⟩ := Option.bind_eq_some_iff.mp h
  cases y with
  | error e =>
    cases hr
    exact .inl ⟨e, m', hx, rfl⟩
  | ok a => exact .inr ⟨a, m', hx, hr⟩

omit [Number N] in
theorem run_bind_error {α β : Type} {x : EvalM N W α} {g : α → EvalM N W β} {e : EvalError}
    {m m' : Machine N W} (h : x.run m = some (.error e, m')) :
    (x >>= g).run m = some (.error e, m') := by
  rw [run_evalBind, h]
  rfl

omit [Number N] in
theorem evalEach_snoc (rec : Ctx N W → Value N → EvalM N W (Value N)) (vs : List (Value N))
    (x : Value N) :
    evalEach rec ctx (vs ++ [x]) = (do
      let as ← evalEach rec ctx vs
      let a ← rec ctx x
      pure (as ++ [a])) := by
  induction vs with
  | nil => simp [evalEach]
  | cons v vs ih => simp [evalEach, ih]

theorem evalList_plain (rec : Ctx N W → Value N → EvalM N W (Value N)) {head : Value N}
    {form : Form} (hform : findForm head.text = some form) (hplain : form.isSpecial = false)
    (raw : List (Value N)) :
    evalList rec ctx (head :: raw) = (do
      let args ← evalArgs rec ctx raw
      afresh ctx fun ctx => callForm ctx form args) := by
  cases form with
  | doForm | ifForm | when | and | or | thread | transition | onSilence | dropout => cases hplain
  | _ => simp only [evalList, hform]

/-- Evaluating the value once more inside the call makes no difference. -/
theorem callBound_of_eval {depth : ℕ} {name : Bytes} {args : List (Value N)} {x : Value N}
    (hx : x.Evaluated) (hplain : ∀ form, findForm name = some form → form.isSpecial = false)
    {m : Machine N W} {r : Except EvalError (Value N) × Machine N W}
    (h : (eval (depth + 1) ctx (.list (.symbol name :: args ++ [x]))).run m = some r) :
    (callBound (eval depth) ctx name args x).run m = some r := by
  have hcall : (evalList (eval depth) (ctx.rereadIn m) (.symbol name :: (args ++ [x]))).run m =
      some r := h
  unfold callBound
  cases hform : findForm name with
  | none =>
    simp only [evalList, Value.text, hform] at hcall
    exact hcall
  | some form =>
    rw [evalList_plain (eval depth) (by exact hform) (hplain form hform), evalArgs_rereadIn,
      evalArgs] at hcall
    simp only [afresh_rereadIn] at hcall
    have hfilled : (args ++ [x]).isEmpty = false := by simp
    cases harena : ctx.alloc .arena with
    | false =>
      simp only [harena, hfilled] at hcall
      exact hcall
    | true =>
      simp only [harena, Bool.not_true, Bool.false_and, Bool.false_eq_true, if_false,
        evalEach_snoc, bind_assoc] at hcall
      simp only [if_true]
      rcases run_bind_cases hcall with ⟨e, m', hargs, rfl⟩ | ⟨as, m', hargs, hrest⟩
      · exact run_bind_error hargs
      · rw [run_bind_ok hargs]
        rcases eval_evaluated_or hx harena depth m' with hnone | hsome
        · rw [run_bind_none hnone] at hrest
          cases hrest
        · rw [run_bind_ok hsome] at hrest
          exact hrest

theorem bindStep_of_eval {depth : ℕ} {x f : Value N} (hx : x.Evaluated) (hf : PlainStep f)
    {m : Machine N W} {r : Except EvalError (Value N) × Machine N W}
    (h : (evalCallWithThreaded (eval (depth + 1)) ctx f x).run m = some r) :
    (bindStep (eval depth) ctx x f).run m = some r := by
  cases f with
  | symbol name =>
    have hcall : (eval (depth + 1) ctx (.list (.symbol name :: [] ++ [x]))).run m = some r := h
    exact callBound_of_eval hx (hf name [] (.inl rfl)) hcall
  | list items =>
    cases items with
    | nil => exact h
    | cons head args =>
      cases head with
      | symbol name =>
        simp only [evalCallWithThreaded, bindStep] at h ⊢
        cases harena : ctx.alloc .arena with
        | true =>
          simp only [harena, if_true] at h ⊢
          exact callBound_of_eval hx (hf name args (.inr rfl)) h
        | false =>
          simp only [harena] at h ⊢
          exact h
      | _ => exact h
  | _ => exact h

theorem evaluated_of_threaded {depth : ℕ} {x f v : Value N} {m m' : Machine N W}
    (h : (evalCallWithThreaded (eval depth) ctx f x).run m = some (.ok v, m')) : v.Evaluated := by
  unfold evalCallWithThreaded at h
  split at h
  · exact evaluated_of_eval h
  · split at h
    · exact evaluated_of_eval h
    · cases h
  · cases h

theorem bindThread_of_eval {depth : ℕ} {x : Value N} {fs : List (Value N)} (hx : x.Evaluated)
    (hfs : ∀ f ∈ fs, PlainStep f) {m : Machine N W} {r : Except EvalError (Value N) × Machine N W}
    (h : (evalThreadFrom (eval (depth + 1)) ctx x fs).run m = some r) :
    (bindThread (eval depth) ctx x fs).run m = some r := by
  induction fs generalizing x m with
  | nil => exact h
  | cons f fs ih =>
    obtain ⟨hf, hfs⟩ := List.forall_mem_cons.mp hfs
    unfold evalThreadFrom at h
    unfold bindThread
    cases hnil : x.isNil with
    | true =>
      simp only [hnil, if_true] at h
      exact h
    | false =>
      simp only [hnil, Bool.false_eq_true, if_false] at h ⊢
      rcases run_bind_cases h with ⟨e, m', hcall, rfl⟩ | ⟨a, m', hcall, hrest⟩
      · exact run_bind_error (bindStep_of_eval hx hf hcall)
      · rw [run_bind_ok (bindStep_of_eval hx hf hcall)]
        exact ih (evaluated_of_threaded hcall) hfs hrest

theorem evalThreadFrom_rereadIn (depth : ℕ) (m : Machine N W) (x : Value N) (fs : List (Value N)) :
    evalThreadFrom (eval depth) (ctx.rereadIn m) x fs = evalThreadFrom (eval depth) ctx x fs := by
  induction fs generalizing x with
  | nil => rfl
  | cons f fs ih =>
    have hcall : evalCallWithThreaded (eval depth) (ctx.rereadIn m) f x =
        evalCallWithThreaded (eval depth) ctx f x := by
      unfold evalCallWithThreaded
      simp only [eval_rereadIn]
      rfl
    rw [evalThreadFrom, evalThreadFrom, hcall]
    simp only [ih]

theorem findForm_thread : findForm (lit "->") = some .thread := by decide

/-- What a thread comes to is what it comes to with each value bound. -/
theorem thread_binds {depth : ℕ} {x : Value N} {fs : List (Value N)}
    (hfs : ∀ f ∈ fs, PlainStep f) {m : Machine N W} {r : Except EvalError (Value N) × Machine N W}
    (h : (eval (depth + 2) ctx (.list (.symbol (lit "->") :: x :: fs))).run m = some r) :
    (eval (depth + 1) ctx x >>= fun v => bindThread (eval depth) ctx v fs).run m = some r := by
  have hthread : (evalList (eval (depth + 1)) (ctx.rereadIn m)
      (.symbol (lit "->") :: x :: fs)).run m = some r := h
  simp only [evalList, Value.text, findForm_thread, evalThread, eval_rereadIn,
    evalThreadFrom_rereadIn] at hthread
  rcases run_bind_cases hthread with ⟨e, m', hvalue, rfl⟩ | ⟨v, m', hvalue, hrest⟩
  · exact run_bind_error hvalue
  · rw [run_bind_ok hvalue]
    exact bindThread_of_eval (evaluated_of_eval hvalue) hfs hrest

end Bound

/-! ## Fixed points -/

/-- A context of a rule that publishes into nothing, with or without memory. -/
def quietCtx (memory : Bool) : Ctx ℤ Unit where
  alloc _ := memory
  readJson _ := none
  rewritten := writtenOver
  drawn := payloadDrawn 0
  subjectAt := .held (lit "a")
  payloadAt := .held (lit "7")
  ruleId := 0
  nowMs := 5000
  wallMs := 0
  replaying := false
  subject := lit "a"
  payload := lit "7"
  publish _ _ := pure true

def noRules : Machine ℤ Unit := ⟨loadProgram [] false, ()⟩

end Monoblok.Patchbay
