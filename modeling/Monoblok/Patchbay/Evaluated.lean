import Monoblok.Patchbay.Related

/-!
# Evaluated values

What an evaluation returns has no symbols and no lists in it, so the thread form
may evaluate it once more. The weight of an expression counts the calls it may
come to; putting an evaluated value into a call adds nothing to it.
-/

namespace Monoblok.Patchbay

open Number

variable {N : Type}

/-! ## Weights -/

mutual

/-- A call weighs more than its arguments, and so does a symbol, which the thread
form makes a call of. -/
def Value.weight : Value N → ℕ
  | .symbol _ => 1
  | .list [] => 1
  | .list (_ :: args) => weights args + 2
  | .vector items => weights items
  | _ => 0

def weights : List (Value N) → ℕ
  | [] => 0
  | v :: vs => v.weight + weights vs

end

theorem weights_append (vs ws : List (Value N)) : weights (vs ++ ws) = weights vs + weights ws := by
  induction vs with
  | nil => simp [weights]
  | cons v vs ih =>
    simp only [List.cons_append, weights, ih]
    omega

theorem weight_le_of_mem {v : Value N} {vs : List (Value N)} (h : v ∈ vs) :
    v.weight ≤ weights vs := by
  induction vs with
  | nil => cases h
  | cons w ws ih =>
    rw [weights]
    rcases List.mem_cons.mp h with rfl | h
    · omega
    · have := ih h
      omega

/-- A value without symbols and lists. -/
def Value.Evaluated (v : Value N) : Prop := v.weight = 0

theorem weights_eq_zero {vs : List (Value N)} (h : ∀ v ∈ vs, v.Evaluated) : weights vs = 0 := by
  induction vs with
  | nil => rfl
  | cons v vs ih =>
    have hv : v.weight = 0 := h v List.mem_cons_self
    rw [weights, hv, ih fun w hw => h w (List.mem_cons_of_mem v hw)]

theorem evaluated_of_mem_vector {v : Value N} {vs : List (Value N)} (hv : v ∈ vs)
    (h : (Value.vector vs).Evaluated) : v.Evaluated := by
  have hle := weight_le_of_mem hv
  have hzero : weights vs = 0 := h
  unfold Value.Evaluated
  omega

/-! ## Results -/

/-- A result that is an evaluated value, if it is one at all. -/
def Clean (r : FormResult N) : Prop := ∀ v, r = .ok v → v.Evaluated

theorem clean_error (e : EvalError) : Clean (.error e : FormResult N) := by
  intro v h
  cases h

theorem clean_ok {v : Value N} (hv : v.Evaluated) : Clean (.ok v) := by
  intro w h
  cases h
  exact hv

section Forms

variable [Number N]

omit [Number N] in
theorem clean_callNow (ctx : Bindings N) (args : List (Value N)) : Clean (callNow ctx args) := by
  unfold callNow
  split
  · dsimp only
    split
    · exact clean_error _
    · split_ifs
      · exact clean_error _
      · exact clean_error _
      · exact clean_ok rfl
  · exact clean_error _

omit [Number N] in
theorem clean_callNot (args : List (Value N)) : Clean (callNot args) := by
  unfold callNot
  split
  · exact clean_ok rfl
  · exact clean_error _

theorem clean_callEq (args : List (Value N)) : Clean (callEq args) := by
  unfold callEq
  split
  · exact clean_ok rfl
  · exact clean_error _

theorem clean_cmpChain (pass : N → N → Bool) (args : List (Value N)) :
    Clean (cmpChain pass args) := by
  fun_induction cmpChain pass args with
  | case1 v w vs a b ha hb hpass ih => exact ih
  | case2 v w vs a b ha hb hpass => exact clean_ok rfl
  | case3 => exact clean_error _
  | case4 => exact clean_ok rfl

theorem clean_callCmp (pass : N → N → Bool) (args : List (Value N)) :
    Clean (callCmp pass args) := by
  unfold callCmp
  split
  · exact clean_error _
  · exact clean_cmpChain pass args

theorem clean_foldNumbers (f : N → N → N) (acc : N) (args : List (Value N)) :
    Clean (foldNumbers f acc args) := by
  induction args generalizing acc with
  | nil => exact clean_ok rfl
  | cons v vs ih =>
    unfold foldNumbers
    split
    · exact ih _
    · exact clean_error _

theorem clean_callFold (f : N → N → N) (single : N → N) (args : List (Value N)) :
    Clean (callFold f single args) := by
  unfold callFold
  split
  · exact clean_error _
  · split
    · exact clean_error _
    · split
      · exact clean_ok rfl
      · exact clean_foldNumbers f _ _

theorem clean_callRound (args : List (Value N)) : Clean (callRound args) := by
  unfold callRound
  split
  · split
    · split
      · exact clean_error _
      · exact clean_ok rfl
    · exact clean_error _
  · exact clean_error _

theorem clean_callQuantize (args : List (Value N)) : Clean (callQuantize args) := by
  unfold callQuantize
  split
  · split
    · split
      · exact clean_error _
      · exact clean_ok rfl
    · exact clean_error _
  · exact clean_error _

theorem clean_callClamp (args : List (Value N)) : Clean (callClamp args) := by
  unfold callClamp
  split
  · split
    · exact clean_ok rfl
    · exact clean_error _
  · exact clean_error _

theorem clean_callNumber (f : N → N) (args : List (Value N)) : Clean (callNumber f args) := by
  unfold callNumber
  split
  · split
    · exact clean_ok rfl
    · exact clean_error _
  · exact clean_error _

omit [Number N] in
theorem clean_callStrConcat (ctx : Bindings N) (args : List (Value N)) :
    Clean (callStrConcat ctx args) := by
  unfold callStrConcat
  split
  · exact clean_error _
  · split
    · exact clean_ok rfl
    · exact clean_error _

theorem clean_callContains (args : List (Value N)) : Clean (callContains args) := by
  unfold callContains
  split
  · exact clean_ok rfl
  · split
    · exact clean_ok rfl
    · exact clean_error _
  · exact clean_error _

omit [Number N] in
theorem clean_callAffix (cut : Bytes → ℕ → Bytes) (args : List (Value N)) :
    Clean (callAffix cut args) := by
  unfold callAffix
  split
  · split
    · exact clean_ok rfl
    · exact clean_error _
  · exact clean_error _

omit [Number N] in
theorem clean_callSubjectAppend (ctx : Bindings N) (args : List (Value N)) :
    Clean (callSubjectAppend ctx args) := by
  unfold callSubjectAppend
  split
  · split
    · exact clean_error _
    · split
      · exact clean_ok rfl
      · exact clean_error _
  · exact clean_error _

theorem evaluated_subjectTokenAt (subject : Bytes) (n : N) :
    (subjectTokenAt subject n).Evaluated := by
  unfold subjectTokenAt
  split <;> rfl

theorem clean_callSubjectToken (ctx : Bindings N) (args : List (Value N)) :
    Clean (callSubjectToken ctx args) := by
  unfold callSubjectToken
  split
  · split
    · exact clean_error _
    · split
      · exact clean_ok (evaluated_subjectTokenAt _ _)
      · split
        · exact clean_ok (evaluated_subjectTokenAt _ _)
        · exact clean_error _
      · exact clean_error _
  · exact clean_error _

theorem clean_callSubjectWith (ctx : Bindings N) (args : List (Value N)) :
    Clean (callSubjectWith ctx args) := by
  unfold callSubjectWith
  extract_lets toks
  split
  · exact clean_error _
  · split
    · exact clean_error _
    · split
      · exact clean_error _
      · split
        · exact clean_ok rfl
        · exact clean_error _

omit [Number N] in
theorem clean_callPrint {args : List (Value N)} (hargs : ∀ a ∈ args, a.Evaluated) :
    Clean (callPrint args) := by
  unfold callPrint
  split
  · exact clean_ok (hargs _ (by simp))
  · split
    · exact clean_ok (hargs _ (by simp))
    · exact clean_error _
  · exact clean_error _

omit [Number N] in
theorem clean_jsonScalarValue (ctx : Bindings N) (json : Option (Json N)) :
    Clean (jsonScalarValue ctx json) := by
  unfold jsonScalarValue
  split
  · exact clean_ok rfl
  · exact clean_ok rfl
  · split
    · exact clean_ok rfl
    · exact clean_error _
  · exact clean_ok rfl

omit [Number N] in
theorem clean_callJsonGet (ctx : Bindings N) (args : List (Value N)) :
    Clean (callJsonGet ctx args) := by
  unfold callJsonGet
  split
  · split
    · split
      · exact clean_error _
      · split
        · exact clean_ok rfl
        · exact clean_jsonScalarValue ctx _
    · exact clean_error _
  · exact clean_error _

/-! ## Results of steps on slots -/

theorem clean_statefulChanged (A : EvalAlloc → Bool) {v : Value N} (hv : v.Evaluated)
    (boolMode : Bool) (e : StateEntry N) : Clean (statefulChanged A v boolMode e).result := by
  have hresult : ∀ changed, (changedResult boolMode changed v).Evaluated := by
    intro changed
    unfold changedResult
    split_ifs
    · rfl
    · exact hv
    · rfl
  unfold statefulChanged
  split
  · exact clean_ok (hresult _)
  · split
    · exact clean_error _
    · split
      · split
        · exact clean_error _
        · exact clean_ok (hresult _)
      · exact clean_ok (hresult _)

theorem clean_holdOff (now : UInt64) (windowMs : N) {v : Value N} (hv : v.Evaluated)
    (e : StateEntry N) : Clean (holdOff now windowMs v e).result := by
  unfold holdOff
  dsimp only
  split
  · exact clean_ok hv
  · split
    · exact clean_ok rfl
    · exact clean_ok hv
  · exact clean_error _

theorem clean_edge (rising cur : Bool) (e : StateEntry N) : Clean (edge rising cur e).result := by
  unfold edge
  split
  · exact clean_ok rfl
  · apply clean_ok
    split_ifs <;> rfl
  · exact clean_error _

theorem clean_deadband (threshold x : N) (e : StateEntry N) :
    Clean (deadband threshold x e).result := by
  unfold deadband
  split
  · exact clean_ok rfl
  · exact clean_ok rfl

theorem clean_windowStep (A : EvalAlloc → Bool) (w : Window) (now : UInt64) (x : N)
    {f : StateEntry N → FormResult N} (hf : ∀ e, Clean (f e)) (e : StateEntry N) :
    Clean (windowStep A w now x f e).result := by
  unfold windowStep
  split
  · exact clean_error _
  · exact hf _

theorem evaluated_calcRing (e : StateEntry N) (what : StateEntry.WindowCalc) :
    (e.calcRing what).Evaluated := by
  unfold StateEntry.calcRing
  split
  · rfl
  · split <;> rfl

theorem clean_percentileResult (A : EvalAlloc → Bool) (p : N) (e : StateEntry N) :
    Clean (percentileResult A p e) := by
  unfold percentileResult
  split
  · exact clean_ok rfl
  · exact clean_error _

theorem clean_throttle (A : EvalAlloc → Bool) (w : Window) (now : UInt64) (max : N) {v : Value N}
    (hv : v.Evaluated) (e : StateEntry N) : Clean (throttle A w now max v e).result := by
  unfold throttle
  split
  · exact clean_error _
  · split
    · dsimp only
      split
      · exact clean_ok rfl
      · split
        · exact clean_error _
        · exact clean_ok hv
    · apply clean_ok
      split
      · exact hv
      · rfl

omit [Number N] in
theorem clean_retainPublish (A : EvalAlloc → Bool) (kind : ClockKind) (ms now : UInt64)
    (subject payload : Bytes) (resetDeadline : Bool) (e : StateEntry N) :
    Clean (retainPublish A kind ms now subject payload resetDeadline e).result := by
  unfold retainPublish
  dsimp only
  split
  · exact clean_error _
  · split
    · exact clean_error _
    · exact clean_ok rfl

theorem clean_aggregateSample (A : EvalAlloc → Bool) (metric : MetricKind) (ms now : UInt64)
    (subject : Bytes) (x : N) (e : StateEntry N) :
    Clean (aggregateSample A metric ms now subject x e).result := by
  unfold aggregateSample
  dsimp only
  split
  · exact clean_error _
  · split
    · exact clean_error _
    · exact clean_ok rfl

omit [Number N] in
theorem clean_onSilenceArm (A : EvalAlloc → Bool) (ms now : UInt64) (payload : Bytes)
    (body : List (Value N)) (e : StateEntry N) :
    Clean (onSilenceArm A ms now payload body e).result := by
  unfold onSilenceArm
  split
  · exact clean_error _
  · dsimp only
    split
    · exact clean_error _
    · exact clean_ok rfl

end Forms

end Monoblok.Patchbay
