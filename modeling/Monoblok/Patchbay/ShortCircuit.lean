import Monoblok.Patchbay.FixedPoints

/-!
# Short circuits

`and` and `or` evaluate their arguments up to the first that decides and no further. `or`
gives `nil` where no argument decides, whatever the last of them comes to.
-/

namespace Monoblok.Patchbay

open Number

variable {N W : Type}

/-- An argument decides when it fails or is as truthy as is wanted. -/
inductive Decides (want : Bool) : Except EvalError (Value N) → Prop
  | error (e : EvalError) : Decides want (.error e)
  | value {v : Value N} (h : v.truthy = want) : Decides want (.ok v)

section Prefixes

variable (rec : Ctx N W → Value N → EvalM N W (Value N)) (ctx : Ctx N W)

/-- Some arguments evaluate in a row, and none of them decides. -/
def Passes (want : Bool) (args : List (Value N)) (m m' : Machine N W) : Prop :=
  ∃ vs, (evalEach rec ctx args).run m = some (.ok vs, m') ∧ ∀ v ∈ vs, v.truthy = !want

/-- The arguments up to one are evaluated and that one gives the result: it decides, or is
the last. -/
def ShortCircuits (want : Bool) (args : List (Value N)) (m : Machine N W)
    (res : Except EvalError (Value N)) (m' : Machine N W) : Prop :=
  ∃ pre v post m₁, args = pre ++ v :: post ∧ Passes rec ctx want pre m m₁ ∧
    (rec ctx v).run m₁ = some (res, m') ∧ (Decides want res ∨ post = [])

/-- No argument is truthy, and the last of them is `false`. -/
def EndsInFalse (args : List (Value N)) (m : Machine N W) : Prop :=
  ∃ pre v m₁ m', args = pre ++ [v] ∧ Passes rec ctx true pre m m₁ ∧
    (rec ctx v).run m₁ = some (.ok (.bool false), m')

end Prefixes

section Arguments

variable {rec : Ctx N W → Value N → EvalM N W (Value N)} {ctx : Ctx N W} {want : Bool}
  {v : Value N} {vs : List (Value N)} {m m' : Machine N W} {res : Except EvalError (Value N)}

theorem passes_cons : Passes rec ctx want (v :: vs) m m' ↔
    ∃ a m₁, (rec ctx v).run m = some (.ok a, m₁) ∧ a.truthy = (!want) ∧
      Passes rec ctx want vs m₁ m' := by
  constructor
  · rintro ⟨as, hrun, htruthy⟩
    rcases run_bind_cases hrun with ⟨e, m₁, -, heq⟩ | ⟨a, m₁, ha, hrest⟩
    · cases heq
    rcases run_bind_cases hrest with ⟨e, m₂, -, heq⟩ | ⟨bs, m₂, hbs, heq⟩
    · cases heq
    cases heq
    obtain ⟨hhead, htail⟩ := List.forall_mem_cons.mp htruthy
    exact ⟨a, m₁, ha, hhead, bs, hbs, htail⟩
  · rintro ⟨a, m₁, ha, hhead, bs, hbs, htail⟩
    refine ⟨a :: bs, ?_, List.forall_mem_cons.mpr ⟨hhead, htail⟩⟩
    rw [evalEach, run_bind_ok ha, run_bind_ok hbs]
    rfl

/-- The first argument gives the result, or does not decide and the others give it. -/
theorem shortCircuits_cons : ShortCircuits rec ctx want (v :: vs) m res m' ↔
    (rec ctx v).run m = some (res, m') ∧ (Decides want res ∨ vs = []) ∨
      ∃ a m₁, (rec ctx v).run m = some (.ok a, m₁) ∧ a.truthy = (!want) ∧
        ShortCircuits rec ctx want vs m₁ res m' := by
  constructor
  · rintro ⟨pre, w, post, m₁, heq, hpre, hw, hdecides⟩
    cases pre with
    | nil =>
      obtain ⟨as, hrun, -⟩ := hpre
      cases hrun
      obtain ⟨rfl, rfl⟩ := List.cons.inj heq
      exact .inl ⟨hw, hdecides⟩
    | cons u pre =>
      obtain ⟨rfl, rfl⟩ := List.cons.inj heq
      obtain ⟨a, m₂, ha, htruthy, hpre⟩ := passes_cons.mp hpre
      exact .inr ⟨a, m₂, ha, htruthy, pre, w, post, m₁, rfl, hpre, hw, hdecides⟩
  · rintro (⟨hv, hdecides⟩ | ⟨a, m₁, ha, htruthy, pre, w, post, m₂, rfl, hpre, hw, hdecides⟩)
    · exact ⟨[], v, vs, m, rfl, ⟨[], rfl, by simp⟩, hv, hdecides⟩
    · exact ⟨v :: pre, w, post, m₂, rfl, passes_cons.mpr ⟨a, m₁, ha, htruthy, hpre⟩, hw, hdecides⟩

theorem not_shortCircuits_nil : ¬ShortCircuits rec ctx want [] m res m' := by
  rintro ⟨pre, v, post, m₁, heq, -⟩
  cases pre <;> cases heq

/-- `eval_and` -/
theorem run_evalAndFrom {last : Value N} (hne : vs ≠ []) :
    (evalAndFrom rec ctx last vs).run m = some (res, m') ↔
      ShortCircuits rec ctx false vs m res m' := by
  induction vs generalizing last m with
  | nil => exact absurd rfl hne
  | cons v vs ih =>
    rw [shortCircuits_cons, evalAndFrom]
    constructor
    · intro hrun
      rcases run_bind_cases hrun with ⟨e, m₁, hv, heq⟩ | ⟨a, m₁, hv, hrest⟩
      · cases heq
        exact .inl ⟨hv, .inl (.error e)⟩
      cases ha : a.truthy with
      | false =>
        rw [ha] at hrest
        cases hrest
        exact .inl ⟨hv, .inl (.value ha)⟩
      | true =>
        rw [ha, if_pos rfl] at hrest
        by_cases hlast : vs = []
        · subst hlast
          cases hrest
          exact .inl ⟨hv, .inr rfl⟩
        · exact .inr ⟨a, m₁, hv, ha, (ih hlast).mp hrest⟩
    · rintro (⟨hv, hdecides⟩ | ⟨a, m₁, hv, ha, hrest⟩)
      · cases res with
        | error e => exact run_bind_error hv
        | ok a =>
          rw [run_bind_ok hv]
          cases ha : a.truthy with
          | false => rfl
          | true =>
            obtain rfl : vs = [] := by
              rcases hdecides with hdecides | hlast
              · cases hdecides with
                | value h => exact absurd (ha.symm.trans h) (by decide)
              · exact hlast
            rfl
      · have hne' : vs ≠ [] := by
          rintro rfl
          exact not_shortCircuits_nil hrest
        rw [run_bind_ok hv, ha]
        exact (ih hne').mpr hrest

/-- What `eval_or` makes of a result. -/
def orResult : Except EvalError (Value N) → Except EvalError (Value N)
  | .error e => .error e
  | .ok v => .ok (if v.truthy then v else .nil)

theorem orResult_of_decides (h : Decides true res) : orResult res = res := by
  cases h with
  | error e => rfl
  | value h => simp [orResult, h]

/-- `eval_or` -/
theorem run_evalOr (hne : vs ≠ []) :
    (evalOr rec ctx vs).run m = some (res, m') ↔
      ∃ r, ShortCircuits rec ctx true vs m r m' ∧ res = orResult r := by
  induction vs generalizing m with
  | nil => exact absurd rfl hne
  | cons v vs ih =>
    simp only [shortCircuits_cons]
    rw [evalOr]
    constructor
    · intro hrun
      rcases run_bind_cases hrun with ⟨e, m₁, hv, heq⟩ | ⟨a, m₁, hv, hrest⟩
      · cases heq
        exact ⟨.error e, .inl ⟨hv, .inl (.error e)⟩, rfl⟩
      cases ha : a.truthy with
      | true =>
        rw [ha] at hrest
        cases hrest
        exact ⟨.ok a, .inl ⟨hv, .inl (.value ha)⟩, by simp [orResult, ha]⟩
      | false =>
        rw [ha, if_neg (by decide)] at hrest
        by_cases hlast : vs = []
        · subst hlast
          cases hrest
          exact ⟨.ok a, .inl ⟨hv, .inr rfl⟩, by simp [orResult, ha]⟩
        · obtain ⟨r, hr, heq⟩ := (ih hlast).mp hrest
          exact ⟨r, .inr ⟨a, m₁, hv, ha, hr⟩, heq⟩
    · rintro ⟨r, (⟨hv, hdecides⟩ | ⟨a, m₁, hv, ha, hrest⟩), rfl⟩
      · cases r with
        | error e => exact run_bind_error hv
        | ok a =>
          rw [run_bind_ok hv]
          cases ha : a.truthy with
          | true =>
            simp only [orResult, ha]
            rfl
          | false =>
            obtain rfl : vs = [] := by
              rcases hdecides with hdecides | hlast
              · cases hdecides with
                | value h => exact absurd (ha.symm.trans h) (by decide)
              · exact hlast
            simp only [orResult, ha]
            rfl
      · have hne' : vs ≠ [] := by
          rintro rfl
          exact not_shortCircuits_nil hrest
        rw [run_bind_ok hv, ha]
        exact (ih hne').mpr ⟨r, hrest, rfl⟩

end Arguments

section Calls

variable [Number N] {ctx : Ctx N W} {m : Machine N W}

theorem shortCircuits_rereadIn (depth : ℕ) (want : Bool) (args : List (Value N)) :
    ShortCircuits (eval depth) (ctx.rereadIn m) want args =
      ShortCircuits (eval depth) ctx want args := by
  funext m₀ res m'
  simp only [ShortCircuits, Passes, evalEach_rereadIn, eval_rereadIn]

/-- `and` is as documented. So is `or`, unless no argument is truthy and the last of them is
`false`, which it gives as `nil`. -/
theorem and_or_short_circuit (depth : ℕ) (v : Value N) (vs : List (Value N)) :
    (∀ res m', (eval (depth + 1) ctx (.list (.symbol (lit "and") :: v :: vs))).run m =
        some (res, m') ↔ ShortCircuits (eval depth) ctx false (v :: vs) m res m') ∧
      ((∀ res m', (eval (depth + 1) ctx (.list (.symbol (lit "or") :: v :: vs))).run m =
        some (res, m') ↔ ShortCircuits (eval depth) ctx true (v :: vs) m res m') ↔
        ¬EndsInFalse (eval depth) ctx (v :: vs) m) := by
  have hand : ∀ res m', (eval (depth + 1) ctx (.list (.symbol (lit "and") :: v :: vs))).run m =
      some (res, m') ↔ ShortCircuits (eval depth) ctx false (v :: vs) m res m' := by
    intro res m'
    rw [← shortCircuits_rereadIn (m := m)]
    exact run_evalAndFrom (List.cons_ne_nil v vs)
  have hor : ∀ res m', (eval (depth + 1) ctx (.list (.symbol (lit "or") :: v :: vs))).run m =
      some (res, m') ↔
        ∃ r, ShortCircuits (eval depth) ctx true (v :: vs) m r m' ∧ res = orResult r := by
    intro res m'
    rw [← shortCircuits_rereadIn (m := m)]
    exact run_evalOr (List.cons_ne_nil v vs)
  refine ⟨hand, ?_⟩
  constructor
  · rintro hclaim ⟨pre, w, m₁, m', heq, hpre, hw⟩
    have hends : ShortCircuits (eval depth) ctx true (v :: vs) m (.ok (.bool false)) m' :=
      ⟨pre, w, [], m₁, heq, hpre, hw, .inr rfl⟩
    have hfalse := (hclaim _ _).mpr hends
    have hnil := (hor (.ok .nil) m').mpr ⟨.ok (.bool false), hends, rfl⟩
    cases hfalse.symm.trans hnil
  · intro hends res m'
    -- a result that does not decide is that of the last argument
    have hsame : ∀ r, ShortCircuits (eval depth) ctx true (v :: vs) m r m' → orResult r = r := by
      rintro r ⟨pre, w, post, m₁, heq, hpre, hw, hdecides | rfl⟩
      · exact orResult_of_decides hdecides
      · cases r with
        | error e => rfl
        | ok a =>
          cases a with
          | bool b =>
            cases b with
            | true => rfl
            | false => exact absurd ⟨pre, w, m₁, m', heq, hpre, hw⟩ hends
          | _ => rfl
    rw [hor]
    constructor
    · rintro ⟨r, hr, rfl⟩
      rwa [hsame r hr]
    · exact fun h => ⟨res, h, (hsame res h).symm⟩

/-- `(or false)` is `nil`. -/
theorem or_false_is_nil :
    (eval 3 (quietCtx true) (.list [.symbol (lit "or"), .bool false])).run noRules =
      some (.ok .nil, noRules) ∧
    ShortCircuits (eval 2) (quietCtx true) true [.bool false] noRules (.ok (.bool false)) noRules ∧
    ¬ShortCircuits (eval 2) (quietCtx true) true [.bool false] noRules (.ok .nil) noRules := by
  refine ⟨rfl, ⟨[], .bool false, [], noRules, rfl, ⟨[], rfl, by simp⟩, rfl, .inr rfl⟩, ?_⟩
  rintro ⟨pre, v, post, m₁, heq, hpre, hv, -⟩
  cases pre with
  | nil =>
    cases heq
    cases hv
  | cons u pre =>
    obtain ⟨-, hnil⟩ := List.cons.inj heq
    cases pre <;> cases hnil

end Calls

end Monoblok.Patchbay
