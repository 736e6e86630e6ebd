import Mathlib.Data.List.Basic

/-!
# Runs of a step function

A run folds a step function over a list of events. `Along` asks for a condition
on every step of a run, in the state the step starts from; `AlongSome` does so
where a step may have no result.
-/

namespace Monoblok.Runs

variable {σ ε : Type*} {step : σ → ε → σ}

def Along (step : σ → ε → σ) (P : σ → ε → Prop) : σ → List ε → Prop
  | _, [] => True
  | s, e :: es => P s e ∧ Along step P (step s e) es

/-- What every step that meets the condition preserves holds at the end. -/
theorem Along.invariant {P : σ → ε → Prop} {I : σ → Prop}
    (hstep : ∀ s e, I s → P s e → I (step s e)) {s : σ} {es : List ε} (h : Along step P s es)
    (hs : I s) : I (es.foldl step s) := by
  induction es generalizing s with
  | nil => exact hs
  | cons e es ih => exact ih h.2 (hstep s e hs h.1)

/-- What every step with a result preserves holds at the end. -/
theorem foldlM_invariant {step : σ → ε → Option σ} {I : σ → Prop}
    (hstep : ∀ s e s', I s → step s e = some s' → I s') {s s' : σ} {es : List ε} (hs : I s)
    (hrun : es.foldlM step s = some s') : I s' := by
  induction es generalizing s with
  | nil =>
    cases hrun
    exact hs
  | cons e es ih =>
    rw [List.foldlM_cons, Option.bind_eq_bind, Option.bind_eq_some_iff] at hrun
    obtain ⟨s₁, h₁, hrun⟩ := hrun
    exact ih (hstep s e s₁ hs h₁) hrun

/-- What holds at every place of a list, of what stands before it and of the
element there. -/
theorem forall_places_snoc {P : List ε → ε → Prop} {es : List ε} {e : ε} :
    (∀ pre x post, es ++ [e] = pre ++ x :: post → P pre x) ↔
      (∀ pre x post, es = pre ++ x :: post → P pre x) ∧ P es e := by
  constructor
  · intro h
    refine ⟨fun pre x post heq => h pre x (post ++ [e]) ?_, h es e [] rfl⟩
    rw [heq, List.append_assoc, List.cons_append]
  · rintro ⟨hes, he⟩ pre x post heq
    rcases List.eq_nil_or_concat post with rfl | ⟨post', y, rfl⟩
    · obtain ⟨rfl, hx⟩ := List.append_inj' heq rfl
      cases hx
      exact he
    · have heq' : es ++ [e] = (pre ++ x :: post') ++ [y] := by
        rw [heq, List.append_assoc, List.cons_append, List.concat_eq_append]
      exact hes pre x post' (List.append_inj' heq' rfl).1

def AlongSome (step : σ → ε → Option σ) (P : σ → ε → Prop) : σ → List ε → Prop
  | _, [] => True
  | s, e :: es => P s e ∧ ∀ s', step s e = some s' → AlongSome step P s' es

theorem AlongSome.invariant {step : σ → ε → Option σ} {P : σ → ε → Prop} {I : σ → Prop}
    (hstep : ∀ s e s', I s → P s e → step s e = some s' → I s') {s s' : σ} {es : List ε}
    (h : AlongSome step P s es) (hs : I s) (hrun : es.foldlM step s = some s') : I s' := by
  induction es generalizing s with
  | nil =>
    cases hrun
    exact hs
  | cons e es ih =>
    rw [List.foldlM_cons, Option.bind_eq_bind, Option.bind_eq_some_iff] at hrun
    obtain ⟨s₁, h₁, hrun⟩ := hrun
    exact ih (h.2 s₁ h₁) (hstep s e s₁ hs h.1 h₁) hrun

end Monoblok.Runs
