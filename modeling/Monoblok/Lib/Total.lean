import Mathlib.Order.Filter.AtTopBot.Basic

/-!
# Computations that come to an end

A computation is given with an amount of fuel and has no result when the fuel
does not last. It is total from a state if from some amount on the result is one
and the same. The rules are those of a total-correctness triple.
-/

namespace Monoblok.Fuel

open Filter

variable {σ α β ε : Type}

/-- With enough fuel, whatever the amount, the computation comes to one result,
for which the postcondition holds. -/
def Total (f : ℕ → StateT σ Option α) (s : σ) (Q : α → σ → Prop) : Prop :=
  ∃ a t, Q a t ∧ ∀ᶠ n in atTop, f n s = some (a, t)

section Rules

variable {f : ℕ → StateT σ Option α} {g : ℕ → α → StateT σ Option β} {s : σ} {P : α → σ → Prop}
  {Q : β → σ → Prop}

theorem Total.of_eq {m : StateT σ Option α} {a : α} {t : σ} (h : m s = some (a, t)) (hP : P a t) :
    Total (fun _ => m) s P :=
  ⟨a, t, hP, .of_forall fun _ => h⟩

theorem Total.pure {a : α} (hP : P a s) : Total (fun _ => (pure a : StateT σ Option α)) s P :=
  .of_eq rfl hP

theorem Total.mono {P' : α → σ → Prop} (h : Total f s P) (hP : ∀ a t, P a t → P' a t) :
    Total f s P' := by
  obtain ⟨a, t, hpost, hrun⟩ := h
  exact ⟨a, t, hP a t hpost, hrun⟩

theorem Total.congr {f' : ℕ → StateT σ Option α} (h : Total f s P)
    (heq : ∀ᶠ n in atTop, f' n s = f n s) : Total f' s P := by
  obtain ⟨a, t, hpost, hrun⟩ := h
  refine ⟨a, t, hpost, ?_⟩
  filter_upwards [hrun, heq] with n hrun heq
  rw [heq, hrun]

theorem Total.bind (hf : Total f s P) (hg : ∀ a t, P a t → Total (fun n => g n a) t Q) :
    Total (fun n => f n >>= g n) s Q := by
  obtain ⟨a, t, hpost, hrun⟩ := hf
  obtain ⟨b, u, hpost', hrun'⟩ := hg a t hpost
  refine ⟨b, u, hpost', ?_⟩
  filter_upwards [hrun, hrun'] with n hrun hrun'
  change (f n s).bind (fun x => g n x.1 x.2) = some (b, u)
  rw [hrun]
  exact hrun'

/-- A read of the state. -/
theorem Total.get_bind {f : ℕ → σ → StateT σ Option α} (h : Total (fun n => f n s) s P) :
    Total (fun n => get >>= f n) s P := h

/-- What holds of every result holds of the one it comes to. -/
theorem Total.of_runs {P' : α → σ → Prop} (h : Total f s P)
    (hP : ∀ n a t, P a t → f n s = some (a, t) → P' a t) : Total f s P' := by
  obtain ⟨a, t, hpost, hrun⟩ := h
  obtain ⟨n, hn⟩ := hrun.exists
  exact ⟨a, t, hP n a t hpost hn, hrun⟩

/-- Two amounts of fuel that both last come to the same result. -/
theorem Total.result (h : Total f s P) : ∃ a t, P a t ∧ ∃ n₀, ∀ n, n₀ ≤ n → f n s = some (a, t) := by
  obtain ⟨a, t, hpost, hrun⟩ := h
  exact ⟨a, t, hpost, eventually_atTop.mp hrun⟩

end Rules

/-! ## Computations that may fail -/

/-- Total, with a postcondition for the value and a relation between the states
before and after, also where the computation fails. -/
def TotalRun (L : σ → σ → Prop) (f : ℕ → ExceptT ε (StateT σ Option) α) (s : σ)
    (Q : α → σ → Prop) : Prop :=
  Total (fun n => (f n).run) s fun r t => L s t ∧ ∀ a, r = .ok a → Q a t

section Runs

variable {L : σ → σ → Prop} {f : ℕ → ExceptT ε (StateT σ Option) α}
  {g : ℕ → α → ExceptT ε (StateT σ Option) β} {s : σ} {P : α → σ → Prop} {Q : β → σ → Prop}

theorem TotalRun.pure [Std.Refl L] {a : α} (hP : P a s) :
    TotalRun L (fun _ => (Pure.pure a : ExceptT ε (StateT σ Option) α)) s P := by
  refine Total.of_eq (a := .ok a) (t := s) rfl ⟨Std.Refl.refl s, ?_⟩
  intro b hb
  cases hb
  exact hP

theorem TotalRun.throw [Std.Refl L] (e : ε) :
    TotalRun L (fun _ => (throw e : ExceptT ε (StateT σ Option) α)) s P := by
  refine Total.of_eq (a := .error e) (t := s) rfl ⟨Std.Refl.refl s, ?_⟩
  intro b hb
  cases hb

theorem TotalRun.lift {f : ℕ → StateT σ Option α} (h : Total f s fun a t => L s t ∧ P a t) :
    TotalRun L (fun n => (ExceptT.lift (f n) : ExceptT ε (StateT σ Option) α)) s P := by
  obtain ⟨a, t, hpost, hrun⟩ := h
  refine ⟨.ok a, t, ⟨hpost.1, ?_⟩, ?_⟩
  · intro b hb
    cases hb
    exact hpost.2
  · filter_upwards [hrun] with n hrun
    change (f n s).bind (fun x => some (Except.ok x.1, x.2)) = _
    rw [hrun]
    rfl

theorem TotalRun.mono {P' : α → σ → Prop} (h : TotalRun L f s P)
    (hP : ∀ a t, L s t → P a t → P' a t) : TotalRun L f s P' :=
  Total.mono h fun _ t hpost => ⟨hpost.1, fun a ha => hP a t hpost.1 (hpost.2 a ha)⟩

theorem TotalRun.bind [IsTrans σ L] (hf : TotalRun L f s P)
    (hg : ∀ a t, L s t → P a t → TotalRun L (fun n => g n a) t Q) :
    TotalRun L (fun n => f n >>= g n) s Q := by
  apply Total.bind hf
  rintro r t ⟨hL, hpost⟩
  cases r with
  | ok a =>
    apply Total.mono (hg a t hL (hpost a rfl))
    rintro r' u ⟨hL', hpost'⟩
    exact ⟨IsTrans.trans s t u hL hL', hpost'⟩
  | error e =>
    refine Total.of_eq (a := .error e) (t := t) rfl ⟨hL, ?_⟩
    intro b hb
    cases hb

end Runs

end Monoblok.Fuel
