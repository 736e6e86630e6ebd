import Mathlib.Data.Option.Basic

/-!
# Computations that respect a relation

A computation on a state respects a relation if, from related states, it comes
to the same result in related states, or to none from both; two computations are
related if the one does from the left what the other does from the right. An
invariant is the case of a relation below equality.
-/

namespace Monoblok.Relational

variable {σ α β ε : Type} {R : σ → σ → Prop}

/-- The same result in related states. -/
inductive Agree (R : σ → σ → Prop) : Option (α × σ) → Option (α × σ) → Prop
  | none : Agree R none none
  | some (a : α) {s t : σ} (h : R s t) : Agree R (some (a, s)) (some (a, t))

/-- Two computations that agree from related states. -/
def Relates (R : σ → σ → Prop) (m m' : StateT σ Option α) : Prop :=
  ∀ s t, R s t → Agree R (m s) (m' t)

def Respects (R : σ → σ → Prop) (m : StateT σ Option α) : Prop :=
  ∀ s t, R s t → Agree R (m s) (m t)

namespace Relates

theorem pure (a : α) : Relates R (pure a : StateT σ Option α) (Pure.pure a) := fun _ _ h => .some a h

theorem noResult : Relates R (fun _ => none : StateT σ Option α) fun _ => none := fun _ _ _ => .none

theorem bind {m m' : StateT σ Option α} {f f' : α → StateT σ Option β} (hm : Relates R m m')
    (hf : ∀ a, Relates R (f a) (f' a)) : Relates R (m >>= f) (m' >>= f') := by
  intro s t h
  change Agree R ((m s).bind fun x => f x.1 x.2) ((m' t).bind fun x => f' x.1 x.2)
  have hr := hm s t h
  generalize m s = x at hr ⊢
  generalize m' t = y at hr ⊢
  cases hr with
  | none => exact .none
  | some a h => exact hf a _ _ h

variable {m m' : ExceptT ε (StateT σ Option) α} {f f' : α → ExceptT ε (StateT σ Option) β}

theorem run_pure (a : α) : Relates R (Pure.pure a : ExceptT ε (StateT σ Option) α).run
    (Pure.pure a : ExceptT ε (StateT σ Option) α).run :=
  pure (Except.ok a : Except ε α)

theorem run_throw (e : ε) : Relates R (throw e : ExceptT ε (StateT σ Option) α).run
    (throw e : ExceptT ε (StateT σ Option) α).run :=
  pure (Except.error e : Except ε α)

theorem run_bind (hm : Relates R m.run m'.run) (hf : ∀ a, Relates R (f a).run (f' a).run) :
    Relates R (m >>= f).run (m' >>= f').run := by
  apply bind hm
  intro r
  cases r with
  | ok a => exact hf a
  | error e => exact pure (Except.error e : Except ε β)

theorem run_lift {m m' : StateT σ Option α} (hm : Relates R m m') :
    Relates R (ExceptT.lift m : ExceptT ε (StateT σ Option) α).run
      (ExceptT.lift m' : ExceptT ε (StateT σ Option) α).run := by
  intro s t h
  change Agree R ((m s).bind fun x => some (Except.ok x.1, x.2))
    ((m' t).bind fun x => some (Except.ok x.1, x.2))
  have hr := hm s t h
  generalize m s = x at hr ⊢
  generalize m' t = y at hr ⊢
  cases hr with
  | none => exact .none
  | some a h => exact .some (Except.ok a) h

end Relates

namespace Respects

theorem pure (a : α) : Respects R (pure a : StateT σ Option α) := Relates.pure a

theorem noResult : Respects R (fun _ => none : StateT σ Option α) := Relates.noResult

theorem bind {m : StateT σ Option α} {f : α → StateT σ Option β} (hm : Respects R m)
    (hf : ∀ a, Respects R (f a)) : Respects R (m >>= f) :=
  Relates.bind hm hf

/-- A read of the state of which only a part that is the same in related states
is used. -/
theorem observe (g : σ → α) (hg : ∀ s t, R s t → g s = g t) {f : α → StateT σ Option β}
    (hf : ∀ a, Respects R (f a)) : Respects R (get >>= fun s => f (g s)) := by
  intro s t h
  change Agree R (f (g s) s) (f (g t) t)
  rw [hg s t h]
  exact hf (g t) s t h

theorem modify {f : σ → σ} (hf : ∀ s t, R s t → R (f s) (f t)) :
    Respects R (modify f : StateT σ Option PUnit) := fun s t h => .some PUnit.unit (hf s t h)

/-- A read of the whole state. -/
theorem get_bind {f : σ → StateT σ Option α} (hf : ∀ s t, R s t → Agree R (f s s) (f t t)) :
    Respects R (get >>= f) := hf

/-! ## Computations that may fail -/

variable {m : ExceptT ε (StateT σ Option) α} {f : α → ExceptT ε (StateT σ Option) β}

theorem run_pure (a : α) : Respects R (Pure.pure a : ExceptT ε (StateT σ Option) α).run :=
  pure (Except.ok a : Except ε α)

theorem run_throw (e : ε) : Respects R (throw e : ExceptT ε (StateT σ Option) α).run :=
  pure (Except.error e : Except ε α)

theorem run_bind (hm : Respects R m.run) (hf : ∀ a, Respects R (f a).run) :
    Respects R (m >>= f).run :=
  Relates.run_bind hm hf

theorem run_observe (g : σ → α) (hg : ∀ s t, R s t → g s = g t)
    (hf : ∀ a, Respects R (f a).run) :
    Respects R (get >>= fun s => f (g s) : ExceptT ε (StateT σ Option) β).run :=
  observe g hg hf

theorem run_get_bind {f : σ → ExceptT ε (StateT σ Option) α}
    (hf : ∀ s t, R s t → Agree R ((f s).run s) ((f t).run t)) :
    Respects R (get >>= f : ExceptT ε (StateT σ Option) α).run := hf

end Respects

/-- An invariant is a relation that holds between a state and itself. -/
theorem Respects.invariant {I : σ → Prop} {m : StateT σ Option α}
    (h : Respects (fun s t => s = t ∧ I s) m) {s : σ} (hs : I s) {a : α} {s' : σ}
    (hrun : m s = some (a, s')) : I s' := by
  have hr := h s s ⟨rfl, hs⟩
  rw [hrun] at hr
  cases hr with
  | some _ h => exact h.2

theorem Respects.of_invariant {I : σ → Prop} {m : StateT σ Option α}
    (h : ∀ s, I s → ∀ a s', m s = some (a, s') → I s') : Respects (fun s t => s = t ∧ I s) m := by
  rintro s _ ⟨rfl, hs⟩
  have hkeep := h s hs
  generalize m s = x at hkeep ⊢
  cases x with
  | none => exact .none
  | some x => exact .some x.1 ⟨rfl, hkeep x.1 x.2 rfl⟩

/-- A state related to itself comes to such a state. -/
theorem Respects.self {m : StateT σ Option α} (h : Respects R m) {s : σ} (hs : R s s) {a : α}
    {s' : σ} (hrun : m s = some (a, s')) : R s' s' := by
  have hr := h s s hs
  rw [hrun] at hr
  cases hr with
  | some _ h => exact h

theorem Agree.ends {x y : Option (α × σ)} (h : Agree R x y) {a b : α} {s t : σ}
    (hx : x = Option.some (a, s)) (hy : y = Option.some (b, t)) : R s t := by
  cases h with
  | none => cases hx
  | some _ h =>
    cases hx
    cases hy
    exact h

end Monoblok.Relational
