import Mathlib.Data.Option.Basic

/-!
# Computations that coincide under an invariant

From the states of an invariant two computations do the same, and what they come
to is in the invariant again, with a postcondition for the result. With one
computation on both sides these are the rules of a partial-correctness triple.
-/

namespace Monoblok.Coinciding

variable {σ α β ε : Type} {I : σ → Prop} {P : α → Prop} {Q : β → Prop}

def Coincide (I : σ → Prop) (P : α → Prop) (m m' : StateT σ Option α) : Prop :=
  ∀ s, I s → m s = m' s ∧ ∀ a t, m s = some (a, t) → I t ∧ P a

namespace Coincide

variable {m m' : StateT σ Option α}

theorem pure {a : α} (h : P a) :
    Coincide I P (Pure.pure a : StateT σ Option α) (Pure.pure a) := by
  intro s hs
  refine ⟨rfl, ?_⟩
  intro b t hrun
  cases hrun
  exact ⟨hs, h⟩

theorem noResult : Coincide I P (fun _ => none) fun _ => none := by
  intro s _
  refine ⟨rfl, ?_⟩
  intro a t hrun
  cases hrun

theorem bind {f f' : α → StateT σ Option β} (hm : Coincide I P m m')
    (hf : ∀ a, P a → Coincide I Q (f a) (f' a)) : Coincide I Q (m >>= f) (m' >>= f') := by
  intro s hs
  obtain ⟨heq, hpost⟩ := hm s hs
  change (m s).bind (fun x => f x.1 x.2) = (m' s).bind (fun x => f' x.1 x.2) ∧
    ∀ b t, (m s).bind (fun x => f x.1 x.2) = some (b, t) → _
  rw [← heq]
  cases hrun : m s with
  | none =>
    refine ⟨rfl, ?_⟩
    intro b t h
    cases h
  | some x =>
    obtain ⟨ht, ha⟩ := hpost x.1 x.2 hrun
    exact hf x.1 ha x.2 ht

/-- A read of the state. -/
theorem get_bind {f f' : σ → StateT σ Option α}
    (h : ∀ s, I s → f s s = f' s s ∧ ∀ a t, f s s = some (a, t) → I t ∧ P a) :
    Coincide I P (get >>= f) (get >>= f') := h

/-- A read of a part of the state. -/
theorem observe {γ : Type} (o : σ → γ) {f g : γ → StateT σ Option α}
    (h : ∀ c, Coincide I P (f c) (g c)) :
    Coincide I P (get >>= fun s => f (o s)) (get >>= fun s => g (o s)) :=
  fun s hs => h (o s) s hs

theorem modify {f : σ → σ} (hf : ∀ s, I s → I (f s)) :
    Coincide I (fun _ => True) (modify f : StateT σ Option PUnit) (modify f) := by
  intro s hs
  refine ⟨rfl, ?_⟩
  intro a t hrun
  cases hrun
  exact ⟨hf s hs, trivial⟩

theorem left (h : Coincide I P m m') {s : σ} (hs : I s) {a : α} {t : σ} (hrun : m s = some (a, t)) :
    I t ∧ P a :=
  (h s hs).2 a t hrun

theorem eq (h : Coincide I P m m') {s : σ} (hs : I s) : m s = m' s := (h s hs).1

end Coincide

/-! ## Computations that may fail -/

/-- The postcondition is for the value of a computation that succeeds. -/
def CoincideRun (I : σ → Prop) (P : α → Prop) (x x' : ExceptT ε (StateT σ Option) α) : Prop :=
  Coincide I (fun r => ∀ a, r = Except.ok a → P a) x.run x'.run

namespace CoincideRun

variable {x x' : ExceptT ε (StateT σ Option) α} {f f' : α → ExceptT ε (StateT σ Option) β}

theorem pure {a : α} (h : P a) :
    CoincideRun I P (Pure.pure a : ExceptT ε (StateT σ Option) α) (Pure.pure a) := by
  apply Coincide.pure (a := (Except.ok a : Except ε α))
  intro b hb
  cases hb
  exact h

theorem throw (e : ε) :
    CoincideRun I P (throw e : ExceptT ε (StateT σ Option) α) (MonadExcept.throw e) := by
  apply Coincide.pure (a := (Except.error e : Except ε α))
  intro b hb
  cases hb

theorem bind (hx : CoincideRun I P x x') (hf : ∀ a, P a → CoincideRun I Q (f a) (f' a)) :
    CoincideRun I Q (x >>= f) (x' >>= f') := by
  apply Coincide.bind hx
  intro r hr
  cases r with
  | ok a => exact hf a (hr a rfl)
  | error e =>
    apply Coincide.pure (a := (Except.error e : Except ε β))
    intro b hb
    cases hb

theorem lift {m m' : StateT σ Option α} (h : Coincide I P m m') :
    CoincideRun I P (ExceptT.lift m : ExceptT ε (StateT σ Option) α) (ExceptT.lift m') := by
  intro s hs
  obtain ⟨heq, hpost⟩ := h s hs
  change (m s).bind (fun x => some (Except.ok x.1, x.2)) =
      (m' s).bind (fun x => some (Except.ok x.1, x.2)) ∧
    ∀ r t, (m s).bind (fun x => some ((Except.ok x.1 : Except ε α), x.2)) = some (r, t) → _
  rw [← heq]
  refine ⟨rfl, ?_⟩
  intro r t hrun
  obtain ⟨⟨a, t'⟩, hm, hr⟩ := Option.bind_eq_some_iff.mp hrun
  cases hr
  obtain ⟨ht, ha⟩ := hpost a t' hm
  refine ⟨ht, ?_⟩
  intro b hb
  cases hb
  exact ha

theorem observe {γ : Type} (o : σ → γ) {f g : γ → ExceptT ε (StateT σ Option) α}
    (h : ∀ c, CoincideRun I P (f c) (g c)) :
    CoincideRun I P (get >>= fun s => f (o s)) (get >>= fun s => g (o s)) :=
  fun s hs => h (o s) s hs

/-- The outcome as a value. -/
theorem lift_run (h : CoincideRun I P x x') :
    CoincideRun I (fun r : Except ε α => ∀ a, r = .ok a → P a)
      (ExceptT.lift x.run : ExceptT ε (StateT σ Option) (Except ε α)) (ExceptT.lift x'.run) :=
  lift h

end CoincideRun

end Monoblok.Coinciding
