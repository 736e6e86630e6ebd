import Mathlib.Data.List.Basic

/-!
# Runs that list what they do

A step of such a run may have no result; else it gives the next state and what
the step did. Two runs that have some of their events in common are seen alike
by an observer of these, if the other events change nothing for it and the
common ones keep the states alike.
-/

namespace Monoblok.Trace

variable {σ τ ε γ δ ω : Type*}

/-- A run over a list of events, with what all its steps did. -/
def collect (f : ε → σ → Option (List γ × σ)) : List ε → σ → Option (List γ × σ)
  | [], s => some ([], s)
  | e :: es, s => (f e s).bind fun x => (collect f es x.2).map fun y => (x.1 ++ y.1, y.2)

/-- What a run over a list of events did, from its first event on. -/
inductive Collected (f : ε → σ → Option (List γ × σ)) (e : ε) (es : List ε) (s s₂ : σ) :
    List γ → Prop
  | mk {s₁ : σ} {c d : List γ} (first : f e s = some (c, s₁))
      (rest : collect f es s₁ = some (d, s₂)) : Collected f e es s s₂ (c ++ d)

theorem collected_of_collect {f : ε → σ → Option (List γ × σ)} {e : ε} {es : List ε} {s s₂ : σ}
    {c : List γ} (h : collect f (e :: es) s = some (c, s₂)) : Collected f e es s s₂ c := by
  obtain ⟨⟨c₁, s₁⟩, hfirst, hrest⟩ := Option.bind_eq_some_iff.mp h
  obtain ⟨⟨c₂, s₂⟩, hcollect, heq⟩ := Option.map_eq_some_iff.mp hrest
  cases heq
  exact .mk hfirst hcollect

/-- A run that goes on. -/
theorem collect_append {f : ε → σ → Option (List γ × σ)} {es es' : List ε} {s s₁ s₂ : σ}
    {c d : List γ} (h : collect f es s = some (c, s₁)) (h' : collect f es' s₁ = some (d, s₂)) :
    collect f (es ++ es') s = some (c ++ d, s₂) := by
  induction es generalizing s c with
  | nil =>
    cases h
    exact h'
  | cons e es ih =>
    cases collected_of_collect h with
    | mk hfirst hrest =>
      rw [List.cons_append, collect, hfirst, Option.bind_some, ih hrest, Option.map_some,
        List.append_assoc]

/-- What every step keeps, of what was done so far and of the state, holds at the
end. -/
theorem collect_invariant {f : ε → σ → Option (List γ × σ)} {I : List γ → σ → Prop}
    (hstep : ∀ c s e d s', I c s → f e s = some (d, s') → I (c ++ d) s') {es : List ε} {s s' : σ}
    {c d : List γ} (hs : I c s) (hrun : collect f es s = some (d, s')) : I (c ++ d) s' := by
  induction es generalizing s c d with
  | nil =>
    cases hrun
    rw [List.append_nil]
    exact hs
  | cons e es ih =>
    cases collected_of_collect hrun with
    | mk hfirst hrest =>
      rw [← List.append_assoc]
      exact ih (hstep c s e _ _ hs hfirst) hrest

/-- From `s` a run can go on to a state with `P`. -/
def CanReach (f : ε → σ → Option (List γ × σ)) (P : σ → Prop) (s : σ) : Prop :=
  ∃ es d s', collect f es s = some (d, s') ∧ P s'

section CanReach

variable {f : ε → σ → Option (List γ × σ)} {P Q : σ → Prop} {s s' : σ} {d : List γ}

theorem CanReach.here (h : P s) : CanReach f P s := ⟨[], [], s, rfl, h⟩

theorem CanReach.after (e : ε) (hstep : f e s = some (d, s')) (h : CanReach f P s') :
    CanReach f P s := by
  obtain ⟨es, d', s'', hrun, hs⟩ := h
  refine ⟨e :: es, d ++ d', s'', ?_, hs⟩
  rw [collect, hstep, Option.bind_some, hrun]
  rfl

theorem CanReach.trans (h : CanReach f P s)
    (hQ : ∀ es d s', collect f es s = some (d, s') → P s' → CanReach f Q s') : CanReach f Q s := by
  obtain ⟨es, d, s', hrun, hP⟩ := h
  obtain ⟨es', d', s'', hrun', hQ⟩ := hQ es d s' hrun hP
  exact ⟨es ++ es', d ++ d', s'', collect_append hrun hrun', hQ⟩

end CanReach

/-- An observer of what is done sees it piece by piece. -/
structure Observer (obs : List γ → List ω) : Prop where
  nil : obs [] = []
  append : ∀ c d, obs (c ++ d) = obs c ++ obs d

section Steps

variable (f : ε → σ → Option (List γ × σ)) (g : ε → τ → Option (List δ × τ))
  (obs : List γ → List ω) (obs' : List δ → List ω) (R : σ → τ → Prop)

/-- A step of the left run that is not seen. -/
def UnseenLeft (e : ε) : Prop :=
  ∀ {s t c s₁}, R s t → f e s = some (c, s₁) → R s₁ t ∧ obs c = []

def UnseenRight (e : ε) : Prop :=
  ∀ {s t d t₁}, R s t → g e t = some (d, t₁) → R s t₁ ∧ obs' d = []

/-- A step of both runs that looks the same. -/
def SeenAlike (e : ε) : Prop :=
  ∀ {s t c s₁ d t₁}, R s t → f e s = some (c, s₁) → g e t = some (d, t₁) →
    R s₁ t₁ ∧ obs c = obs' d

end Steps

section Unwinding

variable {f : ε → σ → Option (List γ × σ)} {g : ε → τ → Option (List δ × τ)}
  {obs : List γ → List ω} {obs' : List δ → List ω} {R : σ → τ → Prop} {low : ε → Bool}

/-- A run of events that are not seen. -/
theorem collect_unseen (hobs : Observer obs) {es : List ε}
    (hleft : ∀ e ∈ es, UnseenLeft f obs R e) {s s₁ : σ} {t : τ} {c : List γ} (hR : R s t)
    (hrun : collect f es s = some (c, s₁)) : R s₁ t ∧ obs c = [] := by
  induction es generalizing s c with
  | nil =>
    cases hrun
    exact ⟨hR, hobs.nil⟩
  | cons e es ih =>
    cases collected_of_collect hrun with
    | mk hfirst hrest =>
      obtain ⟨hR₁, hquiet⟩ := hleft e List.mem_cons_self hR hfirst
      obtain ⟨hR₂, hquiet'⟩ := ih (fun e he => hleft e (List.mem_cons_of_mem _ he)) hR₁ hrest
      exact ⟨hR₂, by rw [hobs.append, hquiet, hquiet']; rfl⟩

/-- The right run up to the next event that is seen. -/
theorem collect_skip (hobs : Observer obs') {es : List ε} {e : ε} {es₁ : List ε}
    (hright : ∀ e ∈ es, low e = false → UnseenRight g obs' R e)
    (hsame : es.filter low = e :: es₁) {s : σ} {t t₁ : τ} {d : List δ} (hR : R s t)
    (hrun : collect g es t = some (d, t₁)) :
    ∃ es₂ t₂ d₂, e :: es₂ <:+ es ∧ es₂.filter low = es₁ ∧ R s t₂ ∧
      collect g (e :: es₂) t₂ = some (d₂, t₁) ∧ obs' d = obs' d₂ := by
  induction es generalizing t d with
  | nil => cases hsame
  | cons e' es ih =>
    by_cases hlow : low e' = true
    · rw [List.filter_cons, if_pos hlow, List.cons.injEq] at hsame
      obtain ⟨rfl, hfilter⟩ := hsame
      exact ⟨es, t, d, List.suffix_refl _, hfilter, hR, hrun, rfl⟩
    · rw [List.filter_cons, if_neg hlow] at hsame
      cases collected_of_collect hrun with
      | mk hfirst hrest =>
        obtain ⟨hR₁, hquiet⟩ :=
          hright e' List.mem_cons_self (Bool.eq_false_iff.mpr hlow) hR hfirst
        obtain ⟨es₂, t₂, d₂, hsuffix, hfilter, hR₂, hcollect, hseen⟩ :=
          ih (fun e he => hright e (List.mem_cons_of_mem _ he)) hsame hR₁ hrest
        refine ⟨es₂, t₂, d₂, hsuffix.trans (List.suffix_cons _ _), hfilter, hR₂, hcollect, ?_⟩
        rw [hobs.append, hquiet, hseen]
        rfl

/-- Two runs with the same events to be seen. -/
theorem collect_alike (low : ε → Bool) (hobs : Observer obs) (hobs' : Observer obs') {es es' : List ε}
    (hleft : ∀ e ∈ es, low e = false → UnseenLeft f obs R e)
    (hright : ∀ e ∈ es', low e = false → UnseenRight g obs' R e)
    (hboth : ∀ e ∈ es, low e = true → SeenAlike f g obs obs' R e)
    (hsame : es.filter low = es'.filter low) {s s₁ : σ} {t t₁ : τ} {c : List γ} {d : List δ}
    (hR : R s t) (hrun : collect f es s = some (c, s₁)) (hrun' : collect g es' t = some (d, t₁)) :
    R s₁ t₁ ∧ obs c = obs' d := by
  induction es generalizing es' s t c d with
  | nil =>
    cases hrun
    have hunseen : ∀ e ∈ es', UnseenLeft g obs' (fun t s => R s t) e := by
      intro e he t s d t₁ hR hrun
      have hlow : low e = false := Bool.eq_false_iff.mpr (List.filter_eq_nil_iff.mp hsame.symm e he)
      exact hright e he hlow hR hrun
    obtain ⟨hR', hquiet⟩ := collect_unseen hobs' hunseen hR hrun'
    exact ⟨hR', hobs.nil.trans hquiet.symm⟩
  | cons e es ih =>
    have hleft' : ∀ e ∈ es, low e = false → UnseenLeft f obs R e :=
      fun e he => hleft e (List.mem_cons_of_mem _ he)
    have hboth' : ∀ e ∈ es, low e = true → SeenAlike f g obs obs' R e :=
      fun e he => hboth e (List.mem_cons_of_mem _ he)
    by_cases hlow : low e = true
    · rw [List.filter_cons, if_pos hlow] at hsame
      obtain ⟨es₂, t₂, d₂, hsuffix, hfilter, hR₂, hrun₂, hseen⟩ :=
        collect_skip hobs' hright hsame.symm hR hrun'
      cases collected_of_collect hrun with
      | mk hfirst hrest =>
        cases collected_of_collect hrun₂ with
        | mk hfirst' hrest' =>
          obtain ⟨hR₃, hsee⟩ := hboth e List.mem_cons_self hlow hR₂ hfirst hfirst'
          have hright' : ∀ e ∈ es₂, low e = false → UnseenRight g obs' R e :=
            fun e he => hright e (hsuffix.subset (List.mem_cons_of_mem _ he))
          obtain ⟨hR₄, hsee'⟩ := ih hleft' hright' hboth' hfilter.symm hR₃ hrest hrest'
          exact ⟨hR₄, by rw [hseen, hobs.append, hobs'.append, hsee, hsee']⟩
    · rw [List.filter_cons, if_neg hlow] at hsame
      cases collected_of_collect hrun with
      | mk hfirst hrest =>
        obtain ⟨hR₁, hquiet⟩ := hleft e List.mem_cons_self (Bool.eq_false_iff.mpr hlow) hR hfirst
        obtain ⟨hR₂, hsee⟩ := ih hleft' hright hboth' hsame hR₁ hrest hrun'
        exact ⟨hR₂, by rw [hobs.append, hquiet, hsee]; rfl⟩

end Unwinding

end Monoblok.Trace
