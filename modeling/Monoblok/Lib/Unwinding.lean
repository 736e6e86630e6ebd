import Monoblok.Lib.Runs
import Mathlib.Data.List.Forall2
import Mathlib.Tactic

/-!
# Histories an observer cannot tell apart

An observer of a system sees some of its events, and each of these tells it
something. Two states are the same to it when an event it does not see changes
nothing for it, and an event it sees leads from two such states to two such
states and tells it the same in both. Two histories with the same visible events
then tell it the same, whatever else happens in them.
-/

namespace Monoblok.Unwinding

open Runs

variable {σ ε ω : Type*}

/-- A system with what one observer sees of it and is told. -/
structure View (σ ε ω : Type*) where
  step : σ → ε → σ
  sees : ε → Bool
  told : σ → ε → ω

/-- What the observer is told in a history, event by event it sees. -/
def View.conversation (V : View σ ε ω) : σ → List ε → List ω
  | _, [] => []
  | s, e :: es =>
    if V.sees e then V.told s e :: V.conversation (V.step s e) es
    else V.conversation (V.step s e) es

/-- What it takes for the states to be the same to the observer; `ok` is what is
asked of the steps and `good` what holds of all states reached. -/
structure View.Unwinds (V : View σ ε ω) (ok : σ → ε → Prop) (good : σ → Prop)
    (same : σ → σ → Prop) (alike : ω → ω → Prop) : Prop where
  good_step : ∀ {s e}, good s → ok s e → good (V.step s e)
  symm : ∀ {s t}, same s t → same t s
  trans : ∀ {s t u}, same s t → same t u → same s u
  silent : ∀ {s e}, good s → ok s e → V.sees e = false → same s (V.step s e)
  paired : ∀ {s t e}, good s → good t → ok s e → ok t e → V.sees e = true → same s t →
    same (V.step s e) (V.step t e) ∧ alike (V.told s e) (V.told t e)

variable {V : View σ ε ω} {ok : σ → ε → Prop} {good : σ → Prop} {same : σ → σ → Prop}
  {alike : ω → ω → Prop}

theorem View.conversation_seen {e : ε} (h : V.sees e = true) (s : σ) (es : List ε) :
    V.conversation s (e :: es) = V.told s e :: V.conversation (V.step s e) es := by
  simp [View.conversation, h]

theorem View.conversation_unseen {e : ε} (h : V.sees e = false) (s : σ) (es : List ε) :
    V.conversation s (e :: es) = V.conversation (V.step s e) es := by
  simp [View.conversation, h]

/-- A history of which the observer sees nothing. -/
theorem View.Unwinds.unseen (h : V.Unwinds ok good same alike) {s t : σ} {es : List ε}
    (hs : same t s) (hgood : good s) (hok : Along V.step ok s es) (hes : es.filter V.sees = []) :
    same t (es.foldl V.step s) ∧ V.conversation s es = [] := by
  induction es generalizing s with
  | nil => exact ⟨hs, rfl⟩
  | cons e es ih =>
    rw [List.filter_eq_nil_iff] at hes
    have he : V.sees e = false := by simpa using hes e List.mem_cons_self
    have hrest : es.filter V.sees = [] :=
      List.filter_eq_nil_iff.mpr fun x hx => hes x (List.mem_cons_of_mem e hx)
    rw [View.conversation_unseen he]
    exact ih (h.trans hs (h.silent hgood hok.1 he)) (h.good_step hgood hok.1) hok.2 hrest

/-- **Unwinding.** Histories with the same visible events, from states that are
the same to the observer, tell it the same. -/
theorem View.Unwinds.histories (h : V.Unwinds ok good same alike) {s t : σ} {es fs : List ε}
    (hsame : same s t) (hs : good s) (ht : good t) (hes : Along V.step ok s es)
    (hfs : Along V.step ok t fs) (hvisible : es.filter V.sees = fs.filter V.sees) :
    same (es.foldl V.step s) (fs.foldl V.step t) ∧
      List.Forall₂ alike (V.conversation s es) (V.conversation t fs) := by
  induction es generalizing s t fs with
  | nil =>
    obtain ⟨hend, hnothing⟩ := h.unseen hsame ht hfs hvisible.symm
    rw [hnothing]
    exact ⟨hend, .nil⟩
  | cons e es ih =>
    cases he : V.sees e with
    | false =>
      rw [View.conversation_unseen he]
      rw [List.filter_cons_of_neg (by simp [he])] at hvisible
      exact ih (h.trans (h.symm (h.silent hs hes.1 he)) hsame) (h.good_step hs hes.1) ht hes.2 hfs
        hvisible
    | true =>
      rw [List.filter_cons_of_pos he] at hvisible
      -- the other history comes to the same event after some that are not seen
      induction fs generalizing t with
      | nil => simp at hvisible
      | cons f fs ihf =>
        cases hf : V.sees f with
        | false =>
          rw [List.filter_cons_of_neg (by simp [hf])] at hvisible
          obtain ⟨hend, htold⟩ := ihf (h.trans hsame (h.silent ht hfs.1 hf))
            (h.good_step ht hfs.1) hfs.2 hvisible
          rw [View.conversation_unseen hf]
          exact ⟨hend, htold⟩
        | true =>
          rw [List.filter_cons_of_pos hf] at hvisible
          obtain ⟨rfl, hrest⟩ := List.cons.inj hvisible
          obtain ⟨hnext, halike⟩ := h.paired hs ht hes.1 hfs.1 he hsame
          obtain ⟨hend, htold⟩ := ih hnext (h.good_step hs hes.1) (h.good_step ht hfs.1) hes.2
            hfs.2 hrest
          rw [View.conversation_seen he, View.conversation_seen he]
          exact ⟨hend, .cons halike htold⟩

end Monoblok.Unwinding
