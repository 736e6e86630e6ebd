import Mathlib.Data.List.Basic
import Mathlib.Tactic

/-!
# Programs that read an array through cursors

A program keeps a position in an array, reads elements by their index and moves
the position; a second cursor reads elsewhere and leaves the position alone. The
indices that have been read and the positions that cursors have taken are kept, so
that staying in bounds is a property of a state. A program that gives up keeps
what it has done so far.

`Meets` is a postcondition of a program in a given state. There is one rule for
each way to build a program.
-/

namespace Monoblok.Cursor

variable {σ α β : Type}

structure Tape (σ : Type) where
  pos : ℕ
  reads : List ℕ
  marks : List ℕ
  data : σ

def Prog (σ α : Type) := Tape σ → Option α × Tape σ

namespace Prog

def andThen (p : Prog σ α) (f : α → Prog σ β) : Prog σ β := fun t =>
  match p t with
  | (none, t) => (none, t)
  | (some a, t) => f a t

instance : Monad (Prog σ) where
  pure a := fun t => (some a, t)
  bind := andThen

def fail : Prog σ α := fun t => (none, t)

def ofOption : Option α → Prog σ α
  | none => fail
  | some a => pure a

def position : Prog σ ℕ := fun t => (some t.pos, t)

/-- The elements at these indices are read. -/
def look (is : List ℕ) : Prog σ Unit := fun t => (some (), { t with reads := t.reads ++ is })

def move (p : ℕ) : Prog σ Unit := fun t => (some (), { t with pos := p, marks := t.marks ++ [p] })

/-- A second cursor runs from `p`. -/
def from_ (p : ℕ) (prog : Prog σ α) : Prog σ α := fun t =>
  let r := prog { t with pos := p, marks := t.marks ++ [p] }
  (r.1, { r.2 with pos := t.pos })

def getData : Prog σ σ := fun t => (some t.data, t)

def modifyData (f : σ → σ) : Prog σ Unit := fun t => (some (), { t with data := f t.data })

end Prog

/-- All reads are inside an array of `n` elements, and no cursor is beyond its end. -/
structure InBounds (n : ℕ) (t : Tape σ) : Prop where
  pos : t.pos ≤ n
  reads : ∀ i ∈ t.reads, i < n
  marks : ∀ p ∈ t.marks, p ≤ n

/-- The program stays in bounds and keeps `J` whether it gives up or not, does not move
backwards, and what it returns meets `Q`. -/
structure Meets (n : ℕ) (J : σ → Prop) (t : Tape σ) (p : Prog σ α) (Q : α → Tape σ → Prop) :
    Prop where
  bounds : InBounds n (p t).2
  data : J (p t).2.data
  le : t.pos ≤ (p t).2.pos
  post : ∀ a, (p t).1 = some a → Q a (p t).2

section Rules

variable {n : ℕ} {J : σ → Prop} {t : Tape σ} {p : Prog σ α} {Q Q' : α → Tape σ → Prop}

theorem Meets.mono (h : Meets n J t p Q)
    (hQ : ∀ a t', InBounds n t' → Q a t' → Q' a t') : Meets n J t p Q' :=
  ⟨h.bounds, h.data, h.le, fun a ha => hQ a _ h.bounds (h.post a ha)⟩

theorem Meets.pure {a : α} (hb : InBounds n t) (hJ : J t.data) (hQ : Q a t) :
    Meets n J t (pure a) Q := by
  refine ⟨hb, hJ, le_rfl, fun b hab => ?_⟩
  cases hab
  exact hQ

theorem Meets.fail (hb : InBounds n t) (hJ : J t.data) : Meets n J t Prog.fail Q :=
  ⟨hb, hJ, le_rfl, fun _ h => nomatch h⟩

theorem Meets.bind {f : α → Prog σ β} {R : β → Tape σ → Prop} (h : Meets n J t p Q)
    (hf : ∀ a t', InBounds n t' → J t'.data → t.pos ≤ t'.pos → Q a t' → Meets n J t' (f a) R) :
    Meets n J t (p >>= f) R := by
  have hrun : (p >>= f) t = (match p t with
      | (none, t) => (none, t)
      | (some a, t) => f a t) := rfl
  obtain ⟨hb, hJ, hle, hpost⟩ := h
  cases hp : p t with
  | mk o t' =>
    rw [hp] at hb hJ hle hpost hrun
    cases o with
    | none =>
      simp only at hrun
      constructor
      · rw [hrun]
        exact hb
      · rw [hrun]
        exact hJ
      · rw [hrun]
        exact hle
      · intro b hb'
        rw [hrun] at hb'
        cases hb'
    | some a =>
      simp only at hrun
      obtain ⟨hb', hJ', hle', hpost'⟩ := hf a t' hb hJ hle (hpost a rfl)
      constructor
      · rw [hrun]
        exact hb'
      · rw [hrun]
        exact hJ'
      · rw [hrun]
        exact hle.trans hle'
      · rw [hrun]
        exact hpost'

theorem Meets.ite {c : Prop} [Decidable c] {q : Prog σ α} (hp : c → Meets n J t p Q)
    (hq : ¬ c → Meets n J t q Q) : Meets n J t (if c then p else q) Q := by
  by_cases h : c
  · rw [if_pos h]
    exact hp h
  · rw [if_neg h]
    exact hq h

theorem Meets.ofOption {o : Option α} (hb : InBounds n t) (hJ : J t.data)
    (hQ : ∀ a, o = some a → Q a t) : Meets n J t (Prog.ofOption o) Q := by
  cases o with
  | none => exact .fail hb hJ
  | some a => exact .pure hb hJ (hQ a rfl)

theorem Meets.position (hb : InBounds n t) (hJ : J t.data) :
    Meets n J t Prog.position fun p t' => p = t.pos ∧ t = t' := by
  refine ⟨hb, hJ, le_rfl, fun a ha => ?_⟩
  cases ha
  exact ⟨rfl, rfl⟩

theorem Meets.look {is : List ℕ} (hb : InBounds n t) (hJ : J t.data) (his : ∀ i ∈ is, i < n) :
    Meets n J t (Prog.look is) fun _ t' => t'.pos = t.pos ∧ t'.data = t.data := by
  refine ⟨⟨hb.pos, fun i hi => ?_, hb.marks⟩, hJ, le_rfl, fun _ _ => ⟨rfl, rfl⟩⟩
  rcases List.mem_append.mp hi with hi | hi
  · exact hb.reads i hi
  · exact his i hi

theorem inBounds_moved {p : ℕ} (hb : InBounds n t) (hp : p ≤ n) :
    InBounds n { t with pos := p, marks := t.marks ++ [p] } := by
  refine ⟨hp, hb.reads, fun q hq => ?_⟩
  rcases List.mem_append.mp hq with hq | hq
  · exact hb.marks q hq
  · rw [List.mem_singleton.mp hq]
    exact hp

theorem Meets.move {p : ℕ} (hb : InBounds n t) (hJ : J t.data) (hle : t.pos ≤ p) (hp : p ≤ n) :
    Meets n J t (Prog.move p) fun _ t' => t'.pos = p ∧ t'.data = t.data :=
  ⟨inBounds_moved hb hp, hJ, hle, fun _ _ => ⟨rfl, rfl⟩⟩

/-- A second cursor may start anywhere in the array; the first one stays. -/
theorem Meets.from_ {p : ℕ} {prog : Prog σ α} {R : α → Tape σ → Prop} (hb : InBounds n t)
    (h : Meets n J { t with pos := p, marks := t.marks ++ [p] } prog R) :
    Meets n J t (Prog.from_ p prog) fun a t' =>
      t'.pos = t.pos ∧ ∃ u, R a u ∧ t'.data = u.data := by
  refine ⟨⟨hb.pos, h.bounds.reads, h.bounds.marks⟩, h.data, le_rfl, fun a ha => ?_⟩
  exact ⟨rfl, _, h.post a ha, rfl⟩

theorem Meets.getData (hb : InBounds n t) (hJ : J t.data) :
    Meets n J t Prog.getData fun d t' => d = t.data ∧ t = t' := by
  refine ⟨hb, hJ, le_rfl, fun a ha => ?_⟩
  cases ha
  exact ⟨rfl, rfl⟩

theorem Meets.modifyData {f : σ → σ} (hb : InBounds n t) (hJ : J (f t.data)) :
    Meets n J t (Prog.modifyData f) fun _ t' => t'.pos = t.pos ∧ t'.data = f t.data :=
  ⟨⟨hb.pos, hb.reads, hb.marks⟩, hJ, le_rfl, fun _ _ => ⟨rfl, rfl⟩⟩

end Rules

/-! ## Programs that only read -/

/-- The program moves forward by at least `k` and leaves the data alone. -/
def Ahead (n k : ℕ) (p : Prog σ α) : Prop :=
  ∀ (J : σ → Prop) (t : Tape σ), InBounds n t → J t.data →
    Meets n J t p fun _ t' => t.pos + k ≤ t'.pos ∧ t'.data = t.data

section Reading

variable {n k m : ℕ} {p q : Prog σ α}

theorem Ahead.pure (a : α) : Ahead n 0 (pure a : Prog σ α) :=
  fun _ _ hb hJ => .pure hb hJ ⟨le_rfl, rfl⟩

theorem Ahead.fail : Ahead n k (Prog.fail : Prog σ α) := fun _ _ hb hJ => .fail hb hJ

theorem Ahead.ofOption (o : Option α) : Ahead n 0 (Prog.ofOption o : Prog σ α) :=
  fun _ _ hb hJ => .ofOption hb hJ fun _ _ => ⟨le_rfl, rfl⟩

theorem Ahead.mono (h : Ahead n k p) (hm : m ≤ k) : Ahead n m p := by
  intro J t hb hJ
  apply (h J t hb hJ).mono
  rintro a t' - ⟨hle, hdata⟩
  exact ⟨by omega, hdata⟩

theorem Ahead.bind {f : α → Prog σ β} (h : Ahead n k p) (hf : ∀ a, Ahead n m (f a)) :
    Ahead n (k + m) (p >>= f) := by
  intro J t hb hJ
  apply (h J t hb hJ).bind
  rintro a t' hb' hJ' - ⟨hle, hdata⟩
  apply (hf a J t' hb' hJ').mono
  rintro b u - ⟨hle', hdata'⟩
  exact ⟨by omega, hdata'.trans hdata⟩

theorem Ahead.ite {c : Prop} [Decidable c] (hp : Ahead n k p) (hq : Ahead n k q) :
    Ahead n k (if c then p else q) :=
  fun J t hb hJ => .ite (fun _ => hp J t hb hJ) fun _ => hq J t hb hJ

end Reading

end Monoblok.Cursor
