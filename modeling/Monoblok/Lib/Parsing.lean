import Mathlib.Data.Option.Basic

/-!
# Parsers with fuel

A parser takes what is left of a source to a result with what is then left, or to an error.
It recurses on fuel and has no result when the fuel has run out; with enough of it a
parser comes to an end.
-/

namespace Monoblok.Parsing

variable {ε σ α β : Type}

/-- A result with what is left, an error, or neither when the fuel has run out. -/
abbrev Parsed (ε σ α : Type) := Option (Except ε (α × σ))

namespace Parsed

def fail (e : ε) : Parsed ε σ α := some (.error e)

def done (a : α) (rest : σ) : Parsed ε σ α := some (.ok (a, rest))

/-- Goes on from where a parser has come to. -/
def andThen (p : Parsed ε σ α) (f : α → σ → Parsed ε σ β) : Parsed ε σ β :=
  p.bind fun r =>
    match r with
    | .error e => some (.error e)
    | .ok x => f x.1 x.2

variable {p : Parsed ε σ α} {f : α → σ → Parsed ε σ β}

@[simp] theorem done_andThen (a : α) (rest : σ) : (done a rest).andThen f = f a rest := rfl

theorem andThen_ok {b : β} {rest : σ} (h : p.andThen f = some (.ok (b, rest))) :
    ∃ a rest', p = some (.ok (a, rest')) ∧ f a rest' = some (.ok (b, rest)) := by
  cases p with
  | none => cases h
  | some r =>
    cases r with
    | error e => cases h
    | ok x => exact ⟨x.1, x.2, rfl, h⟩

theorem isSome_andThen (hp : p.isSome = true)
    (hf : ∀ a rest, p = some (.ok (a, rest)) → (f a rest).isSome = true) :
    (p.andThen f).isSome = true := by
  cases p with
  | none => cases hp
  | some r =>
    cases r with
    | error e => rfl
    | ok x => exact hf x.1 x.2 rfl

theorem map_ok {r : Except ε α} {g : α → β} {b : β} (h : r.map g = .ok b) :
    ∃ a, r = .ok a ∧ g a = b := by
  cases r with
  | error e => cases h
  | ok a =>
    cases h
    exact ⟨a, rfl, rfl⟩

end Parsed

end Monoblok.Parsing
