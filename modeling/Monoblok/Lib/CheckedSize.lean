import Mathlib.Data.List.Basic
import Mathlib.Tactic

/-!
# Sizes that do not wrap

Arithmetic on machine sizes up to some `max`. An operation that would wrap has
no value. The loop that doubles a capacity is undefined also when it does not
end; `double_spec` says that it does.
-/

namespace Monoblok.CheckedSize

variable (max : ℕ)

def add (a b : ℕ) : Option ℕ := if a + b ≤ max then some (a + b) else none

def mul (a b : ℕ) : Option ℕ := if a * b ≤ max then some (a * b) else none

def sub (a b : ℕ) : Option ℕ := if b ≤ a then some (a - b) else none

/-- Doubles a capacity until it has room for `needed`. A capacity that cannot be
doubled becomes just `needed`. -/
def double (needed : ℕ) : ℕ → ℕ → Option ℕ
  | 0, _ => none
  | fuel + 1, cap =>
    if cap < needed then
      if max / 2 < cap then some needed else (mul max cap 2).bind (double needed fuel)
    else some cap

section Defined

variable {max}

@[simp] theorem add_eq_some {a b c : ℕ} : add max a b = some c ↔ a + b ≤ max ∧ a + b = c := by
  simp [add]

@[simp] theorem mul_eq_some {a b c : ℕ} : mul max a b = some c ↔ a * b ≤ max ∧ a * b = c := by
  simp [mul]

@[simp] theorem sub_eq_some {a b c : ℕ} : sub a b = some c ↔ b ≤ a ∧ a - b = c := by
  simp [sub]

theorem add_of_le {a b : ℕ} (h : a + b ≤ max) : add max a b = some (a + b) := by
  simp [h]

theorem mul_of_le {a b : ℕ} (h : a * b ≤ max) : mul max a b = some (a * b) := by
  simp [h]

theorem sub_of_le {a b : ℕ} (h : b ≤ a) : sub a b = some (a - b) := by
  simp [h]

/-- The loop ends with room for what is needed, and never shrinks. -/
theorem double_spec {needed : ℕ} (hneeded : needed ≤ max) (fuel cap : ℕ) (hcap : cap ≤ max)
    (hfuel : needed ≤ 2 ^ fuel * cap) :
    ∃ n, double max needed (fuel + 1) cap = some n ∧ needed ≤ n ∧ cap ≤ n ∧ n ≤ max := by
  induction fuel generalizing cap with
  | zero =>
    have hroom : ¬cap < needed := by omega
    exact ⟨cap, by simp [double, hroom], by omega, le_rfl, hcap⟩
  | succ fuel ih =>
    by_cases hroom : cap < needed
    · by_cases hlarge : max / 2 < cap
      · exact ⟨needed, by simp [double, hroom, hlarge], le_rfl, by omega, hneeded⟩
      · have htwice : cap * 2 ≤ max := by omega
        have hrest : needed ≤ 2 ^ fuel * (cap * 2) := by
          calc needed ≤ 2 ^ (fuel + 1) * cap := hfuel
            _ = 2 ^ fuel * (cap * 2) := by ring
        obtain ⟨n, hn, hle, hge, hmax⟩ := ih (cap * 2) htwice hrest
        refine ⟨n, ?_, hle, by omega, hmax⟩
        unfold double
        simp only [hroom, hlarge, if_true, if_false, mul_of_le htwice, Option.bind_some, hn]
    · exact ⟨cap, by simp [double, hroom], by omega, le_rfl, hcap⟩

end Defined

end Monoblok.CheckedSize
