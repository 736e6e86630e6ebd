import Monoblok.Lib.CheckedSize
import Monoblok.Router.State

/-!
# Growable arrays

`mb_array_reserve` with the byte count it passes to `realloc`. An outcome is
missing when a computation with sizes would wrap or the loop would not end;
`mbArrayReserve_spec` says that it never is. `arrayReserve`, which the rest of
the model uses, is this function without the pointers.
-/

namespace Monoblok.Memory

open CheckedSize

/-- What a call leaves behind: its answer, the two variables it was given the
addresses of, and the bytes it asked `realloc` for. -/
structure Reserved (P : Type) where
  ok : Bool
  items : Option (Option P)
  cap : Option ℕ
  asked : Option ℕ

variable {P : Type}

/-- `mb_array_reserve`; `none` for `items` or `cap` is a null address. -/
def mbArrayReserve (realloc : Option P → ℕ → Option P) (items : Option (Option P))
    (cap : Option ℕ) (needed elemSize initialCap : ℕ) : Option (Reserved P) :=
  match items, cap with
  | some ptr, some old =>
    if elemSize = 0 then some ⟨false, items, cap, none⟩
    else if needed ≤ old then some ⟨true, items, cap, none⟩
    else
      (double sizeMax needed 65 (growStart old initialCap)).bind fun next =>
        if sizeMax / elemSize < next then some ⟨false, items, cap, none⟩
        else
          (mul sizeMax next elemSize).map fun bytes =>
            match realloc ptr bytes with
            | none => ⟨false, items, cap, some bytes⟩
            | some new => ⟨true, some (some new), some next, some bytes⟩
  | _, _ => some ⟨false, items, cap, none⟩

/-- What an outcome promises the caller. -/
structure ReserveSpec (items : Option (Option P)) (cap : Option ℕ) (needed elemSize : ℕ)
    (r : Reserved P) : Prop where
  room : r.ok = true → ∃ c, r.cap = some c ∧ needed ≤ c ∧ c ≤ sizeMax
  fits : ∀ bytes, r.asked = some bytes → bytes ≤ sizeMax
  bytes : ∀ bytes, r.ok = true → r.asked = some bytes → ∃ c, r.cap = some c ∧ bytes = c * elemSize
  kept : r.ok = false ∨ r.asked = none → r.items = items ∧ r.cap = cap

theorem growStart_bounds (cap initialCap : ℕ) :
    0 < growStart cap initialCap ∧ cap ≤ growStart cap initialCap ∧
      growStart cap initialCap ≤ max 1 (max cap initialCap) := by
  unfold growStart
  dsimp only
  split_ifs <;> omega

/-- The loop of the code ends, for any sizes. -/
theorem double_growStart {cap needed initialCap : ℕ} (hcap : cap ≤ sizeMax)
    (hneeded : needed ≤ sizeMax) (hinitial : initialCap ≤ sizeMax) :
    ∃ n, double sizeMax needed 65 (growStart cap initialCap) = some n ∧ needed ≤ n ∧ n ≤ sizeMax := by
  obtain ⟨hpos, hge, hle⟩ := growStart_bounds cap initialCap
  have hone : 1 ≤ sizeMax := by simp [sizeMax]
  have hstart : growStart cap initialCap ≤ sizeMax := by omega
  have hfuel : needed ≤ 2 ^ 64 * growStart cap initialCap := by
    rw [sizeMax] at hneeded
    omega
  obtain ⟨n, hn, hroom, -, hmax⟩ := double_spec hneeded 64 _ hstart hfuel
  exact ⟨n, hn, hroom, hmax⟩

theorem mbArrayReserve_spec (realloc : Option P → ℕ → Option P) (items : Option (Option P))
    {cap : Option ℕ} {needed elemSize initialCap : ℕ} (hcap : ∀ c, cap = some c → c ≤ sizeMax)
    (hneeded : needed ≤ sizeMax) (hinitial : initialCap ≤ sizeMax) :
    ∃ r, mbArrayReserve realloc items cap needed elemSize initialCap = some r ∧
      ReserveSpec items cap needed elemSize r := by
  have hfailed : ∀ asked : Option ℕ, (∀ bytes, asked = some bytes → bytes ≤ sizeMax) →
      ReserveSpec items cap needed elemSize ⟨false, items, cap, asked⟩ := by
    intro asked hasked
    exact ⟨by simp, hasked, by simp, fun _ => ⟨rfl, rfl⟩⟩
  cases items with
  | none => exact ⟨_, rfl, hfailed none (by simp)⟩
  | some ptr =>
    cases cap with
    | none => exact ⟨_, rfl, hfailed none (by simp)⟩
    | some old =>
      have hold := hcap old rfl
      obtain ⟨next, hnext, hroom, hmax⟩ := double_growStart hold hneeded hinitial
      unfold mbArrayReserve
      by_cases hsize : elemSize = 0
      · simp only [hsize, if_true]
        exact ⟨_, rfl, hsize ▸ hfailed none (by simp)⟩
      · by_cases hfits : needed ≤ old
        · simp only [hsize, hfits, if_true, if_false]
          exact ⟨_, rfl, by simpa using ⟨hfits, hold⟩, by simp, by simp, by simp⟩
        · by_cases hlarge : sizeMax / elemSize < next
          · simp only [hsize, hfits, hlarge, if_true, if_false, hnext, Option.bind_some]
            exact ⟨_, rfl, hfailed none (by simp)⟩
          · have hbytes : next * elemSize ≤ sizeMax :=
              (Nat.le_div_iff_mul_le (Nat.pos_of_ne_zero hsize)).mp (Nat.le_of_not_lt hlarge)
            simp only [hsize, hfits, hlarge, if_false, hnext, Option.bind_some, mul_of_le hbytes,
              Option.map_some]
            cases realloc ptr (next * elemSize) with
            | none => exact ⟨_, rfl, hfailed _ (by simpa using hbytes)⟩
            | some new => exact ⟨_, rfl, by simpa using ⟨hroom, hmax⟩, by simpa using hbytes,
                by simp, by simp⟩

/-! ## The capacity alone -/

theorem double_growLoop {needed n : ℕ} (fuel cap : ℕ) (h : double sizeMax needed fuel cap = some n) :
    growLoop needed fuel cap = n := by
  induction fuel generalizing cap with
  | zero => simp [double] at h
  | succ fuel ih =>
    unfold double at h
    unfold growLoop
    split_ifs at h ⊢
    · simpa using h
    · obtain ⟨twice, htwice, hrest⟩ := Option.bind_eq_some_iff.mp h
      obtain ⟨-, rfl⟩ := mul_eq_some.mp htwice
      exact ih _ hrest
    · simpa using h

/-- The capacities of the model are those of the code: `granted` is what
`realloc` answers. -/
theorem arrayReserve_eq (realloc : Option P → ℕ → Option P) (ptr : Option P)
    {cap needed elemSize initialCap : ℕ} (hcap : cap ≤ sizeMax) (hneeded : needed ≤ sizeMax)
    (hinitial : initialCap ≤ sizeMax) (hsize : 0 < elemSize) :
    ∃ r granted, mbArrayReserve realloc (some ptr) (some cap) needed elemSize initialCap = some r ∧
      (if r.ok then r.cap else none) = arrayReserve granted cap needed elemSize initialCap ∧
      ∀ bytes, r.asked = some bytes → granted = (realloc ptr bytes).isSome := by
  obtain ⟨next, hnext, -, -⟩ := double_growStart hcap hneeded hinitial
  have hloop := double_growLoop 65 _ hnext
  have hsize' : elemSize ≠ 0 := hsize.ne'
  unfold mbArrayReserve arrayReserve
  by_cases hfits : needed ≤ cap
  · simp only [hsize', hfits, if_true, if_false]
    exact ⟨_, true, rfl, by simp, by simp⟩
  · by_cases hlarge : sizeMax / elemSize < next
    · simp only [hsize', hfits, hlarge, if_true, if_false, hnext, Option.bind_some, hloop]
      exact ⟨_, true, rfl, by simp, by simp⟩
    · have hbytes : next * elemSize ≤ sizeMax :=
        (Nat.le_div_iff_mul_le hsize).mp (Nat.le_of_not_lt hlarge)
      simp only [hsize', hfits, hlarge, if_false, hnext, Option.bind_some, mul_of_le hbytes,
        Option.map_some, hloop]
      cases hanswer : realloc ptr (next * elemSize) with
      | none => exact ⟨_, false, rfl, by simp, by simp [hanswer]⟩
      | some new => exact ⟨_, true, rfl, by simp, by simp [hanswer]⟩

end Monoblok.Memory
