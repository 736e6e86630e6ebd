import Mathlib.Data.List.DropRight
import Mathlib.Order.Lattice

/-!
# Sliding windows of a list

A list grows at its end, and a window keeps a part of it: the last `n` elements,
or the elements from a key on where the keys are sorted. Each lemma says what one
more element or a later start does to the window.
-/

namespace Monoblok.Sliding

variable {α : Type*}

/-! ## The last elements -/

theorem length_rtake (l : List α) (n : ℕ) : (l.rtake n).length = min l.length n := by
  rw [List.rtake, List.length_drop]
  omega

theorem rtake_of_length_le {l : List α} {n : ℕ} (h : l.length ≤ n) : l.rtake n = l := by
  rw [List.rtake, Nat.sub_eq_zero_of_le h, List.drop_zero]

/-- A smaller window of a window. -/
theorem rtake_rtake_of_le (l : List α) {m n : ℕ} (h : m ≤ n) : (l.rtake n).rtake m = l.rtake m := by
  have hdrop : l.length - n + ((l.rtake n).length - m) = l.length - m := by
    rw [length_rtake]
    omega
  unfold List.rtake at hdrop ⊢
  rw [List.drop_drop, hdrop]

/-- The next window depends on the window and the next element only. -/
theorem rtake_concat_window (l : List α) (x : α) {n : ℕ} (hn : 0 < n) :
    (l.rtake n ++ [x]).rtake n = (l ++ [x]).rtake n := by
  obtain ⟨m, rfl⟩ : ∃ m, n = m + 1 := ⟨n - 1, by omega⟩
  rw [List.rtake_concat_succ, List.rtake_concat_succ, rtake_rtake_of_le l (Nat.le_succ m)]

/-- A full window loses its first element to the next one. -/
theorem rtake_concat_full {l : List α} {n : ℕ} (x : α) (hn : 0 < n) (hfull : l.length = n) :
    (l ++ [x]).rtake n = l.tail ++ [x] := by
  cases l with
  | nil =>
    rw [List.length_nil] at hfull
    omega
  | cons y l =>
    have hdrop : (y :: l ++ [x]).length - n = 1 := by
      rw [List.length_append, hfull, List.length_singleton]
      omega
    rw [List.rtake, hdrop, List.cons_append, List.drop_succ_cons, List.drop_zero, List.tail_cons]

/-- If every `n` elements in a row have at most `m` with a property, so have they with
one more element, which has it only where the last `n` have less. -/
theorem countP_consecutive_concat {l : List α} {x : α} {p : α → Bool} {n m : ℕ}
    (h : ∀ i, ((l.drop i).take n).countP p ≤ m) (hx : p x = true → (l.rtake n).countP p < m)
    (i : ℕ) : (((l ++ [x]).drop i).take n).countP p ≤ m := by
  by_cases hlast : i ≤ l.length ∧ l.length - i < n
  · obtain ⟨hi, hn⟩ := hlast
    have hall : ((l ++ [x]).drop i).take n = l.drop i ++ [x] := by
      rw [List.drop_append_of_le_length hi, List.take_of_length_le]
      simp only [List.length_append, List.length_drop, List.length_singleton]
      omega
    have hsuffix : l.drop i <:+ l.rtake n := by
      have hdrop : l.drop i = (l.rtake n).drop (i - (l.length - n)) := by
        rw [List.rtake, List.drop_drop]
        congr 1
        omega
      rw [hdrop]
      exact List.drop_suffix _ _
    have hcount : (l.drop i).countP p ≤ (l.rtake n).countP p := hsuffix.sublist.countP_le
    rw [hall, List.countP_append, List.countP_singleton]
    split_ifs with hp
    · have hlt := hx hp
      omega
    · have hold := h i
      rw [List.take_of_length_le (by simp only [List.length_drop]; omega)] at hold
      omega
  · have hold := h i
    by_cases hi : i ≤ l.length
    · have hn : n ≤ (l.drop i).length := by
        simp only [List.length_drop]
        omega
      rw [List.drop_append_of_le_length hi, List.take_append_of_le_length hn]
      exact hold
    · have hnil : (l ++ [x]).drop i = [] := by
        apply List.drop_eq_nil_of_le
        simp only [List.length_append, List.length_singleton]
        omega
      simp [hnil]

/-- Where all of the first part goes, only the second is left. -/
theorem dropWhile_suffix_of_suffix_append {l r p : List α} {old : α → Bool} (h : l <:+ r ++ p)
    (hr : ∀ a ∈ r, old a = true) : l.dropWhile old <:+ p := by
  obtain ⟨t, ht⟩ := h
  rcases List.append_eq_append_iff.mp ht with ⟨r', rfl, rfl⟩ | ⟨c, rfl, rfl⟩
  · rw [List.dropWhile_append_of_pos fun a ha => hr a (List.mem_append_right _ ha)]
    exact List.dropWhile_suffix old
  · exact (List.dropWhile_suffix old).trans (List.suffix_append _ _)

/-- Dropping less from the front leaves some that dropping more takes. -/
theorem dropWhile_split {old older : α → Bool} (h : ∀ a, older a = true → old a = true)
    (l : List α) :
    ∃ gone, l.dropWhile older = gone ++ l.dropWhile old ∧ ∀ a ∈ gone, old a = true := by
  induction l with
  | nil => exact ⟨[], rfl, by simp⟩
  | cons a l ih =>
    by_cases hq : old a = true
    · by_cases hp : older a = true
      · rw [List.dropWhile_cons_of_pos hp, List.dropWhile_cons_of_pos hq]
        exact ih
      · rw [List.dropWhile_cons_of_neg hp]
        refine ⟨(a :: l).takeWhile old, List.takeWhile_append_dropWhile.symm, ?_⟩
        intro b hb
        exact List.mem_takeWhile_imp hb
    · have hp : ¬ older a = true := fun hp => hq (h a hp)
      rw [List.dropWhile_cons_of_neg hp, List.dropWhile_cons_of_neg hq]
      exact ⟨[], rfl, by simp⟩

/-! ## The elements from a key on -/

section Keys

variable {κ : Type*} (key : α → κ) [LinearOrder κ]

/-- Elements sorted by their keys. -/
def SortedBy (l : List α) : Prop := l.Pairwise fun a b => key a ≤ key b

variable {key}

theorem sortedBy_concat {l : List α} {x : α} :
    SortedBy key (l ++ [x]) ↔ SortedBy key l ∧ ∀ a ∈ l, key a ≤ key x := by
  rw [SortedBy, List.pairwise_append]
  constructor
  · rintro ⟨hl, -, hx⟩
    exact ⟨hl, fun a ha => hx a ha x (List.mem_singleton_self x)⟩
  · rintro ⟨hl, hx⟩
    refine ⟨hl, List.pairwise_singleton _ _, fun a ha b hb => ?_⟩
    rw [List.mem_singleton.mp hb]
    exact hx a ha

/-- Dropping from the front what comes before a key leaves what comes from it on. -/
theorem dropWhile_lt_eq_filter {l : List α} (h : SortedBy key l) (c : κ) :
    l.dropWhile (fun a => decide (key a < c)) = l.filter fun a => decide (c ≤ key a) := by
  induction l with
  | nil => rfl
  | cons a l ih =>
    obtain ⟨ha, hl⟩ := List.pairwise_cons.mp h
    by_cases hlt : key a < c
    · rw [List.dropWhile_cons, if_pos (decide_eq_true hlt), ih hl, List.filter_cons, if_neg]
      rw [decide_eq_true_eq]
      exact not_le.mpr hlt
    · rw [List.dropWhile_cons, if_neg (by rwa [decide_eq_true_eq])]
      symm
      apply List.filter_eq_self.mpr
      intro b hb
      have hc : c ≤ key a := not_lt.mp hlt
      rcases List.mem_cons.mp hb with rfl | hb
      · exact decide_eq_true hc
      · exact decide_eq_true (hc.trans (ha b hb))

/-- A later start cuts an earlier window. -/
theorem filter_le_filter_le {l : List α} {c d : κ} (h : c ≤ d) :
    (l.filter fun a => decide (c ≤ key a)).filter (fun a => decide (d ≤ key a)) =
      l.filter fun a => decide (d ≤ key a) := by
  rw [List.filter_filter]
  apply List.filter_congr
  intro a _
  rw [← Bool.decide_and]
  apply decide_eq_decide.mpr
  constructor
  · exact And.left
  · intro hd
    exact ⟨hd, h.trans hd⟩

end Keys

end Monoblok.Sliding
