import Monoblok.Patchbay.Windows

/-!
# Aggregates of a window

What the window forms compute, defined on the list of the samples held: sums,
means, extremes, the variance, a rate and the elements of the sorted list. With
exact arithmetic every run of pushes and ticks has these results.
-/

namespace Monoblok.Patchbay

open Number

/-! ## Definitions on lists -/

section Spec

variable {K : Type} [Field K] [LinearOrder K] [FloorRing K] [Number K]

def mean (l : List K) : K := l.sum / l.length

def variance (l : List K) : K := (l.map fun x => (x - mean l) ^ 2).sum / l.length

/-- The aggregate of a list that is not empty. -/
def IsAggregate (what : StateEntry.WindowCalc) (l : List K) (m : K) : Prop :=
  match what with
  | .sum => m = l.sum
  | .avg => m = mean l
  | .min => IsLeast {x | x ∈ l} m
  | .max => IsGreatest {x | x ∈ l} m
  | .variance => m = variance l
  | .stddev => m = fsqrt (variance l)

/-- The element of rank `⌊p * (len - 1)⌋` of the sorted list. -/
def IsRank (p : K) (l : List K) (m : K) : Prop :=
  ∃ sorted : List K, sorted.Perm l ∧ sorted.Pairwise (· ≤ ·) ∧
    ⌊p * ((l.length - 1 : ℕ) : K)⌋₊ < l.length ∧
    sorted[⌊p * ((l.length - 1 : ℕ) : K)⌋₊]? = some m

end Spec

/-- A fold that selects one of its two arguments ends with an element that is
related to all, where the elements meet what the relation asks for. -/
theorem foldl_selects {α : Type*} {P : α → Prop} {R : α → α → Prop} {f : α → α → α}
    (hrefl : ∀ a, P a → R a a)
    (htrans : ∀ a b c, P a → P b → P c → R a b → R b c → R a c)
    (hmem : ∀ a b, f a b = a ∨ f a b = b) (hrel : ∀ a b, P a → P b → R (f a b) a ∧ R (f a b) b)
    (a : α) (l : List α) (h : ∀ x ∈ a :: l, P x) :
    l.foldl f a ∈ a :: l ∧ ∀ x ∈ a :: l, R (l.foldl f a) x := by
  induction l generalizing a with
  | nil =>
    refine ⟨List.mem_cons_self, fun x hx => ?_⟩
    rw [List.mem_singleton.mp hx]
    exact hrefl a (h a List.mem_cons_self)
  | cons b l ih =>
    have ha := h a List.mem_cons_self
    have hb := h b (List.mem_cons_of_mem _ List.mem_cons_self)
    have hab : P (f a b) := by
      rcases hmem a b with hab | hab
      · rw [hab]
        exact ha
      · rw [hab]
        exact hb
    have hrest : ∀ x ∈ f a b :: l, P x := by
      intro x hx
      rcases List.mem_cons.mp hx with rfl | hx
      · exact hab
      · exact h x (List.mem_cons_of_mem _ (List.mem_cons_of_mem _ hx))
    obtain ⟨hin, hall⟩ := ih (f a b) hrest
    have hbest := hall (f a b) List.mem_cons_self
    have hlast : P (l.foldl f (f a b)) := hrest _ hin
    rw [List.foldl_cons]
    constructor
    · rcases List.mem_cons.mp hin with hfirst | hin
      · rw [hfirst]
        rcases hmem a b with hab | hab
        · rw [hab]
          exact List.mem_cons_self
        · rw [hab]
          exact List.mem_cons_of_mem _ List.mem_cons_self
      · exact List.mem_cons_of_mem _ (List.mem_cons_of_mem _ hin)
    · intro x hx
      rcases List.mem_cons.mp hx with rfl | hx
      · exact htrans _ _ _ hlast hab ha hbest (hrel x b ha hb).1
      · rcases List.mem_cons.mp hx with rfl | hx
        · exact htrans _ _ _ hlast hab hb hbest (hrel a x ha hb).2
        · exact hall x (List.mem_cons_of_mem _ hx)

section Exact

variable {K : Type} [Field K] [LinearOrder K] [IsStrictOrderedRing K] [FloorRing K] [Number K]

omit [IsStrictOrderedRing K] in
/-- Without rounding the running sum is the sum of the samples held. -/
theorem sumLaw_exact (h : ExactArithmetic K) :
    SumLaw fun (s : K) (_ l : List K) => s = l.sum where
  empty := by
    rw [h.ofNat, Nat.cast_zero, List.sum_nil]
  push x hs := by
    rw [hs, h.fadd, List.sum_append, List.sum_singleton]
  drop {s p l x} hs := by
    rw [hs, h.fsub, List.sum_cons]
    ring

omit [IsStrictOrderedRing K] in
theorem ringMean_exact (h : ExactArithmetic K) {e : StateEntry K}
    (hsum : e.ringSum = e.ringList.sum) : e.ringMean = mean e.ringList := by
  rw [StateEntry.ringMean, h.fdiv, h.ofNat, hsum, mean, length_ringList]

omit [IsStrictOrderedRing K] in
theorem ringVariance_exact (h : ExactArithmetic K) {e : StateEntry K}
    (hsum : e.ringSum = e.ringList.sum) : e.ringVariance = variance e.ringList := by
  have hfold : ∀ (l : List K) (acc : K),
      l.foldl (fun acc x => fadd acc (fmul (fsub x e.ringMean) (fsub x e.ringMean))) acc =
        acc + (l.map fun x => (x - mean e.ringList) ^ 2).sum := by
    intro l
    induction l with
    | nil =>
      intro acc
      rw [List.foldl_nil, List.map_nil, List.sum_nil, add_zero]
    | cons x l ih =>
      intro acc
      rw [List.foldl_cons, ih, List.map_cons, List.sum_cons, h.fadd, h.fmul, h.fsub,
        ringMean_exact h hsum]
      ring
  rw [StateEntry.ringVariance, hfold, h.fdiv, h.ofNat, h.ofNat, variance, length_ringList,
    Nat.cast_zero, zero_add]

omit [IsStrictOrderedRing K] in
theorem foldl_min (h : ExactArithmetic K) (a : K) (l : List K) :
    l.foldl (fun acc x => if flt x acc then x else acc) a ∈ a :: l ∧
      ∀ x ∈ a :: l, l.foldl (fun acc x => if flt x acc then x else acc) a ≤ x := by
  apply foldl_selects (P := fun _ => True) (fun a _ => le_refl a)
    (fun _ _ _ _ _ _ => le_trans) _ _ a l fun _ _ => trivial
  · intro acc x
    split_ifs
    · exact .inr rfl
    · exact .inl rfl
  · intro acc x _ _
    have hflt := h.flt
    simp only [hflt, decide_eq_true_eq]
    split_ifs with hlt
    · exact ⟨hlt.le, le_rfl⟩
    · exact ⟨le_rfl, not_lt.mp hlt⟩

omit [IsStrictOrderedRing K] in
theorem foldl_max (h : ExactArithmetic K) (a : K) (l : List K) :
    l.foldl (fun acc x => if flt acc x then x else acc) a ∈ a :: l ∧
      ∀ x ∈ a :: l, x ≤ l.foldl (fun acc x => if flt acc x then x else acc) a := by
  apply foldl_selects (P := fun _ => True) (R := (· ≥ ·)) (fun a _ => le_refl a)
    (fun _ _ _ _ _ _ hab hbc => le_trans hbc hab) _ _ a l fun _ _ => trivial
  · intro acc x
    split_ifs
    · exact .inr rfl
    · exact .inl rfl
  · intro acc x _ _
    have hflt := h.flt
    simp only [hflt, decide_eq_true_eq]
    split_ifs with hlt
    · exact ⟨hlt.le, le_rfl⟩
    · exact ⟨le_rfl, not_lt.mp hlt⟩

omit [IsStrictOrderedRing K] in
theorem calcRing_exact (h : ExactArithmetic K) {e : StateEntry K}
    (hsum : e.ringSum = e.ringList.sum) (what : StateEntry.WindowCalc) :
    e.ringList = [] ∧ e.calcRing what = .nil ∨
      ∃ m, e.calcRing what = .number m ∧ IsAggregate what e.ringList m := by
  unfold StateEntry.calcRing
  by_cases hlen : e.ringLen = 0
  · rw [if_pos hlen]
    exact .inl ⟨List.eq_nil_of_length_eq_zero ((length_ringList e).trans hlen), rfl⟩
  rw [if_neg hlen]
  have hfirst : e.ringList = e.ringValueAt 0 :: e.ringList.tail := by
    obtain ⟨n, hn⟩ : ∃ n, e.ringLen = n + 1 := ⟨e.ringLen - 1, by omega⟩
    rw [StateEntry.ringList, hn, List.range_succ_eq_map, List.map_cons, List.tail_cons]
  right
  cases what with
  | sum => exact ⟨_, rfl, hsum⟩
  | avg => exact ⟨_, rfl, ringMean_exact h hsum⟩
  | min =>
    obtain ⟨hmem, hleast⟩ := foldl_min h (e.ringValueAt 0) e.ringList.tail
    rw [← hfirst] at hmem hleast
    exact ⟨_, rfl, hmem, fun x hx => hleast x hx⟩
  | max =>
    obtain ⟨hmem, hgreatest⟩ := foldl_max h (e.ringValueAt 0) e.ringList.tail
    rw [← hfirst] at hmem hgreatest
    exact ⟨_, rfl, hmem, fun x hx => hgreatest x hx⟩
  | variance => exact ⟨_, rfl, ringVariance_exact h hsum⟩
  | stddev =>
    refine ⟨_, rfl, ?_⟩
    rw [ringVariance_exact h hsum]
    rfl

omit [IsStrictOrderedRing K] in
theorem rateResult_exact (h : ExactArithmetic K) (e : StateEntry K) (ms : K) :
    rateResult ms e = .ok (.number (e.ringList.length * 1000 / ms)) := by
  rw [rateResult, h.fdiv, h.fmul, h.ofNat, h.ofNat, length_ringList, Nat.cast_ofNat]

omit [Number K] in
/-- The rank of a quantile is below the length. -/
theorem rank_lt {p : K} {len : ℕ} (hp : p ≤ 1) (hlen : 0 < len) :
    ⌊p * ((len - 1 : ℕ) : K)⌋₊ < len := by
  have hcast : (0 : K) ≤ ((len - 1 : ℕ) : K) := Nat.cast_nonneg _
  have hle : p * ((len - 1 : ℕ) : K) ≤ ((len - 1 : ℕ) : K) := mul_le_of_le_one_left hcast hp
  have hfloor := Nat.floor_le_of_le hle
  omega

theorem quantile_exact (h : ExactArithmetic K) {e : StateEntry K} {p : K} (hp : 0 ≤ p) (hp' : p ≤ 1)
    (hne : e.ringList ≠ []) (hlen : e.ringList.length ≤ 2 ^ 64) :
    IsRank p e.ringList (quantile p e) := by
  have hpos : 0 < e.ringList.length := List.length_pos_of_ne_nil hne
  have hrank := rank_lt hp' hpos
  have hle : ∀ a b : K, (!flt b a) = decide (a ≤ b) := by
    intro a b
    rw [h.flt, ← decide_not, decide_eq_decide]
    exact not_lt
  have hidx : (if e.ringLen = 1 then 0
      else (toU64 (ffloor (fmul p (ofNat (e.ringLen - 1) : K)))).toNat) =
      ⌊p * ((e.ringList.length - 1 : ℕ) : K)⌋₊ := by
    rw [length_ringList] at hrank hlen hpos ⊢
    split_ifs with hone
    · rw [hone]
      simp
    · have hnonneg : 0 ≤ p * ((e.ringLen - 1 : ℕ) : K) := mul_nonneg hp (Nat.cast_nonneg _)
      rw [h.ofNat, h.fmul, h.ffloor]
      generalize p * ((e.ringLen - 1 : ℕ) : K) = x at hnonneg hrank ⊢
      rw [← Int.natCast_floor_eq_floor hnonneg, Int.cast_natCast, h.toU64 _ (by omega)]
  refine ⟨e.ringList.mergeSort fun a b => !flt b a, List.mergeSort_perm _ _, ?_, hrank, ?_⟩
  · simp only [hle]
    have hsorted := @List.pairwise_mergeSort _ (fun a b : K => decide (a ≤ b))
      (fun _ _ _ => by simpa using le_trans) (fun a b => by simp [le_total]) e.ringList
    simpa only [decide_eq_true_eq] using hsorted
  · unfold quantile
    dsimp only
    rw [hidx, List.getD_eq_getElem?_getD]
    have hin : ⌊p * ((e.ringList.length - 1 : ℕ) : K)⌋₊ <
        (e.ringList.mergeSort fun a b => !flt b a).length := by
      rwa [List.length_mergeSort]
    rw [List.getElem?_eq_getElem hin]
    rfl

/-- A window holds the last `count` samples pushed, or those that are not older
than its `ms`, whatever pushes and ticks there were before. Its sum, mean,
extremes, variance and rate are those of the samples held, and a quantile is the
element of its rank in their sorted list. -/
theorem windows_hold_samples (h : ExactArithmetic K) (w : Window) (k : StateKey)
    (events : List (WindowEvent K)) (hcount : w.timeWindow = false → 1 ≤ w.count)
    (htimes : w.timeWindow = true → (events.map WindowEvent.now).Pairwise (· ≤ ·)) :
    let r := (WindowRun.fresh k).run w events
    let l := r.held w
    r.entry.ringList = l ∧ r.entry.ringSum = l.sum ∧
      ((∀ event ∈ events, event.HasMemory) → r.pushed = events.filterMap WindowEvent.sample) ∧
      (∀ what, l = [] ∧ r.entry.calcRing what = .nil ∨
        ∃ m, r.entry.calcRing what = .number m ∧ IsAggregate what l m) ∧
      (∀ ms, rateResult ms r.entry = .ok (.number (l.length * 1000 / ms))) ∧
      ∀ A p, 0 ≤ p → p ≤ 1 → l ≠ [] → l.length ≤ 2 ^ 64 →
        ∃ m, IsRank p l m ∧
          percentileResult A p r.entry = if A .arena then .ok (.number m) else .error .oom := by
  intro r l
  have htimes' := fun hw => times_fresh k (htimes hw)
  have hfresh := holds_fresh (sumLaw_exact h) w k
  obtain ⟨hlist, hsum⟩ := holds_contents (holds_run (sumLaw_exact h) hcount hfresh htimes')
  change r.entry.ringList = l at hlist
  change r.entry.ringSum = r.entry.ringList.sum at hsum
  refine ⟨hlist, hlist ▸ hsum, ?_, ?_, ?_, ?_⟩
  · intro hA
    exact pushed_run (sumLaw_exact h) hcount hfresh htimes' hA
  · intro what
    rw [← hlist]
    exact calcRing_exact h hsum what
  · intro ms
    rw [← hlist]
    exact rateResult_exact h r.entry ms
  · intro A p hp hp' hne hlen
    rw [← hlist] at hne hlen ⊢
    exact ⟨_, quantile_exact h hp hp' hne hlen, rfl⟩

end Exact

/-- Four samples, of which a tick and a push drop the first two. -/
theorem windows_hold_samples_ticked :
    ((WindowRun.fresh ⟨0, [], []⟩ : WindowRun ℚ).run ⟨true, 0, 10⟩
      [.push (fun _ => true) 1 2, .push (fun _ => true) 3 5, .tick (fun _ => true) 12,
        .push (fun _ => true) 14 4, .push (fun _ => true) 15 6]).entry.ringSum = 10 := by
  have h := windows_hold_samples exactArithmetic_rat ⟨true, 0, 10⟩ ⟨0, [], []⟩
    [.push (fun _ => true) 1 2, .push (fun _ => true) 3 5, .tick (fun _ => true) 12,
      .push (fun _ => true) 14 4, .push (fun _ => true) 15 6] (fun hw => by cases hw)
    (fun _ => by decide)
  exact h.2.1.trans (by decide +kernel)

end Monoblok.Patchbay
