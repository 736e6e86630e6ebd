import Monoblok.Patchbay.Extended

/-!
# Windows after a sample that is not finite

The running sum of a window is the sum of the samples held as long as all samples
were finite. One that was not stays in the sum when it leaves the window, so the
aggregates that use the sum do not come back.
-/

namespace Monoblok.Patchbay

open Extended Number

section Sums

variable {K : Type} [Field K] [LinearOrder K] [FloorRing K] [Number K]

/-- The running sum of a window given all samples pushed and those held. -/
structure SumOf (s : Extended K) (pushed held : List (Extended K)) : Prop where
  exact : (∀ x ∈ pushed, x.isFinite = true) →
    ∃ ys : List K, held = ys.map fin ∧ s = fin ys.sum
  lost : (∃ x ∈ pushed, x.isFinite = false) → s.isFinite = false

theorem sumLaw_extended (h : ExactArithmetic K) : SumLaw (SumOf (K := K)) where
  empty := by
    constructor
    · intro _
      refine ⟨[], rfl, congrArg fin ?_⟩
      rw [h.ofNat, Nat.cast_zero, List.sum_nil]
    · rintro ⟨x, hx, -⟩
      exact absurd hx List.not_mem_nil
  push {s p l} x hs := by
    constructor
    · intro hfinite
      obtain ⟨ys, rfl, rfl⟩ := hs.exact fun y hy => hfinite y (List.mem_append_left _ hy)
      obtain ⟨y, rfl⟩ :=
        isFinite_iff.mp (hfinite x (List.mem_append_right _ (List.mem_singleton_self x)))
      refine ⟨ys ++ [y], ?_, congrArg fin ?_⟩
      · rw [List.map_append, List.map_singleton]
      rw [h.fadd, List.sum_append, List.sum_singleton]
    · rintro ⟨y, hy, hlost⟩
      change (add s x).isFinite = false
      rw [isFinite_add]
      rcases List.mem_append.mp hy with hy | hy
      · rw [hs.lost ⟨y, hy, hlost⟩, Bool.false_and]
      · rw [← List.mem_singleton.mp hy, hlost, Bool.and_false]
  drop {s p l x} hs := by
    constructor
    · intro hfinite
      obtain ⟨ys, hys, rfl⟩ := hs.exact hfinite
      obtain ⟨y, ys, rfl⟩ := List.exists_cons_of_ne_nil (l := ys) (by
        rintro rfl
        cases hys)
      obtain ⟨rfl, rfl⟩ := List.cons.inj hys
      refine ⟨ys, rfl, congrArg fin ?_⟩
      rw [h.fsub, List.sum_cons]
      ring
    · intro hlost
      change (sub s x).isFinite = false
      rw [isFinite_sub, hs.lost hlost, Bool.false_and]

end Sums

/-- The aggregates of a slot that are taken from the running sum are those of a
list of finite samples. -/
structure Recovered {K : Type} [Field K] [Number K] (e : StateEntry (Extended K)) (l : List K) :
    Prop where
  sum : e.calcRing .sum = .number (fin l.sum)
  avg : e.calcRing .avg = .number (fin (mean l))
  variance : e.calcRing .variance = .number (fin (variance l))
  stddev : e.calcRing .stddev = .number (fsqrt (fin (Patchbay.variance l)))

section Recovery

variable {K : Type} [Field K] [LinearOrder K] [FloorRing K] [Number K]

theorem div_length (h : ExactArithmetic K) (x : K) {n : ℕ} (hn : n ≠ 0) :
    fdiv (fin x) (ofNat n : Extended K) = fin (x / n) := by
  change div (fin x) (fin (ofNat n)) = _
  have hzero : isZero (ofNat n : K) = false := by
    rw [isZero, h.feq, h.ofNat, h.ofNat, Nat.cast_zero, decide_eq_false_iff_not]
    exact Nat.cast_ne_zero.mpr hn
  rw [div, hzero, if_neg Bool.false_ne_true, h.fdiv, h.ofNat]

theorem ringMean_finite (h : ExactArithmetic K) {e : StateEntry (Extended K)} {ys : List K}
    (hlist : e.ringList = ys.map fin) (hsum : e.ringSum = fin ys.sum) (hne : ys ≠ []) :
    e.ringMean = fin (mean ys) := by
  have hlen : e.ringLen = ys.length := by
    rw [← length_ringList, hlist, List.length_map]
  have hpos : ys.length ≠ 0 := List.length_pos_of_ne_nil hne |>.ne'
  rw [StateEntry.ringMean, hsum, hlen, div_length h _ hpos, mean]

theorem ringVariance_finite (h : ExactArithmetic K) {e : StateEntry (Extended K)} {ys : List K}
    (hlist : e.ringList = ys.map fin) (hsum : e.ringSum = fin ys.sum) (hne : ys ≠ []) :
    e.ringVariance = fin (variance ys) := by
  have hlen : e.ringLen = ys.length := by
    rw [← length_ringList, hlist, List.length_map]
  have hpos : ys.length ≠ 0 := List.length_pos_of_ne_nil hne |>.ne'
  have hfold : ∀ (l : List K) (acc : K),
      (l.map fin).foldl
        (fun acc x => fadd acc (fmul (fsub x (fin (mean ys))) (fsub x (fin (mean ys))))) (fin acc) =
        fin (acc + (l.map fun x => (x - mean ys) ^ 2).sum) := by
    intro l
    induction l with
    | nil =>
      intro acc
      rw [List.map_nil, List.foldl_nil, List.map_nil, List.sum_nil, add_zero]
    | cons x l ih =>
      intro acc
      have hstep : fadd (fin acc) (fmul (fsub (fin x) (fin (mean ys))) (fsub (fin x) (fin (mean ys)))) =
          fin (acc + (x - mean ys) ^ 2) := by
        change fin (fadd acc (fmul (fsub x (mean ys)) (fsub x (mean ys)))) = _
        rw [h.fadd, h.fmul, h.fsub, sq]
      rw [List.map_cons, List.foldl_cons, hstep, ih, List.map_cons, List.sum_cons, add_assoc]
  have hzero : (ofNat 0 : Extended K) = fin 0 := by
    change fin (ofNat 0) = _
    rw [h.ofNat, Nat.cast_zero]
  rw [StateEntry.ringVariance, ringMean_finite h hlist hsum hne, hlist, hzero, hfold, hlen,
    div_length h _ hpos, zero_add, variance]

theorem recovered_of_finite (h : ExactArithmetic K) {e : StateEntry (Extended K)} {ys : List K}
    (hlist : e.ringList = ys.map fin) (hsum : e.ringSum = fin ys.sum) (hne : ys ≠ []) :
    Recovered e ys := by
  have hlen : e.ringLen ≠ 0 := by
    rw [← length_ringList, hlist, List.length_map]
    exact (List.length_pos_of_ne_nil hne).ne'
  constructor
  all_goals
    unfold StateEntry.calcRing
    rw [if_neg hlen]
    dsimp only
  · rw [hsum]
  · rw [ringMean_finite h hlist hsum hne]
  · rw [ringVariance_finite h hlist hsum hne]
  · rw [ringVariance_finite h hlist hsum hne]

/-- A window that holds finite samples only has their aggregates if and only if
every sample that was ever pushed was finite. -/
theorem recovered_iff_never_poisoned (h : ExactArithmetic K) (w : Window) (k : StateKey)
    (events : List (WindowEvent (Extended K))) (hcount : w.timeWindow = false → 1 ≤ w.count)
    (htimes : w.timeWindow = true → (events.map WindowEvent.now).Pairwise (· ≤ ·))
    (ys : List K) (hne : ys ≠ [])
    (hheld : ((WindowRun.fresh k).run w events).held w = ys.map fin) :
    Recovered ((WindowRun.fresh k).run w events).entry ys ↔
      ∀ s ∈ ((WindowRun.fresh k).run w events).pushed, s.2.isFinite = true := by
  generalize hr : (WindowRun.fresh k).run w events = r at hheld ⊢
  have hholds : Holds SumOf w w.count w.ms r := by
    rw [← hr]
    exact holds_run (sumLaw_extended h) hcount (holds_fresh (sumLaw_extended h) w k)
      fun hw => times_fresh k (htimes hw)
  obtain ⟨hlist, hsum⟩ := holds_contents hholds
  rw [hheld] at hlist
  constructor
  · intro hrec s hs
    by_contra hinfinite
    have hlost := hsum.lost ⟨s.2, List.mem_map_of_mem hs, Bool.eq_false_iff.mpr hinfinite⟩
    have hvalue := hrec.sum
    unfold StateEntry.calcRing at hvalue
    split_ifs at hvalue with hlen
    rw [Value.number.inj hvalue] at hlost
    cases hlost
  · intro hfinite
    obtain ⟨zs, hzs, hexact⟩ := hsum.exact (by
      intro x hx
      obtain ⟨s, hs, rfl⟩ := List.mem_map.mp hx
      exact hfinite s hs)
    have heq : zs = ys := by
      rw [hlist] at hzs
      exact (List.map_injective_iff.mpr (fun a b hab => Extended.fin.inj hab) hzs).symm
    rw [heq] at hexact
    exact recovered_of_finite h hlist hexact hne

end Recovery

/-- Two finite samples in a window of the last two. -/
theorem recovered_iff_never_poisoned_finite :
    Recovered ((WindowRun.fresh ⟨0, [], []⟩).run ⟨false, 2, 0⟩
      [.push (fun _ => true) 1 (fin (1 : ℚ)), .push (fun _ => true) 2 (fin 4),
        .push (fun _ => true) 3 (fin 6)]).entry [4, 6] := by
  have h := recovered_iff_never_poisoned exactArithmetic_rat ⟨false, 2, 0⟩ ⟨0, [], []⟩
    [.push (fun _ => true) 1 (fin (1 : ℚ)), .push (fun _ => true) 2 (fin 4),
      .push (fun _ => true) 3 (fin 6)] (fun _ => by decide) (fun hw => by cases hw) [4, 6]
    (by decide) (by decide +kernel)
  exact h.mpr (by decide +kernel)

/-- The payload `nan` is a sample, and the two samples after it have a sum that is
not a number, in a window of the last two. -/
theorem sum_of_nan_stays :
    asNumber (.string (lit "nan") : Value (Extended ℚ)) = some .nan ∧
      ¬∀ (w : Window) (k : StateKey) (events : List (WindowEvent (Extended ℚ))) (ys : List ℚ),
        (w.timeWindow = false → 1 ≤ w.count) →
        (w.timeWindow = true → (events.map WindowEvent.now).Pairwise (· ≤ ·)) → ys ≠ [] →
        ((WindowRun.fresh k).run w events).held w = ys.map fin →
          Recovered ((WindowRun.fresh k).run w events).entry ys := by
  refine ⟨by decide +kernel, fun h => ?_⟩
  have hrec := h ⟨false, 2, 0⟩ ⟨0, [], []⟩
    [.push (fun _ => true) 1 .nan, .push (fun _ => true) 2 (fin 4),
      .push (fun _ => true) 3 (fin 6)] [4, 6] (fun _ => by decide) (fun hw => by cases hw)
    (by decide) (by decide +kernel)
  have hsum := Value.number.inj hrec.sum
  cases hsum

end Monoblok.Patchbay
