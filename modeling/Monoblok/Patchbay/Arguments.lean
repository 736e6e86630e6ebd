import Monoblok.Patchbay.Eval
import Monoblok.Patchbay.Exact
import Monoblok.Patchbay.Extended

/-!
# Numeric arguments and their conversions

The guards of the windows, bars and clocks ask for a whole number from one on, and
the forms convert what they accept to an unsigned integer. Infinities are whole, and
so is every large double: only below the range of the target does the converted value
equal the number.
-/

namespace Monoblok.Patchbay

open Number

variable {N : Type} [Number N]

/-! ## What a call converts -/

/-- What a number is converted for: a time in milliseconds, a count, the capacity of a
ring that is allocated, or a 32-bit count of a bar. -/
inductive Use where
  | ms
  | size
  | capacity
  | barCount
  deriving DecidableEq, Repr

/-- A number that the guard of whole numbers accepts. -/
def accepted (use : Use) (v : Value N) : List (Use × N) :=
  ((asNumber v).filter wholeFromOne).toList.map fun n => (use, n)

/-- The number at the head of a window, as `parse_window` reads it. -/
def windowConversions : List (Value N) → List (Use × N)
  | [] => []
  | v :: vs =>
    if v.keywordEq "ms" && !vs.isEmpty then (vs.head?.map (accepted .ms)).getD []
    else accepted .capacity v

def msConversions : List (Value N) → List (Use × N)
  | k :: m :: _ => if k.keywordEq "ms" then accepted .ms m else []
  | _ => []

/-- The numbers a form converts, among those of its arguments that the guards let
through. `on-silence` and `dropout` evaluate their `:ms` argument themselves; it stands
here for its value. `hold-off` converts none. -/
def conversions (form : Form) (args : List (Value N)) : List (Use × N) :=
  match form with
  | .movingAvg | .movingSum | .movingMax | .movingMin | .stddev | .variance | .median
  | .percentile => windowConversions args
  | .throttle =>
    windowConversions args ++
      match parseWindow args with
      | some (_, [m, _]) => accepted .size m
      | _ => []
  | .rate => if args.length = 3 then msConversions args else []
  | .debounce | .sample => if args.length = 4 then msConversions args else []
  | .aggregate => if args.length = 5 then msConversions args else []
  | .onSilence | .dropout => msConversions args
  | .bar =>
    match args with
    | [n, _] => (accepted .barCount n).filter fun c => !flt (ofNat (2 ^ 32 - 1)) c.2
    | [_, _, _] => msConversions args
    | _ => []
  | _ => []

/-- The converted value. -/
def converted (use : Use) (n : N) : ℕ :=
  match use with
  | .barCount => (toU64 n).toUInt32.toNat
  | _ => (toU64 n).toNat

/-- The quantile that `percentile` accepts. -/
def acceptedQuantile (args : List (Value N)) : Option N :=
  match parseWindow args with
  | none => none
  | some (_, rest) => (percentileArg false rest).toOption.map Prod.fst

/-- The number that is converted to an index into so many samples. -/
def quantileRank (p : N) (len : ℕ) : N := ffloor (fmul p (ofNat (len - 1)))

/-! ## The forms use the converted values -/

theorem mem_accepted {use u : Use} {v : Value N} {n : N} :
    (u, n) ∈ accepted use v ↔ u = use ∧ asNumber v = some n ∧ wholeFromOne n = true := by
  unfold accepted
  cases hv : asNumber v with
  | none => simp
  | some x =>
    cases hx : wholeFromOne x with
    | false =>
      simp only [Option.filter, hx, Bool.false_eq_true, if_false, Option.toList_none,
        List.map_nil, List.not_mem_nil, Option.some.injEq, false_iff]
      rintro ⟨-, rfl, hn⟩
      simp [hx] at hn
    | true =>
      simp only [Option.filter, hx, if_true, Option.toList_some, List.map_cons, List.map_nil,
        List.mem_singleton, Prod.mk.injEq, Option.some.injEq]
      constructor
      · rintro ⟨rfl, rfl⟩
        exact ⟨rfl, rfl, hx⟩
      · rintro ⟨rfl, rfl, -⟩
        exact ⟨rfl, rfl⟩

theorem accepted_eq {use : Use} {v : Value N} {n : N} (hv : asNumber v = some n)
    (hn : wholeFromOne n = true) : accepted use v = [(use, n)] := by
  simp [accepted, hv, Option.filter, hn]

/-- The window of a call is made of the number at its head. -/
theorem windowConversions_of_parse {args rest : List (Value N)} {w : Window}
    (h : parseWindow args = some (w, rest)) :
    ∃ n, windowConversions args = [(if w.timeWindow then .ms else .capacity, n)] ∧
      if w.timeWindow then w.ms = toU64 n else w.count = converted .capacity n := by
  unfold parseWindow at h
  unfold windowConversions
  split at h
  · cases h
  · split at h
    · rename_i hms
      split at h
      · cases h
      · rename_i m rest
        split at h
        · cases h
        · rename_i n hn
          split_ifs at h with hwhole
          cases h
          refine ⟨n, ?_, by simp⟩
          simp only [hms, if_true, List.head?_cons, Option.map_some, Option.getD_some]
          exact accepted_eq hn hwhole
    · rename_i hms
      split at h
      · cases h
      · rename_i n hn
        split_ifs at h with hwhole
        cases h
        refine ⟨n, ?_, by simp [converted]⟩
        simp only [hms]
        exact accepted_eq hn hwhole

theorem barConversions_of_args {args : List (Value N)} {timeWindow : Bool} {count : UInt32}
    {windowMs : UInt64} {input : Value N}
    (h : barArgs args = .ok (timeWindow, count, windowMs, input)) :
    ∃ n, conversions .bar args = [(if timeWindow then .ms else .barCount, n)] ∧
      if timeWindow then windowMs = toU64 n else count.toNat = converted .barCount n := by
  unfold barArgs at h
  split at h
  · split at h
    · cases h
    · rename_i m v n hn
      split_ifs at h with hguard
      cases h
      simp only [Bool.or_eq_true, Bool.not_eq_true', not_or, Bool.not_eq_false,
        Bool.not_eq_true] at hguard
      refine ⟨n, ?_, by simp [converted]⟩
      simp only [conversions, accepted_eq hn hguard.1, List.filter_cons, hguard.2, Bool.not_false,
        if_true, List.filter_nil, Bool.false_eq_true, if_false]
  · rename_i k m v
    split_ifs at h with hk
    · split at h
      · cases h
      · rename_i ms hn
        split_ifs at h with hwhole
        cases h
        refine ⟨ms, ?_, by simp⟩
        have hwhole : wholeFromOne ms = true := by simpa using hwhole
        have hkey : k.keywordEq "ms" = true := by simpa using hk
        simp only [conversions, msConversions, hkey, if_true]
        exact accepted_eq hn hwhole
  · cases h

/-! ## When a conversion is exact -/

/-- What the target of a conversion has room for; the bytes of a ring, eight for each
of its values, are a `size_t` too. -/
def Use.bound : Use → ℕ
  | .ms | .size => 2 ^ 64
  | .capacity => 2 ^ 61
  | .barCount => 2 ^ 32

/-- The number is the converted value, and the size of a ring does not wrap. -/
def ConvertsExactly (use : Use) (n : Extended ℚ) : Prop :=
  n = .fin (converted use n) ∧ (use = .capacity → converted use n * 8 < 2 ^ 64)

def InRange (use : Use) (n : Extended ℚ) : Prop := ∃ q : ℚ, n = .fin q ∧ q < use.bound

/-- The rank of a quantile is the index it is converted to, which is that of a sample. -/
def IndexExact (p : Extended ℚ) (len : ℕ) : Prop :=
  quantileRank p len = .fin (toU64 (quantileRank p len)).toNat ∧
    (toU64 (quantileRank p len)).toNat < len

theorem whole_extended {n : Extended ℚ} (h : wholeFromOne n = true) :
    n = .inf false ∨ ∃ k : ℕ, n = .fin k := by
  cases n with
  | nan => cases h
  | inf s =>
    cases s with
    | false => exact .inl rfl
    | true => cases h
  | fin q =>
    right
    have hguard : (!decide (q < ((1 : ℕ) : ℚ)) && decide (((⌊q⌋ : ℤ) : ℚ) = q)) = true := h
    simp only [Bool.and_eq_true, Bool.not_eq_true', decide_eq_false_iff_not, decide_eq_true_eq,
      not_lt, Nat.cast_one] at hguard
    obtain ⟨hone, hfloor⟩ := hguard
    have hpos : 0 ≤ ⌊q⌋ := Int.floor_nonneg.mpr (by linarith)
    refine ⟨⌊q⌋.toNat, congrArg Extended.fin ?_⟩
    have hcast : ((⌊q⌋.toNat : ℤ) : ℚ) = (⌊q⌋ : ℚ) := by rw [Int.toNat_of_nonneg hpos]
    rw [← hfloor]
    exact_mod_cast hcast.symm

theorem toU64_fin (k : ℕ) : (toU64 (.fin (k : ℚ) : Extended ℚ)).toNat = min k (2 ^ 64 - 1) := by
  change (UInt64.ofNat (min ⌊(k : ℚ)⌋₊ (2 ^ 64 - 1))).toNat = _
  rw [Nat.floor_natCast, UInt64.toNat_ofNat', Nat.mod_eq_of_lt (by omega)]

theorem fin_cast_inj {a b : ℕ} : (.fin (a : ℚ) : Extended ℚ) = .fin (b : ℚ) ↔ a = b := by
  rw [Extended.fin.injEq, Nat.cast_inj]

/-- An accepted number converts exactly if and only if the target has room for it. -/
theorem convertsExactly_iff {use : Use} {n : Extended ℚ} (h : wholeFromOne n = true) :
    ConvertsExactly use n ↔ InRange use n := by
  rcases whole_extended h with rfl | ⟨k, rfl⟩
  · constructor
    · rintro ⟨heq, -⟩
      cases heq
    · rintro ⟨q, heq, -⟩
      cases heq
  · have hrange : InRange use (.fin (k : ℚ)) ↔ k < use.bound := by
      constructor
      · rintro ⟨q, heq, hlt⟩
        obtain rfl := Extended.fin.inj heq
        exact_mod_cast hlt
      · intro hlt
        exact ⟨k, rfl, by exact_mod_cast hlt⟩
    rw [hrange, ConvertsExactly, fin_cast_inj]
    cases use with
    | ms | size | capacity =>
      simp only [converted, toU64_fin, Use.bound, reduceCtorEq, false_implies, and_true,
        true_implies]
      omega
    | barCount =>
      simp only [converted, Use.bound, UInt64.toNat_toUInt32, toU64_fin, reduceCtorEq,
        false_implies, and_true]
      omega

theorem wholeFromOne_of_conversion {form : Form} {args : List (Value N)} {use : Use} {n : N}
    (h : (use, n) ∈ conversions form args) : wholeFromOne n = true := by
  have haccepted : ∀ {u : Use} {v : Value N}, (use, n) ∈ accepted u v → wholeFromOne n = true :=
    fun hmem => (mem_accepted.mp hmem).2.2
  have hms : ∀ {args : List (Value N)}, (use, n) ∈ msConversions args → wholeFromOne n = true := by
    intro args hmem
    unfold msConversions at hmem
    split at hmem
    · split_ifs at hmem
      · exact haccepted hmem
      · cases hmem
    · cases hmem
  have hwindow : (use, n) ∈ windowConversions args → wholeFromOne n = true := by
    intro hmem
    unfold windowConversions at hmem
    split at hmem
    · cases hmem
    · rename_i v vs
      split_ifs at hmem
      · cases vs with
        | nil => cases hmem
        | cons w ws => exact haccepted hmem
      · exact haccepted hmem
  have hguarded : ∀ {b : Prop} [Decidable b], (use, n) ∈ (if b then msConversions args else []) →
      wholeFromOne n = true := by
    intro b _ hmem
    split_ifs at hmem
    · exact hms hmem
    · cases hmem
  cases form with
  | movingAvg | movingSum | movingMax | movingMin | stddev | variance | median | percentile =>
    exact hwindow h
  | throttle =>
    rcases List.mem_append.mp h with h | h
    · exact hwindow h
    · split at h
      · exact haccepted h
      · cases h
  | rate | debounce | sample | aggregate => exact hguarded h
  | onSilence | dropout => exact hms h
  | bar =>
    simp only [conversions] at h
    split at h
    · exact haccepted (List.mem_of_mem_filter h)
    · exact hms h
    · cases h
  | _ => cases h

theorem quantile_accepted {args : List (Value (Extended ℚ))} {p : Extended ℚ}
    (h : acceptedQuantile args = some p) : p = .nan ∨ ∃ q : ℚ, p = .fin q ∧ 0 ≤ q ∧ q ≤ 1 := by
  unfold acceptedQuantile at h
  split at h
  · cases h
  · unfold percentileArg at h
    simp only [Bool.false_eq_true, if_false] at h
    split at h
    · cases h
    · split at h
      · cases h
      · split_ifs at h with hguard
        · cases h
        · obtain rfl := Option.some.inj h
          rename_i p _
          simp only [Bool.or_eq_true, not_or, Bool.not_eq_true] at hguard
          cases p with
          | nan => exact .inl rfl
          | inf s => cases s with
            | false => cases hguard.2
            | true => cases hguard.1
          | fin q =>
            have hlow : decide (q < ((0 : ℕ) : ℚ)) = false := hguard.1
            have hhigh : decide (((1 : ℕ) : ℚ) < q) = false := hguard.2
            simp only [decide_eq_false_iff_not, not_lt, Nat.cast_zero, Nat.cast_one] at hlow hhigh
            exact .inr ⟨q, rfl, hlow, hhigh⟩

/-- With two samples or more, the index is exact unless the quantile is no number. -/
theorem indexExact_iff {p : Extended ℚ} (hp : p = .nan ∨ ∃ q : ℚ, p = .fin q ∧ 0 ≤ q ∧ q ≤ 1)
    {len : ℕ} (hlen : 2 ≤ len) (hsize : len < 2 ^ 64) : IndexExact p len ↔ p ≠ .nan := by
  rcases hp with rfl | ⟨q, rfl, hlow, hhigh⟩
  · constructor
    · rintro ⟨hrank, -⟩
      cases hrank
    · intro h
      exact absurd rfl h
  · have hrank : quantileRank (.fin q : Extended ℚ) len =
        .fin ((⌊q * ((len - 1 : ℕ) : ℚ)⌋.toNat : ℕ) : ℚ) := by
      have hfloor : quantileRank (.fin q : Extended ℚ) len =
          .fin ((⌊q * ((len - 1 : ℕ) : ℚ)⌋ : ℤ) : ℚ) := rfl
      rw [hfloor]
      have hpos : 0 ≤ ⌊q * ((len - 1 : ℕ) : ℚ)⌋ := Int.floor_nonneg.mpr (by positivity)
      congr 1
      exact_mod_cast (Int.toNat_of_nonneg hpos).symm
    have hlt : ⌊q * ((len - 1 : ℕ) : ℚ)⌋.toNat < len := by
      have hle : q * ((len - 1 : ℕ) : ℚ) ≤ ((len - 1 : ℕ) : ℚ) := by
        have hnonneg : (0 : ℚ) ≤ ((len - 1 : ℕ) : ℚ) := Nat.cast_nonneg _
        nlinarith
      have hfloor : ⌊q * ((len - 1 : ℕ) : ℚ)⌋ ≤ ((len - 1 : ℕ) : ℤ) := by
        rw [Int.floor_le_iff]
        push_cast
        linarith
      omega
    simp only [IndexExact, hrank, toU64_fin, fin_cast_inj, ne_eq, reduceCtorEq, not_false_eq_true,
      iff_true]
    omega

/-- For the arguments that the guards let through, the converted values are the
numbers, no ring is allocated too small and every quantile is that of a sample, if and
only if the numbers are in the range of their targets and the quantile is a number. -/
theorem accepted_arguments_convert (form : Form) (args : List (Value (Extended ℚ))) :
    (∀ (use : Use) (n : Extended ℚ), (use, n) ∈ conversions form args →
      (ConvertsExactly use n ↔ InRange use n)) ∧
    (∀ p : Extended ℚ, acceptedQuantile args = some p →
      ∀ len, 2 ≤ len → len < 2 ^ 64 → (IndexExact p len ↔ p ≠ .nan)) ∧
    (∀ (rest : List (Value (Extended ℚ))) (w : Window), parseWindow args = some (w, rest) →
      ∃ n, windowConversions args = [(if w.timeWindow then .ms else .capacity, n)] ∧
        if w.timeWindow then w.ms = toU64 n else w.count = converted .capacity n) ∧
    ∀ (timeWindow : Bool) (count : UInt32) (windowMs : UInt64) (input : Value (Extended ℚ)),
      barArgs args = .ok (timeWindow, count, windowMs, input) →
        ∃ n, conversions .bar args = [(if timeWindow then .ms else .barCount, n)] ∧
          if timeWindow then windowMs = toU64 n else count.toNat = converted .barCount n := by
  refine ⟨?_, ?_, ?_, ?_⟩
  · intro use n h
    exact convertsExactly_iff (wholeFromOne_of_conversion h)
  · intro p h len hlen hsize
    exact indexExact_iff (quantile_accepted h) hlen hsize
  · intro rest w h
    exact windowConversions_of_parse h
  · intro timeWindow count windowMs input h
    exact barConversions_of_args h

/-- A window of infinitely many samples is accepted. -/
theorem infinite_window_accepted :
    ¬((∀ (form : Form) (args : List (Value (Extended ℚ))) (use : Use) (n : Extended ℚ),
        (use, n) ∈ conversions form args → ConvertsExactly use n) ∧
      ∀ (args : List (Value (Extended ℚ))) (p : Extended ℚ), acceptedQuantile args = some p →
        ∀ len, 2 ≤ len → len < 2 ^ 64 → IndexExact p len) := by
  rintro ⟨hclaim, -⟩
  have hmem : (Use.capacity, (.inf false : Extended ℚ)) ∈
      conversions .movingAvg [.string (lit "inf"), .number (.fin 1)] := by decide +kernel
  obtain ⟨heq, -⟩ := hclaim _ _ _ _ hmem
  cases heq

example : acceptedQuantile [.number (.fin 4), .string (lit "nan"), .number (.fin 1)] =
    some (.nan : Extended ℚ) := by
  decide +kernel

end Monoblok.Patchbay
