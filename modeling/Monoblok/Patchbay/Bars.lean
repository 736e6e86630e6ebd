import Monoblok.Patchbay.Aggregates
import Monoblok.Patchbay.BarSizes
import Monoblok.Patchbay.Extended

/-!
# Bars partition the samples

A bar over samples ends with each block of them, a bar over time with the first sample
or tick of a later window. Both routines that end a bar leave the slot ready for the
next one, so that every run puts out one bar for each group of samples.
-/

namespace Monoblok.Patchbay

open Number StateEntry

variable {N : Type} [Number N]

/-! ## Bars of a run -/

/-- The first, the highest, the lowest and the last of some samples. -/
def barOf : List N → Option (BarClose N)
  | [] => none
  | x :: xs =>
    some
      { «open» := x
        high := xs.foldl (fun high y => if flt high y then y else high) x
        low := xs.foldl (fun low y => if flt y low then y else low) x
        close := xs.getLastD x }

/-- The bar that an event ends. -/
def SlotStep.closed {α : Type} (s : SlotStep N (α ⊕ Option (BarClose N))) : List (BarClose N) :=
  match s.result with
  | .ok (.inr (some b)) => [b]
  | _ => []

omit [Number N] in
def FormEvent.sample : FormEvent N → List (UInt64 × N)
  | .message _ now x _ => [(now, x)]
  | .tick _ _ => []

/-- A slot of a bar, the samples it was given and the bars it put out. -/
structure BarRun (N : Type) where
  entry : StateEntry N
  samples : List (UInt64 × N)
  bars : List (BarClose N)

namespace BarRun

def step (f : BarForm) (r : BarRun N) (event : FormEvent N) : BarRun N :=
  let s := f.step r.entry event
  ⟨s.entry, r.samples ++ event.sample, r.bars ++ s.closed⟩

def run (f : BarForm) (r : BarRun N) (events : List (FormEvent N)) : BarRun N :=
  events.foldl (step f) r

def fresh (k : StateKey) : BarRun N := ⟨freshEntry k, [], []⟩

/-- One of the blocks of `n` samples in a row. -/
def block (n : ℕ) (l : List (UInt64 × N)) (k : ℕ) : List N :=
  ((l.drop (k * n)).take n).map Prod.snd

/-- The samples of one of the windows of `ms`. -/
def group (ms : UInt64) (l : List (UInt64 × N)) (g : ℕ) : List N :=
  (l.filter fun s => decide (s.1.toNat / ms.toNat = g)).map Prod.snd

end BarRun

open BarRun

/-! ## The bar in progress -/

section Progress

variable {f : BarForm} {e : StateEntry N} {xs : List N} {x : N} {now : UInt64}

/-- The slot as an evaluation finds it. -/
def openedBar (f : BarForm) (e : StateEntry N) : StateEntry N :=
  if e.kind = .empty then
    { e with
      kind := .bar
      barTimeWindow := f.timeWindow
      barCap := f.count
      barWindowMs := f.ms }
  else e

/-- A new slot, or a bar of the form. -/
def OfBar (f : BarForm) (e : StateEntry N) : Prop :=
  e.kind = .empty ∧ e.barCount = 0 ∨
    e.kind = .bar ∧ e.barTimeWindow = f.timeWindow ∧ e.barCap = f.count ∧ e.barWindowMs = f.ms

/-- The bar in progress is that of the given samples. -/
structure HoldsBar (f : BarForm) (e : StateEntry N) (xs : List N) : Prop where
  slot : OfBar f e
  count : e.barCount.toNat = xs.length
  bar : ∀ b, barOf xs = some b → e.barOpen = b.open ∧ e.barHigh = b.high ∧ e.barLow = b.low ∧
    (f.timeWindow = true → e.barLastClose = b.close)

omit [Number N] in
theorem openedBar_spec (h : OfBar f e) :
    (openedBar f e).kind = .bar ∧ (openedBar f e).barTimeWindow = f.timeWindow ∧
      (openedBar f e).barCap = f.count ∧ (openedBar f e).barWindowMs = f.ms := by
  unfold openedBar
  rcases h with ⟨hkind, -⟩ | hbar
  · simp [hkind]
  · simp [hbar]

omit [Number N] in
theorem openedBar_fields (f : BarForm) (e : StateEntry N) :
    (openedBar f e).barCount = e.barCount ∧ (openedBar f e).barOpen = e.barOpen ∧
      (openedBar f e).barHigh = e.barHigh ∧ (openedBar f e).barLow = e.barLow ∧
      (openedBar f e).barLastClose = e.barLastClose ∧
      (openedBar f e).barWindowStartMs = e.barWindowStartMs := by
  unfold openedBar
  split_ifs <;> simp

theorem HoldsBar.opened (h : HoldsBar f e xs) : HoldsBar f (openedBar f e) xs := by
  obtain ⟨hcount, hopen, hhigh, hlow, hclose, -⟩ := openedBar_fields f e
  refine ⟨.inr (openedBar_spec h.slot), hcount ▸ h.count, ?_⟩
  rw [hopen, hhigh, hlow, hclose]
  exact h.bar

/-- An evaluation on the slot it finds. -/
theorem step_opened (h : OfBar f e) (A : EvalAlloc → Bool) (now : UInt64) (x : N) (v : Value N) :
    f.step e (.message A now x v) =
      let r := if f.timeWindow then (openedBar f e).barTimeUpdate now x
        else (openedBar f e).barTickUpdate x
      ⟨r.1, r.2.isNone, .ok (.inr r.2)⟩ := by
  obtain ⟨hkind, htime, -⟩ := openedBar_spec h
  have hsame : barSample f.timeWindow f.count f.ms now x e =
      barSample f.timeWindow f.count f.ms now x (openedBar f e) := by
    have hne : (openedBar f e).kind ≠ .empty := by simp [hkind]
    unfold barSample
    simp only [hne, if_false]
    rfl
  unfold BarForm.step
  dsimp only
  rw [hsame, barSample_bar hkind htime]
  rfl

theorem barOf_concat (y : N) (hne : xs ≠ []) :
    ∀ b, barOf xs = some b → barOf (xs ++ [y]) = some
      { «open» := b.open
        high := if flt b.high y then y else b.high
        low := if flt y b.low then y else b.low
        close := y } := by
  cases xs with
  | nil => exact absurd rfl hne
  | cons x xs =>
    intro b hb
    cases hb
    simp [barOf, List.foldl_append]

theorem exists_barOf (xs : List N) (x : N) : ∃ b, barOf (xs ++ [x]) = some b ∧ b.close = x := by
  cases xs with
  | nil => exact ⟨_, rfl, rfl⟩
  | cons y ys => exact ⟨_, rfl, by simp⟩

theorem barOf_of_ne_nil (hne : xs ≠ []) : ∃ b, barOf xs = some b := by
  cases xs with
  | nil => exact absurd rfl hne
  | cons y ys => exact ⟨_, rfl⟩

/-- The first sample of a bar. -/
theorem holdsBar_first (h : OfBar f e) (hkind : e.kind = .bar) (x : N) (start : UInt64) {c : N}
    (hclose : f.timeWindow = true → c = x) :
    HoldsBar f { e.barOpenAt x with barWindowStartMs := start, barLastClose := c } [x] := by
  refine ⟨?_, rfl, ?_⟩
  · rcases h with ⟨hempty, -⟩ | hbar
    · rw [hkind] at hempty
      cases hempty
    · exact .inr hbar
  · rintro b ⟨⟩
    exact ⟨rfl, rfl, rfl, hclose⟩

/-- One more sample. -/
theorem holdsBar_more (h : HoldsBar f e xs) (hkind : e.kind = .bar) (hne : xs ≠ [])
    (hroom : xs.length + 1 < 2 ^ 32) (x : N) {c : N} (hclose : f.timeWindow = true → c = x) :
    HoldsBar f { e.barExtend x with barLastClose := c } (xs ++ [x]) := by
  obtain ⟨b, hb⟩ := barOf_of_ne_nil hne
  obtain ⟨hopen, hhigh, hlow, -⟩ := h.bar b hb
  refine ⟨?_, ?_, ?_⟩
  · rcases h.slot with ⟨hempty, -⟩ | hbar
    · rw [hkind] at hempty
      cases hempty
    · exact .inr hbar
  · change (e.barCount + 1).toNat = _
    have hone : (1 : UInt32).toNat = 1 := rfl
    rw [UInt32.toNat_add, h.count, hone, List.length_append, List.length_singleton,
      Nat.mod_eq_of_lt hroom]
  · intro b' hb'
    rw [barOf_concat x hne b hb] at hb'
    cases hb'
    exact ⟨hopen, by simp [barExtend, hhigh], by simp [barExtend, hlow], hclose⟩

/-- The bar that has ended. -/
theorem HoldsBar.close (h : HoldsBar f e xs) {b : BarClose N} (hb : barOf xs = some b) {c : N}
    (hclose : b.close = c) : (⟨e.barOpen, e.barHigh, e.barLow, c⟩ : BarClose N) = b := by
  obtain ⟨hopen, hhigh, hlow, -⟩ := h.bar b hb
  rw [hopen, hhigh, hlow, ← hclose]

omit [Number N] in
theorem barCount_zero_iff {n : ℕ} (h : e.barCount.toNat = n) : e.barCount = 0 ↔ n = 0 := by
  rw [← UInt32.toNat_inj, h]
  rfl

/-! ## Blocks of samples -/

/-- What an evaluation does to a bar over samples. -/
theorem tickStep (hw : f.timeWindow = false) (h : HoldsBar f e xs) (hlen : xs.length < f.count.toNat)
    (A : EvalAlloc → Bool) (now : UInt64) (x : N) (v : Value N) :
    let s := f.step e (.message A now x v)
    if xs.length + 1 < f.count.toNat then HoldsBar f s.entry (xs ++ [x]) ∧ s.closed = []
    else HoldsBar f s.entry [] ∧ s.closed = (barOf (xs ++ [x])).toList := by
  have hopened := h.opened
  obtain ⟨hkind, -, hcap, -⟩ := openedBar_spec h.slot
  rw [step_opened h.slot]
  simp only [hw, Bool.false_eq_true, if_false]
  generalize openedBar f e = e₁ at hopened hkind hcap ⊢
  have hbound := f.count.toNat_lt
  have hmore : HoldsBar f (if e₁.barCount = 0 then e₁.barOpenAt x else e₁.barExtend x)
      (xs ++ [x]) := by
    have htime : ∀ c : N, f.timeWindow = true → c = x := by simp [hw]
    split_ifs with hzero
    · have hnil : xs = [] := List.eq_nil_of_length_eq_zero ((barCount_zero_iff hopened.count).mp hzero)
      rw [hnil]
      exact holdsBar_first hopened.slot hkind x e₁.barWindowStartMs (htime e₁.barLastClose)
    · have hne : xs ≠ [] := by
        rintro rfl
        exact hzero ((barCount_zero_iff hopened.count).mpr rfl)
      exact holdsBar_more hopened hkind hne (by omega) x (htime e₁.barLastClose)
  have hcap' : (if e₁.barCount = 0 then e₁.barOpenAt x else e₁.barExtend x).barCap = f.count := by
    split_ifs <;> exact hcap
  unfold barTickUpdate
  generalize (if e₁.barCount = 0 then e₁.barOpenAt x else e₁.barExtend x) = e₂ at hmore hcap' ⊢
  have hlt : e₂.barCount < e₂.barCap ↔ xs.length + 1 < f.count.toNat := by
    rw [UInt32.lt_iff_toNat_lt, hmore.count, hcap', List.length_append, List.length_singleton]
  obtain ⟨b, hb, hclose⟩ := exists_barOf xs x
  simp only [hlt]
  split_ifs
  · exact ⟨hmore, rfl⟩
  · refine ⟨⟨?_, rfl, fun b hb => by cases hb⟩, ?_⟩
    · rcases hmore.slot with ⟨hempty, -⟩ | hbar
      · exact .inl ⟨hempty, rfl⟩
      · exact .inr hbar
    simp only [SlotStep.closed, hb, Option.toList_some]
    rw [hmore.close hb hclose]

/-- A tick does nothing to a bar over samples. -/
theorem tick_blocks (hw : f.timeWindow = false) (h : OfBar f e) (A : EvalAlloc → Bool)
    (now : UInt64) : (f.step e (.tick A now)).entry = e ∧ (f.step e (.tick A now)).closed = [] := by
  have hstill : tickEntry A now e = ⟨e, false, .ok (.inr none)⟩ := by
    rcases h with ⟨hkind, -⟩ | ⟨hkind, htime, -⟩
    · exact tickEntry_still (by simp [hkind]) (by simp [hkind]) (.inl (by simp [hkind])) A now
    · exact tickEntry_still (by simp [hkind]) (by simp [hkind]) (.inr (htime.trans hw)) A now
  change (tickEntry A now e).entry = e ∧ (tickEntry A now e).closed = []
  rw [hstill]
  exact ⟨rfl, rfl⟩

end Progress

section Blocks

variable {f : BarForm} {r : BarRun N}

/-- Each block has had its bar, and the samples after the last one are in progress. -/
structure HoldsBlocks (f : BarForm) (r : BarRun N) : Prop where
  holds : HoldsBar f r.entry
    ((r.samples.drop (r.samples.length / f.count.toNat * f.count.toNat)).map Prod.snd)
  bars : r.bars = (List.range (r.samples.length / f.count.toNat)).filterMap fun k =>
    barOf (block f.count.toNat r.samples k)

omit [Number N] in
/-- A whole block stays as it is. -/
theorem block_concat {n k : ℕ} {l : List (UInt64 × N)} (s : UInt64 × N) (hk : k * n + n ≤ l.length) :
    block n (l ++ [s]) k = block n l k := by
  unfold block
  rw [List.drop_append_of_le_length (by omega), List.take_append_of_le_length]
  simp only [List.length_drop]
  omega

theorem holdsBlocks_step (hw : f.timeWindow = false) (hn : 0 < f.count.toNat)
    (h : HoldsBlocks f r) (event : FormEvent N) : HoldsBlocks f (r.step f event) := by
  cases event with
  | tick A now =>
    obtain ⟨hentry, hclosed⟩ := tick_blocks hw h.holds.slot A now
    have hstill : r.step f (.tick A now) = r := by
      simp only [BarRun.step, hentry, hclosed, FormEvent.sample, List.append_nil]
    rw [hstill]
    exact h
  | message A now x v =>
    have hbars := h.bars
    have hholds := h.holds
    set n := f.count.toNat with hndef
    set k := r.samples.length / n with hk
    have hdiv := Nat.div_add_mod r.samples.length n
    rw [← hk, Nat.mul_comm] at hdiv
    have hmod := Nat.mod_lt r.samples.length hn
    have hlen : ((r.samples.drop (k * n)).map Prod.snd).length = r.samples.length % n := by
      simp only [List.length_map, List.length_drop]
      omega
    have hblocks : ∀ j ∈ List.range k, barOf (block n (r.samples ++ [(now, x)]) j) =
        barOf (block n r.samples j) := by
      intro j hj
      have hle : (j + 1) * n ≤ k * n := Nat.mul_le_mul_right n (List.mem_range.mp hj)
      rw [block_concat]
      rw [Nat.add_mul, Nat.one_mul] at hle
      omega
    have hrest : (r.samples ++ [(now, x)]).drop (k * n) = r.samples.drop (k * n) ++ [(now, x)] :=
      List.drop_append_of_le_length (by omega)
    have hstep := tickStep hw hholds (by omega) A now x v
    rw [hlen] at hstep
    have hlength : (r.samples ++ [(now, x)]).length = r.samples.length + 1 := by simp
    by_cases hopen : r.samples.length % n + 1 < n
    · rw [← hndef] at hstep
      simp only [hopen, if_true] at hstep
      have hcount : (r.samples.length + 1) / n = k := by
        apply Nat.div_eq_of_lt_le <;> first | omega | (rw [Nat.add_mul]; omega)
      constructor
      · simp only [BarRun.step, FormEvent.sample, hlength, ← hndef, hcount, hrest, List.map_append]
        exact hstep.1
      · simp only [BarRun.step, FormEvent.sample, hlength, ← hndef, hcount, hstep.2,
          List.append_nil, hbars]
        exact (List.filterMap_congr hblocks).symm
    · rw [← hndef] at hstep
      simp only [hopen, if_false] at hstep
      have hcount : (r.samples.length + 1) / n = k + 1 := by
        apply Nat.div_eq_of_lt_le <;> (try rw [Nat.add_mul]) <;> (try rw [Nat.add_mul]) <;> omega
      have hlast : block n (r.samples ++ [(now, x)]) k =
          (r.samples.drop (k * n)).map Prod.snd ++ [x] := by
        unfold block
        rw [hrest, List.take_of_length_le, List.map_append]
        · rfl
        · simp only [List.length_append, List.length_drop, List.length_singleton]
          omega
      have hnone : (r.samples ++ [(now, x)]).drop ((k + 1) * n) = [] := by
        apply List.drop_eq_nil_of_le
        rw [hlength, Nat.add_mul]
        omega
      constructor
      · simp only [BarRun.step, FormEvent.sample, hlength, ← hndef, hcount, hnone, List.map_nil]
        exact hstep.1
      · simp only [BarRun.step, FormEvent.sample, hlength, ← hndef, hcount, hstep.2, hbars,
          List.range_succ, List.filterMap_append, List.filterMap_congr hblocks]
        congr 1
        simp only [List.filterMap_cons, List.filterMap_nil, hlast]
        cases barOf ((r.samples.drop (k * n)).map Prod.snd ++ [x]) <;> rfl

theorem holdsBlocks_run (hw : f.timeWindow = false) (hn : 0 < f.count.toNat)
    (h : HoldsBlocks f r) (events : List (FormEvent N)) : HoldsBlocks f (r.run f events) := by
  induction events generalizing r with
  | nil => exact h
  | cons event events ih => exact ih (holdsBlocks_step hw hn h event)

theorem holdsBar_fresh (f : BarForm) (k : StateKey) : HoldsBar f (freshEntry k : StateEntry N) [] :=
  ⟨.inl ⟨rfl, rfl⟩, rfl, fun b hb => by cases hb⟩

theorem holdsBlocks_fresh (f : BarForm) (k : StateKey) :
    HoldsBlocks f (BarRun.fresh k : BarRun N) := by
  refine ⟨?_, ?_⟩
  · simp only [BarRun.fresh, List.length_nil, List.drop_nil, List.map_nil]
    exact holdsBar_fresh f k
  · simp [BarRun.fresh]

end Blocks

/-! ## Windows of time -/

section Groups

variable {f : BarForm} {e : StateEntry N} {xs : List N} {last now : UInt64} {r : BarRun N}

theorem toNat_aligned (now ms : UInt64) :
    (now / ms * ms).toNat = now.toNat / ms.toNat * ms.toNat := by
  have hle := Nat.div_mul_le_self now.toNat ms.toNat
  have hlt := now.toNat_lt
  rw [UInt64.toNat_mul, UInt64.toNat_div, Nat.mod_eq_of_lt (by omega)]

/-- The bar in progress began in the given window. -/
def BeganIn (f : BarForm) (e : StateEntry N) (g : ℕ) : Prop :=
  e.barCount ≠ 0 → e.barWindowStartMs.toNat = g * f.ms.toNat

omit [Number N] in
theorem aligned_eq_iff (hms : f.ms ≠ 0) {start : UInt64} {g : ℕ}
    (hstart : start.toNat = g * f.ms.toNat) :
    start = now / f.ms * f.ms ↔ now.toNat / f.ms.toNat = g := by
  have hpos : 0 < f.ms.toNat := Nat.pos_of_ne_zero fun h => hms (UInt64.toNat_inj.mp h)
  rw [← UInt64.toNat_inj, toNat_aligned, hstart]
  constructor
  · intro h
    exact (Nat.eq_of_mul_eq_mul_right hpos h).symm
  · rintro rfl
    rfl

/-- What an evaluation does to a bar over time. -/
theorem timeStep (hw : f.timeWindow = true) (hms : f.ms ≠ 0) (h : HoldsBar f e xs) {g : ℕ}
    (hstart : BeganIn f e g) (hroom : now.toNat / f.ms.toNat = g → xs.length + 1 < 2 ^ 32)
    (A : EvalAlloc → Bool) (x : N) (v : Value N) :
    let s := f.step e (.message A now x v)
    BeganIn f s.entry (now.toNat / f.ms.toNat) ∧
      if now.toNat / f.ms.toNat = g then HoldsBar f s.entry (xs ++ [x]) ∧ s.closed = []
      else HoldsBar f s.entry [x] ∧ s.closed = (barOf xs).toList := by
  have hopened := h.opened
  obtain ⟨hkind, -, -, hwindow⟩ := openedBar_spec h.slot
  obtain ⟨hcount, -, -, -, -, hbegan⟩ := openedBar_fields f e
  rw [step_opened h.slot]
  unfold BeganIn at hstart
  rw [← hcount, ← hbegan] at hstart
  simp only [hw, if_true]
  generalize openedBar f e = e₁ at hopened hkind hwindow hstart ⊢
  unfold barTimeUpdate
  dsimp only
  rw [hwindow]
  by_cases hzero : e₁.barCount = 0
  · have hnil : xs = [] := List.eq_nil_of_length_eq_zero ((barCount_zero_iff hopened.count).mp hzero)
    rw [hnil]
    simp only [hzero, if_true]
    refine ⟨fun _ => toNat_aligned now f.ms, ?_⟩
    have hfirst := holdsBar_first hopened.slot hkind x (now / f.ms * f.ms) fun _ => rfl
    split_ifs <;> exact ⟨hfirst, rfl⟩
  · have hne : xs ≠ [] := by
      rintro rfl
      exact hzero ((barCount_zero_iff hopened.count).mpr rfl)
    have hsame : e₁.barWindowStartMs = now / f.ms * f.ms ↔ now.toNat / f.ms.toNat = g :=
      aligned_eq_iff hms (hstart hzero)
    by_cases hlater : e₁.barWindowStartMs = now / f.ms * f.ms
    · simp only [hzero, if_false, ne_eq, hlater, not_true_eq_false, hsame.mp hlater, if_true]
      refine ⟨fun _ => ?_, holdsBar_more hopened hkind hne (hroom (hsame.mp hlater)) x fun _ => rfl,
        rfl⟩
      change e₁.barWindowStartMs.toNat = _
      rw [hstart hzero]
    · have hother : ¬ now.toNat / f.ms.toNat = g := fun h => hlater (hsame.mpr h)
      simp only [hzero, if_false, ne_eq, hlater, not_false_eq_true, if_true, hother]
      refine ⟨fun _ => toNat_aligned now f.ms,
        holdsBar_first hopened.slot hkind x (now / f.ms * f.ms) fun _ => rfl, ?_⟩
      obtain ⟨b, hb⟩ := barOf_of_ne_nil hne
      simp only [SlotStep.closed, hb, Option.toList_some, barClosed]
      rw [hopened.close hb ((hopened.bar b hb).2.2.2 hw).symm]

/-- What a tick does to a bar over time. -/
theorem timeTick (hw : f.timeWindow = true) (hms : f.ms ≠ 0) (h : HoldsBar f e xs) {g : ℕ}
    (hstart : BeganIn f e g) (hg : g ≤ now.toNat / f.ms.toNat) (A : EvalAlloc → Bool) :
    let s := f.step e (.tick A now)
    BeganIn f s.entry (now.toNat / f.ms.toNat) ∧
      if now.toNat / f.ms.toNat = g then HoldsBar f s.entry xs ∧ s.closed = []
      else HoldsBar f s.entry [] ∧ s.closed = (barOf xs).toList := by
  have hpos : 0 < f.ms.toNat := Nat.pos_of_ne_zero fun h => hms (UInt64.toNat_inj.mp h)
  by_cases hzero : e.barCount = 0
  · -- nothing is in progress, so that the tick leaves the slot as it is
    have hnil : xs = [] := List.eq_nil_of_length_eq_zero ((barCount_zero_iff h.count).mp hzero)
    have hstill : f.step e (.tick A now) = ⟨e, false, .ok (.inr none)⟩ := by
      rcases h.slot with ⟨hkind, -⟩ | ⟨hkind, -⟩
      · exact tickEntry_still (by simp [hkind]) (by simp [hkind]) (.inl (by simp [hkind])) A now
      · unfold BarForm.step
        dsimp only
        rw [tickEntry_bar hkind]
        simp [barTimeTick, hzero]
    rw [hstill]
    subst hnil
    refine ⟨fun hne => absurd hzero hne, ?_⟩
    split_ifs <;> exact ⟨h, rfl⟩
  · have hne : xs ≠ [] := by
      rintro rfl
      exact hzero ((barCount_zero_iff h.count).mpr rfl)
    rcases h.slot with ⟨-, hcount⟩ | ⟨hkind, htime, hcap, hwindow⟩
    · exact absurd hcount hzero
    have hbegan := hstart hzero
    have hold : now - e.barWindowStartMs < e.barWindowMs ↔ now.toNat / f.ms.toNat = g := by
      have hle : g * f.ms.toNat ≤ now.toNat := (Nat.le_div_iff_mul_le hpos).mp hg
      rw [UInt64.lt_iff_toNat_lt, UInt64.toNat_sub_of_le _ _ (by rw [UInt64.le_iff_toNat_le]; omega),
        hwindow, hbegan, Nat.div_eq_iff hpos]
      omega
    unfold BarForm.step
    dsimp only
    rw [tickEntry_bar hkind]
    have hopen : ¬(e.kind ≠ .bar ∨ e.barTimeWindow = false ∨ e.barCount = 0) := by
      simp [hkind, htime.trans hw, hzero]
    simp only [barTimeTick, hopen, if_false, hold]
    by_cases hsame : now.toNat / f.ms.toNat = g
    · simp only [hsame, if_true]
      exact ⟨fun _ => hbegan, h, rfl⟩
    · simp only [hsame, if_false]
      refine ⟨fun hne => absurd rfl hne, ⟨?_, rfl, fun b hb => by cases hb⟩, ?_⟩
      · exact .inr ⟨hkind, htime, hcap, hwindow⟩
      · obtain ⟨b, hb⟩ := barOf_of_ne_nil hne
        simp only [SlotStep.closed, hb, Option.toList_some, barClosed]
        rw [h.close hb ((h.bar b hb).2.2.2 hw).symm]

/-- Each window that has passed has had its bar, and the samples of the last one are in
progress. -/
structure HoldsGroups (f : BarForm) (last : UInt64) (r : BarRun N) : Prop where
  holds : HoldsBar f r.entry (group f.ms r.samples (last.toNat / f.ms.toNat))
  began : BeganIn f r.entry (last.toNat / f.ms.toNat)
  past : ∀ s ∈ r.samples, s.1 ≤ last
  bars : r.bars = (List.range (last.toNat / f.ms.toNat)).filterMap fun g =>
    barOf (group f.ms r.samples g)

omit [Number N] in
theorem group_concat (ms : UInt64) (l : List (UInt64 × N)) (s : UInt64 × N) (g : ℕ) :
    group ms (l ++ [s]) g =
      if s.1.toNat / ms.toNat = g then group ms l g ++ [s.2] else group ms l g := by
  unfold group
  split_ifs with h <;> simp [List.filter_append, h]

omit [Number N] in
/-- No sample is later than the last. -/
theorem group_later {ms : UInt64} {l : List (UInt64 × N)} (hpast : ∀ s ∈ l, s.1 ≤ last) {g : ℕ}
    (hg : last.toNat / ms.toNat < g) : group ms l g = [] := by
  unfold group
  rw [List.map_eq_nil_iff, List.filter_eq_nil_iff]
  intro s hs
  have hle := Nat.div_le_div_right (c := ms.toNat) (UInt64.le_iff_toNat_le.mp (hpast s hs))
  simp only [decide_eq_true_eq]
  omega

/-- The bars of the windows up to a later one. -/
theorem range_later {α : Type} {F : ℕ → Option α} {n m : ℕ} (hle : n ≤ m)
    (hnone : ∀ g, n < g → F g = none) :
    (List.range m).filterMap F =
      (List.range n).filterMap F ++ if m = n then [] else (F n).toList := by
  induction m, hle using Nat.le_induction with
  | base => simp
  | succ m hle ih =>
    have hne : m + 1 ≠ n := by omega
    rw [List.range_succ, List.filterMap_append, ih, List.append_assoc, List.filterMap_cons,
      List.filterMap_nil, if_neg hne]
    by_cases hsame : m = n
    · rw [if_pos hsame, hsame]
      cases F n <;> rfl
    · rw [if_neg hsame, hnone m (by omega)]
      simp

theorem bars_later {ms : UInt64} {l : List (UInt64 × N)} (hpast : ∀ s ∈ l, s.1 ≤ last)
    (hnow : last ≤ now) :
    last.toNat / ms.toNat ≤ now.toNat / ms.toNat ∧
      (List.range (now.toNat / ms.toNat)).filterMap (fun g => barOf (group ms l g)) =
        (List.range (last.toNat / ms.toNat)).filterMap (fun g => barOf (group ms l g)) ++
          if now.toNat / ms.toNat = last.toNat / ms.toNat then []
          else (barOf (group ms l (last.toNat / ms.toNat))).toList := by
  have hle : last.toNat / ms.toNat ≤ now.toNat / ms.toNat :=
    Nat.div_le_div_right (UInt64.le_iff_toNat_le.mp hnow)
  refine ⟨hle, range_later hle ?_⟩
  intro g hlt
  rw [group_later hpast hlt]
  rfl

theorem holdsGroups_step (hw : f.timeWindow = true) (hms : f.ms ≠ 0) (h : HoldsGroups f last r)
    {event : FormEvent N} (hnow : last ≤ event.now)
    (hroom : ∀ g, (group f.ms (r.samples ++ event.sample) g).length < 2 ^ 32) :
    HoldsGroups f event.now (r.step f event) := by
  have hempty : ∀ g, last.toNat / f.ms.toNat < g → group f.ms r.samples g = [] :=
    fun g => group_later h.past
  cases event with
  | tick A now =>
    have hnow : last ≤ now := hnow
    obtain ⟨hg, hbars⟩ := bars_later h.past hnow
    simp only [FormEvent.now]
    obtain ⟨hbegan, hstep⟩ := timeTick hw hms h.holds h.began hg A
    have hsamples : (r.step f (.tick A now)).samples = r.samples := List.append_nil _
    refine ⟨?_, hbegan, ?_, ?_⟩
    · rw [hsamples]
      split_ifs at hstep with hsame
      · rw [hsame]
        exact hstep.1
      · rw [hempty _ (lt_of_le_of_ne hg (Ne.symm hsame))]
        exact hstep.1
    · intro s hs
      rw [hsamples] at hs
      exact UInt64.le_trans (h.past s hs) hnow
    · rw [hsamples, hbars]
      change r.bars ++ _ = _
      rw [h.bars]
      congr 1
      by_cases hsame : now.toNat / f.ms.toNat = last.toNat / f.ms.toNat
      · rw [if_pos hsame] at hstep ⊢
        exact hstep.2
      · rw [if_neg hsame] at hstep ⊢
        exact hstep.2
  | message A now x v =>
    have hnow : last ≤ now := hnow
    obtain ⟨hg, hbars⟩ := bars_later h.past hnow
    simp only [FormEvent.now]
    have hsamples : (r.step f (.message A now x v)).samples = r.samples ++ [(now, x)] := rfl
    have hmore : now.toNat / f.ms.toNat = last.toNat / f.ms.toNat →
        (group f.ms r.samples (last.toNat / f.ms.toNat)).length + 1 < 2 ^ 32 := by
      intro hsame
      have hlength := hroom (last.toNat / f.ms.toNat)
      rw [FormEvent.sample, group_concat, if_pos hsame, List.length_append,
        List.length_singleton] at hlength
      exact hlength
    obtain ⟨hbegan, hstep⟩ := @timeStep _ _ f _ _ now hw hms h.holds _ h.began hmore A x v
    refine ⟨?_, hbegan, ?_, ?_⟩
    · rw [hsamples, group_concat, if_pos rfl]
      split_ifs at hstep with hsame
      · rw [hsame]
        exact hstep.1
      · rw [hempty _ (lt_of_le_of_ne hg (Ne.symm hsame))]
        exact hstep.1
    · intro s hs
      rw [hsamples] at hs
      rcases List.mem_append.mp hs with hs | hs
      · exact UInt64.le_trans (h.past s hs) hnow
      · rw [List.mem_singleton.mp hs]
        exact UInt64.le_refl _
    · have hold : ∀ g ∈ List.range (now.toNat / f.ms.toNat),
          barOf (group f.ms (r.samples ++ [(now, x)]) g) = barOf (group f.ms r.samples g) := by
        intro g hlt
        have hne : ¬ now.toNat / f.ms.toNat = g := by
          have := List.mem_range.mp hlt
          omega
        rw [group_concat, if_neg hne]
      rw [hsamples, List.filterMap_congr hold]
      refine Eq.trans ?_ hbars.symm
      change r.bars ++ _ = _
      rw [h.bars]
      congr 1
      by_cases hsame : now.toNat / f.ms.toNat = last.toNat / f.ms.toNat
      · rw [if_pos hsame] at hstep ⊢
        exact hstep.2
      · rw [if_neg hsame] at hstep ⊢
        exact hstep.2

omit [Number N] in
theorem group_append (ms : UInt64) (l l' : List (UInt64 × N)) (g : ℕ) :
    group ms (l ++ l') g = group ms l g ++ group ms l' g := by
  simp [group, List.filter_append]

theorem samples_run (f : BarForm) (r : BarRun N) (events : List (FormEvent N)) :
    (r.run f events).samples = r.samples ++ events.flatMap FormEvent.sample := by
  induction events generalizing r with
  | nil => exact (List.append_nil _).symm
  | cons event events ih =>
    refine (ih (r.step f event)).trans ?_
    rw [List.flatMap_cons, ← List.append_assoc]
    rfl

theorem holdsGroups_run (hw : f.timeWindow = true) (hms : f.ms ≠ 0) (h : HoldsGroups f last r)
    {events : List (FormEvent N)} (htimes : (last :: events.map FormEvent.now).Pairwise (· ≤ ·))
    (hroom : ∀ g,
      (group f.ms (r.samples ++ events.flatMap FormEvent.sample) g).length < 2 ^ 32) :
    HoldsGroups f ((events.getLast?.map FormEvent.now).getD last) (r.run f events) := by
  induction events generalizing r last with
  | nil => exact h
  | cons event events ih =>
    rw [List.map_cons] at htimes
    have hnow := List.rel_of_pairwise_cons htimes List.mem_cons_self
    have hstep : HoldsGroups f event.now (r.step f event) := by
      apply holdsGroups_step hw hms h hnow
      intro g
      have hall := hroom g
      rw [List.flatMap_cons, ← List.append_assoc, group_append, List.length_append] at hall
      omega
    have hlast : ((event :: events).getLast?.map FormEvent.now).getD last =
        (events.getLast?.map FormEvent.now).getD event.now := by
      cases events with
      | nil => rfl
      | cons event' events => rw [List.getLast?_cons_cons]; simp [List.getLast?_cons]
    rw [hlast]
    apply ih hstep htimes.of_cons
    intro g
    have hall := hroom g
    rw [List.flatMap_cons, ← List.append_assoc] at hall
    exact hall

theorem holdsGroups_fresh (f : BarForm) (k : StateKey) :
    HoldsGroups f 0 (BarRun.fresh k : BarRun N) := by
  refine ⟨holdsBar_fresh f k, fun hne => absurd rfl hne, ?_, ?_⟩
  · intro s hs
    cases hs
  · simp [BarRun.fresh]

/-- Every run puts out the bars of the blocks that are full, or of the windows that lie
before that of the last event. -/
theorem bars_of_run (f : BarForm) (hf : f.Checked) (k : StateKey) (events : List (FormEvent N)) :
    let r := (BarRun.fresh k).run f events
    (f.timeWindow = false →
      r.bars = (List.range (r.samples.length / f.count.toNat)).filterMap fun i =>
        barOf (block f.count.toNat r.samples i)) ∧
    (f.timeWindow = true → (events.map FormEvent.now).Pairwise (· ≤ ·) →
      (∀ g, (group f.ms r.samples g).length < 2 ^ 32) →
        r.bars = (List.range (((events.getLast?.map FormEvent.now).getD 0).toNat /
          f.ms.toNat)).filterMap fun g => barOf (group f.ms r.samples g)) := by
  constructor
  · intro hw
    have hn : 0 < f.count.toNat := by
      simp only [BarForm.Checked, hw, Bool.false_eq_true, if_false] at hf
      exact Nat.pos_of_ne_zero fun h => hf (UInt32.toNat_inj.mp h)
    exact (holdsBlocks_run hw hn (holdsBlocks_fresh f k) events).bars
  · intro hw htimes hroom
    have hms : f.ms ≠ 0 := by
      simp only [BarForm.Checked, hw, if_true] at hf
      exact hf
    have hfrom : (0 :: events.map FormEvent.now).Pairwise (· ≤ ·) :=
      List.Pairwise.cons (fun t _ => UInt64.zero_le) htimes
    rw [samples_run] at hroom
    exact (holdsGroups_run hw hms (holdsGroups_fresh f k) hfrom hroom).bars

end Groups

/-! ## The order of a bar -/

section Order

/-- A bar has the first, the highest, the lowest and the last of its samples. -/
structure IsBar (xs : List (Extended ℚ)) (b : BarClose (Extended ℚ)) : Prop where
  first : xs.head? = some b.open
  last : xs.getLast? = some b.close
  highest : b.high ∈ xs ∧ ∀ x ∈ xs, fle x b.high = true
  lowest : b.low ∈ xs ∧ ∀ x ∈ xs, fle b.low x = true

@[simp]
theorem fle_fin (a b : ℚ) : fle (.fin a : Extended ℚ) (.fin b) = decide (a ≤ b) := by
  change (decide (a < b) || decide (a = b)) = decide (a ≤ b)
  simp only [← Bool.decide_or, ← le_iff_lt_or_eq]

@[simp]
theorem fle_inf (s t : Bool) : fle (.inf s : Extended ℚ) (.inf t) = (s || !t) := by
  cases s <;> cases t <;> rfl

@[simp]
theorem fle_inf_fin (s : Bool) (a : ℚ) : fle (.inf s : Extended ℚ) (.fin a) = s := by
  cases s <;> rfl

@[simp]
theorem fle_fin_inf (a : ℚ) (t : Bool) : fle (.fin a : Extended ℚ) (.inf t) = !t := by
  cases t <;> rfl

theorem fle_nan (a : Extended ℚ) : fle .nan a = false ∧ fle a .nan = false := by
  cases a <;> exact ⟨rfl, rfl⟩

theorem fle_refl {a : Extended ℚ} (ha : a ≠ .nan) : fle a a = true := by
  cases a with
  | nan => exact absurd rfl ha
  | inf s => cases s <;> rfl
  | fin q => simp

theorem fle_trans {a b c : Extended ℚ} (hab : fle a b = true) (hbc : fle b c = true) :
    fle a c = true := by
  cases b with
  | nan => simp [(fle_nan a).2] at hab
  | inf s =>
    cases s <;> cases a <;> cases c <;> simp_all [fle_nan]
  | fin q =>
    cases a with
    | nan => simp [fle_nan] at hab
    | inf s => cases c <;> simp_all [fle_nan]
    | fin p =>
      cases c with
      | nan => simp [fle_nan] at hbc
      | inf t => simpa using hbc
      | fin r =>
        simp only [fle_fin, decide_eq_true_eq] at hab hbc ⊢
        exact le_trans hab hbc

/-- Numbers are compared in full. -/
theorem fle_of_not_flt {a b : Extended ℚ} (ha : a ≠ .nan) (hb : b ≠ .nan) (h : ¬ flt b a = true) :
    fle a b = true := by
  cases a with
  | nan => exact absurd rfl ha
  | inf s =>
    cases b with
    | nan => exact absurd rfl hb
    | inf t => revert h; cases s <;> cases t <;> decide
    | fin q => revert h; cases s <;> simp [flt, Extended.lt]
  | fin p =>
    cases b with
    | nan => exact absurd rfl hb
    | inf t => revert h; cases t <;> simp [flt, Extended.lt]
    | fin q =>
      simp only [fle_fin, decide_eq_true_eq]
      have hlt : ¬ decide (q < p) = true := h
      simpa using hlt

theorem fle_of_flt {a b : Extended ℚ} (h : flt a b = true) : fle a b = true := by
  change (Extended.lt a b || Extended.eq a b) = true
  rw [show Extended.lt a b = true from h, Bool.true_or]

theorem isBar_of_numbers {xs : List (Extended ℚ)} {b : BarClose (Extended ℚ)}
    (hb : barOf xs = some b) (hxs : ∀ x ∈ xs, x ≠ .nan) : IsBar xs b := by
  cases xs with
  | nil => cases hb
  | cons x xs =>
    cases hb
    have hhigh := foldl_selects (P := fun x : Extended ℚ => x ≠ .nan)
      (R := fun a b => fle b a = true) (f := fun high y => if flt high y then y else high)
      (fun a ha => fle_refl ha) (fun a b c _ _ _ hab hbc => fle_trans hbc hab)
      (fun a b => by split_ifs <;> simp) (fun a b ha hb => by
        split_ifs with hlt
        · exact ⟨fle_of_flt hlt, fle_refl hb⟩
        · exact ⟨fle_refl ha, fle_of_not_flt hb ha hlt⟩) x xs hxs
    have hlow := foldl_selects (P := fun x : Extended ℚ => x ≠ .nan)
      (R := fun a b => fle a b = true) (f := fun low y => if flt y low then y else low)
      (fun a ha => fle_refl ha) (fun a b c _ _ _ hab hbc => fle_trans hab hbc)
      (fun a b => by split_ifs <;> simp) (fun a b ha hb => by
        split_ifs with hlt
        · exact ⟨fle_of_flt hlt, fle_refl hb⟩
        · exact ⟨fle_refl ha, fle_of_not_flt ha hb hlt⟩) x xs hxs
    exact ⟨rfl, by simp [List.getLast?_cons, List.getLastD_eq_getLast?], hhigh, hlow⟩

theorem number_of_fle {a b : Extended ℚ} (h : fle a b = true) : a ≠ .nan ∧ b ≠ .nan := by
  constructor
  · rintro rfl
    simp [fle_nan] at h
  · rintro rfl
    simp [fle_nan] at h

/-- A number lies between the lowest and the highest of a bar. -/
def Between (low high x : Extended ℚ) : Prop := fle low x = true ∧ fle x high = true

/-- The prices of a bar are in order. -/
def Ordered (b : BarClose (Extended ℚ)) : Prop :=
  Between b.low b.high b.open ∧ Between b.low b.high b.close

/-- The prices of the bar in progress are. -/
structure OrderedSlot (f : BarForm) (e : StateEntry (Extended ℚ)) : Prop where
  slot : OfBar f e
  opened : e.barCount ≠ 0 → Between e.barLow e.barHigh e.barOpen
  closed : f.timeWindow = true → e.barCount ≠ 0 → Between e.barLow e.barHigh e.barLastClose

/-- A further number widens the bar. -/
theorem between_extend {e : StateEntry (Extended ℚ)} {x y : Extended ℚ}
    (h : Between e.barLow e.barHigh x) (hy : y ≠ .nan) :
    Between (e.barExtend y).barLow (e.barExtend y).barHigh x ∧
      Between (e.barExtend y).barLow (e.barExtend y).barHigh y := by
  obtain ⟨hlow, hhigh⟩ := h
  have hlow' : fle (e.barExtend y).barLow e.barLow = true ∧ fle (e.barExtend y).barLow y = true := by
    unfold barExtend
    dsimp only
    split_ifs with hlt
    · exact ⟨fle_of_flt hlt, fle_refl hy⟩
    · exact ⟨fle_refl (number_of_fle hlow).1, fle_of_not_flt (number_of_fle hlow).1 hy hlt⟩
  have hhigh' : fle e.barHigh (e.barExtend y).barHigh = true ∧
      fle y (e.barExtend y).barHigh = true := by
    unfold barExtend
    dsimp only
    split_ifs with hlt
    · exact ⟨fle_of_flt hlt, fle_refl hy⟩
    · exact ⟨fle_refl (number_of_fle hhigh).2, fle_of_not_flt hy (number_of_fle hhigh).2 hlt⟩
  exact ⟨⟨fle_trans hlow'.1 hlow, fle_trans hhigh hhigh'.1⟩, hlow'.2, hhigh'.2⟩

theorem between_self {y : Extended ℚ} (hy : y ≠ .nan) : Between y y y :=
  ⟨fle_refl hy, fle_refl hy⟩

theorem OrderedSlot.openedBar {f : BarForm} {e : StateEntry (Extended ℚ)} (h : OrderedSlot f e) :
    OrderedSlot f (openedBar f e) := by
  obtain ⟨hcount, hopen, hhigh, hlow, hclose, -⟩ := openedBar_fields f e
  refine ⟨.inr (openedBar_spec h.slot), ?_, ?_⟩
  · rw [hcount, hopen, hhigh, hlow]
    exact h.opened
  · rw [hcount, hclose, hhigh, hlow]
    exact h.closed

theorem orderedSlot_sample {f : BarForm} {e : StateEntry (Extended ℚ)} (h : OrderedSlot f e)
    (A : EvalAlloc → Bool) (now : UInt64) {x : Extended ℚ} (hx : x ≠ .nan)
    (v : Value (Extended ℚ)) :
    let s := f.step e (.message A now x v)
    OrderedSlot f s.entry ∧ ∀ b ∈ s.closed, Ordered b := by
  have hopened := h.openedBar
  have hbar := openedBar_spec h.slot
  rw [step_opened h.slot]
  generalize Patchbay.openedBar f e = e₁ at hopened hbar ⊢
  -- the slot once it is a bar, and what it holds after a first and after one more sample
  have hslot : ∀ e₂, SameBar e₁ e₂ → OfBar f e₂ := fun e₂ hsame =>
    .inr ⟨hsame.kind.trans hbar.1, hsame.timeWindow.trans hbar.2.1, hsame.cap.trans hbar.2.2.1,
      hsame.windowMs.trans hbar.2.2.2⟩
  have hself := between_self hx
  by_cases hw : f.timeWindow = true
  · simp only [hw, if_true]
    have hsame := sameBar_barTimeUpdate e₁ now x
    have hentry : OrderedSlot f (e₁.barTimeUpdate now x).1 := by
      refine ⟨hslot _ hsame, ?_, ?_⟩
      all_goals
        unfold barTimeUpdate
        dsimp only
        split_ifs with hzero hlater
        · intros
          exact hself
        · intros
          exact hself
        · intros
          first
          | exact (between_extend (hopened.opened hzero) hx).1
          | exact (between_extend (hopened.opened hzero) hx).2
    refine ⟨hentry, ?_⟩
    unfold barTimeUpdate
    dsimp only
    split_ifs with hzero hlater
    · intro b hb
      cases hb
    · intro b hb
      obtain rfl := List.mem_singleton.mp hb
      exact ⟨hopened.opened hzero, hopened.closed hw hzero⟩
    · intro b hb
      cases hb
  · simp only [hw, Bool.false_eq_true, if_false]
    have hsame := sameBar_barTickUpdate e₁ x
    have hpair : Between (if e₁.barCount = 0 then e₁.barOpenAt x else e₁.barExtend x).barLow
          (if e₁.barCount = 0 then e₁.barOpenAt x else e₁.barExtend x).barHigh
          (if e₁.barCount = 0 then e₁.barOpenAt x else e₁.barExtend x).barOpen ∧
        Between (if e₁.barCount = 0 then e₁.barOpenAt x else e₁.barExtend x).barLow
          (if e₁.barCount = 0 then e₁.barOpenAt x else e₁.barExtend x).barHigh x := by
      split_ifs with hzero
      · exact ⟨hself, hself⟩
      · exact between_extend (hopened.opened hzero) hx
    have hslot' := hslot _ hsame
    unfold barTickUpdate at hslot' ⊢
    generalize (if e₁.barCount = 0 then e₁.barOpenAt x else e₁.barExtend x) = e₂ at hpair hslot' ⊢
    dsimp only at hslot' ⊢
    split_ifs at hslot' ⊢
    · refine ⟨⟨hslot', fun _ => hpair.1, fun htime => absurd htime hw⟩, ?_⟩
      intro b hb
      cases hb
    · refine ⟨⟨hslot', fun hne => absurd rfl hne, fun htime => absurd htime hw⟩, ?_⟩
      intro b hb
      obtain rfl := List.mem_singleton.mp hb
      exact hpair

theorem orderedSlot_tick {f : BarForm} {e : StateEntry (Extended ℚ)} (h : OrderedSlot f e)
    (A : EvalAlloc → Bool) (now : UInt64) :
    let s := f.step e (.tick A now)
    OrderedSlot f s.entry ∧ ∀ b ∈ s.closed, Ordered b := by
  rcases h.slot with ⟨hkind, -⟩ | hbar
  · have hstill : f.step e (.tick A now) = ⟨e, false, .ok (.inr none)⟩ :=
      tickEntry_still (by simp [hkind]) (by simp [hkind]) (.inl (by simp [hkind])) A now
    rw [hstill]
    refine ⟨h, ?_⟩
    intro b hb
    cases hb
  · have hstep : f.step e (.tick A now) =
        ⟨(e.barTimeTick now).1, false, .ok (.inr (e.barTimeTick now).2)⟩ := tickEntry_bar hbar.1 A now
    rw [hstep]
    unfold barTimeTick
    split_ifs with hidle hyoung
    · refine ⟨h, ?_⟩
      intro b hb
      cases hb
    · refine ⟨h, ?_⟩
      intro b hb
      cases hb
    · simp only [not_or, Bool.not_eq_false] at hidle
      obtain ⟨-, htime, hzero⟩ := hidle
      refine ⟨⟨.inr hbar, fun hne => absurd rfl hne, fun _ hne => absurd rfl hne⟩, ?_⟩
      intro b hb
      obtain rfl := List.mem_singleton.mp hb
      exact ⟨h.opened hzero, h.closed (hbar.2.1 ▸ htime) hzero⟩

theorem orderedSlot_step {f : BarForm} {e : StateEntry (Extended ℚ)} (h : OrderedSlot f e)
    {event : FormEvent (Extended ℚ)} (hevent : ∀ s ∈ event.sample, s.2 ≠ .nan) :
    OrderedSlot f (f.step e event).entry ∧ ∀ b ∈ (f.step e event).closed, Ordered b := by
  cases event with
  | message A now x v => exact orderedSlot_sample h A now (hevent (now, x) List.mem_cons_self) v
  | tick A now => exact orderedSlot_tick h A now

/-- Whatever the times are, no bar is out of order unless a sample is no number. -/
theorem ordered_run {f : BarForm} {r : BarRun (Extended ℚ)} (h : OrderedSlot f r.entry)
    (hbars : ∀ b ∈ r.bars, Ordered b) {events : List (FormEvent (Extended ℚ))}
    (hevents : ∀ event ∈ events, ∀ s ∈ event.sample, s.2 ≠ .nan) :
    ∀ b ∈ (r.run f events).bars, Ordered b := by
  induction events generalizing r with
  | nil => exact hbars
  | cons event events ih =>
    obtain ⟨hstep, hclosed⟩ := orderedSlot_step h (hevents event List.mem_cons_self)
    apply ih hstep
    · intro b hb
      rcases List.mem_append.mp hb with hb | hb
      · exact hbars b hb
      · exact hclosed b hb
    · intro event' hevent
      exact hevents event' (List.mem_cons_of_mem _ hevent)

/-- Every run puts out the bars of the blocks that are full, or of the windows that lie
before that of the last event, and those of numbers are in order. -/
theorem bars_partition_samples (f : BarForm) (hf : f.Checked) (k : StateKey)
    (events : List (FormEvent (Extended ℚ))) :
    let r := (BarRun.fresh k).run f events
    (f.timeWindow = false →
      r.bars = (List.range (r.samples.length / f.count.toNat)).filterMap fun i =>
        barOf (block f.count.toNat r.samples i)) ∧
    (f.timeWindow = true → (events.map FormEvent.now).Pairwise (· ≤ ·) →
      (∀ g, (group f.ms r.samples g).length < 2 ^ 32) →
        r.bars = (List.range (((events.getLast?.map FormEvent.now).getD 0).toNat /
          f.ms.toNat)).filterMap fun g => barOf (group f.ms r.samples g)) ∧
    (∀ xs b, barOf xs = some b → (∀ x ∈ xs, x ≠ .nan) → IsBar xs b) ∧
    ((∀ event ∈ events, ∀ s ∈ event.sample, s.2 ≠ .nan) → ∀ b ∈ r.bars, Ordered b) := by
  obtain ⟨hblocks, hgroups⟩ := bars_of_run f hf k events
  refine ⟨hblocks, hgroups, fun xs b => isBar_of_numbers, ?_⟩
  apply ordered_run
  · exact ⟨.inl ⟨rfl, rfl⟩, fun hne => absurd rfl hne, fun _ hne => absurd rfl hne⟩
  · intro b hb
    cases hb

theorem bars_partition_two :
    ((BarRun.fresh ⟨0, lit "bar/t", lit "a"⟩).run ⟨false, 2, 0⟩
      [.message (fun _ => true) 1 (.fin 3) .nil, .message (fun _ => true) 2 (.fin 2) .nil]).bars =
      [(⟨.fin 3, .fin 3, .fin 2, .fin 2⟩ : BarClose (Extended ℚ))] := by
  rw [(bars_partition_samples ⟨false, 2, 0⟩ (by simp [BarForm.Checked]) _ _).1 rfl]
  rfl

/-- The first sample of a bar of two is not a number, and stays its lowest. -/
theorem bar_of_nan_unordered :
    ¬ ∀ (f : BarForm) (k : StateKey) (events : List (FormEvent (Extended ℚ))), f.Checked →
      ∀ b ∈ ((BarRun.fresh k).run f events).bars, Ordered b := by
  intro hclaim
  have hbar := hclaim ⟨false, 2, 0⟩ ⟨0, lit "bar/t", lit "a"⟩
    [.message (fun _ => true) 1 .nan .nil, .message (fun _ => true) 2 (.fin 2) .nil]
    (by simp [BarForm.Checked]) ⟨.nan, .nan, .nan, .fin 2⟩ (by
      rw [(bars_of_run ⟨false, 2, 0⟩ (by simp [BarForm.Checked]) _ _).1 rfl]
      exact List.mem_singleton.mpr rfl)
  exact absurd hbar.1.1 (by decide)

end Order

end Monoblok.Patchbay
