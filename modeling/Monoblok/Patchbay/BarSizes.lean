import Monoblok.Patchbay.WindowForms

/-!
# Bars on a slot they did not make

A bar takes the size of its slot from the evaluation that made it and never looks
at its own again. The two agree in every run where they are equal; a tick bar does not tell a size of
nought from a size of one, since both end with each sample.
-/

namespace Monoblok.Patchbay

open StateEntry Number

variable {N : Type} [Number N]

/-- The bar form, with the size in its arguments. -/
structure BarForm where
  timeWindow : Bool
  count : UInt32
  ms : UInt64

namespace BarForm

/-- What an evaluation or a tick does to the slot, and what comes of it. -/
def step (f : BarForm) (e : StateEntry N) :
    FormEvent N → SlotStep N (Fired N ⊕ Option (BarClose N))
  | .message _ now x _ =>
    let s := barSample f.timeWindow f.count f.ms now x e
    ⟨s.entry, s.suppressed, s.result.map .inr⟩
  | .tick A now => tickEntry A now e

def run (f : BarForm) (e : StateEntry N) (events : List (FormEvent N)) : StateEntry N :=
  events.foldl (fun e event => (f.step e event).entry) e

/-- The slot with the size of the form. -/
def resize (f : BarForm) (e : StateEntry N) : StateEntry N :=
  if f.timeWindow then { e with barWindowMs := f.ms } else { e with barCap := f.count }

/-- The same comes of both. -/
def Alike {α : Type} (s s' : SlotStep N α) : Prop :=
  s.suppressed = s'.suppressed ∧ s.result = s'.result

/-- In every run each event has the outcome it would have if the slot had the size of
the form, and none fails. -/
def Follows (f : BarForm) (e : StateEntry N) : Prop :=
  ∀ (events : List (FormEvent N)) (event : FormEvent N),
    ((events ++ [event]).map FormEvent.now).Pairwise (· ≤ ·) →
    Alike (f.step (f.run e events) event) (f.step (f.run (f.resize e) events) event) ∧
      ∃ outcome, (f.step (f.run e events) event).result = .ok outcome

/-- The size is at least one, as the form checks. -/
def Checked (f : BarForm) : Prop :=
  if f.timeWindow then f.ms ≠ 0 else f.count ≠ 0

/-- A count that has run up to the largest number starts again at nought and does
not end a bar of one. -/
def SizeAgrees (f : BarForm) (e : StateEntry N) : Prop :=
  if f.timeWindow then e.barWindowMs = f.ms
  else e.barCap = f.count ∨ e.barCap = 0 ∧ f.count = 1 ∧ e.barCount + 1 ≠ 0

/-- A new slot, or a bar of the form's kind and size. -/
def Agrees (f : BarForm) (e : StateEntry N) : Prop :=
  e.kind = .empty ∨ e.kind = .bar ∧ e.barTimeWindow = f.timeWindow ∧ f.SizeAgrees e

end BarForm

/-! ## Slots that agree -/

section Agrees

variable {f : BarForm} {e : StateEntry N}

/-- The slot that an evaluation goes on with keeps its kind and its size. -/
structure SameBar (e e' : StateEntry N) : Prop where
  kind : e'.kind = e.kind
  timeWindow : e'.barTimeWindow = e.barTimeWindow
  windowMs : e'.barWindowMs = e.barWindowMs
  cap : e'.barCap = e.barCap

theorem sameBar_barTickUpdate (e : StateEntry N) (x : N) : SameBar e (e.barTickUpdate x).1 := by
  unfold barTickUpdate barOpenAt barExtend
  dsimp only
  split_ifs <;> exact ⟨rfl, rfl, rfl, rfl⟩

theorem sameBar_barTimeUpdate (e : StateEntry N) (now : UInt64) (x : N) :
    SameBar e (e.barTimeUpdate now x).1 := by
  unfold barTimeUpdate barOpenAt barExtend
  dsimp only
  split_ifs <;> exact ⟨rfl, rfl, rfl, rfl⟩

omit [Number N] in
theorem sameBar_barTimeTick (e : StateEntry N) (now : UInt64) :
    SameBar e (e.barTimeTick now).1 := by
  unfold barTimeTick
  split_ifs <;> exact ⟨rfl, rfl, rfl, rfl⟩

/-- An evaluation on a bar of the form's kind. -/
theorem barSample_bar (hkind : e.kind = .bar) (htime : e.barTimeWindow = f.timeWindow)
    (now : UInt64) (x : N) :
    barSample f.timeWindow f.count f.ms now x e =
      let r := if f.timeWindow then e.barTimeUpdate now x else e.barTickUpdate x
      ⟨r.1, r.2.isNone, .ok r.2⟩ := by
  have hne : e.kind ≠ .empty := by
    rw [hkind]
    decide
  have hfits : ¬(e.kind ≠ .bar ∨ e.barTimeWindow ≠ f.timeWindow) := by
    rw [not_or, not_not, not_not]
    exact ⟨hkind, htime⟩
  unfold barSample
  dsimp only
  rw [if_neg hne, if_neg hfits]

theorem tickEntry_bar (hkind : e.kind = .bar) (A : EvalAlloc → Bool) (now : UInt64) :
    tickEntry A now e = ⟨(e.barTimeTick now).1, false, .ok (.inr (e.barTimeTick now).2)⟩ := by
  have hclock : e.kind ≠ .clock := by
    rw [hkind]
    decide
  have hwindow : ¬(e.kind = .ring ∧ e.ringTimeWindow = true ∧ 0 < e.ringLen) := by
    rw [hkind]
    rintro ⟨h, -⟩
    cases h
  rw [tickEntry, if_neg hclock, tickWindow, if_neg hwindow]
  rfl

/-- An evaluation on a bar keeps its size. -/
theorem sameBar_step (hkind : e.kind = .bar) (htime : e.barTimeWindow = f.timeWindow)
    (event : FormEvent N) :
    SameBar e (f.step e event).entry ∧ ∃ outcome, (f.step e event).result = .ok outcome := by
  cases event with
  | message A now x v =>
    unfold BarForm.step
    dsimp only
    rw [barSample_bar hkind htime]
    refine ⟨?_, _, rfl⟩
    dsimp only
    split_ifs
    · exact sameBar_barTimeUpdate e now x
    · exact sameBar_barTickUpdate e x
  | tick A now =>
    unfold BarForm.step
    dsimp only
    rw [tickEntry_bar hkind]
    exact ⟨sameBar_barTimeTick e now, _, rfl⟩

omit [Number N] in
theorem resize_eq_self (h : if f.timeWindow then e.barWindowMs = f.ms else e.barCap = f.count) :
    f.resize e = e := by
  unfold BarForm.resize
  split_ifs at h ⊢
  · rw [← h]
  · rw [← h]

/-- The first evaluation gives a new slot the size of the form. -/
theorem barSample_empty (hkind : e.kind = .empty) (now : UInt64) (x : N) :
    ∃ e₁ : StateEntry N, e₁.kind = .bar ∧ e₁.barTimeWindow = f.timeWindow ∧ e₁.barCap = f.count ∧
      e₁.barWindowMs = f.ms ∧
      barSample f.timeWindow f.count f.ms now x e = barSample f.timeWindow f.count f.ms now x e₁ ∧
      barSample f.timeWindow f.count f.ms now x (f.resize e) =
        barSample f.timeWindow f.count f.ms now x e₁ := by
  have hsize : (f.resize e).kind = .empty := by
    unfold BarForm.resize
    split_ifs
    · exact hkind
    · exact hkind
  have hopen : { f.resize e with
      kind := .bar, barTimeWindow := f.timeWindow, barCap := f.count, barWindowMs := f.ms } =
      { e with
      kind := .bar, barTimeWindow := f.timeWindow, barCap := f.count, barWindowMs := f.ms } := by
    unfold BarForm.resize
    split_ifs <;> rfl
  refine ⟨{ e with
    kind := .bar, barTimeWindow := f.timeWindow, barCap := f.count, barWindowMs := f.ms },
    rfl, rfl, rfl, rfl, ?_, ?_⟩
  · unfold barSample
    rw [if_pos hkind]
    rfl
  · unfold barSample
    rw [if_pos hsize, hopen]
    rfl

/-- What one step does to a slot that agrees, and to the same slot with the size of
the form. -/
structure StepAgrees (f : BarForm) (e : StateEntry N) (event : FormEvent N) : Prop where
  alike : BarForm.Alike (f.step e event) (f.step (f.resize e) event)
  entry : (f.step (f.resize e) event).entry = f.resize (f.step e event).entry
  agrees : f.Agrees (f.step e event).entry
  ok : ∃ outcome, (f.step e event).result = .ok outcome

theorem stepAgrees_of_size (hkind : e.kind = .bar) (htime : e.barTimeWindow = f.timeWindow)
    (hsize : if f.timeWindow then e.barWindowMs = f.ms else e.barCap = f.count)
    (event : FormEvent N) : StepAgrees f e event := by
  obtain ⟨hsame, hok⟩ := sameBar_step hkind htime event
  have hsize' : if f.timeWindow then (f.step e event).entry.barWindowMs = f.ms
      else (f.step e event).entry.barCap = f.count := by
    rw [hsame.windowMs, hsame.cap]
    exact hsize
  constructor
  · rw [resize_eq_self hsize]
    exact ⟨rfl, rfl⟩
  · rw [resize_eq_self hsize, resize_eq_self hsize']
  · refine .inr ⟨hsame.kind.trans hkind, hsame.timeWindow.trans htime, ?_⟩
    unfold BarForm.SizeAgrees
    split_ifs at hsize' ⊢
    · exact hsize'
    · exact .inl hsize'
  · exact hok

/-- The first message makes the slot a bar of the form's size. -/
theorem stepAgrees_empty (hkind : e.kind = .empty) (event : FormEvent N) : StepAgrees f e event := by
  cases event with
  | message A now x v =>
    obtain ⟨e₁, hkind₁, htime, hcap, hms, hfirst, hresized⟩ := barSample_empty (f := f) hkind now x
    have hsize : if f.timeWindow then e₁.barWindowMs = f.ms else e₁.barCap = f.count := by
      split_ifs
      · exact hms
      · exact hcap
    obtain ⟨-, hentry, hagrees, hok⟩ := stepAgrees_of_size hkind₁ htime hsize (.message A now x v)
    rw [resize_eq_self hsize] at hentry
    have hsame : f.step e (.message A now x v) = f.step e₁ (.message A now x v) := by
      unfold BarForm.step
      dsimp only
      rw [hfirst]
    have hsame' : f.step (f.resize e) (.message A now x v) = f.step e₁ (.message A now x v) := by
      unfold BarForm.step
      dsimp only
      rw [hresized]
    constructor
    · rw [hsame, hsame']
      exact ⟨rfl, rfl⟩
    · rw [hsame, hsame']
      exact hentry
    · rw [hsame]
      exact hagrees
    · rw [hsame]
      exact hok
  | tick A now =>
    have hstill : ∀ e' : StateEntry N, e'.kind = .empty →
        f.step e' (.tick A now) = ⟨e', false, .ok (.inr none)⟩ := by
      intro e' hkind'
      apply tickEntry_still
      · rw [hkind']
        decide
      · rw [hkind']
        decide
      · left
        rw [hkind']
        decide
    have hkind' : (f.resize e).kind = .empty := by
      unfold BarForm.resize
      split_ifs
      · exact hkind
      · exact hkind
    constructor
    · rw [hstill e hkind, hstill _ hkind']
      exact ⟨rfl, rfl⟩
    · rw [hstill e hkind, hstill _ hkind']
    · rw [hstill e hkind]
      exact .inl hkind
    · rw [hstill e hkind]
      exact ⟨_, rfl⟩

/-- The bar with one more sample. -/
def grown (e : StateEntry N) (x : N) : StateEntry N :=
  if e.barCount = 0 then e.barOpenAt x else e.barExtend x

/-- A message on a tick bar of any size. -/
theorem step_ticks (hkind : e.kind = .bar) (htime : e.barTimeWindow = f.timeWindow)
    (hticks : f.timeWindow = false) (cap : UInt32) (A : EvalAlloc → Bool) (now : UInt64) (x : N)
    (v : Value N) :
    f.step { e with barCap := cap } (.message A now x v) =
      if (grown e x).barCount < cap then ⟨{ grown e x with barCap := cap }, true, .ok (.inr none)⟩
      else
        ⟨{ grown e x with barCount := 0, barCap := cap }, false,
          .ok (.inr (some ⟨(grown e x).barOpen, (grown e x).barHigh, (grown e x).barLow, x⟩))⟩ := by
  have hgrown : (if ({ e with barCap := cap } : StateEntry N).barCount = 0 then
      ({ e with barCap := cap } : StateEntry N).barOpenAt x
      else ({ e with barCap := cap } : StateEntry N).barExtend x) =
      { grown e x with barCap := cap } := by
    unfold grown
    dsimp only
    split_ifs <;> rfl
  unfold BarForm.step
  dsimp only
  rw [barSample_bar (e := { e with barCap := cap }) hkind htime, hticks, if_neg Bool.false_ne_true]
  unfold barTickUpdate
  rw [hgrown]
  dsimp only
  split_ifs <;> rfl

/-- A size of nought ends a bar with each sample, as a size of one does. -/
theorem stepAgrees_small (hkind : e.kind = .bar) (htime : e.barTimeWindow = f.timeWindow)
    (hticks : f.timeWindow = false) (hcap : e.barCap = 0) (hcount : f.count = 1)
    (hroom : e.barCount + 1 ≠ 0) (event : FormEvent N) : StepAgrees f e event := by
  have hresize : f.resize e = { e with barCap := 1 } := by
    unfold BarForm.resize
    rw [hticks, if_neg Bool.false_ne_true, hcount]
  have hkind' : (f.resize e).kind = .bar := by
    rw [hresize]
    exact hkind
  have htime' : (f.resize e).barTimeWindow = f.timeWindow := by
    rw [hresize]
    exact htime
  obtain ⟨hsame, hok⟩ := sameBar_step hkind htime event
  have hagrees : (f.step e event).entry.barCount + 1 ≠ 0 → f.Agrees (f.step e event).entry := by
    intro h
    refine .inr ⟨hsame.kind.trans hkind, hsame.timeWindow.trans htime, ?_⟩
    unfold BarForm.SizeAgrees
    rw [hticks, if_neg Bool.false_ne_true]
    exact .inr ⟨hsame.cap.trans hcap, hcount, h⟩
  cases event with
  | message A now x v =>
    have hcounts : (grown e x).barCount = 1 ∨ (grown e x).barCount = e.barCount + 1 := by
      unfold grown
      split_ifs
      · exact .inl rfl
      · exact .inr rfl
    have hends : ¬(grown e x).barCount < 0 ∧ ¬(grown e x).barCount < 1 := by
      rcases hcounts with h | h
      · rw [h]
        decide
      · rw [h]
        refine ⟨UInt32.not_lt_zero, ?_⟩
        intro hlt
        apply hroom
        apply UInt32.toNat_inj.mp
        have hlt' := UInt32.lt_iff_toNat_lt.mp hlt
        exact Nat.lt_one_iff.mp hlt'
    have hstep := step_ticks hkind htime hticks 0 A now x v
    have hstep' := step_ticks hkind htime hticks 1 A now x v
    rw [if_neg hends.1] at hstep
    rw [if_neg hends.2] at hstep'
    rw [← hresize] at hstep'
    have hself : { e with barCap := 0 } = e := by
      rw [← hcap]
    rw [hself] at hstep
    rw [hstep] at hagrees
    constructor
    · rw [hstep, hstep']
      exact ⟨rfl, rfl⟩
    · rw [hstep, hstep']
      unfold BarForm.resize
      rw [hticks, if_neg Bool.false_ne_true, hcount]
    · rw [hstep]
      apply hagrees
      change (0 : UInt32) + 1 ≠ 0
      decide
    · exact hok
  | tick A now =>
    have htick : ∀ e' : StateEntry N, e'.kind = .bar → e'.barTimeWindow = f.timeWindow →
        f.step e' (.tick A now) = ⟨e', false, .ok (.inr none)⟩ := by
      intro e' hkind htime
      unfold BarForm.step
      dsimp only
      rw [tickEntry_bar hkind, barTimeTick, if_pos (.inr (.inl (htime.trans hticks)))]
    rw [htick e hkind htime] at hagrees
    constructor
    · rw [htick e hkind htime, htick _ hkind' htime']
      exact ⟨rfl, rfl⟩
    · rw [htick e hkind htime, htick _ hkind' htime']
    · rw [htick e hkind htime]
      exact hagrees hroom
    · exact hok

theorem stepAgrees (h : f.Agrees e) (event : FormEvent N) : StepAgrees f e event := by
  rcases h with hkind | ⟨hkind, htime, hsize⟩
  · exact stepAgrees_empty hkind event
  · unfold BarForm.SizeAgrees at hsize
    cases hw : f.timeWindow with
    | true =>
      rw [hw, if_pos rfl] at hsize
      apply stepAgrees_of_size hkind htime
      rw [hw, if_pos rfl]
      exact hsize
    | false =>
      rw [hw, if_neg Bool.false_ne_true] at hsize
      rcases hsize with hcap | ⟨hcap, hcount, hroom⟩
      · apply stepAgrees_of_size hkind htime
        rw [hw, if_neg Bool.false_ne_true]
        exact hcap
      · exact stepAgrees_small hkind htime hw hcap hcount hroom event

theorem runAgrees (h : f.Agrees e) (events : List (FormEvent N)) :
    f.run (f.resize e) events = f.resize (f.run e events) ∧ f.Agrees (f.run e events) := by
  induction events generalizing e with
  | nil => exact ⟨rfl, h⟩
  | cons event events ih =>
    obtain ⟨-, hentry, hagrees, -⟩ := stepAgrees h event
    obtain ⟨hrun, hend⟩ := ih hagrees
    refine ⟨?_, hend⟩
    change f.run (f.step (f.resize e) event).entry events = _
    rw [hentry]
    exact hrun

theorem follows_of_agrees (h : f.Agrees e) : f.Follows e := by
  intro events event _
  obtain ⟨hrun, hagrees⟩ := runAgrees h events
  obtain ⟨halike, -, -, hok⟩ := stepAgrees hagrees event
  rw [hrun]
  exact ⟨halike, hok⟩

end Agrees

/-! ## Sizes that differ -/

section Differ

variable {f : BarForm} {e e' : StateEntry N}

/-- A message when the clock is at zero. -/
def atZero : FormEvent N := .message (fun _ => true) 0 (ofNat 1) .nil

/-- Any number of messages at zero have the same outcomes on both slots. -/
def AlikeAtZero (f : BarForm) (e e' : StateEntry N) : Prop :=
  ∀ m, BarForm.Alike (f.step (f.run e (.replicate m atZero)) atZero)
    (f.step (f.run e' (.replicate m atZero)) atZero)

theorem AlikeAtZero.next (h : AlikeAtZero f e e') :
    AlikeAtZero f (f.step e atZero).entry (f.step e' atZero).entry :=
  fun m => h (m + 1)

theorem alikeAtZero_of_follows (h : f.Follows e) : AlikeAtZero f e (f.resize e) := by
  intro m
  refine (h (.replicate m atZero) atZero ?_).1
  rw [← List.replicate_succ', List.map_replicate]
  exact List.pairwise_replicate.mpr (.inr (UInt64.le_refl _))

/-- Two tick bars that differ in their sizes alone. -/
structure TickPair (f : BarForm) (cap : UInt32) (e : StateEntry N) : Prop where
  kind : e.kind = .bar
  timeWindow : e.barTimeWindow = f.timeWindow
  alike : AlikeAtZero f { e with barCap := cap } { e with barCap := f.count }

theorem TickPair.next {cap : UInt32} (hticks : f.timeWindow = false) (h : TickPair f cap e) :
    ((grown e (ofNat 1)).barCount < cap ↔ (grown e (ofNat 1)).barCount < f.count) ∧
      ∃ e₁ : StateEntry N, TickPair f cap e₁ ∧
        e₁.barCount = if (grown e (ofNat 1)).barCount < cap then (grown e (ofNat 1)).barCount else 0 := by
  have hstep := fun cap' : UInt32 =>
    step_ticks h.kind h.timeWindow hticks cap' (fun _ => true) 0 (ofNat 1) .nil
  have hgrown : (grown e (ofNat 1)).kind = .bar ∧
      (grown e (ofNat 1)).barTimeWindow = f.timeWindow := by
    unfold grown
    split_ifs
    · exact ⟨h.kind, h.timeWindow⟩
    · exact ⟨h.kind, h.timeWindow⟩
  have hsame := (h.alike 0).1
  change (f.step { e with barCap := cap } (.message _ 0 (ofNat 1) .nil)).suppressed =
    (f.step { e with barCap := f.count } (.message _ 0 (ofNat 1) .nil)).suppressed at hsame
  rw [hstep cap, hstep f.count] at hsame
  have hiff : (grown e (ofNat 1)).barCount < cap ↔ (grown e (ofNat 1)).barCount < f.count := by
    split_ifs at hsame with hcap hcount hcount
    · exact iff_of_true hcap hcount
    · exact iff_of_false hcap hcount
  refine ⟨hiff, ?_⟩
  have hnext := h.alike.next
  unfold atZero at hnext
  rw [hstep cap, hstep f.count] at hnext
  by_cases hcap : (grown e (ofNat 1)).barCount < cap
  · rw [if_pos hcap, if_pos (hiff.mp hcap)] at hnext
    exact ⟨grown e (ofNat 1), ⟨hgrown.1, hgrown.2, hnext⟩, (if_pos hcap).symm⟩
  · rw [if_neg hcap, if_neg fun hcount => hcap (hiff.mpr hcount)] at hnext
    exact ⟨{ grown e (ofNat 1) with barCount := 0 }, ⟨hgrown.1, hgrown.2, hnext⟩, (if_neg hcap).symm⟩

theorem grown_count (e : StateEntry N) (x : N) :
    (grown e x).barCount = if e.barCount = 0 then 1 else e.barCount + 1 := by
  unfold grown
  split_ifs
  · rfl
  · rfl

theorem grown_toNat {x : N} (hroom : e.barCount.toNat + 1 < 2 ^ 32) :
    (grown e x).barCount.toNat = e.barCount.toNat + 1 := by
  rw [grown_count]
  split_ifs with hzero
  · rw [hzero]
    rfl
  · rw [UInt32.toNat_add]
    exact Nat.mod_eq_of_lt hroom

/-- The count runs up to the smaller size, and there the larger one shows. -/
theorem TickPair.climb {cap : UInt32} (hticks : f.timeWindow = false)
    (hdiffer : cap.toNat ≠ f.count.toNat) (hsize : 1 < max cap.toNat f.count.toNat) (n : ℕ) :
    ∀ {e : StateEntry N}, TickPair f cap e →
      e.barCount.toNat + 1 + n = max (min cap.toNat f.count.toNat) 1 → False := by
  have hbound := UInt32.toNat_lt cap
  have hbound' := UInt32.toNat_lt f.count
  induction n with
  | zero =>
    intro e h hcount
    have hnext := (h.next hticks).1
    rw [UInt32.lt_iff_toNat_lt, UInt32.lt_iff_toNat_lt, grown_toNat (by omega)] at hnext
    omega
  | succ n ih =>
    intro e h hcount
    obtain ⟨-, e₁, h₁, hcount₁⟩ := h.next hticks
    apply ih h₁
    rw [hcount₁, if_pos, grown_toNat (by omega)]
    · omega
    · rw [UInt32.lt_iff_toNat_lt, grown_toNat (by omega)]
      omega

theorem TickPair.sizes {cap : UInt32} (hticks : f.timeWindow = false) (hf : f.count ≠ 0)
    (h : TickPair f cap e) :
    cap = f.count ∨ cap = 0 ∧ f.count = 1 ∧ e.barCount + 1 ≠ 0 := by
  by_contra hsizes
  obtain ⟨hcap, hsmall⟩ := not_or.mp hsizes
  have hdiffer : cap.toNat ≠ f.count.toNat := fun heq => hcap (UInt32.toNat_inj.mp heq)
  have hpos : f.count.toNat ≠ 0 := fun heq => hf (UInt32.toNat_inj.mp heq)
  obtain ⟨hiff, e₁, h₁, hcount⟩ := h.next hticks
  by_cases hsize : 1 < max cap.toNat f.count.toNat
  · -- after one message the count is below the smaller size
    have hlow : e₁.barCount.toNat + 1 ≤ max (min cap.toNat f.count.toNat) 1 := by
      rw [hcount]
      split_ifs with hless
      · have hless' := hiff.mp hless
        rw [UInt32.lt_iff_toNat_lt] at hless hless'
        omega
      · exact le_max_right _ _
    exact h₁.climb hticks hdiffer hsize (max (min cap.toNat f.count.toNat) 1 - (e₁.barCount.toNat + 1))
      (by omega)
  · -- sizes of nought and one show where the count wraps
    have hzero : cap = 0 := by
      apply UInt32.toNat_inj.mp
      change _ = 0
      omega
    have hone : f.count = 1 := by
      apply UInt32.toNat_inj.mp
      change _ = 1
      omega
    have hwrap : e.barCount + 1 = 0 := by
      by_contra hroom
      exact hsmall ⟨hzero, hone, hroom⟩
    have hgrown : (grown e (ofNat 1)).barCount = 0 := by
      rw [grown_count, if_neg]
      · exact hwrap
      · intro hcount
        rw [hcount] at hwrap
        cases hwrap
    rw [hgrown, hzero, hone] at hiff
    revert hiff
    decide

/-! ### Windows of time -/

/-- A message on a time bar. -/
theorem step_timed (hkind : e.kind = .bar) (htime : e.barTimeWindow = f.timeWindow)
    (hw : f.timeWindow = true) (A : EvalAlloc → Bool) (now : UInt64) (x : N) (v : Value N) :
    f.step e (.message A now x v) =
      ⟨(e.barTimeUpdate now x).1, (e.barTimeUpdate now x).2.isNone,
        .ok (.inr (e.barTimeUpdate now x).2)⟩ := by
  unfold BarForm.step
  dsimp only
  rw [barSample_bar hkind htime, hw]
  rfl

/-- An open time bar that starts at zero. -/
structure OpenAtZero (f : BarForm) (e : StateEntry N) : Prop where
  kind : e.kind = .bar
  timeWindow : e.barTimeWindow = f.timeWindow
  count : e.barCount ≠ 0
  start : e.barWindowStartMs = 0

omit [Number N] in
theorem resize_timed (hw : f.timeWindow = true) (e : StateEntry N) :
    f.resize e = { e with barWindowMs := f.ms } := by
  unfold BarForm.resize
  rw [hw, if_pos rfl]

omit [Number N] in
theorem OpenAtZero.resize (hw : f.timeWindow = true) (h : OpenAtZero f e) :
    OpenAtZero f (f.resize e) := by
  rw [resize_timed hw]
  exact ⟨h.kind, h.timeWindow, h.count, h.start⟩

/-- At zero the size of a bar does not matter. -/
theorem barTimeUpdate_zero (ms : UInt64) (e : StateEntry N) (x : N) :
    (({ e with barWindowMs := ms } : StateEntry N).barTimeUpdate 0 x).1 =
        { (e.barTimeUpdate 0 x).1 with barWindowMs := ms } ∧
      (e.barTimeUpdate 0 x).1.barWindowStartMs = 0 ∧
      (e.barTimeUpdate 0 x).1.barCount =
        if e.barCount = 0 ∨ e.barWindowStartMs ≠ 0 then 1 else e.barCount + 1 := by
  have haligned : ∀ ms : UInt64, 0 / ms * ms = 0 := by
    intro ms
    rw [UInt64.zero_div, UInt64.zero_mul]
  unfold barTimeUpdate
  dsimp only
  rw [haligned, haligned]
  by_cases hcount : e.barCount = 0
  · rw [if_pos hcount, if_pos hcount, if_pos (.inl hcount)]
    exact ⟨rfl, rfl, rfl⟩
  · rw [if_neg hcount, if_neg hcount]
    by_cases hstart : e.barWindowStartMs ≠ 0
    · rw [if_pos hstart, if_pos hstart, if_pos (.inr hstart)]
      exact ⟨rfl, rfl, rfl⟩
    · rw [if_neg hstart, if_neg hstart, if_neg (not_or.mpr ⟨hcount, hstart⟩)]
      exact ⟨rfl, not_not.mp hstart, rfl⟩

theorem step_zero (hkind : e.kind = .bar) (htime : e.barTimeWindow = f.timeWindow)
    (hw : f.timeWindow = true) :
    (f.step (f.resize e) atZero).entry = f.resize (f.step e atZero).entry := by
  rw [resize_timed hw, resize_timed hw]
  unfold atZero
  rw [step_timed hkind htime hw, step_timed (e := { e with barWindowMs := f.ms }) hkind htime hw]
  exact (barTimeUpdate_zero f.ms e _).1

/-- One or two messages at zero open a time bar there. -/
theorem exists_openAtZero (hkind : e.kind = .bar) (htime : e.barTimeWindow = f.timeWindow)
    (hw : f.timeWindow = true) :
    ∃ m, OpenAtZero f (f.run e (.replicate m atZero)) ∧
      (f.run e (.replicate m atZero)).barWindowMs = e.barWindowMs ∧
      f.run (f.resize e) (.replicate m atZero) = f.resize (f.run e (.replicate m atZero)) := by
  have hfirst : ∀ {e : StateEntry N}, e.kind = .bar → e.barTimeWindow = f.timeWindow →
      (f.step e atZero).entry.barWindowStartMs = 0 ∧
      (f.step e atZero).entry.barCount =
        if e.barCount = 0 ∨ e.barWindowStartMs ≠ 0 then 1 else e.barCount + 1 := by
    intro e hkind htime
    unfold atZero
    rw [step_timed hkind htime hw]
    exact (barTimeUpdate_zero 0 e _).2
  obtain ⟨hsame, -⟩ := sameBar_step hkind htime (atZero (N := N))
  have hkind₁ := hsame.kind.trans hkind
  have htime₁ := hsame.timeWindow.trans htime
  obtain ⟨hstart, -⟩ := hfirst hkind htime
  have hresize := step_zero hkind htime hw
  by_cases hcount : (f.step e atZero).entry.barCount = 0
  · obtain ⟨hsame₂, -⟩ := sameBar_step hkind₁ htime₁ (atZero (N := N))
    obtain ⟨hstart₂, hcount₂⟩ := hfirst hkind₁ htime₁
    rw [if_pos (.inl hcount)] at hcount₂
    refine ⟨2, ⟨hsame₂.kind.trans hkind₁, hsame₂.timeWindow.trans htime₁, ?_, hstart₂⟩,
      hsame₂.windowMs.trans hsame.windowMs, ?_⟩
    · change (f.step (f.step e atZero).entry atZero).entry.barCount ≠ 0
      rw [hcount₂]
      decide
    · change (f.step (f.step (f.resize e) atZero).entry atZero).entry =
        f.resize (f.step (f.step e atZero).entry atZero).entry
      rw [hresize]
      exact step_zero hkind₁ htime₁ hw
  · exact ⟨1, ⟨hkind₁, htime₁, hcount, hstart⟩, hsame.windowMs, hresize⟩

/-- An open bar ends at the end of its window, and not before. -/
theorem OpenAtZero.suppressed (hw : f.timeWindow = true) (h : OpenAtZero f e) (now : UInt64) :
    (now = e.barWindowMs → now ≠ 0 →
      (f.step e (.message (fun _ => true) now (ofNat 1) .nil)).suppressed = false) ∧
    (now < e.barWindowMs →
      (f.step e (.message (fun _ => true) now (ofNat 1) .nil)).suppressed = true) := by
  rw [step_timed h.kind h.timeWindow hw]
  unfold barTimeUpdate
  dsimp only
  rw [if_neg h.count, h.start]
  constructor
  · rintro rfl hnow
    have haligned : e.barWindowMs / e.barWindowMs * e.barWindowMs = e.barWindowMs := by
      rw [UInt64.div_self, if_neg hnow, UInt64.one_mul]
    rw [haligned, if_pos fun h => hnow h.symm]
    rfl
  · intro hnow
    have hdiv : now / e.barWindowMs = 0 := by
      apply UInt64.toNat_inj.mp
      rw [UInt64.toNat_div]
      exact Nat.div_eq_of_lt (UInt64.lt_iff_toNat_lt.mp hnow)
    have haligned : now / e.barWindowMs * e.barWindowMs = 0 := by
      rw [hdiv, UInt64.zero_mul]
    rw [haligned, if_neg fun h => h rfl]
    rfl

theorem windowMs_of_follows (hw : f.timeWindow = true) (hf : f.ms ≠ 0) (hkind : e.kind = .bar)
    (htime : e.barTimeWindow = f.timeWindow) (hms : e.barWindowMs ≠ 0) (h : f.Follows e) :
    e.barWindowMs = f.ms := by
  obtain ⟨m, hopen, hsame, hresize⟩ := exists_openAtZero hkind htime hw
  have halike : ∀ now : UInt64,
      (f.step (f.run e (.replicate m atZero))
        (.message (fun _ => true) now (ofNat 1) .nil)).suppressed =
      (f.step (f.resize (f.run e (.replicate m atZero)))
        (.message (fun _ => true) now (ofNat 1) .nil)).suppressed := by
    intro now
    rw [← hresize]
    refine (h (.replicate m atZero) (.message (fun _ => true) now (ofNat 1) .nil) ?_).1.1
    rw [List.map_append, List.pairwise_append, List.map_replicate]
    refine ⟨List.pairwise_replicate.mpr (.inr (UInt64.le_refl _)), List.pairwise_singleton _ _, ?_⟩
    intro t ht t' _
    rw [List.eq_of_mem_replicate ht]
    exact UInt64.zero_le
  have hresized : (f.resize (f.run e (.replicate m atZero))).barWindowMs = f.ms := by
    rw [resize_timed hw]
  by_contra hdiffer
  rcases UInt64.lt_or_lt_of_ne hdiffer with hlt | hlt
  · have hends := (hopen.suppressed hw e.barWindowMs).1 hsame.symm hms
    have hgoes := ((hopen.resize hw).suppressed hw e.barWindowMs).2 (hresized.symm ▸ hlt)
    rw [halike, hgoes] at hends
    cases hends
  · have hends := ((hopen.resize hw).suppressed hw f.ms).1 hresized.symm hf
    have hgoes := (hopen.suppressed hw f.ms).2 (hsame.symm ▸ hlt)
    rw [← halike, hgoes] at hends
    cases hends

end Differ

/-- A bar follows the size of its form in every run exactly on a new slot and on one
of its kind with that size. -/
theorem bar_follows_iff {f : BarForm} {e : StateEntry N} (hf : f.Checked)
    (hms : e.kind = .bar → e.barTimeWindow = true → e.barWindowMs ≠ 0) :
    f.Follows e ↔ f.Agrees e := by
  constructor
  · intro h
    by_cases hempty : e.kind = .empty
    · exact .inl hempty
    obtain ⟨-, outcome, hok⟩ := h [] (.message (fun _ => true) 0 (ofNat 1) .nil)
      (List.pairwise_singleton _ _)
    have hbar : e.kind = .bar ∧ e.barTimeWindow = f.timeWindow := by
      by_contra hother
      have hother' : e.kind ≠ .bar ∨ e.barTimeWindow ≠ f.timeWindow := by
        rw [not_and_or] at hother
        exact hother
      change (f.step e (.message (fun _ => true) 0 (ofNat 1) .nil)).result = _ at hok
      unfold BarForm.step barSample at hok
      dsimp only at hok
      rw [if_neg hempty, if_pos hother'] at hok
      cases hok
    obtain ⟨hkind, htime⟩ := hbar
    refine .inr ⟨hkind, htime, ?_⟩
    unfold BarForm.SizeAgrees
    unfold BarForm.Checked at hf
    cases hw : f.timeWindow with
    | true =>
      rw [hw, if_pos rfl] at hf
      rw [if_pos rfl]
      exact windowMs_of_follows hw hf hkind htime (hms hkind (htime.trans hw)) h
    | false =>
      rw [hw, if_neg Bool.false_ne_true] at hf
      rw [if_neg Bool.false_ne_true]
      have halike := alikeAtZero_of_follows h
      have hresize : f.resize e = { e with barCap := f.count } := by
        unfold BarForm.resize
        rw [hw, if_neg Bool.false_ne_true]
      rw [hresize] at halike
      have hpair : TickPair f e.barCap e := ⟨hkind, htime, halike⟩
      exact hpair.sizes hw hf
  · exact follows_of_agrees

end Monoblok.Patchbay
