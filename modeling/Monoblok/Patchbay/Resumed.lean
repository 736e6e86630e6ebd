import Monoblok.Patchbay.WindowForms

/-!
# A clock that starts again

Slots whose times were taken on one clock, used on another one that starts at
`t₀`. A hold-off and a window of time behave as if they had been in use exactly
where none of their times is after `t₀`, or no time is left that could tell.
-/

namespace Monoblok.Patchbay

open Number Sliding

/-! ## Hold-offs -/

section HoldOffs

variable {N : Type} [Number N]

/-- Every message that is suppressed comes less than `W` after the start or after
the last message that passed since. -/
def HoldsOffFor (W : ℕ) : UInt64 → StateEntry N → List (FormEvent N) → Prop
  | _, _, [] => True
  | since, e, .tick A now :: events => HoldsOffFor W since (tickEntry A now e).entry events
  | since, e, .message _ now _ v :: events =>
    let s := holdOff now (ofNat W) v e
    (s.suppressed = true → now.toNat < since.toNat + W) ∧
      HoldsOffFor W (if s.suppressed then since else now) s.entry events

/-- The times of a run go up from `t₀`, and a double holds each of them. -/
def TimesFrom (t₀ : UInt64) (events : List (FormEvent N)) : Prop :=
  (t₀ :: events.map FormEvent.now).Pairwise (· ≤ ·) ∧ ∀ event ∈ events, event.now.toNat < 2 ^ 53

/-- A hold-off of `W` in every run from `t₀` on. -/
def Resumes (t₀ : UInt64) (W : ℕ) (e : StateEntry N) : Prop :=
  ∀ events : List (FormEvent N), TimesFrom t₀ events → HoldsOffFor W t₀ e events

omit [Number N] in
theorem TimesFrom.first {t₀ : UInt64} {event : FormEvent N} {events : List (FormEvent N)}
    (h : TimesFrom t₀ (event :: events)) : t₀ ≤ event.now ∧ event.now.toNat < 2 ^ 53 :=
  ⟨List.rel_of_pairwise_cons h.1 List.mem_cons_self, h.2 event List.mem_cons_self⟩

omit [Number N] in
theorem TimesFrom.rest {t₀ : UInt64} {event : FormEvent N} {events : List (FormEvent N)}
    (h : TimesFrom t₀ (event :: events)) : TimesFrom event.now events :=
  ⟨h.1.of_cons, fun e he => h.2 e (List.mem_cons_of_mem _ he)⟩

theorem tick_number {e : StateEntry N} (hkind : e.kind = .number) (A : EvalAlloc → Bool)
    (now : UInt64) : (tickEntry A now e).entry = e := by
  apply tickEntry_idle
  all_goals
    rw [hkind]
    decide

/-- What a message does to a hold-off that let one pass at `last`. -/
theorem holdOff_number (hcounts : CountsUpTo N (2 ^ 53 - 1)) {e : StateEntry N}
    (hkind : e.kind = .number) {last W : ℕ} (hnumber : e.number = ofNat last)
    (hlast : last < 2 ^ 64) (hW : W < 2 ^ 64) {now : UInt64} (hnow : now.toNat < 2 ^ 53)
    (v : Value N) :
    holdOff now (ofNat W) v e =
      if now.toNat < last + W then .suppress e .nil
      else .done (e.setNumber (ofNat now.toNat)) v := by
  unfold holdOff
  rw [hkind]
  dsimp only
  rw [hnumber, hcounts.lt _ _ (by omega) hlast]
  by_cases hearly : now.toNat < last
  · simp [hearly, show now.toNat < last + W by omega]
  · have hsub : fsub (ofNat now.toNat : N) (ofNat last) = ofNat (now.toNat - last) := by
      have h := hcounts.sub (now.toNat - last) last (by omega)
      rwa [Nat.sub_add_cancel (by omega)] at h
    rw [hsub, hcounts.lt _ _ (by omega) hW]
    have hwait : now.toNat - last < W ↔ now.toNat < last + W := by omega
    simp [hearly, hwait]

theorem holdsOffFor_of_le (hcounts : CountsUpTo N (2 ^ 53 - 1)) {W : ℕ} (hW : W < 2 ^ 64)
    (events : List (FormEvent N)) :
    ∀ {since now : UInt64} {e : StateEntry N} {last : ℕ}, e.kind = .number →
      e.number = ofNat last → last ≤ since.toNat → since ≤ now → TimesFrom now events →
      HoldsOffFor W since e events := by
  induction events with
  | nil => exact fun _ _ _ _ _ => trivial
  | cons event events ih =>
    intro since now e last hkind hnumber hle hsince htimes
    obtain ⟨hfirst, hbound⟩ := htimes.first
    have hnow : since ≤ event.now := UInt64.le_trans hsince hfirst
    cases event with
    | tick A t =>
      unfold HoldsOffFor
      rw [tick_number hkind]
      exact ih hkind hnumber hle hnow htimes.rest
    | message A t x v =>
      unfold HoldsOffFor
      dsimp only
      have hroom := UInt64.toNat_lt since
      have ht : t.toNat < 2 ^ 53 := hbound
      rw [holdOff_number hcounts hkind hnumber (by omega) hW ht]
      by_cases hwait : t.toNat < last + W
      · rw [if_pos hwait]
        constructor
        · intro _
          omega
        · exact ih hkind hnumber hle hnow htimes.rest
      · rw [if_neg hwait]
        refine ⟨fun h => (by cases h), ?_⟩
        exact ih rfl rfl le_rfl (UInt64.le_refl t) htimes.rest

/-- Without a time that is `W` later nothing can be held off for longer. -/
theorem holdsOffFor_of_room (W : ℕ) (events : List (FormEvent N)) :
    ∀ {since now : UInt64} {e : StateEntry N}, 2 ^ 53 ≤ since.toNat + W → since ≤ now →
      TimesFrom now events → HoldsOffFor W since e events := by
  induction events with
  | nil => exact fun _ _ _ => trivial
  | cons event events ih =>
    intro since now e hroom hsince htimes
    obtain ⟨hfirst, hbound⟩ := htimes.first
    have hnow : since ≤ event.now := UInt64.le_trans hsince hfirst
    cases event with
    | tick A t => exact ih hroom hnow htimes.rest
    | message A t x v =>
      have hlate := UInt64.le_iff_toNat_le.mp hnow
      dsimp only [FormEvent.now] at hlate hbound
      refine ⟨fun _ => by omega, ?_⟩
      cases hs : (holdOff t (ofNat W) v e).suppressed with
      | true => exact ih hroom hnow htimes.rest
      | false =>
        refine ih ?_ (UInt64.le_refl t) htimes.rest
        change 2 ^ 53 ≤ t.toNat + W
        omega

theorem tick_kind {e : StateEntry N} (hclock : e.kind ≠ .clock) (A : EvalAlloc → Bool)
    (now : UInt64) : (tickEntry A now e).entry.kind = e.kind := by
  have hbar : ∀ e' : StateEntry N, (e'.barTimeTick now).1.kind = e'.kind := by
    intro e'
    unfold StateEntry.barTimeTick
    split_ifs <;> rfl
  rw [tickEntry, if_neg hclock, tickWindow]
  dsimp only
  split_ifs
  · exact (hbar _).trans (sameTimers_ringEvictTime e _).kind
  · exact hbar e

/-- A slot that is no hold-off in use lets the first message pass or fails. -/
theorem holdsOffFor_of_kind (hcounts : CountsUpTo N (2 ^ 53 - 1)) {W : ℕ} (hW : W < 2 ^ 64)
    (events : List (FormEvent N)) :
    ∀ {since now : UInt64} {e : StateEntry N}, e.kind ≠ .number → e.kind ≠ .clock → since ≤ now →
      TimesFrom now events → HoldsOffFor W since e events := by
  induction events with
  | nil => exact fun _ _ _ _ => trivial
  | cons event events ih =>
    intro since now e hnumber hclock hsince htimes
    have hnow : since ≤ event.now := UInt64.le_trans hsince htimes.first.1
    cases event with
    | tick A t =>
      have hkind := tick_kind hclock A t
      exact ih (hkind ▸ hnumber) (hkind ▸ hclock) hnow htimes.rest
    | message A t x v =>
      have hother : e.kind ≠ .empty → holdOff t (ofNat W) v e = .fail e .type := by
        intro hempty
        unfold holdOff
        cases hkind : e.kind with
        | empty => exact absurd hkind hempty
        | number => exact absurd hkind hnumber
        | _ => rfl
      unfold HoldsOffFor
      dsimp only
      by_cases hempty : e.kind = .empty
      · have hfirst : holdOff t (ofNat W) v e = .done (e.setNumber (ofNat t.toNat)) v := by
          unfold holdOff
          rw [hempty]
        rw [hfirst]
        refine ⟨fun h => (by cases h), ?_⟩
        exact holdsOffFor_of_le hcounts hW events rfl rfl le_rfl (UInt64.le_refl t) htimes.rest
      · rw [hother hempty]
        refine ⟨fun h => (by cases h), ?_⟩
        exact ih hnumber hclock (UInt64.le_refl t) htimes.rest

/-- A slot that let a message pass at `last`, on a clock that starts at `t₀`. -/
theorem resumes_iff (hcounts : CountsUpTo N (2 ^ 53 - 1)) {e : StateEntry N}
    (hclock : e.kind ≠ .clock) {last : ℕ} (hnumber : e.kind = .number → e.number = ofNat last)
    (hlast : last < 2 ^ 64) (t₀ : UInt64) (W : ℕ) :
    Resumes t₀ W e ↔ (e.kind = .number → last ≤ t₀.toNat ∨ 2 ^ 53 ≤ t₀.toNat + W) := by
  constructor
  · intro h hkind
    by_contra hlate
    obtain ⟨hle, hroom⟩ := not_or.mp hlate
    have hnow : (UInt64.ofNat (t₀.toNat + W)).toNat = t₀.toNat + W := by
      rw [UInt64.toNat_ofNat', Nat.mod_eq_of_lt (by omega)]
    have hstart : t₀ ≤ UInt64.ofNat (t₀.toNat + W) := by
      rw [UInt64.le_iff_toNat_le, hnow]
      omega
    have hrun := h [.message (fun _ => true) (UInt64.ofNat (t₀.toNat + W)) e.number .nil]
      ⟨List.pairwise_pair.mpr hstart, by
        rintro event hevent
        rw [List.mem_singleton.mp hevent]
        change (UInt64.ofNat (t₀.toNat + W)).toNat < 2 ^ 53
        omega⟩
    unfold HoldsOffFor at hrun
    dsimp only at hrun
    rw [holdOff_number hcounts hkind (hnumber hkind) hlast (by omega) (by omega), hnow,
      if_pos (by omega)] at hrun
    have hearly := hrun.1 rfl
    omega
  · intro hcond events htimes
    by_cases hroom : 2 ^ 53 ≤ t₀.toNat + W
    · exact holdsOffFor_of_room W events hroom (UInt64.le_refl t₀) htimes
    have hW : W < 2 ^ 64 := by omega
    by_cases hkind : e.kind = .number
    · have hle := (hcond hkind).resolve_right hroom
      exact holdsOffFor_of_le hcounts hW events hkind (hnumber hkind) hle (UInt64.le_refl t₀) htimes
    · exact holdsOffFor_of_kind hcounts hW events hkind hclock (UInt64.le_refl t₀) htimes

end HoldOffs

/-! ## Windows of time -/

section Windows

variable {N : Type} [Number N]

/-- Once more than the window has passed since `t₀`, a message counts the samples
that were added from then on and no others. -/
def Forgets (t₀ : UInt64) (f : WindowForm N) (e : StateEntry N) : Prop :=
  ∀ (events : List (FormEvent N)) (A : EvalAlloc → Bool) (now : UInt64) (x : N) (v : Value N),
    (t₀ :: (events ++ [FormEvent.message A now x v]).map FormEvent.now).Pairwise (· ≤ ·) →
    t₀.toNat + (f.msFor e).toNat < now.toNat →
    (f.run ⟨e, [], t₀⟩ (events ++ [.message A now x v])).entry.samples <:+
      (f.run ⟨e, [], t₀⟩ (events ++ [.message A now x v])).pushed

/-- A run on a slot with the given samples: what it holds is the end of these and
the ones that were added. -/
structure RunsOn (f : WindowForm N) (e : StateEntry N) (r : WindowRun N) : Prop where
  ring : TimeRing r.entry
  windowMs : r.entry.ringWindowMs = e.ringWindowMs
  samples : r.entry.samples <:+ e.samples ++ r.pushed

theorem runsOn_step {f : WindowForm N} {e : StateEntry N} (hw : f.window.timeWindow = true)
    {r : WindowRun N} (h : RunsOn f e r) (event : FormEvent N) : RunsOn f e (f.step r event) := by
  cases event with
  | message A now x v =>
    obtain ⟨hring, hms, hlist⟩ := @timedStep_sample _ _ A now _ _ h.ring hw x v
    refine ⟨hring, hms.trans h.windowMs, ?_⟩
    change (f.sample A now x v r.entry).1.samples <:+ e.samples ++ (r.pushed ++ _)
    obtain ⟨l, hl⟩ := (List.dropWhile_suffix (old (f.msFor r.entry) now)).trans h.samples
    rw [hlist, ← List.append_assoc, ← hl, List.append_assoc]
    exact List.suffix_append _ _
  | tick A now =>
    obtain ⟨hring, hms, hlist⟩ := @TimeRing.tick _ _ A now _ h.ring
    refine ⟨hring, hms.trans h.windowMs, ?_⟩
    change (tickEntry A now r.entry).entry.samples <:+ _
    rw [hlist]
    exact (List.dropWhile_suffix _).trans h.samples

theorem runsOn_run {f : WindowForm N} {e : StateEntry N} (hw : f.window.timeWindow = true)
    {r : WindowRun N} (h : RunsOn f e r) (events : List (FormEvent N)) :
    RunsOn f e (f.run r events) := by
  induction events generalizing r with
  | nil => exact h
  | cons event events ih => exact ih (runsOn_step hw h event)

theorem forgets_iff {f : WindowForm N} {e : StateEntry N} (he : TimeRing e)
    (hw : f.window.timeWindow = true) (t₀ : UInt64) :
    Forgets t₀ f e ↔
      (∀ s ∈ e.samples, s.1 ≤ t₀) ∨ 2 ^ 64 ≤ t₀.toNat + (f.msFor e).toNat + 1 := by
  have hstart : RunsOn f e ⟨e, [], t₀⟩ := ⟨he, rfl, by rw [List.append_nil]⟩
  constructor
  · intro h
    by_contra hlate
    obtain ⟨hafter, hroom⟩ := not_or.mp hlate
    push Not at hafter
    obtain ⟨s, hs, hlt⟩ := hafter
    have hnow : (UInt64.ofNat (t₀.toNat + (f.msFor e).toNat + 1)).toNat =
        t₀.toNat + (f.msFor e).toNat + 1 := by
      rw [UInt64.toNat_ofNat', Nat.mod_eq_of_lt (by omega)]
    generalize UInt64.ofNat (t₀.toNat + (f.msFor e).toNat + 1) = now at hnow
    have hle : t₀ ≤ now := by
      rw [UInt64.le_iff_toNat_le]
      omega
    have hend := h [] (fun _ => true) now (ofNat 1) .nil (List.pairwise_pair.mpr hle) (by omega)
    -- a sample after `t₀` is still there, and at most the new one has been added
    obtain ⟨-, -, hlist⟩ := @timedStep_sample _ _ (fun _ => true) now _ _ he hw (ofNat 1) .nil
    have hlength := hend.length_le
    change (f.sample (fun _ => true) now (ofNat 1) .nil e).1.samples.length ≤
      ([] ++ ((f.sample (fun _ => true) now (ofNat 1) .nil e).2.getD []).map (now, ·)).length
      at hlength
    rw [hlist, List.nil_append, List.length_append] at hlength
    have hnil : e.samples.dropWhile (old (f.msFor e) now) = [] := by
      apply List.eq_nil_of_length_eq_zero
      omega
    have hold := List.dropWhile_eq_nil_iff.mp hnil s hs
    rw [old, decide_eq_true_eq] at hold
    rw [UInt64.le_iff_toNat_le] at hlt
    omega
  · rintro hcond events A now x v htimes hlate
    have hrun := runsOn_run hw hstart events
    rw [WindowForm.run_concat]
    obtain ⟨-, -, hlist⟩ := @timedStep_sample _ _ A now _ _ hrun.ring hw x v
    rw [msFor_congr hrun.windowMs] at hlist
    change (f.sample A now x v _).1.samples <:+ _ ++ _
    rw [hlist]
    have hbound : now.toNat < 2 ^ 64 := UInt64.toNat_lt now
    have hold : ∀ s ∈ e.samples, old (f.msFor e) now s = true := by
      intro s hs
      rw [old, decide_eq_true_eq]
      rcases hcond with h | h
      · have hle := UInt64.le_iff_toNat_le.mp (h s hs)
        omega
      · omega
    obtain ⟨l, hl⟩ := dropWhile_suffix_of_suffix_append hrun.samples hold
    exact ⟨l, by rw [← List.append_assoc, hl]⟩

end Windows

end Monoblok.Patchbay
