import Monoblok.Patchbay.Whole
import Monoblok.Snapshot.Load

/-!
# What the readers accept

The writer accepts rings of any size up to `UINT32_MAX`; both readers refuse a
count ring whose values take more than one field, and the skipping reader also a
time ring whose samples do. A built snapshot is loaded, with and without a
program, exactly when every ring that was written stays within a field.
-/

namespace Monoblok.Snapshot

open Patchbay

theorem mem_savedEntries {N : Type} {p : Program N} {e : StateEntry N} :
    (∃ x ∈ savedEntries p, x.2.2 = e) ↔
      ∃ rule ∈ p.rules, e ∈ rule.state.items ∧ e.kind ≠ .clock := by
  simp only [savedEntries, List.mem_flatMap, List.mem_map, List.mem_filter, bne_iff_ne]
  constructor
  · rintro ⟨x, ⟨⟨rule, i⟩, hrule, e', ⟨he', hkind⟩, rfl⟩, rfl⟩
    exact ⟨rule, (List.mem_zipIdx hrule).2.2 ▸ List.getElem_mem _, he', hkind⟩
  · rintro ⟨rule, hrule, he, hkind⟩
    obtain ⟨i, hi, rfl⟩ := List.getElem_of_mem hrule
    exact ⟨_, ⟨(p.rules[i], i), List.mk_mem_zipIdx_iff_getElem?.mpr (by simp [hi]), e,
      ⟨he, hkind⟩, rfl⟩, rfl⟩

variable {N : Type} [Number N]

/-- The arrays of a ring take at most one field each. -/
def RingFits (e : StateEntry N) : Prop :=
  e.kind = .ring →
    if e.ringTimeWindow then e.ringLen ≤ snapMaxField / 16 else e.ringCap ≤ snapMaxField / 8

/-- All rings of a program do. -/
def RingsFit (p : Program N) : Prop := ∀ rule ∈ p.rules, ∀ e ∈ rule.state.items, RingFits e

instance (e : StateEntry N) : Decidable (RingFits e) :=
  inferInstanceAs (Decidable (e.kind = .ring →
    if e.ringTimeWindow then e.ringLen ≤ snapMaxField / 16 else e.ringCap ≤ snapMaxField / 8))

instance (p : Program N) : Decidable (RingsFit p) :=
  inferInstanceAs (Decidable (∀ rule ∈ p.rules, ∀ e ∈ rule.state.items, RingFits e))

theorem fitsSkip_iff {e : StateEntry N} {s : Saved N} (h : savedOf e = some s) :
    fitsSkip e = true ↔ RingFits e := by
  rw [fitsSkip, h, Option.map_some, Option.getD_some, RingFits]
  unfold savedOf at h
  split at h <;> rename_i hkind <;> rw [hkind]
  · cases h
    simp [Saved.fitsSkip]
  · cases h
    simp [Saved.fitsSkip]
  · cases h
    simp [Saved.fitsSkip]
  · split_ifs at h with htime
    · cases h
      simp [Saved.fitsSkip, htime]
    · cases h
      simp [Saved.fitsSkip, htime]
  · cases h
    simp [Saved.fitsSkip]
  · cases h

theorem fitsLoad_of_fitsSkip {e : StateEntry N} (h : fitsSkip e = true) : fitsLoad e = true := by
  unfold fitsSkip at h
  unfold fitsLoad
  cases hs : savedOf e with
  | none => simp [hs] at h
  | some s =>
    rw [hs] at h
    cases s <;> simp_all [Saved.fitsSkip, Saved.fitsLoad]

theorem savedOf_isSome_of_appendSlots {es : List (Slot N)} {bss : List Bytes}
    (h : appendSlots es = some bss) : ∀ x ∈ es, ∃ s, savedOf x.2.2 = some s := by
  induction es generalizing bss with
  | nil => simp
  | cons x es ih =>
    obtain ⟨bs, s, bss', hs, hbss, -⟩ := appendSlots_cons h
    intro y hy
    rcases List.mem_cons.mp hy with rfl | hy
    · exact ⟨s, hs.saved⟩
    · exact ih hbss y hy

theorem all_fitsSkip_iff {p : Program N} {bss : List Bytes}
    (h : appendSlots (savedEntries p) = some bss) :
    ((savedEntries p).all fun x => fitsSkip x.2.2) = true ↔ RingsFit p := by
  rw [List.all_eq_true]
  constructor
  · intro hall rule hrule e he
    by_cases hkind : e.kind = .clock
    · intro hring
      rw [hkind] at hring
      cases hring
    · obtain ⟨x, hx, rfl⟩ := mem_savedEntries.mpr ⟨rule, hrule, he, hkind⟩
      obtain ⟨s, hs⟩ := savedOf_isSome_of_appendSlots h x hx
      exact (fitsSkip_iff hs).mp (hall x hx)
  · intro hfit x hx
    obtain ⟨rule, hrule, he, -⟩ := mem_savedEntries.mp ⟨x, hx, rfl⟩
    obtain ⟨s, hs⟩ := savedOf_isSome_of_appendSlots h x hx
    exact (fitsSkip_iff hs).mpr (hfit rule hrule x.2.2 he)

/-- The skipping reader accepts what stays within its fields. -/
theorem snapshotLoad_skip_isSome_iff {r r₀ : Router} (hr : LvcInv r) (h₀ : EmptyCache r r₀)
    {p : Program N} {bs : Bytes} (hb : snapshotBuild r (some p) = some bs) :
    (snapshotLoad bs r₀ (none : Option (Program N))).isSome = true ↔ RingsFit p := by
  obtain ⟨r', slots, fuel, -, hslots, hfuel, heq⟩ := snapshotLoad_build hr h₀ hb none
  rw [heq, loadRecords_slots_skip hslots rfl hfuel]
  have hall : ((slotsOf (some p)).all fun x => fitsSkip x.2.2) = true ↔ RingsFit p :=
    all_fitsSkip_iff hslots
  rw [← hall]
  by_cases hfit : ((slotsOf (some p)).all fun x => fitsSkip x.2.2) = true
  · rw [if_pos hfit]
    exact iff_of_true rfl hfit
  · rw [if_neg hfit]
    exact iff_of_false Bool.false_ne_true hfit

/-- The restoring reader accepts what stays within its own, into any program. -/
theorem snapshotLoad_isSome_iff {r r₀ : Router} (hr : LvcInv r) (h₀ : EmptyCache r r₀)
    {p : Program N} {bs : Bytes} (hb : snapshotBuild r (some p) = some bs) (q : Program N) :
    (snapshotLoad bs r₀ (some q)).isSome = true ↔ ∀ x ∈ savedEntries p, fitsLoad x.2.2 = true := by
  obtain ⟨r', slots, fuel, -, hslots, hfuel, heq⟩ := snapshotLoad_build hr h₀ hb (some q)
  rw [heq, loadRecords_slots hslots rfl hfuel]
  have hall : ((slotsOf (some p)).all fun x => fitsLoad x.2.2) = true ↔
      ∀ x ∈ savedEntries p, fitsLoad x.2.2 = true := List.all_eq_true
  rw [← hall]
  by_cases hfit : ((slotsOf (some p)).all fun x => fitsLoad x.2.2) = true
  · rw [if_pos hfit]
    exact iff_of_true rfl hfit
  · rw [if_neg hfit]
    exact iff_of_false Bool.false_ne_true hfit

theorem snapshotLoad_isSome {r r₀ : Router} (hr : LvcInv r) (h₀ : EmptyCache r r₀)
    {p : Program N} {bs : Bytes} (hb : snapshotBuild r (some p) = some bs) (hfit : RingsFit p)
    (q : Program N) : (snapshotLoad bs r₀ (some q)).isSome = true := by
  obtain ⟨-, slots, -, hslots, -⟩ := snapshotBuild_eq_some hb
  have hall := (all_fitsSkip_iff hslots).mpr hfit
  rw [List.all_eq_true] at hall
  apply (snapshotLoad_isSome_iff hr h₀ hb q).mpr
  intro x hx
  exact fitsLoad_of_fitsSkip (hall x hx)

/-- A built snapshot is accepted with a program, such as the one it was built
from, and without one exactly when every ring stays within a field. -/
theorem built_snapshot_loads_iff {w : World} (hw : Monoblok.Reachable w) {p : Program N}
    {bs : Bytes} (hb : snapshotBuild w.router (some p) = some bs) {r₀ : Router}
    (h₀ : EmptyCache w.router r₀) (q : Program N) :
    ((snapshotLoad bs r₀ (some q)).isSome = true ∧
      (snapshotLoad bs r₀ (none : Option (Program N))).isSome = true) ↔ RingsFit p := by
  constructor
  · intro h
    exact (snapshotLoad_skip_isSome_iff hw.lvcInv h₀ hb).mp h.2
  · intro h
    exact ⟨snapshotLoad_isSome hw.lvcInv h₀ hb h q,
      (snapshotLoad_skip_isSome_iff hw.lvcInv h₀ hb).mpr h⟩

/-! ## Two moving averages -/

/-- One rule, which averages the last `n` payloads of `a`. -/
def averageRule (n : ℤ) : List (RuleSource ℤ) :=
  [⟨lit "a", .list [.symbol (lit "moving-avg"), .number n, .symbol (lit "payload-float")], false⟩]

/-- The program after one message, with a router that nobody listens to. -/
def averaged (n : ℤ) : Option (Program ℤ) :=
  let env : Env ℤ Unit := ⟨fun _ => true, fun _ => none, writtenOver, payloadDrawn, fun w _ _ => (w, true), 10⟩
  ((evalPublish env ⟨5, 5, false⟩ (lit "a") (lit "1")).run
    ⟨loadProgram (averageRule n) false, ()⟩).map fun x => x.2.program

theorem emptyCache_routerInit : EmptyCache routerInit routerInit :=
  ⟨rfl, rfl, rfl, rfl, rfl, rfl⟩

/-- A count ring is written whatever its capacity. -/
theorem savedOf_countRing {e : StateEntry N} (hkind : e.kind = .ring)
    (htime : e.ringTimeWindow = false) (hcap : e.ringCap < 2 ^ 32) (hlen : e.ringLen ≤ e.ringCap) :
    ∃ values, savedOf e = some (.countRing e.ringCap e.ringLen e.ringSum values) := by
  unfold savedOf
  simp only [hkind, htime]
  exact ⟨_, if_neg (show ¬(2 ^ 32 - 1 < e.ringCap ∨ e.ringCap < e.ringLen) by omega)⟩

/-- One value more than a field holds: the file is written and then refused. -/
theorem wide_average_not_loaded : ∃ p bs, averaged 2097153 = some p ∧
    snapshotBuild routerInit (some p) = some bs ∧
    snapshotLoad bs routerInit (some (loadProgram (averageRule 2097153) false)) = none ∧
    snapshotLoad bs routerInit (none : Option (Program ℤ)) = none := by
  have hrun : ((averaged 2097153).map fun p => (savedEntries p).map fun x =>
      ([x.2.1, x.2.2.op, x.2.2.subject], decide (x.2.2.kind = .ring), x.2.2.ringTimeWindow,
        [x.2.2.ringCap, x.2.2.ringLen])) =
      some [([lit "a", lit "moving-avg/t", lit "a"], true, false, [2097153, 1])] := by
    decide +kernel
  obtain ⟨p, hp, hslots⟩ := Option.map_eq_some_iff.mp hrun
  obtain ⟨⟨idx, filter, e⟩, hx, hfields⟩ := List.map_eq_singleton_iff.mp hslots
  simp only [Prod.mk.injEq, List.cons.injEq, and_true, decide_eq_true_eq] at hfields
  obtain ⟨⟨rfl, hop, hsubject⟩, hkind, htime, hcap, hlen⟩ := hfields
  obtain ⟨values, hsaved⟩ := savedOf_countRing hkind htime (by omega) (by omega)
  -- the ring is never computed: it has two million values
  have hentry : ∃ entry, appendEntry idx (lit "a") e = some entry := by
    unfold appendEntry
    rw [hsaved, hop, hsubject]
    exact ⟨_, rfl⟩
  obtain ⟨entry, hentry⟩ := hentry
  have hbuild : snapshotBuild routerInit (some p) = some (header ++ [] ++ [entry].flatten) := by
    simp [snapshotBuild, appendRuleState, hx, hentry, routerInit]
  have hmem : (idx, lit "a", e) ∈ savedEntries p := by simp [hx]
  have hload : fitsLoad e ≠ true := by
    simp [fitsLoad, hsaved, Saved.fitsLoad, hcap, snapMaxField]
  have hinv : LvcInv routerInit := emptyCache_routerInit.lvcInv
  refine ⟨p, _, hp, hbuild, ?_, ?_⟩
  · apply Option.not_isSome_iff_eq_none.mp
    intro h
    exact hload ((snapshotLoad_isSome_iff hinv emptyCache_routerInit hbuild _).mp h _ hmem)
  · apply Option.not_isSome_iff_eq_none.mp
    intro h
    have hfit := (snapshotLoad_skip_isSome_iff hinv emptyCache_routerInit hbuild).mp h
    obtain ⟨rule, hrule, he, -⟩ := mem_savedEntries.mp ⟨_, hmem, rfl⟩
    exact hload (fitsLoad_of_fitsSkip ((fitsSkip_iff hsaved).mpr (hfit rule hrule e he)))

theorem short_average_loads : ∃ p bs, averaged 2 = some p ∧
    snapshotBuild routerInit (some p) = some bs ∧ RingsFit p ∧
    (snapshotLoad bs routerInit (some (loadProgram (averageRule 2) false))).isSome = true ∧
    (snapshotLoad bs routerInit (none : Option (Program ℤ))).isSome = true := by
  have hrun : ((averaged 2).map fun p => (snapshotBuild routerInit (some p)).isSome &&
      decide (RingsFit p)) = some true := by decide +kernel
  obtain ⟨p, hp, hb⟩ := Option.map_eq_some_iff.mp hrun
  rw [Bool.and_eq_true, decide_eq_true_eq] at hb
  obtain ⟨bs, hbs⟩ := Option.isSome_iff_exists.mp hb.1
  have hw : Monoblok.Reachable ⟨routerInit, fun _ => ⟨[], 0, 0, 0, false, none, none, true, true⟩⟩ :=
    .init _ fun _ => rfl
  have hloads := (built_snapshot_loads_iff hw hbs emptyCache_routerInit
    (loadProgram (averageRule 2) false)).mpr hb.2
  exact ⟨p, bs, hp, hbs, hb.2, hloads.1, hloads.2⟩

end Monoblok.Snapshot
