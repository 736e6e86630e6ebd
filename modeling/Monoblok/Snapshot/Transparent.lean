import Monoblok.Snapshot.Deadlines
import Monoblok.Snapshot.Limits
import Monoblok.Snapshot.OwnSlots

/-!
# Restarts that nobody notices

A program without clocks whose numbers come through the file unchanged is saved and
loaded again into a fresh one of the same rules. The slots that come back are like
those that were written, so that from then on the two cannot be told apart, over
any messages, ticks and further restarts of this kind.
-/

namespace Monoblok.Snapshot

open Patchbay Number Relational

variable {N W : Type} [Number N]

/-! ## A slot through the file -/

/-- The numbers of a slot that are written come back as they were; the sum of a
window of time is that of its samples, added up from the oldest. Neither the number of
samples nor the time of a window is 0, as one that wrapped when it was converted. -/
structure Survives (e : StateEntry N) : Prop where
  number : e.kind = .number → reread e.number = e.number
  room : e.kind = .ring → e.ringTimeWindow = false → e.ringCap ≠ 0
  values : e.kind = .ring → ∀ x ∈ e.ringList, reread x = x
  sum : e.kind = .ring →
    if e.ringTimeWindow then e.ringSum = e.ringList.foldl fadd (ofNat 0)
    else reread e.ringSum = e.ringSum
  bar : e.kind = .bar →
    reread e.barOpen = e.barOpen ∧ reread e.barHigh = e.barHigh ∧ reread e.barLow = e.barLow ∧
      reread e.barLastClose = e.barLastClose
  window : e.kind = .bar → e.barTimeWindow = true → e.barWindowMs ≠ 0

/-- The slot that comes of the record of a slot. -/
def afterFile (e : StateEntry N) : StateEntry N :=
  ((savedOf e).map fun s => restore (freshEntry e.key) s.afterRead).getD e

omit [Number N] in
theorem samples_eq_map {e : StateEntry N} (hin : InRing e) :
    e.samples = (List.range e.ringLen).map fun i => (e.ringTimeAt i, e.ringValueAt i) := by
  apply List.map_congr_left
  intro i hi
  have hlen : e.ringLen ≠ 0 := by
    have hlt := List.mem_range.mp hi
    omega
  rw [StateEntry.ringTimeAt, StateEntry.ringValueAt, ringIdx_eq_place (hin.cap_ne hlen)]

omit [Number N] in
/-- A ring that starts with its oldest sample. -/
theorem ringIdx_front {e : StateEntry N} (hin : InRing e) (hstart : e.ringStart = 0) {i : ℕ}
    (hi : i < e.ringLen) : e.ringIdx i = i := by
  have hlt := lt_of_lt_of_le hi hin.1
  rw [StateEntry.ringIdx, if_neg (by omega), hstart, Nat.zero_add, Nat.mod_eq_of_lt hlt]

section Rings

variable {e e' : StateEntry N}

theorem reread_ringValueAt (hvalues : ∀ x ∈ e.ringList, reread x = x) {i : ℕ} (hi : i < e.ringLen) :
    reread (e.ringValueAt i) = e.ringValueAt i :=
  hvalues _ (List.mem_map_of_mem (List.mem_range.mpr hi))

/-- The ring of a window of time: its arrays have room for the samples only, and
the sum is added up anew. -/
theorem sameRing_timeRing (hin : InRing e) (htime : e.ringTimeWindow = true)
    (hvalues : ∀ x ∈ e.ringList, reread x = x)
    (hsum : e.ringSum = e.ringList.foldl fadd (ofNat 0))
    (h : e' = restore (freshEntry e.key) (Saved.timeRing e.ringWindowMs
      ((List.range e.ringLen).map fun i => (e.ringValueAt i, e.ringTimeAt i))).afterRead) :
    SameRing e e' := by
  have hread : ((List.range e.ringLen).map fun i => (e.ringValueAt i, e.ringTimeAt i)).map
      rereadSample = (List.range e.ringLen).map fun i => (e.ringValueAt i, e.ringTimeAt i) := by
    rw [List.map_map]
    apply List.map_congr_left
    intro i hi
    exact Prod.ext (reread_ringValueAt hvalues (List.mem_range.mp hi)) rfl
  rw [Saved.afterRead, hread] at h
  have hlen : e'.ringLen = e.ringLen := by simp [h, restore]
  have hcap : e'.ringCap = e.ringLen := by simp [h, restore]
  have hstart : e'.ringStart = 0 := by simp [h, restore, freshEntry]
  have hin' : InRing e' := by
    refine ⟨by omega, fun hne => ?_⟩
    rw [hstart]
    exact Nat.pos_of_ne_zero hne
  have hat : ∀ i < e.ringLen,
      (e'.ringTimeAt i, e'.ringValueAt i) = (e.ringTimeAt i, e.ringValueAt i) := by
    intro i hi
    have hfront := ringIdx_front hin' hstart (hlen ▸ hi)
    rw [StateEntry.ringTimeAt, StateEntry.ringValueAt, hfront]
    simp [h, restore, hi]
  apply SameRing.of_samples hin hin' htime
  · simp [h, restore]
  · simp [h, restore]
  · rw [samples_eq_map hin', samples_eq_map hin, hlen]
    exact List.map_congr_left fun i hi => hat i (List.mem_range.mp hi)
  · rw [hsum]
    simp [h, restore, StateEntry.ringList, List.foldl_map]

/-- The ring of the last samples, rotated to the front of its array. -/
theorem sameRing_countRing (hin : InRing e) (hroom : e.ringCap ≠ 0) (htime : e.ringTimeWindow = false)
    (hvalues : ∀ x ∈ e.ringList, reread x = x) (hsum : reread e.ringSum = e.ringSum)
    (h : e' = restore (freshEntry e.key) (Saved.countRing e.ringCap e.ringLen e.ringSum
      ((List.range e.ringCap).map fun i =>
        if i < e.ringLen then e.ringValueAt i else ofNat 0)).afterRead) :
    SameRing e e' := by
  have hread : (((List.range e.ringCap).map fun i =>
      if i < e.ringLen then e.ringValueAt i else ofNat 0).take e.ringLen).map reread =
        e.ringList := by
    rw [← List.map_take, List.take_range, min_eq_left hin.1, List.map_map]
    apply List.map_congr_left
    intro i hi
    have hlt := List.mem_range.mp hi
    simp [hlt, reread_ringValueAt hvalues hlt]
  rw [Saved.afterRead, hread] at h
  have hlen : e'.ringLen = e.ringLen := by simp [h, restore]
  have hcap : e'.ringCap = e.ringCap := by simp [h, restore]
  have hstart : e'.ringStart = 0 := by simp [h, restore, freshEntry]
  have hin' : InRing e' := by
    refine ⟨hlen ▸ hcap ▸ hin.1, fun hne => ?_⟩
    rw [hstart]
    exact Nat.pos_of_ne_zero hne
  constructor
  · exact hin
  · exact hin'
  · simp [h, restore, freshEntry, htime]
  · intro h
    simp [htime] at h
  · rw [StateEntry.ringList, hlen]
    apply List.map_congr_left
    intro i hi
    have hlt := List.mem_range.mp hi
    rw [StateEntry.ringValueAt, ringIdx_front hin' hstart (hlen ▸ hlt)]
    simp [h, restore, StateEntry.ringList, hlt]
  · simp [h, restore, hsum]
  · intro h
    simp [htime] at h
  · intro _
    exact ⟨hroom, hcap⟩

end Rings

/-- A bar, whose kind comes back from its window. -/
theorem barAlike_restore {e e' : StateEntry N} (hkind : e.kind = .bar)
    (hsurvives : Survives e)
    (h : e' = restore (freshEntry e.key) (Saved.bar e.barOpen e.barHigh e.barLow e.barCount e.barCap
      (if e.barTimeWindow then e.barWindowMs else 0) e.barWindowStartMs e.barLastClose).afterRead) :
    BarAlike e e' := by
  obtain ⟨hopen, hhigh, hlow, hclose⟩ := hsurvives.bar hkind
  have hwindow : ((if e.barTimeWindow then e.barWindowMs else 0) != 0) = e.barTimeWindow := by
    cases htime : e.barTimeWindow with
    | true => simpa using hsurvives.window hkind htime
    | false => rfl
  constructor
  · simp [h, Saved.afterRead, restore, hopen]
  · simp [h, Saved.afterRead, restore, hhigh]
  · simp [h, Saved.afterRead, restore, hlow]
  · simp [h, Saved.afterRead, restore, hclose]
  · simp [h, Saved.afterRead, restore]
  · simp [h, Saved.afterRead, restore]
  · simp [h, Saved.afterRead, restore]
  · rw [← hwindow]
    simp [h, Saved.afterRead, restore]
  · intro htime
    simp [h, Saved.afterRead, restore, htime]

/-- What comes back is like what was written. -/
theorem slotAlike_afterFile {e : StateEntry N} {s : Saved N} (he : OwnSlot e)
    (hclock : e.kind ≠ .clock) (hsurvives : Survives e) (hs : savedOf e = some s) :
    SlotAlike e (afterFile e) := by
  have hafter : afterFile e = restore (freshEntry e.key) s.afterRead := by
    rw [afterFile, hs]
    rfl
  have hidle := (he.timers.idle hclock).2.1
  have hsame : e.kind ≠ .empty → (afterFile e).kind = e.kind → (afterFile e).clockArmed = false →
      SameContents e (afterFile e) → SlotAlike e (afterFile e) := by
    intro hused hkind hidle' hcontents
    refine .same ⟨?_, hkind, fun hop => ?_, hidle, hidle', hcontents⟩
    · rw [hafter, key_restore]
    · rcases he.clock hop with hempty | hkind
      · exact hused hempty
      · exact hclock hkind
  unfold savedOf at hs
  cases hkind : e.kind with
  | empty =>
    rw [hkind] at hs
    cases hs
    have hfresh : afterFile e = e := by
      rw [hafter, he.fresh hkind]
      rfl
    rw [hfresh]
    exact .refl
  | clock => exact absurd hkind hclock
  | bytes =>
    rw [hkind] at hs
    cases hs
    apply hsame
    · simp [hkind]
    · simp [hafter, Saved.afterRead, restore, hkind]
    · simp [hafter, Saved.afterRead, restore, freshEntry]
    · rw [SameContents, hkind]
      simp [hafter, Saved.afterRead, restore]
  | number =>
    rw [hkind] at hs
    cases hs
    have hnumber := hsurvives.number hkind
    apply hsame
    · simp [hkind]
    · simp [hafter, Saved.afterRead, restore, hkind]
    · simp [hafter, Saved.afterRead, restore, freshEntry]
    · rw [SameContents, hkind]
      simpa [hafter, Saved.afterRead, restore] using hnumber
  | ring =>
    have hin := he.ring hkind
    have hvalues := hsurvives.values hkind
    have hsum := hsurvives.sum hkind
    rw [hkind] at hs
    dsimp only at hs
    cases htime : e.ringTimeWindow with
    | true =>
      rw [htime, if_pos rfl] at hs hsum
      split_ifs at hs
      cases hs
      apply hsame
      · simp [hkind]
      · simp [hafter, Saved.afterRead, restore, hkind]
      · simp [hafter, Saved.afterRead, restore, freshEntry]
      · exact SameSlot.ofRing hkind (sameRing_timeRing hin htime hvalues hsum hafter)
    | false =>
      rw [htime, if_neg Bool.false_ne_true] at hs hsum
      split_ifs at hs
      cases hs
      apply hsame
      · simp [hkind]
      · simp [hafter, Saved.afterRead, restore, hkind]
      · simp [hafter, Saved.afterRead, restore, freshEntry]
      · exact SameSlot.ofRing hkind (sameRing_countRing hin (hsurvives.room hkind htime) htime hvalues hsum
          hafter)
  | bar =>
    rw [hkind] at hs
    cases hs
    apply hsame
    · simp [hkind]
    · simp [hafter, Saved.afterRead, restore, hkind]
    · simp [hafter, Saved.afterRead, restore, freshEntry]
    · rw [SameContents, hkind]
      exact barAlike_restore hkind hsurvives hafter

/-- And it is one of the rules' own again. -/
theorem ownSlot_afterFile {e : StateEntry N} {s : Saved N} (he : OwnSlot e)
    (hclock : e.kind ≠ .clock) (hsurvives : Survives e) (hs : savedOf e = some s) :
    OwnSlot (afterFile e) := by
  have halike := slotAlike_afterFile he hclock hsurvives hs
  have hafter : afterFile e = restore (freshEntry e.key) s.afterRead := by
    rw [afterFile, hs]
    rfl
  generalize hafterEq : afterFile e = e' at halike hafter
  cases halike with
  | refl => exact he
  | same h =>
    constructor
    · rw [hafter]
      exact entryOk_restore _ _
    · intro hempty
      exact absurd (h.kind.symm.trans hempty) h.not_empty
    · intro hop
      have hop' : e'.op = e.op := congrArg StateKey.op h.key
      exact absurd (hop' ▸ hop) h.op
    · intro hkind
      exact (h.ring (h.kind.symm.trans hkind)).inRing'

/-! ## A program through the file -/

/-- The slots of a list that are written for rule `t`. -/
def slotsOfRule (t : ℕ) (es : List (Slot N)) : List (Slot N) := es.filter fun x => decide (x.1 = t)

omit [Number N] in
theorem slotsOfRule_savedEntries {p : Program N} {t : ℕ} {rule : Rule N}
    (hrule : p.rules[t]? = some rule) :
    slotsOfRule t (savedEntries p) =
      (rule.state.items.filter fun e => e.kind != .clock).map fun e => (t, rule.filter, e) := by
  have hother : ∀ (rules : List (Rule N)) (n : ℕ), t < n →
      slotsOfRule t ((rules.zipIdx n).flatMap fun r =>
        (r.1.state.items.filter fun e => e.kind != .clock).map fun e => (r.2, r.1.filter, e)) =
          [] := by
    intro rules n hn
    apply List.filter_eq_nil_iff.mpr
    intro x hx
    obtain ⟨⟨r, i⟩, hr, hx⟩ := List.mem_flatMap.mp hx
    obtain ⟨e, -, rfl⟩ := List.mem_map.mp hx
    have hle := (List.mem_zipIdx hr).1
    simp only [decide_eq_true_eq]
    omega
  have hall : ∀ (rules : List (Rule N)) (n : ℕ), n ≤ t → rules[t - n]? = some rule →
      slotsOfRule t ((rules.zipIdx n).flatMap fun r =>
        (r.1.state.items.filter fun e => e.kind != .clock).map fun e => (r.2, r.1.filter, e)) =
          (rule.state.items.filter fun e => e.kind != .clock).map fun e =>
            (t, rule.filter, e) := by
    intro rules
    induction rules with
    | nil =>
      intro n _ hrule
      simp at hrule
    | cons r rules ih =>
      intro n hn hrule
      have hsplit : ∀ l l' : List (Slot N), slotsOfRule t (l ++ l') =
          slotsOfRule t l ++ slotsOfRule t l' := fun l l' => List.filter_append ..
      rw [List.zipIdx_cons, List.flatMap_cons, hsplit]
      by_cases hhere : n = t
      · subst hhere
        rw [Nat.sub_self] at hrule
        obtain rfl := Option.some.inj hrule
        rw [hother rules (n + 1) (by omega), List.append_nil]
        apply List.filter_eq_self.mpr
        intro x hx
        obtain ⟨e, -, rfl⟩ := List.mem_map.mp hx
        simp
      · have hrest : rules[t - (n + 1)]? = some rule := by
          obtain ⟨m, hm⟩ : ∃ m, t - n = m + 1 := ⟨t - n - 1, by omega⟩
          rw [hm, List.getElem?_cons_succ] at hrule
          rwa [show t - (n + 1) = m by omega]
        rw [ih (n + 1) (by omega) hrest]
        have hnone : slotsOfRule t ((r.state.items.filter fun e => e.kind != .clock).map fun e =>
            (n, r.filter, e)) = [] := by
          apply List.filter_eq_nil_iff.mpr
          intro x hx
          obtain ⟨e, -, rfl⟩ := List.mem_map.mp hx
          simpa using hhere
        rw [hnone, List.nil_append]
  exact hall p.rules 0 (Nat.zero_le t) (by simpa using hrule)

/-- A fresh program with the slots of a list that came through the file. -/
structure Placed (p₀ q : Program N) (es : List (Slot N)) : Prop where
  source : q.source = p₀.source
  index : ∀ rule ∈ q.rules, rule.state.index = []
  items : ∀ (t : ℕ) rule, q.rules[t]? = some rule →
    rule.state.items = (slotsOfRule t es).map fun x => afterFile x.2.2
  grown : ∀ rule ∈ q.rules, Grown rule.state.items.length rule.state.cap

omit [Number N] in
theorem getElem?_source {p q : Program N} (h : q.source = p.source) (t : ℕ) :
    (q.rules[t]?).map Rule.filter = (p.rules[t]?).map Rule.filter := by
  have hrules := congrArg (fun s : Program N => (s.rules[t]?).map Rule.filter) h
  simpa [Program.source, Option.map_map, Function.comp_def] using hrules

/-- A slot of a rule of the program, by its number and filter. -/
structure Belongs (p₀ : Program N) (x : Slot N) : Prop where
  rule : (p₀.rules[x.1]?).map Rule.filter = some x.2.1
  number : x.1 < 2 ^ 32
  op : x.2.2.op ∈ slotOps
  own : x.2.2.ruleId = x.1
  saved : (savedOf x.2.2).isSome = true

theorem Placed.append {p₀ q : Program N} {es : List (Slot N)} (h : Placed p₀ q es) {x : Slot N}
    (hx : Belongs p₀ x) {m cap : ℕ} (hroom : Grown m cap) (hlt : (slotsOfRule x.1 es).length < m)
    {l : Loading N} (hl : l.program = some q) :
    ∃ q', (placeSlot l x).program = some q' ∧ Placed p₀ q' (es ++ [x]) := by
  obtain ⟨s, hs⟩ := Option.isSome_iff_exists.mp hx.saved
  have hfilter := hx.rule
  rw [← getElem?_source h.source x.1] at hfilter
  obtain ⟨rule, hrule, hsame⟩ := Option.map_eq_some_iff.mp hfilter
  have hlength : rule.state.items.length = (slotsOfRule x.1 es).length := by
    rw [h.items x.1 rule hrule, List.length_map]
  obtain ⟨cap', hcap⟩ := hroom.room (h.grown rule (List.mem_of_getElem? hrule)) (hlength ▸ hlt)
  have hafter : restore (freshEntry ⟨x.1, x.2.2.op, x.2.2.subject⟩) s.afterRead =
      afterFile x.2.2 := by
    rw [afterFile, hs, ← hx.own]
    rfl
  have happend : appendState q (x.1 % 2 ^ 32) x.2.1 (entryKey x.2.2) s.afterRead =
      some { q with rules := q.rules.set x.1 { rule with
        state.items := rule.state.items ++ [afterFile x.2.2]
        state.cap := cap' } } := by
    unfold appendState
    rw [Nat.mod_eq_of_lt hx.number, hrule, splitKey_entryKey hx.op]
    simp [hsame, stateReserve, hcap, hafter]
  refine ⟨{ q with rules := q.rules.set x.1 { rule with
      state.items := rule.state.items ++ [afterFile x.2.2]
      state.cap := cap' } }, ?_, ?_⟩
  · unfold placeSlot placeEntry
    rw [hl, hs]
    dsimp only
    rw [happend]
  · constructor
    · rw [source_appendState happend, h.source]
    · intro r hr
      rcases List.mem_or_eq_of_mem_set hr with hr | rfl
      · exact h.index r hr
      · exact h.index rule (List.mem_of_getElem? hrule)
    · intro t r hr
      have hsplit : slotsOfRule t (es ++ [x]) = slotsOfRule t es ++ slotsOfRule t [x] :=
        List.filter_append ..
      rw [List.getElem?_set] at hr
      rw [hsplit, List.map_append]
      split_ifs at hr with ht
      · subst ht
        cases hr
        simp [h.items x.1 rule hrule, slotsOfRule]
      · rw [h.items t r hr]
        simp [slotsOfRule, ht]
    · intro r hr
      rcases List.mem_or_eq_of_mem_set hr with hr | rfl
      · exact h.grown r hr
      · dsimp only
        rw [List.length_append]
        exact .more (h.grown rule (List.mem_of_getElem? hrule)) hcap

theorem placed_foldl {p₀ : Program N} {all : List (Slot N)} (hbelongs : ∀ x ∈ all, Belongs p₀ x)
    (hroom : ∀ t, ∃ cap, Grown (slotsOfRule t all).length cap) {xs es : List (Slot N)}
    (hall : es ++ xs = all) {q : Program N} (h : Placed p₀ q es) {l : Loading N}
    (hl : l.program = some q) :
    ∃ q', (xs.foldl placeSlot l).program = some q' ∧ Placed p₀ q' all := by
  induction xs generalizing es q l with
  | nil =>
    rw [List.append_nil] at hall
    exact ⟨q, hl, hall ▸ h⟩
  | cons x xs ih =>
    have hx : x ∈ all := by simp [← hall]
    have hlt : (slotsOfRule x.1 es).length < (slotsOfRule x.1 all).length := by
      rw [← hall]
      simp [slotsOfRule]
    obtain ⟨cap, hcap⟩ := hroom x.1
    obtain ⟨q', hq', hplaced⟩ := h.append (hbelongs x hx) hcap hlt hl
    have hnext : es ++ [x] ++ xs = all := by simp [← hall]
    rw [List.foldl_cons]
    exact ih hnext hplaced hq'

/-- No slot is a clock, and all of them survive the file. -/
def AllSurvive (p : Program N) : Prop :=
  ∀ rule ∈ p.rules, ∀ e ∈ rule.state.items, e.kind ≠ .clock ∧ Survives e

omit [Number N] in
theorem ruleState_eq {m : Machine N W} {j : ℕ} (hj : j < m.program.rules.length) :
    ∃ rule, m.program.rules[j]? = some rule ∧ m.ruleState j = rule.state :=
  ⟨m.program.rules[j], List.getElem?_eq_getElem hj, ruleState_of_getElem? (List.getElem?_eq_getElem hj)⟩

/-- What a fresh program gets from the snapshot of one of the same source: in
each rule the slots that were written, in order, in an array of the same
capacity. -/
theorem placed_load {m : Machine N W} {p₀ : Program N} (hown : ∀ j, OwnState j (m.ruleState j))
    (hlen : m.program.rules.length ≤ 2 ^ 32) (hsurvive : AllSurvive m.program)
    (hsource : m.program.source = p₀.source)
    (fresh : ∀ rule ∈ p₀.rules, rule.state = stateInit) {r r₀ : Router} {bytes : Bytes}
    (build : snapshotBuild r (some m.program) = some bytes) {l : Loading N}
    (load : snapshotLoad bytes r₀ (some p₀) = some l) :
    ∃ q, l.program = some q ∧ Placed p₀ q (savedEntries m.program) := by
  obtain ⟨l₀, hl₀, rfl⟩ := program_snapshotLoad build load
  obtain ⟨-, slots, -, hslots, -⟩ := snapshotBuild_eq_some build
  have hsaved := savedOf_isSome_of_appendSlots hslots
  have hplaced : Placed p₀ p₀ [] := by
    constructor
    · rfl
    · intro rule hrule
      rw [fresh rule hrule]
      rfl
    · intro t rule hrule
      rw [fresh rule (List.mem_of_getElem? hrule)]
      rfl
    · intro rule hrule
      rw [fresh rule hrule]
      exact .none
  apply placed_foldl _ _ (List.nil_append _) hplaced hl₀
  · intro x hx
    have hx' := hx
    obtain ⟨⟨rule, i⟩, hrule, hx'⟩ := List.mem_flatMap.mp hx'
    obtain ⟨e, he, rfl⟩ := List.mem_map.mp hx'
    rw [List.mem_zipIdx_iff_getElem?] at hrule
    have hi := (List.getElem?_eq_some_iff.mp hrule).1
    have hstate := hown i
    rw [ruleState_of_getElem? hrule] at hstate
    have hkey := hstate.own e.key (List.mem_map_of_mem (List.mem_filter.mp he).1)
    constructor
    · rw [← getElem?_source hsource i, hrule]
      rfl
    · exact lt_of_lt_of_le hi hlen
    · exact hkey.2
    · exact hkey.1
    · exact Option.isSome_iff_exists.mpr (hsaved _ hx)
  · intro t
    by_cases ht : t < m.program.rules.length
    · obtain ⟨rule, hrule, hstate⟩ := ruleState_eq ht
      have hgrown := (hown t).grown
      have hall : rule.state.items.filter (fun e => e.kind != .clock) = rule.state.items := by
        apply List.filter_eq_self.mpr
        intro e he
        exact bne_iff_ne.mpr (hsurvive rule (List.mem_of_getElem? hrule) e he).1
      rw [slotsOfRule_savedEntries hrule, hall, List.length_map, ← hstate]
      exact ⟨_, hgrown⟩
    · have hnone : slotsOfRule t (savedEntries m.program) = [] := by
        apply List.filter_eq_nil_iff.mpr
        intro x hx
        obtain ⟨⟨rule, i⟩, hrule, hx⟩ := List.mem_flatMap.mp hx
        obtain ⟨e, -, rfl⟩ := List.mem_map.mp hx
        have hi := (List.getElem?_eq_some_iff.mp (List.mem_zipIdx_iff_getElem?.mp hrule)).1
        simp only [decide_eq_true_eq]
        omega
      rw [hnone]
      exact ⟨0, .none⟩

/-- The states that come back are like those that were written, and again of the own
slots of their rules. -/
theorem states_load {m m' : Machine N W} {p₀ : Program N} (hown : ∀ j, OwnState j (m.ruleState j))
    (hlen : m.program.rules.length ≤ 2 ^ 32) (hsurvive : AllSurvive m.program)
    (hsource : m.program.source = p₀.source)
    (fresh : ∀ rule ∈ p₀.rules, rule.state = stateInit) {r r₀ : Router} {bytes : Bytes}
    (build : snapshotBuild r (some m.program) = some bytes) {l : Loading N}
    (load : snapshotLoad bytes r₀ (some p₀) = some l) (program : l.program = some m'.program) :
    m'.program.source = m.program.source ∧
      ∀ j, AlikeStates (m.ruleState j) (m'.ruleState j) ∧ OwnState j (m'.ruleState j) := by
  obtain ⟨q, hq, hplaced⟩ := placed_load hown hlen hsurvive hsource fresh build load
  obtain rfl : q = m'.program := Option.some.inj (hq.symm.trans program)
  obtain ⟨-, slots, -, hslots, -⟩ := snapshotBuild_eq_some build
  have hsaved := savedOf_isSome_of_appendSlots hslots
  have hsame : m'.program.source = m.program.source := hplaced.source.trans hsource.symm
  have hlength : m'.program.rules.length = m.program.rules.length := by
    rw [← length_source, hsame, length_source]
  refine ⟨hsame, fun j => ?_⟩
  by_cases hj : j < m.program.rules.length
  · obtain ⟨rule, hrule, hstate⟩ := ruleState_eq hj
    obtain ⟨rule', hrule', hstate'⟩ := ruleState_eq (hlength ▸ hj)
    have hownRule := hown j
    rw [hstate] at hownRule
    have hmem := List.mem_of_getElem? hrule
    -- no slot of the rule is left out
    have hall : rule.state.items.filter (fun e => e.kind != .clock) = rule.state.items := by
      apply List.filter_eq_self.mpr
      intro e he
      exact bne_iff_ne.mpr (hsurvive rule hmem e he).1
    have hitems : rule'.state.items = rule.state.items.map afterFile := by
      rw [hplaced.items j rule' hrule', slotsOfRule_savedEntries hrule, hall, List.map_map]
      rfl
    have hslot : ∀ e ∈ rule.state.items,
        SlotAlike e (afterFile e) ∧ OwnSlot (afterFile e) := by
      intro e he
      obtain ⟨hclock, hsurvives⟩ := hsurvive rule hmem e he
      obtain ⟨x, hx, rfl⟩ := mem_savedEntries.mpr ⟨rule, hmem, he, hclock⟩
      obtain ⟨s, hs⟩ := hsaved x hx
      have how := hownRule.slots x.2.2 he
      exact ⟨slotAlike_afterFile how hclock hsurvives hs, ownSlot_afterFile how hclock hsurvives hs⟩
    have hgrown' := hplaced.grown rule' (List.mem_of_getElem? hrule')
    have hcap : rule'.state.cap = rule.state.cap := by
      rw [hitems, List.length_map] at hgrown'
      exact hownRule.grown.unique hgrown'
    have hkeys : OwnKeys j rule'.state := by
      apply OwnKeys.load _ fresh (rulesApart_of_length hlen p₀) build load program hrule'
      intro i rule hrule
      rw [← ruleState_of_getElem? hrule]
      exact (hown i).toOwnKeys
    rw [hstate, hstate']
    constructor
    · constructor
      · exact hownRule.indexed
      · exact hkeys.indexed
      · rw [hitems]
        apply List.forall₂_map_right_iff.mpr
        apply List.forall₂_same.mpr
        intro e he
        exact (hslot e he).1
      · exact hcap
      · exact hownRule.grown.fits
    · refine ⟨hkeys, fun e he => ?_, hgrown'⟩
      rw [hitems] at he
      obtain ⟨e₀, he₀, rfl⟩ := List.mem_map.mp he
      exact (hslot e₀ he₀).2
  · rw [ruleState_of_missing (by omega), ruleState_of_missing (by omega)]
    have hinit := @ownState_init N _ j
    exact ⟨⟨hinit.indexed, hinit.indexed, .nil, rfl, hinit.grown.fits⟩, hinit⟩

/-! ## Runs with and without restarts -/

/-- What the server calls of a program. -/
inductive ProgramCall (N W : Type) where
  | publish (env : Env N W) (t : Moment) (subject payload : Bytes)
  | tick (env : Env N W) (t : Moment)
  | tickUntil (env : Env N W) (t : Moment)

def ProgramCall.env : ProgramCall N W → Env N W
  | .publish env _ _ _ => env
  | .tick env _ => env
  | .tickUntil env _ => env

def ProgramCall.run : ProgramCall N W → MachineM N W Bool
  | .publish env t subject payload => evalPublish env t subject payload
  | .tick env t => Patchbay.tick env t
  | .tickUntil env t => Patchbay.tickUntil env t

/-- Calls one after another, with what each returns. -/
def runCalls : List (ProgramCall N W) → Machine N W → Option (List Bool × Machine N W)
  | [], m => some ([], m)
  | c :: calls, m =>
    (c.run m).bind fun r => (runCalls calls r.2).map fun rs => (r.1 :: rs.1, rs.2)

/-- A run that stops any number of times between two calls, each time at a moment when
everything survives, and goes on in a fresh process of the same rules, in a world
related to the one before. -/
inductive Restarted (rules : List (RuleSource N)) (usesClock : Bool) (V : W → W → Prop) :
    Machine N W → List (ProgramCall N W) → List Bool → Machine N W → Prop
  | done (m : Machine N W) : Restarted rules usesClock V m [] [] m
  | call {c : ProgramCall N W} {m m₁ m' : Machine N W} {calls : List (ProgramCall N W)} {ok : Bool}
      {oks : List Bool} (run : c.run m = some (ok, m₁))
      (rest : Restarted rules usesClock V m₁ calls oks m') :
      Restarted rules usesClock V m (c :: calls) (ok :: oks) m'
  | restart {m m' : Machine N W} {calls : List (ProgramCall N W)} {oks : List Bool}
      {r r₀ : Router} {bytes : Bytes} {l : Loading N} {q : Program N} {w : W}
      (survive : AllSurvive m.program) (build : snapshotBuild r (some m.program) = some bytes)
      (load : snapshotLoad bytes r₀ (some (loadProgram rules usesClock)) = some l)
      (program : l.program = some q) (world : V m.world w)
      (rest : Restarted rules usesClock V ⟨q, w⟩ calls oks m') :
      Restarted rules usesClock V m calls oks m'

section Runs

variable {src : Program N} {V : W → W → Prop}

/-- Two machines of one source, the second of the own slots of its rules, that no call
tells apart. -/
abbrev Unnoticed (src : Program N) (V : W → W → Prop) : Machine N W → Machine N W → Prop :=
  Linked (fun p p' => p = p' ∧ p' = src)
    (fun j st st' => AlikeStates st st' ∧ OwnState j st') V

theorem compatible_unnoticed {env : Env N W} (hfair : Fair V env) :
    Compatible env (Unnoticed src V) := by
  have htick := tickOk_alike (N := N) env
  have hlink : LinkOk env (fun _ _ _ => True) (fun p p' => p = p' ∧ p' = src)
      (fun j st st' => AlikeStates st st' ∧ OwnState j st') V := by
    constructor
    · rintro p _ ⟨rfl, -⟩ j -
      exact Iff.rfl
    · rintro j s now - α op f hform st st' ⟨hst, hown⟩
      have hstep := hst.slotStep (k := ⟨j, op, s⟩) hfair.memory hform.key fun e e' hkey he =>
        hform.alike hfair.memory (congrArg StateKey.op hkey) he
      exact ⟨hstep.1, hstep.2, hown.slotStep hfair.memory hform s⟩
    · exact hfair.route
  have hstates : ∀ {m m' : Machine N W}, Unnoticed src V m m' → AlikeMachines V m m' :=
    fun h => ⟨h.source.1, fun j => (h.states j).1, h.world⟩
  constructor
  · exact hlink.evalCompatible
  · intro j i now
    apply respects_atSlot_linked hlink.places ⟨[], 0, trivial⟩
    rintro st st' ⟨hst, hown⟩
    have hstep := hst.stepAt (i := i) (key_tickClock env.alloc now) fun e e' _ he => he.tickClock
    exact ⟨hstep.1, hstep.2, hown.stepAt (key_tickClock env.alloc now) (fun e he => he.tickClock now) i⟩
  · intro j i now
    apply respects_atSlot_linked hlink.places ⟨[], 0, trivial⟩
    rintro st st' ⟨hst, hown⟩
    have hstep := hst.stepAt (i := i) (key_tickWindow now) fun e e' _ he => he.tickWindow
    exact ⟨hstep.1, hstep.2, hown.stepAt (key_tickWindow now) (fun e he => he.tickWindow now) i⟩
  · exact fun hm => sameSource_iff.mpr hm.source.1
  · exact fun j _ _ hm => htick.slots j (hm.states j).1
  · intro j i m m' hm hclock
    -- only slots of clocks are of this kind
    have hop : (slotAt (m.ruleState j) i).key.op ∈ clockOps := by
      obtain ⟨halike, hown⟩ := hm.states j
      have hkey := congrArg (fun l => l[i]?) (htick.slots j halike)
      simp only [List.getElem?_map] at hkey
      unfold slotAt at hclock ⊢
      cases hi : (m'.ruleState j).items[i]? with
      | none =>
        rw [hi, Option.map_none, Option.map_eq_none_iff] at hkey
        rw [hkey] at hclock
        cases hclock
      | some e' =>
        cases hi' : (m.ruleState j).items[i]? with
        | none =>
          rw [hi'] at hclock
          cases hclock
        | some e =>
          rw [hi'] at hclock
          rw [hi, hi', Option.map_some, Option.map_some, Option.some.injEq, Prod.mk.injEq] at hkey
          have hslot := (hown.slots e' (List.mem_of_getElem? hi)).timers.op (hkey.1 ▸ hclock)
          have hsame : e'.op = e.op := (congrArg StateKey.op hkey.2).symm
          rw [hsame] at hslot
          exact hslot
    exact lends_alike (fun hm j => (hm.states j).1) hop
  · exact fun hm => htick.deadline (hstates hm)

theorem respects_call {c : ProgramCall N W} (hfair : Fair V c.env) :
    Respects (Unnoticed src V) c.run := by
  cases c with
  | publish env t subject payload =>
    exact respects_evalPublish (compatible_unnoticed hfair) t subject payload
  | tick env t => exact respects_tick (compatible_unnoticed hfair) t
  | tickUntil env t => exact respects_tickUntil (compatible_unnoticed hfair) t

/-- A restart leaves a machine that is as little told apart from the one that never
stopped. -/
theorem Unnoticed.restart {rules : List (RuleSource N)} {usesClock : Bool}
    (htrans : ∀ a b c, V a b → V b c → V a c) (hlen : rules.length ≤ 2 ^ 32)
    {m m' : Machine N W} (h : Unnoticed (loadProgram rules usesClock).source V m m')
    (hsurvive : AllSurvive m'.program) {r r₀ : Router} {bytes : Bytes}
    (build : snapshotBuild r (some m'.program) = some bytes) {l : Loading N}
    (load : snapshotLoad bytes r₀ (some (loadProgram rules usesClock)) = some l) {q : Program N}
    (program : l.program = some q) {w : W} (world : V m'.world w) :
    Unnoticed (loadProgram rules usesClock).source V m ⟨q, w⟩ := by
  have hrules : m'.program.rules.length ≤ 2 ^ 32 := by
    rw [← length_source, h.source.2, length_source]
    simpa [loadProgram] using hlen
  obtain ⟨hsource, hstates⟩ := @states_load N W _ m' ⟨q, w⟩ _ (fun j => (h.states j).2) hrules
    hsurvive h.source.2 state_loadProgram _ _ _ build _ load program
  constructor
  · exact ⟨h.source.1.trans hsource.symm, hsource.trans h.source.2⟩
  · intro j
    exact ⟨(h.states j).1.trans (hstates j).1, (hstates j).2⟩
  · exact htrans _ _ _ h.world world

theorem unnoticed_restarted {rules : List (RuleSource N)} {usesClock : Bool}
    (htrans : ∀ a b c, V a b → V b c → V a c)
    (hlen : rules.length ≤ 2 ^ 32) {m₀ m m' : Machine N W} {calls : List (ProgramCall N W)}
    {oks : List Bool} (hfair : ∀ c ∈ calls, Fair V c.env)
    (hstart : Unnoticed (loadProgram rules usesClock).source V m₀ m)
    (h : Restarted rules usesClock V m calls oks m') :
    ∃ m₁, runCalls calls m₀ = some (oks, m₁) ∧
      Unnoticed (loadProgram rules usesClock).source V m₁ m' := by
  induction h generalizing m₀ with
  | done m => exact ⟨m₀, rfl, hstart⟩
  | @call c m m₁ m' calls ok oks run rest ih =>
    rw [List.forall_mem_cons] at hfair
    have hagree := respects_call hfair.1 m₀ m hstart
    rw [run] at hagree
    generalize hrun : c.run m₀ = x at hagree
    cases hagree with
    | @some _ s t hnext =>
      obtain ⟨m₂, hcalls, hend⟩ := ih hfair.2 hnext
      refine ⟨m₂, ?_, hend⟩
      simp [runCalls, hrun, hcalls]
  | restart survive build load program world rest ih =>
    exact ih hfair (hstart.restart htrans hlen survive build load program world)

/-- A run with restarts returns what the run without them returns, and leaves a related
world behind; so does the next call, whichever it is. And the next snapshot, if its
rings stay within a field, is loaded again. -/
theorem restarts_go_unnoticed {rules : List (RuleSource N)} {usesClock : Bool}
    (hrefl : ∀ w, V w w) (htrans : ∀ a b c, V a b → V b c → V a c)
    (hlen : rules.length ≤ 2 ^ 32) {world : W} {m' : Machine N W} {calls : List (ProgramCall N W)}
    {oks : List Bool} (hfair : ∀ c ∈ calls, Fair V c.env)
    (h : Restarted rules usesClock V ⟨loadProgram rules usesClock, world⟩ calls oks m') :
    ∃ m, runCalls calls ⟨loadProgram rules usesClock, world⟩ = some (oks, m) ∧
      V m.world m'.world ∧
      (∀ c : ProgramCall N W, Fair V c.env → (c.run m).map Prod.fst = (c.run m').map Prod.fst) ∧
      ∀ r r₀ bytes, LvcInv r → EmptyCache r r₀ → RingsFit m'.program →
        snapshotBuild r (some m'.program) = some bytes →
          ∃ l, snapshotLoad bytes r₀ (some (loadProgram rules usesClock)) = some l := by
  have hstart : Unnoticed (loadProgram rules usesClock).source V
      ⟨loadProgram rules usesClock, world⟩ ⟨loadProgram rules usesClock, world⟩ := by
    refine ⟨⟨rfl, rfl⟩, fun j => ?_, hrefl world⟩
    have hinit : (⟨loadProgram rules usesClock, world⟩ : Machine N W).ruleState j = stateInit := by
      by_cases hj : j < (loadProgram rules usesClock).rules.length
      · obtain ⟨rule, hrule, hstate⟩ := @ruleState_eq N W ⟨loadProgram rules usesClock, world⟩ j hj
        rw [hstate, state_loadProgram rule (List.mem_of_getElem? hrule)]
      · exact ruleState_of_missing (not_lt.mp hj)
    rw [hinit]
    have hown := @ownState_init N _ j
    exact ⟨⟨hown.indexed, hown.indexed, .nil, rfl, hown.grown.fits⟩, hown⟩
  obtain ⟨m, hrun, hend⟩ := unnoticed_restarted htrans hlen hfair hstart h
  refine ⟨m, hrun, hend.world, ?_, ?_⟩
  · intro c hc
    have hagree := respects_call hc m m' hend
    generalize c.run m = x at hagree ⊢
    generalize c.run m' = y at hagree ⊢
    cases hagree with
    | none => rfl
    | some ok _ => rfl
  · intro r r₀ bytes hr h₀ hfit hbuild
    exact Option.isSome_iff_exists.mp (snapshotLoad_isSome hr h₀ hbuild hfit _)

end Runs

/-! ## A moving sum -/

instance [DecidableEq N] (e : StateEntry N) : Decidable (Survives e) :=
  decidable_of_iff
    ((e.kind = .number → reread e.number = e.number) ∧
      (e.kind = .ring → e.ringTimeWindow = false → e.ringCap ≠ 0) ∧
      (e.kind = .ring → ∀ x ∈ e.ringList, reread x = x) ∧
      (e.kind = .ring →
        if e.ringTimeWindow then e.ringSum = e.ringList.foldl fadd (ofNat 0)
        else reread e.ringSum = e.ringSum) ∧
      (e.kind = .bar →
        reread e.barOpen = e.barOpen ∧ reread e.barHigh = e.barHigh ∧ reread e.barLow = e.barLow ∧
          reread e.barLastClose = e.barLastClose) ∧
      (e.kind = .bar → e.barTimeWindow = true → e.barWindowMs ≠ 0))
    ⟨fun h => ⟨h.1, h.2.1, h.2.2.1, h.2.2.2.1, h.2.2.2.2.1, h.2.2.2.2.2⟩,
      fun h => ⟨h.number, h.room, h.values, h.sum, h.bar, h.window⟩⟩

instance [DecidableEq N] (p : Program N) : Decidable (AllSurvive p) :=
  inferInstanceAs (Decidable (∀ rule ∈ p.rules, ∀ e ∈ rule.state.items,
    e.kind ≠ .clock ∧ Survives e))

/-- `(on "a" (publish! "b" (moving-sum :ms 100 payload-float)))` -/
def summedRules : List (RuleSource ℤ) :=
  [⟨lit "a", .list [.symbol (lit "publish!"), .string (lit "b"),
    .list [.symbol (lit "moving-sum"), .keyword (lit "ms"), .number 100,
      .symbol (lit "payload-float")]], false⟩]

def summedCall (now : UInt64) (payload : Bytes) : ProgramCall ℤ Journal :=
  .publish (journalEnv (fun _ => none) writtenOver payloadDrawn 10) ⟨now, 0, false⟩ (lit "a") payload

def summedStart : Machine ℤ Journal := ⟨loadProgram summedRules false, []⟩

/-- Whether a machine survives, and publishes `b` and the sum of 1 and 2 once it has
been loaded again. -/
def survivesSummed (m : Machine ℤ Journal) : Bool :=
  decide (AllSurvive m.program) && ((do
    let bytes ← snapshotBuild routerInit (some m.program)
    let l ← snapshotLoad bytes routerInit (some (loadProgram summedRules false))
    let q ← l.program
    let r ← (summedCall 7 (lit "2")).run ⟨q, m.world⟩
    pure (decide (r.1 = true ∧ r.2.world = [(lit "b", lit "1"), (lit "b", lit "3")]))) ==
      some true)

theorem fair_summedCall (now : UInt64) (payload : Bytes) :
    Fair (fun w w' : Journal => w = w') (summedCall now payload).env where
  memory _ := rfl
  route subject payload w w' h := by rw [h]; exact ⟨rfl, rfl⟩

/-- A second message after a restart: the sum goes on as if there had been none. -/
theorem sum_goes_on : ∃ m m' : Machine ℤ Journal,
    Restarted summedRules false (fun w w' => w = w') summedStart
      [summedCall 5 (lit "1"), summedCall 7 (lit "2")] [true, true] m' ∧
    runCalls [summedCall 5 (lit "1"), summedCall 7 (lit "2")] summedStart = some ([true, true], m) ∧
    m.world = [(lit "b", lit "1"), (lit "b", lit "3")] := by
  have hfirst : (((summedCall 5 (lit "1")).run summedStart).map fun r =>
      r.1 && survivesSummed r.2) = some true := by decide +kernel
  obtain ⟨⟨ok, m₁⟩, hrun, hsurvives⟩ := Option.map_eq_some_iff.mp hfirst
  rw [Bool.and_eq_true, survivesSummed, Bool.and_eq_true, decide_eq_true_eq, beq_iff_eq] at hsurvives
  obtain ⟨rfl, hsurvive, hnext⟩ := hsurvives
  simp only [Option.bind_eq_bind, Option.bind_eq_some_iff, Option.pure_def, Option.some.injEq,
    decide_eq_true_eq] at hnext
  obtain ⟨bytes, build, l, load, q, program, ⟨ok, m'⟩, hrun', hok, hworld⟩ := hnext
  dsimp only at hok hworld
  subst hok
  have hrestarted : Restarted summedRules false (fun w w' => w = w') summedStart
      [summedCall 5 (lit "1"), summedCall 7 (lit "2")] [true, true] m' :=
    .call hrun (.restart hsurvive build load program rfl (.call hrun' (.done m')))
  obtain ⟨m, hcalls, hsame, -⟩ := restarts_go_unnoticed (fun _ => rfl)
    (fun _ _ _ => Eq.trans) (by decide) (by simp [fair_summedCall]) hrestarted
  exact ⟨m, m', hrestarted, hcalls, hsame.trans hworld⟩

end Monoblok.Snapshot
