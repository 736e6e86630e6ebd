import Monoblok.Patchbay.Calls
import Monoblok.Patchbay.Lookup

/-!
# Isolation of rule state

All slots of a rule are in one array with one index, under the operation and the
subject they belong to. An evaluation of a rule for a subject reads and writes
the slots of that subject only, and finds them wherever they are. So what a rule
publishes for a subject does not depend on other subjects or other rules.
-/

namespace Monoblok.Patchbay

open Relational

variable {N : Type} [Number N]

/-! ## The slots of a subject -/

/-- The slots of a subject, in order. -/
def slotsFor (s : Bytes) (st : EvalState N) : List (StateEntry N) :=
  st.items.filter fun e => e.subject == s

/-- The state of a rule that has been evaluated for the given subjects. -/
structure RuleOk (i : ℕ) (subjects : List Bytes) (st : EvalState N) : Prop where
  indexed : StateIndexed st
  keys : ∀ e ∈ st.items, e.ruleId = i ∧ e.op ∈ slotOps ∧ e.subject ∈ subjects

omit [Number N] in
theorem ruleOk_init (i : ℕ) (subjects : List Bytes) : RuleOk i subjects (stateInit : EvalState N) :=
  ⟨stateIndexed_init, by simp [stateInit]⟩

omit [Number N] in
/-- The keys are different, so there are no more than operations and subjects. -/
theorem RuleOk.length_le {i : ℕ} {subjects : List Bytes} {st : EvalState N}
    (h : RuleOk i subjects st) : st.items.length ≤ slotOps.length * subjects.length := by
  have hsubset : st.keys ⊆ (slotOps ×ˢ subjects).map fun x => ⟨i, x.1, x.2⟩ := by
    intro k hk
    obtain ⟨e, he, rfl⟩ := List.mem_map.mp hk
    obtain ⟨hrule, hop, hsubject⟩ := h.keys e he
    refine List.mem_map.mpr ⟨(e.op, e.subject), List.mem_product.mpr ⟨hop, hsubject⟩, ?_⟩
    rw [StateEntry.key, hrule]
  have hle := (List.subperm_of_subset h.indexed.nodup hsubset).length_le
  rw [List.length_map, List.length_product, EvalState.keys, List.length_map] at hle
  exact hle

/-- Few enough subjects for the slots to fit in memory. -/
def FewSubjects (subjects : List Bytes) : Prop := subjects.length ≤ 2 ^ 47

omit [Number N] in
theorem RuleOk.small {i : ℕ} {subjects : List Bytes} {st : EvalState N}
    (h : RuleOk i subjects st) (hfew : FewSubjects subjects) : st.items.length < 2 ^ 53 := by
  have hle := h.length_le
  have hops : slotOps.length = 36 := by decide
  unfold FewSubjects at hfew
  rw [hops] at hle
  omega

/-- The slot with a key is replaced. -/
def replaceKey (k : StateKey) (e' : StateEntry N) (e : StateEntry N) : StateEntry N :=
  if e.key = k then e' else e

omit [Number N] in
theorem set_eq_map {l : List (StateEntry N)} (hnodup : (l.map StateEntry.key).Nodup) {j : ℕ}
    {e : StateEntry N} (hj : l[j]? = some e) (e' : StateEntry N) :
    l.set j e' = l.map (replaceKey e.key e') := by
  apply List.ext_getElem?
  intro n
  rw [List.getElem?_map, List.getElem?_set]
  obtain ⟨hlt, hget⟩ := List.getElem?_eq_some_iff.mp hj
  by_cases hn : j = n
  · rw [if_pos hn, if_pos hlt, ← hn, hj, Option.map_some, replaceKey, if_pos rfl]
  · rw [if_neg hn]
    cases hx : l[n]? with
    | none => rfl
    | some x =>
      obtain ⟨hlt', hget'⟩ := List.getElem?_eq_some_iff.mp hx
      have hne : x.key ≠ e.key := by
        intro heq
        apply hn
        have hj' : j < (l.map StateEntry.key).length := by simpa using hlt
        have hn' : n < (l.map StateEntry.key).length := by simpa using hlt'
        have hsame : (l.map StateEntry.key)[j] = (l.map StateEntry.key)[n] := by
          simp [hget, hget', heq]
        exact (List.Nodup.getElem_inj_iff hnodup).mp hsame
      rw [Option.map_some, replaceKey, if_neg hne]

omit [Number N] in
/-- Replacing a slot by one with its key, among the slots of a subject. -/
theorem filter_map_replaceKey {l : List (StateEntry N)} {k : StateKey} {e' : StateEntry N}
    (hkey : e'.key = k) (s : Bytes) :
    (l.map (replaceKey k e')).filter (fun e => e.subject == s) =
      (l.filter fun e => e.subject == s).map (replaceKey k e') := by
  rw [List.filter_map]
  congr 1
  apply List.filter_congr
  intro e _
  rw [Function.comp_apply, replaceKey]
  split_ifs with he
  · have hsubject : e'.subject = e.subject :=
      congrArg StateKey.subject (hkey.trans he.symm)
    rw [hsubject]
  · rfl

omit [Number N] in
/-- Slots for other subjects stay. -/
theorem map_replaceKey_slotsFor {k : StateKey} {s : Bytes} (hne : k.subject ≠ s)
    (e' : StateEntry N) {st : EvalState N} :
    (slotsFor s st).map (replaceKey k e') = slotsFor s st := by
  refine (List.map_congr_left fun x hx => ?_).trans (List.map_id _)
  have hsubject : x.subject = s := beq_iff_eq.mp (List.mem_filter.mp hx).2
  rw [replaceKey, if_neg]
  · rfl
  · intro heq
    exact hne ((congrArg StateKey.subject heq).symm.trans hsubject)

section Step

variable {i : ℕ} {subjects : List Bytes} {st : EvalState N} {A : EvalAlloc → Bool} {α : Type}
  {op s : Bytes} {f : StateEntry N → SlotStep N α}

/-- What a step for a key leaves: the slot with the key replaced, or a new one. -/
inductive SlotsAfter (st : EvalState N) (k : StateKey) (f : StateEntry N → SlotStep N α) :
    Except EvalError α × EvalState N → Prop
  | old {st' : EvalState N} {e : StateEntry N} (mem : e ∈ st.items) (key : e.key = k)
      (items : st'.items = st.items.map (replaceKey k (f e).entry)) :
      SlotsAfter st k f ((f e).result, st')
  | new {st' : EvalState N} (fresh : ∀ e ∈ st.items, e.key ≠ k)
      (items : st'.items = st.items ++ [(f (freshEntry k)).entry]) :
      SlotsAfter st k f ((f (freshEntry k)).result, st')

/-- Slots are added behind the ones there are. -/
theorem Stepped.keys_prefix {k : StateKey} {r : Except EvalError α × EvalState N}
    (hf : ∀ e, (f e).entry.key = e.key) (h : Stepped A st k f r) : st.keys <+: r.2.keys := by
  cases h with
  | failed _ _ items =>
    rw [EvalState.keys, EvalState.keys, items]
  | @old st' j e _ hj _ items =>
    have hset : st'.keys = (setSlot st j (f e).entry).keys := congrArg (List.map _) items
    rw [hset, keys_setSlot]
    rw [slotAt_of_getElem? hj]
    exact hf e
  | new _ _ items =>
    rw [EvalState.keys, EvalState.keys, items, List.map_append]
    exact List.prefix_append _ _

theorem RuleOk.slotStep (h : RuleOk i subjects st) (hop : op ∈ slotOps) (hs : s ∈ subjects)
    (hf : ∀ e, (f e).entry.key = e.key) :
    RuleOk i subjects (slotStep A ⟨i, op, s⟩ f st).2 ∧
      st.keys <+: (slotStep A ⟨i, op, s⟩ f st).2.keys ∧
      (∀ s' ≠ s, slotsFor s' (slotStep A ⟨i, op, s⟩ f st).2 = slotsFor s' st) ∧
      ((∀ site, A site = true) → FewSubjects subjects →
        SlotsAfter st ⟨i, op, s⟩ f (slotStep A ⟨i, op, s⟩ f st)) := by
  have hstep := h.indexed.slotStep A ⟨i, op, s⟩ hf
  have hfound := fun hfew hA => h.indexed.found_isSome (A := A) (h.small hfew) hA ⟨i, op, s⟩
  have hkeyOk : ∀ {e : StateEntry N}, e.key = ⟨i, op, s⟩ →
      e.ruleId = i ∧ e.op ∈ slotOps ∧ e.subject ∈ subjects := by
    intro e hkey
    rw [StateEntry.key, StateKey.mk.injEq] at hkey
    rw [hkey.1, hkey.2.1, hkey.2.2]
    exact ⟨rfl, hop, hs⟩
  have hgrown := hstep.keys_prefix hf
  generalize Patchbay.slotStep A ⟨i, op, s⟩ f st = r at hstep hgrown ⊢
  cases hstep with
  | failed hmemory hindexed hitems =>
    refine ⟨⟨hindexed, ?_⟩, hgrown, fun s' _ => ?_, fun hA hfew => ?_⟩
    · rw [hitems]
      exact h.keys
    · rw [slotsFor, slotsFor, hitems]
    · have := hfound hfew hA
      rw [hmemory] at this
      exact absurd this (by decide)
  | @old st' j e hindexed hj hkey hitems =>
    have hentry : (f e).entry.key = ⟨i, op, s⟩ := (hf e).trans hkey
    rw [set_eq_map h.indexed.nodup hj, hkey] at hitems
    refine ⟨⟨hindexed, ?_⟩, hgrown, fun s' hne => ?_, fun _ _ =>
      .old (List.mem_of_getElem? hj) hkey hitems⟩
    · intro x hx
      rw [hitems] at hx
      obtain ⟨y, hy, rfl⟩ := List.mem_map.mp hx
      rw [replaceKey]
      split_ifs
      · exact hkeyOk hentry
      · exact h.keys y hy
    · rw [slotsFor, hitems, filter_map_replaceKey hentry]
      exact map_replaceKey_slotsFor hne.symm _
  | new hindexed hfresh hitems =>
    have hentry : (f (freshEntry ⟨i, op, s⟩)).entry.key = ⟨i, op, s⟩ := hf _
    refine ⟨⟨hindexed, ?_⟩, hgrown, fun s' hne => ?_, fun _ _ => .new ?_ hitems⟩
    · intro x hx
      rw [hitems] at hx
      rcases List.mem_append.mp hx with hx | hx
      · exact h.keys x hx
      · rw [List.mem_singleton.mp hx]
        exact hkeyOk hentry
    · have hsubject : (f (freshEntry ⟨i, op, s⟩)).entry.subject = s :=
        congrArg StateKey.subject hentry
      rw [slotsFor, hitems, List.filter_append]
      simp [slotsFor, hsubject, hne.symm]
    · intro e he hkey
      exact hfresh (hkey ▸ List.mem_map_of_mem he)

/-- Equal slots for a subject make a step for that subject the same. -/
theorem SlotsAfter.agree {st' : EvalState N} {r r' : Except EvalError α × EvalState N}
    (hnodup' : (st'.items.map StateEntry.key).Nodup) (hf : ∀ e, (f e).entry.key = e.key)
    (heq : slotsFor s st = slotsFor s st') (h : SlotsAfter st ⟨i, op, s⟩ f r)
    (h' : SlotsAfter st' ⟨i, op, s⟩ f r') : r.1 = r'.1 ∧ slotsFor s r.2 = slotsFor s r'.2 := by
  have hmem : ∀ {e : StateEntry N}, e.key = ⟨i, op, s⟩ → (e ∈ st.items ↔ e ∈ st'.items) := by
    intro e hkey
    have hsubject : (e.subject == s) = true := by
      rw [beq_iff_eq]
      exact congrArg StateKey.subject hkey
    have hiff : e ∈ slotsFor s st ↔ e ∈ slotsFor s st' := by rw [heq]
    simpa [slotsFor, hsubject] using hiff
  cases h with
  | @old st₁ e he hkey hitems =>
    cases h' with
    | @old st₁' e' he' hkey' hitems' =>
      obtain rfl : e = e' :=
        List.inj_on_of_nodup_map hnodup' ((hmem hkey).mp he) he' (hkey.trans hkey'.symm)
      refine ⟨rfl, ?_⟩
      have hentry : (f e).entry.key = ⟨i, op, s⟩ := (hf e).trans hkey
      rw [slotsFor, slotsFor, hitems, hitems', filter_map_replaceKey hentry,
        filter_map_replaceKey hentry]
      exact congrArg _ heq
    | new hfresh' _ => exact absurd hkey (hfresh' e ((hmem hkey).mp he))
  | new hfresh hitems =>
    cases h' with
    | old he' hkey' _ => exact absurd hkey' (hfresh _ ((hmem hkey').mpr he'))
    | new hfresh' hitems' =>
      refine ⟨rfl, ?_⟩
      rw [slotsFor, slotsFor, hitems, hitems', List.filter_append, List.filter_append]
      exact congrArg (· ++ _) heq

/-- A step on a slot that is there. -/
theorem RuleOk.stepAt (h : RuleOk i subjects st) (hf : ∀ e, (f e).entry.key = e.key) {j : ℕ}
    {e : StateEntry N} (hj : st.items[j]? = some e) :
    RuleOk i subjects (stepAt f j st).2 ∧ (stepAt f j st).2.keys = st.keys ∧
      slotsFor s (stepAt f j st).2 = (slotsFor s st).map (replaceKey e.key (f e).entry) := by
  have hslot := slotAt_of_getElem? hj
  have hkey : (f (slotAt st j)).entry.key = (slotAt st j).key := hf _
  have hitems : (Patchbay.stepAt f j st).2.items =
      st.items.map (replaceKey e.key (f e).entry) := by
    rw [Patchbay.stepAt, hslot]
    exact set_eq_map h.indexed.nodup hj _
  refine ⟨⟨h.indexed.setSlot hkey, ?_⟩, keys_setSlot hkey, ?_⟩
  · intro x hx
    rw [hitems] at hx
    obtain ⟨y, hy, rfl⟩ := List.mem_map.mp hx
    rw [replaceKey]
    split_ifs
    · have hsame := hf e
      rw [StateEntry.key, StateEntry.key, StateKey.mk.injEq] at hsame
      rw [hsame.1, hsame.2.1, hsame.2.2]
      exact h.keys e (List.mem_of_getElem? hj)
    · exact h.keys y hy
  · rw [slotsFor, hitems, filter_map_replaceKey (hf e)]
    rfl

end Step

/-! ## Two machines -/

section Two

/-- A machine that runs the given rules, its rule `i` evaluated for the given
subjects. -/
structure Tracked (rules : List (RuleSource N)) (usesClock : Bool) (i : ℕ) (subjects : List Bytes)
    (m : Machine N Journal) : Prop where
  source : m.program.source = (loadProgram rules usesClock).source
  rule : RuleOk i subjects (m.ruleState i)

variable (readJson : Bytes → Option (Json N)) (rewritten : Bytes → Bytes → Bytes)
  (drawn : ℕ → Bytes → Bytes → TextOrigin × TextOrigin) (fuel : ℕ)
  {rules rules' : List (RuleSource N)}
  {usesClock usesClock' : Bool} {i : ℕ} {s : Bytes} {subjects subjects' : List Bytes}

/-- Both run the given rules. -/
def Sources (rules rules' : List (RuleSource N)) (usesClock usesClock' : Bool)
    (p p' : Program N) : Prop :=
  p = (loadProgram rules usesClock).source ∧ p' = (loadProgram rules' usesClock').source

/-- The same state; that of rule `i` still has the given slots for a subject, and
has grown from the given keys. -/
def Apart (i : ℕ) (s : Bytes) (subjects : List Bytes) (held : List (StateEntry N))
    (old : List StateKey) (j : ℕ) (st st' : EvalState N) : Prop :=
  st = st' ∧ (j = i → RuleOk i subjects st ∧ old <+: st.keys ∧ slotsFor s st = held)

/-- States of rule `i` with the same slots for a subject. -/
def Alike (i : ℕ) (s : Bytes) (subjects subjects' : List Bytes) (old old' : List StateKey)
    (j : ℕ) (st st' : EvalState N) : Prop :=
  j = i → RuleOk i subjects st ∧ RuleOk i subjects' st' ∧ old <+: st.keys ∧ old' <+: st'.keys ∧
    slotsFor s st = slotsFor s st'

/-- The same has been published since. -/
def SameSince (base base' w w' : Journal) : Prop := ∃ l, w = base ++ l ∧ w' = base' ++ l

theorem linkOk_apart {held : List (StateEntry N)} {old : List StateKey} (base : Journal) :
    LinkOk (journalEnv readJson rewritten drawn fuel) (fun j s' _ => j = i → s' ∈ subjects ∧ s' ≠ s)
      (Sources rules rules usesClock usesClock) (Apart i s subjects held old)
      (fun w w' => w = w' ∧ base <+: w) where
  places := by
    rintro p p' ⟨rfl, rfl⟩ j _
    exact Iff.rfl
  slots := by
    rintro j s' now hscope α op f hform st _ ⟨rfl, hst⟩
    refine ⟨rfl, rfl, ?_⟩
    rintro rfl
    obtain ⟨hrule, hold, hheld⟩ := hst rfl
    obtain ⟨hmem, hne⟩ := hscope rfl
    obtain ⟨hrule', hgrown, hother, -⟩ :=
      hrule.slotStep (A := (journalEnv readJson rewritten drawn fuel).alloc) hform.op_mem hmem hform.key
    exact ⟨hrule', hold.trans hgrown, (hother s hne.symm).trans hheld⟩
  route := by
    rintro subject payload w _ ⟨rfl, hbase⟩
    exact ⟨rfl, rfl, hbase.trans (List.prefix_append _ _)⟩

theorem linkOk_alike {old old' : List StateKey} {src : RuleSource N} (hi : rules[i]? = some src)
    (hi' : rules'[i]? = some src) (hs : s ∈ subjects) (hs' : s ∈ subjects')
    (hfew : FewSubjects subjects) (hfew' : FewSubjects subjects') (base base' : Journal) :
    LinkOk (journalEnv readJson rewritten drawn fuel) (fun j s' _ => j = i ∧ s' = s)
      (Sources rules rules' usesClock usesClock') (Alike i s subjects subjects' old old')
      (SameSince base base') where
  places := by
    rintro p p' ⟨rfl, rfl⟩ j ⟨_, _, rfl, _⟩
    have hlt := (List.getElem?_eq_some_iff.mp hi).1
    have hlt' := (List.getElem?_eq_some_iff.mp hi').1
    simp [length_source, loadProgram, hlt, hlt']
  slots := by
    rintro j s' now ⟨rfl, rfl⟩ α op f hform st st' hst
    obtain ⟨hrule, hrule', hold, hold', hsame⟩ := hst rfl
    obtain ⟨hnext, hgrown, -, hafter⟩ :=
      hrule.slotStep (A := (journalEnv readJson rewritten drawn fuel).alloc) hform.op_mem hs hform.key
    obtain ⟨hnext', hgrown', -, hafter'⟩ :=
      hrule'.slotStep (A := (journalEnv readJson rewritten drawn fuel).alloc) hform.op_mem hs' hform.key
    obtain ⟨hresult, hslots⟩ := (hafter (fun _ => rfl) hfew).agree hrule'.indexed.nodup hform.key
      hsame (hafter' (fun _ => rfl) hfew')
    exact ⟨hresult, fun _ => ⟨hnext, hnext', hold.trans hgrown, hold'.trans hgrown', hslots⟩⟩
  route := by
    rintro subject payload w w' ⟨l, rfl, rfl⟩
    exact ⟨rfl, l ++ [(subject, payload)], List.append_assoc _ _ _, List.append_assoc _ _ _⟩

end Two

end Monoblok.Patchbay
