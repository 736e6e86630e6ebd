import Monoblok.Patchbay.Isolation
import Monoblok.Patchbay.Whole

/-!
# Two runs of a rule

Two programs have a rule in common, at the same place, and two runs have the
messages on a subject in common. What the rule publishes for the subject is the
same in both: calls for other rules or subjects pass its slots by, and a call
for the rule and the subject finds the same slots in both.
-/

namespace Monoblok.Patchbay

open Relational Trace

variable {N : Type} [Number N]

/-! ## Rules that are not reentrant -/

/-- No rule evaluates what it publishes. -/
def NoReentry (rules : List (RuleSource N)) : Prop := ∀ r ∈ rules, r.reentrant = false

section Plain

variable {W : Type} {env : Env N W} {scope : ℕ → Bytes → UInt64 → Prop}
  {R : Machine N W → Machine N W → Prop} (hR : EvalCompatible env scope R) (t : Moment)
  {again : Slice → Slice → MachineM N W Bool}

include hR in
theorem respects_ruleEval {x : RuleSource N × ℕ} (hplain : x.1.reentrant = false) {subject : Bytes}
    (hs : scope x.2 subject t.nowMs) (payload : Bytes) :
    Respects R (ruleEval env t again (.held subject) (.held payload) x) := by
  have ha : x.1.reentrant = true → AgainOk R again := by
    intro h
    rw [hplain] at h
    cases h
  exact respects_succeeds (respects_eval hR (ctxOk_held hR t ha hs payload) _ _)

include hR in
theorem respects_finishTick_plain {j : ℕ} {subject : Bytes} (hs : scope j subject t.nowMs)
    (depth : ℕ) {slot : StateKey} (hlends : Lends R slot)
    (a : Fired N ⊕ Option (StateEntry.BarClose N)) :
    Respects R (finishTick depth (tickCtx env t j false subject) slot a).run := by
  have hctx : CtxOk env scope R (tickCtx env t j false subject) :=
    ctxOk_held hR t (fun h => absurd h (by decide)) hs []
  exact respects_finishTick hR hctx depth hlends a

end Plain

variable {readJson : Bytes → Option (Json N)} {rewritten : Bytes → Bytes → Bytes}
  {drawn : ℕ → Bytes → Bytes → TextOrigin × TextOrigin} {fuel : ℕ}
  {rules rules' : List (RuleSource N)}
  {usesClock usesClock' : Bool} {i : ℕ} {s : Bytes} {subjects subjects' : List Bytes}

/-! ## Calls for other rules or subjects -/

/-- A machine after calls that are not for rule `i` and the subject. -/
structure Passed (rules : List (RuleSource N)) (usesClock : Bool) (i : ℕ) (s : Bytes)
    (subjects : List Bytes) (m m' : Machine N Journal) : Prop where
  tracked : Tracked rules usesClock i subjects m'
  keys : (m.ruleState i).keys <+: (m'.ruleState i).keys
  slots : slotsFor s (m'.ruleState i) = slotsFor s (m.ruleState i)
  world : m.world <+: m'.world

section Passing

variable {m m' m'' : Machine N Journal}

omit [Number N] in
theorem Passed.refl (h : Tracked rules usesClock i subjects m) :
    Passed rules usesClock i s subjects m m :=
  ⟨h, List.prefix_refl _, rfl, List.prefix_refl _⟩

omit [Number N] in
theorem Passed.trans (h : Passed rules usesClock i s subjects m m')
    (h' : Passed rules usesClock i s subjects m' m'') : Passed rules usesClock i s subjects m m'' :=
  ⟨h'.tracked, h.keys.trans h'.keys, h'.slots.trans h.slots, h.world.trans h'.world⟩

/-- The relation between a machine and itself that calls for others keep. -/
abbrev Aside (rules : List (RuleSource N)) (usesClock : Bool) (i : ℕ) (s : Bytes)
    (subjects : List Bytes) (m : Machine N Journal) :
    Machine N Journal → Machine N Journal → Prop :=
  Linked (Sources rules rules usesClock usesClock)
    (Apart i s subjects (slotsFor s (m.ruleState i)) (m.ruleState i).keys)
    fun w w' => w = w' ∧ m.world <+: w

omit [Number N] in
theorem aside_self (h : Tracked rules usesClock i subjects m) :
    Aside rules usesClock i s subjects m m m where
  source := ⟨h.source, h.source⟩
  states := by
    intro j
    refine ⟨rfl, ?_⟩
    rintro rfl
    exact ⟨h.rule, List.prefix_refl _, rfl⟩
  world := ⟨rfl, List.prefix_refl _⟩

omit [Number N] in
theorem passed_of_aside (h : Aside rules usesClock i s subjects m m' m') :
    Passed rules usesClock i s subjects m m' := by
  obtain ⟨hrule, hkeys, hslots⟩ := (h.states i).2 rfl
  exact ⟨⟨h.source.1, hrule⟩, hkeys, hslots, h.world.2⟩

theorem compatible_aside (m : Machine N Journal) :
    EvalCompatible (journalEnv readJson rewritten drawn fuel) (fun j s' _ => j = i → s' ∈ subjects ∧ s' ≠ s)
      (Aside rules usesClock i s subjects m) :=
  (linkOk_apart readJson rewritten drawn fuel m.world).evalCompatible

theorem evalRuleForPublish_missing {W : Type} {env : Env N W} {t : Moment}
    {again : Slice → Slice → MachineM N W Bool} {subject : Slice} {m : Machine N W} {j : ℕ}
    (hj : m.program.rules.length ≤ j) (payload : Slice) :
    evalRuleForPublish env t again subject payload j m = some (true, m) :=
  evalRuleForPublish_none (List.getElem?_eq_none hj)

omit [Number N] in
theorem Tracked.length (h : Tracked rules usesClock i subjects m) :
    m.program.rules.length = rules.length := by
  rw [← length_source, h.source, length_source, loadProgram, List.length_map]

theorem passed_evalRule (hplain : NoReentry rules) (hm : Tracked rules usesClock i subjects m)
    {t : Moment} {again : Slice → Slice → MachineM N Journal Bool} {subject payload : Bytes} {j : ℕ}
    (hother : j = i → subject ∈ subjects ∧ subject ≠ s) {ok : Bool}
    (hrun : evalRuleForPublish (journalEnv readJson rewritten drawn fuel) t again (.held subject)
      (.held payload) j m = some (ok, m')) : Passed rules usesClock i s subjects m m' := by
  cases hj : rules[j]? with
  | none =>
    rw [evalRuleForPublish_missing] at hrun
    · cases hrun
      exact .refl hm
    · rw [hm.length]
      exact List.getElem?_eq_none_iff.mp hj
  | some src =>
    rw [evalRuleForPublish_eq (sameSource_iff.mpr hm.source) hj] at hrun
    split_ifs at hrun
    · have hrespects : Respects (Aside rules usesClock i s subjects m)
          (ruleEval (journalEnv readJson rewritten drawn fuel) t again (.held subject) (.held payload)
            (src, j)) :=
        respects_ruleEval (compatible_aside m) t (hplain src (List.mem_of_getElem? hj)) hother payload
      exact passed_of_aside (hrespects.self (aside_self hm) hrun)
    · cases hrun
      exact .refl hm

theorem passed_tickSlot (hm : Tracked rules usesClock i subjects m) {t : Moment} {j k : ℕ}
    {e : StateEntry N} (hk : (m.ruleState j).items[k]? = some e) (hother : j = i → e.subject ≠ s)
    {ok : Bool}
    (hrun : succeeds (tickStateEntry fuel
      (tickCtx (journalEnv readJson rewritten drawn fuel) t j false e.subject) k) m = some (ok, m')) : Passed rules usesClock i s subjects m m' := by
  have hscope : j = i → e.subject ∈ subjects ∧ e.subject ≠ s := by
    rintro rfl
    exact ⟨(hm.rule.keys e (List.mem_of_getElem? hk)).2.2, hother rfl⟩
  have hstep : SameStep (Apart i s subjects (slotsFor s (m.ruleState i)) (m.ruleState i).keys j)
      (stepAt (tickEntry (journalEnv (N := N) readJson rewritten drawn fuel).alloc t.nowMs) k (m.ruleState j))
      (stepAt (tickEntry (journalEnv (N := N) readJson rewritten drawn fuel).alloc t.nowMs) k (m.ruleState j)) := by
    refine ⟨rfl, rfl, ?_⟩
    rintro rfl
    obtain ⟨hrule, hkeys, hslots⟩ := hm.rule.stepAt (s := s)
      (fun e => key_tickEntry (journalEnv (N := N) readJson rewritten drawn fuel).alloc t.nowMs e) hk
    refine ⟨hrule, by rw [hkeys], ?_⟩
    exact hslots.trans (map_replaceKey_slotsFor (hother rfl) _)
  exact passed_of_aside ((aside_self hm).tickSlot_self
    (tickCtx (journalEnv readJson rewritten drawn fuel) t j false e.subject) hstep
    (respects_finishTick_plain (compatible_aside m) t hscope fuel
      (lends_of_states (fun h j => (h.states j).1) _)) hrun)

end Passing

/-! ## Calls for the rule and the subject -/

/-- Two programs without re-entry that have rule `i` in common, evaluated for not
too many subjects, one of them the given one. -/
structure Shared (rules rules' : List (RuleSource N)) (i : ℕ) (src : RuleSource N) (s : Bytes)
    (subjects subjects' : List Bytes) : Prop where
  plain : NoReentry rules
  plain' : NoReentry rules'
  rule : rules[i]? = some src
  rule' : rules'[i]? = some src
  mem : s ∈ subjects
  mem' : s ∈ subjects'
  few : FewSubjects subjects
  few' : FewSubjects subjects'

/-- Machines whose rule `i` has the same slots for the subject. -/
structure InStep (rules : List (RuleSource N)) (usesClock : Bool) (rules' : List (RuleSource N))
    (usesClock' : Bool) (i : ℕ) (s : Bytes) (subjects subjects' : List Bytes)
    (m m' : Machine N Journal) : Prop where
  left : Tracked rules usesClock i subjects m
  right : Tracked rules' usesClock' i subjects' m'
  slots : slotsFor s (m.ruleState i) = slotsFor s (m'.ruleState i)

/-- Such machines after the same call for the rule and the subject. -/
structure Together (rules : List (RuleSource N)) (usesClock : Bool) (rules' : List (RuleSource N))
    (usesClock' : Bool) (i : ℕ) (s : Bytes) (subjects subjects' : List Bytes)
    (m m' m₁ m₁' : Machine N Journal) : Prop extends
    InStep rules usesClock rules' usesClock' i s subjects subjects' m₁ m₁' where
  keys : (m.ruleState i).keys <+: (m₁.ruleState i).keys
  keys' : (m'.ruleState i).keys <+: (m₁'.ruleState i).keys
  world : SameSince m.world m'.world m₁.world m₁'.world

section Pairs

variable {src : RuleSource N} {m m' m₁ m₁' : Machine N Journal}

omit [Number N] in
theorem SameSince.refl (w w' : Journal) : SameSince w w' w w' :=
  ⟨[], (List.append_nil w).symm, (List.append_nil w').symm⟩

omit [Number N] in
theorem SameSince.drop {w w' w₁ w₁' : Journal} (h : SameSince w w' w₁ w₁') :
    w₁.drop w.length = w₁'.drop w'.length := by
  obtain ⟨l, rfl, rfl⟩ := h
  rw [List.drop_left, List.drop_left]

/-- The relation that calls for the rule and the subject keep. -/
abbrev Beside (rules : List (RuleSource N)) (usesClock : Bool) (rules' : List (RuleSource N))
    (usesClock' : Bool) (i : ℕ) (s : Bytes) (subjects subjects' : List Bytes)
    (m m' : Machine N Journal) : Machine N Journal → Machine N Journal → Prop :=
  Linked (Sources rules rules' usesClock usesClock')
    (Alike i s subjects subjects' (m.ruleState i).keys (m'.ruleState i).keys)
    (SameSince m.world m'.world)

omit [Number N] in
theorem InStep.beside (h : InStep rules usesClock rules' usesClock' i s subjects subjects' m m') :
    Beside rules usesClock rules' usesClock' i s subjects subjects' m m' m m' where
  source := ⟨h.left.source, h.right.source⟩
  states := by
    rintro j rfl
    exact ⟨h.left.rule, h.right.rule, List.prefix_refl _, List.prefix_refl _, h.slots⟩
  world := .refl _ _

omit [Number N] in
theorem together_of_beside
    (h : Beside rules usesClock rules' usesClock' i s subjects subjects' m m' m₁ m₁') :
    Together rules usesClock rules' usesClock' i s subjects subjects' m m' m₁ m₁' := by
  obtain ⟨hrule, hrule', hkeys, hkeys', hslots⟩ := h.states i rfl
  exact ⟨⟨⟨h.source.1, hrule⟩, ⟨h.source.2, hrule'⟩, hslots⟩, hkeys, hkeys', h.world⟩

theorem Shared.compatible (h : Shared rules rules' i src s subjects subjects')
    (m m' : Machine N Journal) :
    EvalCompatible (journalEnv readJson rewritten drawn fuel) (fun j s' _ => j = i ∧ s' = s)
      (Beside rules usesClock rules' usesClock' i s subjects subjects' m m') :=
  (linkOk_alike readJson rewritten drawn fuel h.rule h.rule' h.mem h.mem' h.few h.few' m.world
    m'.world).evalCompatible

theorem Shared.evalRule (h : Shared rules rules' i src s subjects subjects')
    (hm : InStep rules usesClock rules' usesClock' i s subjects subjects' m m') {t : Moment}
    {again : Slice → Slice → MachineM N Journal Bool} {payload : Bytes} {ok ok' : Bool}
    (hrun : evalRuleForPublish (journalEnv readJson rewritten drawn fuel) t again (.held s) (.held payload)
      i m = some (ok, m₁))
    (hrun' : evalRuleForPublish (journalEnv readJson rewritten drawn fuel) t again (.held s) (.held payload)
      i m' = some (ok', m₁')) :
    Together rules usesClock rules' usesClock' i s subjects subjects' m m' m₁ m₁' := by
  rw [evalRuleForPublish_eq (sameSource_iff.mpr hm.left.source) h.rule] at hrun
  rw [evalRuleForPublish_eq (sameSource_iff.mpr hm.right.source) h.rule'] at hrun'
  change (if subjectMatches src.filter s then _ else _) = _ at hrun hrun'
  split_ifs at hrun hrun'
  · have hrespects : Respects
        (Beside rules usesClock rules' usesClock' i s subjects subjects' m m')
        (ruleEval (journalEnv readJson rewritten drawn fuel) t again (.held s) (.held payload) (src, i)) :=
      respects_ruleEval (h.compatible m m') t (h.plain src (List.mem_of_getElem? h.rule))
        ⟨rfl, rfl⟩ payload
    exact together_of_beside ((hrespects _ _ hm.beside).ends hrun hrun')
  · cases hrun
    cases hrun'
    exact together_of_beside hm.beside

omit [Number N] in
theorem find?_slotsFor {st : EvalState N} {k : StateKey} (hsubject : k.subject = s) :
    (slotsFor s st).find? (fun e => e.key = k) = st.items.find? fun e => e.key = k := by
  rw [slotsFor, List.find?_filter]
  congr 1
  funext e
  by_cases hkey : e.key = k
  · have hs : e.subject = s := (congrArg StateKey.subject hkey).trans hsubject
    simp [hkey, hs]
  · simp [hkey]

omit [Number N] in
/-- The slots of the subject lend out the same in both runs. -/
theorem lends_beside {k : StateKey} (hrule : k.ruleId = i) (hsubject : k.subject = s) :
    Lends (Beside rules usesClock rules' usesClock' i s subjects subjects' m m') k := by
  intro buffer within text m₂ m₂' h
  obtain ⟨-, -, -, -, hslots⟩ := h.states i rfl
  simp only [Machine.lender, Machine.slotOf, hrule, ← find?_slotsFor hsubject, hslots]

theorem Shared.tickSlot (h : Shared rules rules' i src s subjects subjects')
    (hm : InStep rules usesClock rules' usesClock' i s subjects subjects' m m') {t : Moment}
    {k k' : ℕ} {e : StateEntry N} (hk : (m.ruleState i).items[k]? = some e)
    (hk' : (m'.ruleState i).items[k']? = some e) (hsubject : e.subject = s) {ok ok' : Bool}
    (hrun : succeeds (tickStateEntry fuel (tickCtx (journalEnv readJson rewritten drawn fuel) t i false s) k)
      m = some (ok, m₁))
    (hrun' : succeeds (tickStateEntry fuel (tickCtx (journalEnv readJson rewritten drawn fuel) t i false s) k')
      m' = some (ok', m₁')) :
    Together rules usesClock rules' usesClock' i s subjects subjects' m m' m₁ m₁' := by
  have hkey := fun e : StateEntry N => key_tickEntry (journalEnv (N := N) readJson rewritten drawn fuel).alloc t.nowMs e
  have hstep : SameStep
      (Alike i s subjects subjects' (m.ruleState i).keys (m'.ruleState i).keys i)
      (stepAt (tickEntry (journalEnv (N := N) readJson rewritten drawn fuel).alloc t.nowMs) k (m.ruleState i))
      (stepAt (tickEntry (journalEnv (N := N) readJson rewritten drawn fuel).alloc t.nowMs) k' (m'.ruleState i)) := by
    obtain ⟨hrule, hkeys, hslots⟩ := hm.left.rule.stepAt (s := s) hkey hk
    obtain ⟨hrule', hkeys', hslots'⟩ := hm.right.rule.stepAt (s := s) hkey hk'
    refine ⟨?_, fun _ => ⟨hrule, hrule', by rw [hkeys], by rw [hkeys'], ?_⟩⟩
    · rw [stepAt, stepAt, slotAt_of_getElem? hk, slotAt_of_getElem? hk']
    · rw [hslots, hslots', hm.slots]
  have hrule : e.ruleId = i := (hm.left.rule.keys e (List.mem_of_getElem? hk)).1
  have hlength : ∀ {m : Machine N Journal} {rules : List (RuleSource N)} {usesClock : Bool}
      {subjects : List Bytes}, Tracked rules usesClock i subjects m → rules[i]? = some src →
        i < m.program.rules.length := by
    intro m rules usesClock subjects htracked hrule
    rw [htracked.length]
    exact (List.getElem?_eq_some_iff.mp hrule).1
  have hagree : Agree (Beside rules usesClock rules' usesClock' i s subjects subjects' m m')
      ((tickStateEntry fuel (tickCtx (journalEnv readJson rewritten drawn fuel) t i false s) k).run m)
      ((tickStateEntry fuel (tickCtx (journalEnv readJson rewritten drawn fuel) t i false s) k').run m') :=
    hm.beside.tickSlot (tickCtx (journalEnv readJson rewritten drawn fuel) t i false s)
      ⟨fun _ => hlength hm.right h.rule', fun _ => hlength hm.left h.rule⟩ hstep
      (congrArg StateEntry.key (slotAt_of_getElem? hk))
      (congrArg StateEntry.key (slotAt_of_getElem? hk'))
      (respects_finishTick_plain (h.compatible m m') t ⟨rfl, rfl⟩ fuel
        (lends_beside hrule hsubject))
  exact together_of_beside ((agree_succeeds hagree).ends hrun hrun')

end Pairs

/-! ## The slots of a tick -/

section Emissions

variable {calls calls' : List (Call N)}

omit [Number N] in
theorem emissions_append (i : ℕ) (s : Bytes) (calls calls' : List (Call N)) :
    emissions i s (calls ++ calls') = emissions i s calls ++ emissions i s calls' := by
  rw [emissions, List.filter_append, List.flatMap_append]
  rfl

omit [Number N] in
theorem emissions_cons_other {c : Call N} (hother : c.rule = i → c.subject ≠ s)
    (calls : List (Call N)) : emissions i s (c :: calls) = emissions i s calls := by
  have hfalse : (c.rule == i && c.subject == s) = false := by
    rw [Bool.and_eq_false_iff, beq_eq_false_iff_ne, beq_eq_false_iff_ne]
    by_cases hrule : c.rule = i
    · exact .inr (hother hrule)
    · exact .inl hrule
  rw [emissions, List.filter_cons, if_neg (by rw [hfalse]; decide)]
  rfl

omit [Number N] in
/-- Two calls for the rule and the subject that publish the same. -/
theorem emissions_cons_alike {s' : Bytes} (hs : s' = s) {m m' m₁ m₁' : Machine N Journal}
    (hworld : SameSince m.world m'.world m₁.world m₁'.world)
    (hsame : emissions i s calls = emissions i s calls') :
    emissions i s (⟨i, s', m, m₁⟩ :: calls) = emissions i s (⟨i, s', m', m₁'⟩ :: calls') := by
  have hcons : ∀ (m m₁ : Machine N Journal) (calls : List (Call N)),
      emissions i s (⟨i, s', m, m₁⟩ :: calls) =
        m₁.world.drop m.world.length ++ emissions i s calls := by
    intro m m₁ calls
    rw [emissions, List.filter_cons, if_pos (by simp [hs]), List.flatMap_cons]
    rfl
  rw [hcons, hcons, hworld.drop, hsame]

end Emissions

/-- How many of the first `k` slots are for the subject. -/
def ticked (s : Bytes) (k : ℕ) (st : EvalState N) : ℕ :=
  (st.keys.take k).countP fun key => key.subject == s

section Ticked

variable {st st' : EvalState N} {k : ℕ} {e : StateEntry N}

omit [Number N] in
theorem ticked_succ (h : st.items[k]? = some e) (hgrown : st.keys <+: st'.keys) :
    ticked s (k + 1) st' = ticked s k st + if e.subject = s then 1 else 0 := by
  obtain ⟨l, hl⟩ := hgrown
  have hlt : k < st.keys.length := by
    rw [EvalState.keys, List.length_map]
    exact (List.getElem?_eq_some_iff.mp h).1
  have hkey : st.keys[k] = e.key := by
    have hget : st.keys[k]? = some e.key := by rw [EvalState.keys, List.getElem?_map, h]; rfl
    exact (List.getElem?_eq_some_iff.mp hget).2
  rw [ticked, ticked, ← hl, List.take_append_of_le_length hlt, List.take_add_one,
    List.countP_append, List.getElem?_eq_getElem hlt, hkey]
  by_cases hs : e.subject = s
  · simp [hs, StateEntry.key]
  · simp [hs, StateEntry.key]

omit [Number N] in
theorem ticked_eq_length (st : EvalState N) (k : ℕ) :
    ticked s k st = ((st.items.take k).filter fun e => e.subject == s).length := by
  rw [ticked, EvalState.keys, ← List.map_take, List.countP_map, List.countP_eq_length_filter]
  rfl

omit [Number N] in
/-- A slot for the subject is found by the number of those before it. -/
theorem slotsFor_ticked (h : st.items[k]? = some e) (hs : e.subject = s) :
    (slotsFor s st)[ticked s k st]? = some e := by
  have hsplit : slotsFor s st = ((st.items.take k).filter fun e => e.subject == s) ++
      e :: (st.items.drop (k + 1)).filter fun e => e.subject == s := by
    obtain ⟨hlt, hget⟩ := List.getElem?_eq_some_iff.mp h
    conv_lhs => rw [slotsFor, ← List.take_append_drop k st.items, List.drop_eq_getElem_cons hlt, hget]
    rw [List.filter_append, List.filter_cons, if_pos (by simpa using hs)]
  rw [hsplit, ticked_eq_length, List.getElem?_append_right le_rfl, Nat.sub_self]
  rfl

omit [Number N] in
theorem ticked_of_end (h : st.items[k]? = none) : ticked s k st = (slotsFor s st).length := by
  rw [ticked_eq_length, List.take_of_length_le (List.getElem?_eq_none_iff.mp h)]
  rfl

end Ticked

/-- The calls of a tick from a slot on: none behind the last slot, else the tick of
the slot and the calls from the next one on. -/
inductive SlotRun (env : Env N Journal) (t : Moment) (j : ℕ) (fuel k : ℕ)
    (m : Machine N Journal) : List (Call N) → Machine N Journal → Prop
  | done (h : (m.ruleState j).items[k]? = none) : SlotRun env t j fuel k m [] m
  | step {e : StateEntry N} {ok : Bool} {m₁ m₂ : Machine N Journal} {rest : List (Call N)}
      (slot : (m.ruleState j).items[k]? = some e)
      (call : succeeds (tickStateEntry env.fuel (tickCtx env t j false e.subject) k) m =
        some (ok, m₁))
      (next : slotCalls env t j false fuel (k + 1) m₁ = some (rest, m₂)) :
      SlotRun env t j fuel k m (⟨j, e.subject, m, m₁⟩ :: rest) m₂

theorem slotRun_of_slotCalls {env : Env N Journal} {t : Moment} {j left k : ℕ}
    {m m₁ : Machine N Journal} {calls : List (Call N)}
    (h : slotCalls env t j false (left + 1) k m = some (calls, m₁)) :
    SlotRun env t j left k m calls m₁ := by
  rw [slotCalls] at h
  split_ifs at h with hk
  · have hslot := List.getElem?_eq_getElem hk
    dsimp only at h
    rw [slotAt_of_getElem? hslot, Option.bind_eq_some_iff] at h
    obtain ⟨⟨ok, m₂⟩, hcall, hnext⟩ := h
    obtain ⟨⟨rest, m₃⟩, hrest, heq⟩ := Option.map_eq_some_iff.mp hnext
    cases heq
    exact .step hslot hcall hrest
  · cases h
    exact .done (List.getElem?_eq_none (by omega))

section SlotCalls

variable {t : Moment} {m m' m₁ m₁' : Machine N Journal} {calls calls' : List (Call N)}

theorem passed_slotCalls {j : ℕ} (hj : j ≠ i) {left k : ℕ}
    (hm : Tracked rules usesClock i subjects m)
    (hrun : slotCalls (journalEnv readJson rewritten drawn fuel) t j false left k m = some (calls, m₁)) :
    Passed rules usesClock i s subjects m m₁ ∧ emissions i s calls = [] := by
  induction left generalizing k m calls with
  | zero => cases hrun
  | succ left ih =>
    cases slotRun_of_slotCalls hrun with
    | done => exact ⟨.refl hm, rfl⟩
    | step hslot hcall hnext =>
      have hpassed := passed_tickSlot (s := s) hm hslot (fun h => absurd h hj) hcall
      obtain ⟨hrest, hquiet⟩ := ih hpassed.tracked hnext
      exact ⟨hpassed.trans hrest, (emissions_cons_other (fun h => absurd h hj) _).trans hquiet⟩

/-- The calls from the next slot for the subject on. -/
structure Advanced (readJson : Bytes → Option (Json N)) (rewritten : Bytes → Bytes → Bytes)
    (drawn : ℕ → Bytes → Bytes → TextOrigin × TextOrigin) (fuel : ℕ) (rules : List (RuleSource N))
    (usesClock : Bool) (i : ℕ) (s : Bytes) (subjects : List Bytes) (t : Moment) (left k : ℕ)
    (m : Machine N Journal) (calls : List (Call N)) (m₁ : Machine N Journal) (k₂ : ℕ)
    (m₂ : Machine N Journal) (calls₂ : List (Call N)) : Prop where
  passed : Passed rules usesClock i s subjects m m₂
  place : ticked s k₂ (m₂.ruleState i) = ticked s k (m.ruleState i)
  quiet : emissions i s calls = emissions i s calls₂
  next : ∃ left₂ < left, SlotRun (journalEnv readJson rewritten drawn fuel) t i left₂ k₂ m₂ calls₂ m₁
  subject : ∀ e, (m₂.ruleState i).items[k₂]? = some e → e.subject = s

theorem exists_advanced {left k : ℕ} (hm : Tracked rules usesClock i subjects m)
    (hrun : slotCalls (journalEnv readJson rewritten drawn fuel) t i false left k m = some (calls, m₁)) :
    ∃ k₂ m₂ calls₂,
      Advanced readJson rewritten drawn fuel rules usesClock i s subjects t left k m calls m₁ k₂ m₂ calls₂ := by
  induction left generalizing k m calls with
  | zero => cases hrun
  | succ left ih =>
    have hslots := slotRun_of_slotCalls hrun
    by_cases hhere : ∀ e, (m.ruleState i).items[k]? = some e → e.subject = s
    · exact ⟨k, m, calls, .refl hm, rfl, rfl, ⟨left, Nat.lt_succ_self left, hslots⟩, hhere⟩
    · push Not at hhere
      obtain ⟨e, he, hne⟩ := hhere
      cases hslots with
      | done h =>
        rw [h] at he
        cases he
      | @step e' ok m₂ _ rest hslot hcall hnext =>
        rw [hslot, Option.some.injEq] at he
        subst he
        have hpassed := passed_tickSlot (s := s) hm hslot (fun _ => hne) hcall
        obtain ⟨k₃, m₃, calls₃, h⟩ := ih hpassed.tracked hnext
        refine ⟨k₃, m₃, calls₃, hpassed.trans h.passed, ?_, ?_, ?_, h.subject⟩
        · rw [h.place, ticked_succ hslot hpassed.keys, if_neg hne, Nat.add_zero]
        · exact (emissions_cons_other (fun _ => hne) _).trans h.quiet
        · obtain ⟨left₂, hlt, hrest⟩ := h.next
          exact ⟨left₂, by omega, hrest⟩

variable {src : RuleSource N}

omit [Number N] in
/-- Machines in step are in step after calls that are not for the rule and the
subject. -/
theorem InStep.passed (h : InStep rules usesClock rules' usesClock' i s subjects subjects' m m')
    (hp : Passed rules usesClock i s subjects m m₁)
    (hp' : Passed rules' usesClock' i s subjects' m' m₁') :
    InStep rules usesClock rules' usesClock' i s subjects subjects' m₁ m₁' :=
  ⟨hp.tracked, hp'.tracked, hp.slots.trans (h.slots.trans hp'.slots.symm)⟩

theorem Shared.slotCalls (h : Shared rules rules' i src s subjects subjects')
    {left left' k k' : ℕ}
    (hm : InStep rules usesClock rules' usesClock' i s subjects subjects' m m')
    (hplace : ticked s k (m.ruleState i) = ticked s k' (m'.ruleState i))
    (hrun : slotCalls (journalEnv readJson rewritten drawn fuel) t i false left k m = some (calls, m₁))
    (hrun' : slotCalls (journalEnv readJson rewritten drawn fuel) t i false left' k' m' = some (calls', m₁')) :
    InStep rules usesClock rules' usesClock' i s subjects subjects' m₁ m₁' ∧
      emissions i s calls = emissions i s calls' := by
  induction left using Nat.strong_induction_on generalizing left' k k' m m' calls calls' with
  | _ left ih =>
    obtain ⟨k₂, m₂, calls₂, hp⟩ := exists_advanced (s := s) hm.left hrun
    obtain ⟨k₂', m₂', calls₂', hp'⟩ := exists_advanced (s := s) hm.right hrun'
    have hm₂ := hm.passed hp.passed hp'.passed
    have hplace₂ : ticked s k₂ (m₂.ruleState i) = ticked s k₂' (m₂'.ruleState i) :=
      hp.place.trans (hplace.trans hp'.place.symm)
    obtain ⟨left₂, hlt, hslots⟩ := hp.next
    obtain ⟨left₂', -, hslots'⟩ := hp'.next
    rw [hp.quiet, hp'.quiet]
    cases hslots with
    | done hend =>
      cases hslots' with
      | done _ => exact ⟨hm₂, rfl⟩
      | step hslot' =>
        have hfound := slotsFor_ticked hslot' (hp'.subject _ hslot')
        rw [← hplace₂, ticked_of_end hend, hm₂.slots, List.getElem?_eq_none le_rfl] at hfound
        cases hfound
    | @step e _ m₃ _ rest hslot hcall hnext =>
      have hsubject := hp.subject _ hslot
      have hfound := slotsFor_ticked hslot hsubject
      cases hslots' with
      | done hend' =>
        rw [hplace₂, ticked_of_end hend', hm₂.slots, List.getElem?_eq_none le_rfl] at hfound
        cases hfound
      | @step e' _ m₃' _ rest' hslot' hcall' hnext' =>
        have hsubject' := hp'.subject _ hslot'
        have hfound' := slotsFor_ticked hslot' hsubject'
        rw [hplace₂, hm₂.slots, hfound', Option.some.injEq] at hfound
        subst hfound
        rw [hsubject'] at hcall hcall'
        have htogether := h.tickSlot hm₂ hslot hslot' hsubject' hcall hcall'
        have hplace₃ : ticked s (k₂ + 1) (m₃.ruleState i) = ticked s (k₂' + 1) (m₃'.ruleState i) := by
          rw [ticked_succ hslot htogether.keys, ticked_succ hslot' htogether.keys', hplace₂]
        obtain ⟨hend, hsame⟩ := ih left₂ hlt htogether.toInStep hplace₃ hnext hnext'
        exact ⟨hend, emissions_cons_alike hsubject' htogether.world hsame⟩

end SlotCalls

/-! ## Events -/

section Lists

variable {m m' m₁ : Machine N Journal} {calls : List (Call N)} {α : Type}
  {f : α → Machine N Journal → Option (List (Call N) × Machine N Journal)}

omit [Number N] in
theorem observer_emissions (i : ℕ) (s : Bytes) :
    Observer (fun calls : List (Call N) => emissions i s calls) :=
  ⟨rfl, emissions_append i s⟩

omit [Number N] in
theorem passed_collect {as : List α}
    (h : ∀ a ∈ as, ∀ {m m₁ calls}, Tracked rules usesClock i subjects m →
      f a m = some (calls, m₁) → Passed rules usesClock i s subjects m m₁ ∧ emissions i s calls = [])
    (hm : Tracked rules usesClock i subjects m) (hrun : collect f as m = some (calls, m₁)) :
    Passed rules usesClock i s subjects m m₁ ∧ emissions i s calls = [] := by
  have hunseen : ∀ a ∈ as, UnseenLeft f (emissions i s)
      (fun m₁ (_ : Unit) => Passed rules usesClock i s subjects m m₁) a := by
    intro a ha m₁ _ calls m₂ hpassed hstep
    obtain ⟨hnext, hquiet⟩ := h a ha hpassed.tracked hstep
    exact ⟨hpassed.trans hnext, hquiet⟩
  exact collect_unseen (t := ()) (observer_emissions i s) hunseen (Passed.refl hm) hrun

theorem filter_beq_of_nodup {l : List ℕ} (h : l.Nodup) (a : ℕ) :
    l.filter (· == a) = if a ∈ l then [a] else [] := by
  rw [List.filter_beq, h.count]
  split_ifs <;> rfl

omit [Number N] in
/-- Whether rule `i` is looked at for a subject depends on its filter alone. -/
theorem ruleOrder_filter_self {src : RuleSource N} (hi : rules[i]? = some src)
    (hm : Tracked rules usesClock i subjects m) (subject : Bytes) :
    (ruleOrder m.program subject).filter (· == i) =
      if bucketOf src.filter == firstSubjectToken subject || bucketOf src.filter == none then [i]
      else [] := by
  rw [(sameSource_iff.mpr hm.source).ruleOrder, ruleOrder_eq_selected
    (indexOf_buildRuleIndex (rules.map RuleSource.filter)), filter_beq_of_nodup]
  · simp [mem_selected, hi]
  · exact (selected_sorted _ _).imp Nat.ne_of_lt

omit [Number N] in
theorem tick_rules (hplain : NoReentry rules) (hm : Tracked rules usesClock i subjects m) :
    (m.program.rules.zipIdx.map fun r => (r.2, r.1.reentrant)) =
      (List.range rules.length).map fun j => (j, false) := by
  rw [(sameSource_iff.mpr hm.source).reentrant]
  apply List.ext_getElem
  · simp [loadProgram]
  · intro n hn hn'
    have hlt : n < rules.length := by simpa [loadProgram] using hn
    simpa [loadProgram, RuleSource.load] using hplain rules[n] (List.getElem_mem hlt)

omit [Number N] in
theorem tick_rules_filter {n : ℕ} (hi : i < n) :
    ((List.range n).map fun j => (j, false)).filter (fun x => x.1 == i) = [(i, false)] := by
  have hfilter := filter_beq_of_nodup (List.nodup_range (n := n)) i
  rw [if_pos (List.mem_range.mpr hi)] at hfilter
  rw [List.filter_map]
  exact congrArg (List.map fun j => (j, false)) hfilter

end Lists

/-- Whether an event is to be the same in both runs: a tick, or a message on the
subject. -/
def Event.concerns (s : Bytes) : Event → Bool
  | .publish _ subject _ => subject == s
  | .tick _ => true

/-- The subjects of the messages of a run. -/
def eventSubjects (events : List Event) : List Bytes :=
  (events.filterMap fun
    | .publish _ subject _ => some subject
    | .tick _ => none).dedup

/-- An event whose message is on one of the subjects. -/
def Event.Within (subjects : List Bytes) (e : Event) : Prop :=
  ∀ t subject payload, e = .publish t subject payload → subject ∈ subjects

theorem within_of_mem {events : List Event} {e : Event} (he : e ∈ events) (s : Bytes) :
    e.Within (s :: eventSubjects events) := by
  rintro t subject payload rfl
  rw [eventSubjects, List.mem_cons, List.mem_dedup, List.mem_filterMap]
  exact .inr ⟨_, he, rfl⟩

section Events

variable {m m' m₁ m₁' : Machine N Journal} {calls calls' : List (Call N)} {src : RuleSource N}

theorem passed_ruleCall (hplain : NoReentry rules) {t : Moment}
    {again : Slice → Slice → MachineM N Journal Bool} {subject payload : Bytes} {j : ℕ}
    (hother : j = i → subject ∈ subjects ∧ subject ≠ s)
    (hm : Tracked rules usesClock i subjects m)
    (hrun : ruleCall (journalEnv readJson rewritten drawn fuel) t again subject payload j m = some (calls, m₁)) :
    Passed rules usesClock i s subjects m m₁ ∧ emissions i s calls = [] := by
  obtain ⟨⟨ok, m₂⟩, hcall, heq⟩ := Option.map_eq_some_iff.mp hrun
  cases heq
  exact ⟨passed_evalRule hplain hm hother hcall, emissions_cons_other (fun h => (hother h).2) []⟩

theorem passed_tickCalls {t : Moment} {x : ℕ × Bool} (hx : x.2 = false) (hne : x.1 ≠ i)
    (hm : Tracked rules usesClock i subjects m)
    (hrun : tickCalls (journalEnv readJson rewritten drawn fuel) t x m = some (calls, m₁)) :
    Passed rules usesClock i s subjects m m₁ ∧ emissions i s calls = [] := by
  rw [tickCalls, hx] at hrun
  exact passed_slotCalls hne hm hrun

/-- A message on another subject. -/
theorem passed_event (hplain : NoReentry rules) {e : Event} (hlow : e.concerns s = false)
    (hwithin : e.Within subjects) (hm : Tracked rules usesClock i subjects m)
    (hrun : eventCalls (journalEnv readJson rewritten drawn fuel) e m = some (calls, m₁)) :
    Passed rules usesClock i s subjects m m₁ ∧ emissions i s calls = [] := by
  cases e with
  | publish t subject payload =>
    have hother : subject ∈ subjects ∧ subject ≠ s :=
      ⟨hwithin t subject payload rfl, beq_eq_false_iff_ne.mp hlow⟩
    exact passed_collect (fun j _ {_ _ _} hm => passed_ruleCall hplain (fun _ => hother) hm) hm hrun
  | tick t => cases hlow

theorem Shared.ruleCall (h : Shared rules rules' i src s subjects subjects') {t : Moment}
    {again : Slice → Slice → MachineM N Journal Bool} {payload : Bytes} :
    SeenAlike (ruleCall (journalEnv readJson rewritten drawn fuel) t again s payload)
      (ruleCall (journalEnv readJson rewritten drawn fuel) t again s payload) (emissions i s) (emissions i s)
      (InStep rules usesClock rules' usesClock' i s subjects subjects') i := by
  intro m m' calls m₁ calls' m₁' hm hrun hrun'
  obtain ⟨⟨ok, m₂⟩, hcall, heq⟩ := Option.map_eq_some_iff.mp hrun
  obtain ⟨⟨ok', m₂'⟩, hcall', heq'⟩ := Option.map_eq_some_iff.mp hrun'
  cases heq
  cases heq'
  have htogether := h.evalRule hm hcall hcall'
  exact ⟨htogether.toInStep, emissions_cons_alike rfl htogether.world rfl⟩

/-- An event that is the same in both runs. -/
theorem Shared.event (h : Shared rules rules' i src s subjects subjects') {e : Event}
    (hlow : e.concerns s = true) :
    SeenAlike (eventCalls (journalEnv readJson rewritten drawn fuel)) (eventCalls (journalEnv readJson rewritten drawn fuel))
      (emissions i s) (emissions i s)
      (InStep rules usesClock rules' usesClock' i s subjects subjects') e := by
  intro m m' calls m₁ calls' m₁' hm hrun hrun'
  cases e with
  | publish t subject payload =>
    obtain rfl : subject = s := beq_iff_eq.mp hlow
    refine collect_alike (fun j => j == i) (observer_emissions i subject)
      (observer_emissions i subject) ?_ ?_ ?_ ?_ hm hrun hrun'
    · intro j _ hj m m' calls m₁ hm hcall
      have hne : j = i → subject ∈ subjects ∧ subject ≠ subject :=
        fun heq => absurd heq (beq_eq_false_iff_ne.mp hj)
      obtain ⟨hpassed, hquiet⟩ := passed_ruleCall h.plain hne hm.left hcall
      exact ⟨hm.passed hpassed (.refl hm.right), hquiet⟩
    · intro j _ hj m m' calls m₁ hm hcall
      have hne : j = i → subject ∈ subjects' ∧ subject ≠ subject :=
        fun heq => absurd heq (beq_eq_false_iff_ne.mp hj)
      obtain ⟨hpassed, hquiet⟩ := passed_ruleCall h.plain' hne hm.right hcall
      exact ⟨hm.passed (.refl hm.left) hpassed, hquiet⟩
    · intro j _ hj
      obtain rfl : j = i := beq_iff_eq.mp hj
      exact h.ruleCall
    · rw [ruleOrder_filter_self h.rule hm.left, ruleOrder_filter_self h.rule' hm.right]
  | tick t =>
    have hlt := (List.getElem?_eq_some_iff.mp h.rule).1
    have hlt' := (List.getElem?_eq_some_iff.mp h.rule').1
    rw [eventCalls, tick_rules h.plain hm.left] at hrun
    rw [eventCalls, tick_rules h.plain' hm.right] at hrun'
    have hfalse : ∀ {n : ℕ} {x : ℕ × Bool}, x ∈ (List.range n).map (fun j => (j, false)) →
        x.2 = false := by
      intro n x hx
      obtain ⟨j, -, rfl⟩ := List.mem_map.mp hx
      rfl
    refine collect_alike (fun x : ℕ × Bool => x.1 == i) (observer_emissions i s)
      (observer_emissions i s) ?_ ?_ ?_ ?_ hm hrun hrun'
    · intro x hx hj m m' calls m₁ hm hcall
      obtain ⟨hpassed, hquiet⟩ :=
        passed_tickCalls (hfalse hx) (beq_eq_false_iff_ne.mp hj) hm.left hcall
      exact ⟨hm.passed hpassed (.refl hm.right), hquiet⟩
    · intro x hx hj m m' calls m₁ hm hcall
      obtain ⟨hpassed, hquiet⟩ :=
        passed_tickCalls (hfalse hx) (beq_eq_false_iff_ne.mp hj) hm.right hcall
      exact ⟨hm.passed (.refl hm.left) hpassed, hquiet⟩
    · rintro ⟨j, reentrant⟩ hx hj m m' calls m₁ calls' m₁' hm hcall hcall'
      obtain rfl : j = i := beq_iff_eq.mp hj
      obtain rfl : reentrant = false := hfalse hx
      exact h.slotCalls hm rfl hcall hcall'
    · rw [tick_rules_filter hlt, tick_rules_filter hlt']

end Events

/-! ## What the calls tell -/

section Telling

variable (readJson rewritten drawn fuel)

/-- The relation between a machine and itself that every evaluation keeps. -/
abbrev Growing (m : Machine N Journal) : Machine N Journal → Machine N Journal → Prop :=
  Linked (fun p p' => p = p') (fun _ st st' => st = st') fun w w' => w = w' ∧ m.world <+: w

theorem compatible_growing (m : Machine N Journal) :
    EvalCompatible (journalEnv readJson rewritten drawn fuel) (fun _ _ _ => True) (Growing m) := by
  have hlink : LinkOk (journalEnv (N := N) readJson rewritten drawn fuel) (fun _ _ _ => True)
      (fun p p' => p = p') (fun _ st st' => st = st') fun w w' => w = w' ∧ m.world <+: w := by
    refine ⟨?_, ?_, ?_⟩
    · rintro p _ rfl j _
      exact Iff.rfl
    · rintro j s now _ α op f _ st _ rfl
      exact ⟨rfl, rfl⟩
    · rintro subject payload w _ ⟨rfl, hgrown⟩
      exact ⟨rfl, rfl, hgrown.trans (List.prefix_append _ _)⟩
  exact hlink.evalCompatible

omit [Number N] in
theorem growing_self (m : Machine N Journal) : Growing m m m :=
  ⟨rfl, fun _ => rfl, rfl, List.prefix_refl _⟩

omit [Number N] in
theorem keepsSource_growing (m : Machine N Journal) : KeepsSource (Growing m) := by
  intro m₁ m₂ h
  exact sameSource_iff.mpr h.source

theorem againOk_growing (m : Machine N Journal) (t : Moment) (left : ℕ) :
    AgainOk (Growing m) (reentry (journalEnv readJson rewritten drawn fuel) t left) := by
  cases left with
  | zero => exact fun _ _ _ _ => .pure true
  | succ left =>
    exact respects_evalPublishSlices (compatible_growing readJson rewritten drawn fuel m) t (keepsSource_growing m)
      (fun _ _ => trivial) left

variable {m m₁ : Machine N Journal} {calls : List (Call N)}

/-- The calls account for all that has been published. -/
def Told (m : Machine N Journal) (calls : List (Call N)) (m₁ : Machine N Journal) : Prop :=
  m₁.world = m.world ++ calls.flatMap Call.emitted

omit [Number N] in
theorem told_cons {j : ℕ} {subject : Bytes} {m₂ : Machine N Journal}
    (hgrown : m.world <+: m₁.world) (h : Told m₁ calls m₂) :
    Told m (⟨j, subject, m, m₁⟩ :: calls) m₂ := by
  obtain ⟨l, hl⟩ := hgrown
  rw [Told, List.flatMap_cons, Call.emitted, ← List.append_assoc, ← hl, List.drop_left, hl]
  exact h

omit [Number N] in
theorem told_nil (m : Machine N Journal) : Told m [] m := (List.append_nil _).symm

omit [Number N] in
theorem told_collect {α : Type} {f : α → Machine N Journal → Option (List (Call N) × Machine N Journal)}
    (h : ∀ a {m m₁ calls}, f a m = some (calls, m₁) → Told m calls m₁) {as : List α}
    (hrun : collect f as m = some (calls, m₁)) : Told m calls m₁ := by
  induction as generalizing m calls with
  | nil =>
    cases hrun
    exact told_nil _
  | cons a as ih =>
    cases collected_of_collect hrun with
    | mk hfirst hrest =>
      rw [Told, List.flatMap_append, ← List.append_assoc, ← h a hfirst]
      exact ih hrest

theorem told_slotCalls {t : Moment} {j left k : ℕ} {reentrant : Bool}
    (hrun : slotCalls (journalEnv readJson rewritten drawn fuel) t j reentrant left k m = some (calls, m₁)) :
    Told m calls m₁ := by
  induction left generalizing k m calls with
  | zero => cases hrun
  | succ left ih =>
    rw [slotCalls] at hrun
    dsimp only at hrun
    split_ifs at hrun with hk
    · obtain ⟨⟨ok, m₂⟩, hcall, hnext⟩ := Option.bind_eq_some_iff.mp hrun
      obtain ⟨⟨rest, m₃⟩, hrest, heq⟩ := Option.map_eq_some_iff.mp hnext
      cases heq
      have hctx : CtxOk (journalEnv readJson rewritten drawn fuel) (fun _ _ _ => True) (Growing m)
          (tickCtx (journalEnv readJson rewritten drawn fuel) t j reentrant
            (slotAt (m.ruleState j) k).subject) :=
        ctxOk_held (compatible_growing readJson rewritten drawn fuel m) t
          (fun _ => againOk_growing readJson rewritten drawn fuel m t maxReentryDepth) trivial []
      have hgrown := (growing_self m).tickSlot_self _ ⟨rfl, rfl⟩
        (respects_finishTick (compatible_growing readJson rewritten drawn fuel m) hctx fuel
          (lends_of_states (fun h => h.states) _)) hcall
      exact told_cons hgrown.world.2 (ih hrest)
    · cases hrun
      exact told_nil _

theorem told_event {e : Event} (hrun : eventCalls (journalEnv readJson rewritten drawn fuel) e m = some (calls, m₁)) :
    Told m calls m₁ := by
  cases e with
  | publish t subject payload =>
    refine told_collect ?_ hrun
    intro j m m₁ calls hcall
    obtain ⟨⟨ok, m₂⟩, heval, heq⟩ := Option.map_eq_some_iff.mp hcall
    cases heq
    have hrespects : Respects (Growing m) (evalRuleForPublish (journalEnv readJson rewritten drawn fuel) t
        (reentry (journalEnv readJson rewritten drawn fuel) t maxReentryDepth) (.held subject)
        (.held payload) j) :=
      respects_evalRuleForPublish (compatible_growing readJson rewritten drawn fuel m) t
        (keepsSource_growing m) (againOk_growing readJson rewritten drawn fuel m t maxReentryDepth)
        (fun _ => trivial) (liesAlike_held _) (liesAlike_held _)
    exact told_cons (hrespects.self (growing_self m) heval).world.2 (told_nil _)
  | tick t => exact told_collect (fun _ {_ _ _} hcall => told_slotCalls readJson rewritten drawn fuel hcall) hrun

end Telling

/-! ## Isolation -/

omit [Number N] in
theorem tracked_load (rules : List (RuleSource N)) (usesClock : Bool) (i : ℕ)
    (subjects : List Bytes) :
    Tracked rules usesClock i subjects ⟨loadProgram rules usesClock, []⟩ := by
  refine ⟨rfl, ?_⟩
  have hstate : (⟨loadProgram rules usesClock, []⟩ : Machine N Journal).ruleState i = stateInit := by
    rw [Machine.ruleState, loadProgram, List.getElem?_map]
    cases rules[i]? <;> rfl
  rw [hstate]
  exact ruleOk_init i subjects

/-- Runs of two programs that have rule `i` in common, with the same ticks and the
same messages on a subject: the rule publishes the same for the subject. The
calls listed are those of the runs, and tell all that is published. -/
theorem rule_state_isolated (readJson : Bytes → Option (Json N))
    (rewritten : Bytes → Bytes → Bytes)
    (drawn : ℕ → Bytes → Bytes → TextOrigin × TextOrigin) (fuel : ℕ)
    {rules rules' : List (RuleSource N)} (usesClock usesClock' : Bool) {i : ℕ} {src : RuleSource N}
    (hi : rules[i]? = some src) (hi' : rules'[i]? = some src) (hplain : NoReentry rules)
    (hplain' : NoReentry rules') (s : Bytes) {events events' : List Event}
    (hsame : events.filter (Event.concerns s) = events'.filter (Event.concerns s))
    (hfew : (eventSubjects events).length < 2 ^ 47) (hfew' : (eventSubjects events').length < 2 ^ 47)
    {calls calls' : List (Call N)} {m m' : Machine N Journal}
    (hrun : runCalls (journalEnv readJson rewritten drawn fuel) events ⟨loadProgram rules usesClock, []⟩ =
      some (calls, m))
    (hrun' : runCalls (journalEnv readJson rewritten drawn fuel) events' ⟨loadProgram rules' usesClock', []⟩ =
      some (calls', m')) :
    emissions i s calls = emissions i s calls' ∧
      (evalEvents (journalEnv readJson rewritten drawn fuel) events ⟨loadProgram rules usesClock, []⟩ = some m ∧
        m.world = calls.flatMap Call.emitted) ∧
      evalEvents (journalEnv readJson rewritten drawn fuel) events' ⟨loadProgram rules' usesClock', []⟩ = some m' ∧
        m'.world = calls'.flatMap Call.emitted := by
  have hlisted : ∀ {rules : List (RuleSource N)} {usesClock : Bool} {events : List Event}
      {calls : List (Call N)} {m : Machine N Journal},
      runCalls (journalEnv readJson rewritten drawn fuel) events ⟨loadProgram rules usesClock, []⟩ =
        some (calls, m) →
      evalEvents (journalEnv readJson rewritten drawn fuel) events ⟨loadProgram rules usesClock, []⟩ = some m ∧
        m.world = calls.flatMap Call.emitted := by
    intro rules usesClock events calls m hrun
    refine ⟨?_, told_collect (fun _ {_ _ _} h => told_event readJson rewritten drawn fuel h) hrun⟩
    rw [← runCalls_snd, hrun]
    rfl
  refine ⟨?_, hlisted hrun, hlisted hrun'⟩
  have hshared : Shared rules rules' i src s (s :: eventSubjects events)
      (s :: eventSubjects events') :=
    ⟨hplain, hplain', hi, hi', List.mem_cons_self, List.mem_cons_self, hfew, hfew'⟩
  have hstart : InStep rules usesClock rules' usesClock' i s (s :: eventSubjects events)
      (s :: eventSubjects events') ⟨loadProgram rules usesClock, []⟩
      ⟨loadProgram rules' usesClock', []⟩ := by
    refine ⟨tracked_load rules usesClock i _, tracked_load rules' usesClock' i _, ?_⟩
    have hnone : ∀ {rules : List (RuleSource N)} {usesClock : Bool},
        slotsFor s ((⟨loadProgram rules usesClock, []⟩ : Machine N Journal).ruleState i) = [] := by
      intro rules usesClock
      rw [Machine.ruleState, loadProgram, List.getElem?_map]
      cases rules[i]? <;> rfl
    rw [hnone, hnone]
  refine (collect_alike (Event.concerns s) (observer_emissions i s) (observer_emissions i s)
    ?_ ?_ ?_ hsame hstart hrun hrun').2
  · intro e he hlow m m' calls m₁ hm hcall
    obtain ⟨hpassed, hquiet⟩ := passed_event hplain hlow (within_of_mem he s) hm.left hcall
    exact ⟨hm.passed hpassed (.refl hm.right), hquiet⟩
  · intro e he hlow m m' calls m₁ hm hcall
    obtain ⟨hpassed, hquiet⟩ := passed_event hplain' hlow (within_of_mem he s) hm.right hcall
    exact ⟨hm.passed (.refl hm.left) hpassed, hquiet⟩
  · intro e _ hlow
    exact hshared.event hlow

/-- A bar over one second of every subject. -/
def secondBar : RuleSource ℤ :=
  ⟨lit "*", .list [.symbol (lit "bar!"), .keyword (lit "ms"), .number 1000,
    .symbol (lit "payload-float")], false⟩

def oneSubject : List Event :=
  [.publish ⟨5000, 0, false⟩ (lit "a") (lit "1"), .tick ⟨6500, 0, false⟩]

/-- The same for `a`, with a message on `b` before it and one behind it. -/
def twoSubjects : List Event :=
  [.publish ⟨5000, 0, false⟩ (lit "b") (lit "7"), .publish ⟨5000, 0, false⟩ (lit "a") (lit "1"),
    .publish ⟨5500, 0, false⟩ (lit "b") (lit "8"), .tick ⟨6500, 0, false⟩]

/-- The bar of `a`, alone and beside that of `b` and another rule. -/
theorem secondBar_isolated : ∃ calls calls' m m',
    runCalls (journalEnv (fun _ => none) writtenOver payloadDrawn 9) oneSubject ⟨loadProgram [secondBar] true, []⟩ =
        some (calls, m) ∧
      runCalls (journalEnv (fun _ => none) writtenOver payloadDrawn 9) twoSubjects
          ⟨loadProgram [secondBar, secondBar] true, []⟩ = some (calls', m') ∧
      emissions 0 (lit "a") calls = emissions 0 (lit "a") calls' := by
  have hsome : (runCalls (journalEnv (fun _ => none) writtenOver payloadDrawn 9) oneSubject
      ⟨loadProgram [secondBar] true, []⟩).isSome = true := by decide +kernel
  have hsome' : (runCalls (journalEnv (fun _ => none) writtenOver payloadDrawn 9) twoSubjects
      ⟨loadProgram [secondBar, secondBar] true, []⟩).isSome = true := by decide +kernel
  obtain ⟨⟨calls, m⟩, hrun⟩ := Option.isSome_iff_exists.mp hsome
  obtain ⟨⟨calls', m'⟩, hrun'⟩ := Option.isSome_iff_exists.mp hsome'
  have hplain : NoReentry [secondBar] := by simp [NoReentry, secondBar]
  have hplain' : NoReentry [secondBar, secondBar] := by simp [NoReentry, secondBar]
  have hsame : oneSubject.filter (Event.concerns (lit "a")) =
      twoSubjects.filter (Event.concerns (lit "a")) := by
    have hother : (lit "b" == lit "a") = false := by decide
    simp [oneSubject, twoSubjects, Event.concerns, hother]
  exact ⟨calls, calls', m, m', hrun, hrun',
    (rule_state_isolated (fun _ => none) writtenOver payloadDrawn 9 true true (i := 0) rfl rfl hplain hplain' (lit "a")
      hsame (by decide +kernel) (by decide +kernel) hrun hrun').1⟩

example : (runCalls (journalEnv (fun _ => none) writtenOver payloadDrawn 9) oneSubject
    ⟨loadProgram [secondBar] true, []⟩).map (fun x => (emissions 0 (lit "a") x.1).length) =
      some 4 := by
  decide +kernel

end Monoblok.Patchbay
