import Monoblok.Patchbay.Cadences
import Monoblok.Patchbay.Isolation
import Monoblok.Patchbay.Linked
import Monoblok.Patchbay.Terminates

/-!
# Runs as steps

What a run does to a machine it does step by step: a form is evaluated on the slot of
a key, a slot is ticked, a rule counts, the router is given a message. A step in which
an emitter takes a message or emits one leaves an event, and so does each message to
the router. The events of a run are thus what its emitters have taken and emitted.
-/

namespace Monoblok.Patchbay

open Relational

variable {N W : Type} [Number N]

/-! ## Slots of keys -/

/-- The slot of a key, or a fresh one. -/
def Machine.slotFor (m : Machine N W) (k : StateKey) : StateEntry N :=
  (m.slotOf k).getD (freshEntry k)

/-- Every slot lies with its rule, and no two have the same key. -/
def Keyed (m : Machine N W) : Prop :=
  ∀ j, StateIndexed (m.ruleState j) ∧ ∀ e ∈ (m.ruleState j).items, e.ruleId = j

omit [Number N] in
/-- A program that was loaded has no slots. -/
theorem ruleState_load (rules : List (RuleSource N)) (usesClock : Bool) (world : W) (j : ℕ) :
    (⟨loadProgram rules usesClock, world⟩ : Machine N W).ruleState j = stateInit := by
  unfold Machine.ruleState
  cases hrule : (loadProgram rules usesClock).rules[j]? with
  | none => simp
  | some r =>
    obtain ⟨src, -, rfl⟩ := List.mem_map.mp (List.mem_of_getElem? hrule)
    simp [RuleSource.load]

omit [Number N] in
theorem keyed_load (rules : List (RuleSource N)) (usesClock : Bool) (world : W) :
    Keyed (⟨loadProgram rules usesClock, world⟩ : Machine N W) := by
  intro j
  rw [ruleState_load]
  exact ⟨stateIndexed_init, fun e he => by cases he⟩

section Slots

variable {m : Machine N W} {k : StateKey} {e : StateEntry N}

omit [Number N] in
theorem Keyed.key_inj (h : Keyed m) {j : ℕ} {e e' : StateEntry N}
    (he : e ∈ (m.ruleState j).items) (he' : e' ∈ (m.ruleState j).items) (hkey : e.key = e'.key) :
    e = e' :=
  List.inj_on_of_nodup_map (h j).1.nodup he he' hkey

omit [Number N] in
theorem Keyed.slotOf_eq_some (h : Keyed m) :
    m.slotOf k = some e ↔ e ∈ (m.ruleState k.ruleId).items ∧ e.key = k := by
  constructor
  · intro hfind
    exact ⟨List.mem_of_find?_eq_some hfind, by simpa using List.find?_some hfind⟩
  · rintro ⟨he, hkey⟩
    cases hfind : m.slotOf k with
    | none =>
      have hnone := List.find?_eq_none.mp hfind e he
      simp [hkey] at hnone
    | some e' =>
      have hkey' : e'.key = k := by simpa using List.find?_some hfind
      rw [h.key_inj (List.mem_of_find?_eq_some hfind) he (hkey'.trans hkey.symm)]

/-- A slot is that of its key. -/
theorem Keyed.slotFor_eq (h : Keyed m) {j : ℕ} (he : e ∈ (m.ruleState j).items) :
    m.slotFor e.key = e := by
  have hrule : e.key.ruleId = j := (h j).2 e he
  rw [Machine.slotFor, h.slotOf_eq_some.mpr ⟨hrule ▸ he, rfl⟩]
  rfl

theorem key_slotFor (h : Keyed m) (k : StateKey) : (m.slotFor k).key = k := by
  unfold Machine.slotFor
  cases hfind : m.slotOf k with
  | none => rfl
  | some e => exact (h.slotOf_eq_some.mp hfind).2

/-- Machines with the same slots have the same slot for each key. -/
theorem slotFor_congr {m m' : Machine N W} (h : ∀ j, (m'.ruleState j).items = (m.ruleState j).items)
    (k : StateKey) : m'.slotFor k = m.slotFor k := by
  unfold Machine.slotFor Machine.slotOf
  rw [h]

/-- One slot is replaced or added, and the others stay. -/
structure Replaces (m m' : Machine N W) (e' : StateEntry N) : Prop where
  others : ∀ j ≠ e'.ruleId, m'.ruleState j = m.ruleState j
  slots : ∀ e, e ∈ (m'.ruleState e'.ruleId).items ↔
    e = e' ∨ e ∈ (m.ruleState e'.ruleId).items ∧ e.key ≠ e'.key

theorem Replaces.slotFor {m m' : Machine N W} {e' : StateEntry N} (hstep : Replaces m m' e')
    (h : Keyed m) (h' : Keyed m') (k : StateKey) :
    m'.slotFor k = if k = e'.key then e' else m.slotFor k := by
  split_ifs with hk
  · rw [hk]
    exact h'.slotFor_eq ((hstep.slots e').mpr (.inl rfl))
  · have hsame : m'.slotOf k = m.slotOf k := by
      apply Option.ext
      intro e
      rw [h'.slotOf_eq_some, h.slotOf_eq_some]
      apply and_congr_left
      rintro rfl
      by_cases hrule : e.key.ruleId = e'.ruleId
      · rw [hrule, hstep.slots]
        constructor
        · rintro (rfl | ⟨he, -⟩)
          · exact absurd rfl hk
          · exact he
        · exact fun he => .inr ⟨he, hk⟩
      · rw [hstep.others _ hrule]
    unfold Machine.slotFor
    rw [hsame]

omit [Number N] in
/-- A slot of the list is replaced by one with its key. -/
theorem mem_set_iff {l : List (StateEntry N)} (hnodup : (l.map StateEntry.key).Nodup) {i : ℕ}
    {e e' : StateEntry N} (hi : l[i]? = some e) (hkey : e'.key = e.key) (x : StateEntry N) :
    x ∈ l.set i e' ↔ x = e' ∨ x ∈ l ∧ x.key ≠ e'.key := by
  have he : e ∈ l := List.mem_of_getElem? hi
  rw [set_eq_map hnodup hi, List.mem_map, hkey]
  constructor
  · rintro ⟨y, hy, rfl⟩
    unfold replaceKey
    split_ifs with hsame
    · exact .inl rfl
    · exact .inr ⟨hy, hsame⟩
  · rintro (rfl | ⟨hx, hne⟩)
    · exact ⟨e, he, if_pos rfl⟩
    · exact ⟨x, hx, if_neg hne⟩

/-- What a form on the slot of a key leaves: nothing new where there is no such rule or no
memory for the slot, else the slot after the form. -/
inductive FormLeaves {α : Type} (m : Machine N W) (k : StateKey) (f : StateEntry N → SlotStep N α) :
    Except EvalError α → Machine N W → Prop
  | nothing {r : Except EvalError α} {m' : Machine N W}
      (missing : k.ruleId < m.program.rules.length → r = .error .oom)
      (slots : ∀ k', m'.slotFor k' = m.slotFor k') : FormLeaves m k f r m'
  | step {m' : Machine N W} (place : k.ruleId < m.program.rules.length)
      (slots : ∀ k', m'.slotFor k' = if k' = k then (f (m.slotFor k)).entry else m.slotFor k') :
      FormLeaves m k f (f (m.slotFor k)).result m'

theorem Keyed.onSlot (h : Keyed m) {α : Type} {ctx : Ctx N W} {op : Bytes}
    {f : StateEntry N → SlotStep N α} (hf : ∀ e, (f e).entry.key = e.key)
    {r : Except EvalError α} {m' : Machine N W} (hrun : (onSlot ctx op f).run m = some (r, m')) :
    Keyed m' ∧ FormLeaves m ⟨ctx.ruleId, op, ctx.subject⟩ f r m' := by
  obtain ⟨x, hx, hstates⟩ := run_onSlot_spec ctx op f m
  cases hrun.symm.trans hx
  by_cases hlt : ctx.ruleId < m.program.rules.length
  swap
  · have hsame : ∀ j, m'.ruleState j = m.ruleState j := by
      intro j
      rw [hstates.states, if_neg fun hj => hlt hj.2]
    refine ⟨fun j => hsame j ▸ h j, .nothing (fun hin => absurd hin hlt) ?_⟩
    exact slotFor_congr fun j => congrArg EvalState.items (hsame j)
  have hresult := hstates.result
  have hthere : m'.ruleState ctx.ruleId =
      (slotStep ctx.alloc ⟨ctx.ruleId, op, ctx.subject⟩ f (m.ruleState ctx.ruleId)).2 := by
    rw [hstates.states, if_pos ⟨rfl, hlt⟩]
  have hother : ∀ j ≠ ctx.ruleId, m'.ruleState j = m.ruleState j := by
    intro j hj
    rw [hstates.states, if_neg fun hj' => hj hj'.1.symm]
  have hstep := (h ctx.ruleId).1.slotStep ctx.alloc ⟨ctx.ruleId, op, ctx.subject⟩ hf
  rw [if_pos hlt] at hresult
  generalize slotStep ctx.alloc ⟨ctx.ruleId, op, ctx.subject⟩ f (m.ruleState ctx.ruleId) = y
    at hresult hthere hstep
  -- the state of the rule after the form
  have hkeyed : StateIndexed y.2 → (∀ e ∈ y.2.items, e.ruleId = ctx.ruleId) → Keyed m' := by
    intro hindexed hrules j
    by_cases hj : j = ctx.ruleId
    · rw [hj, hthere]
      exact ⟨hindexed, hrules⟩
    · rw [hother j hj]
      exact h j
  have hrule : ∀ {e : StateEntry N}, (f e).entry.ruleId = e.ruleId :=
    fun {e} => congrArg StateKey.ruleId (hf e)
  cases hstep with
  | failed hmemory hindexed hitems =>
    refine ⟨hkeyed hindexed fun e he => ?_, .nothing (fun _ => hresult) ?_⟩
    · rw [hitems] at he
      exact (h ctx.ruleId).2 e he
    · apply slotFor_congr
      intro j
      by_cases hj : j = ctx.ruleId
      · rw [hj, hthere]
        exact hitems
      · rw [hother j hj]
  | @old st' i e hindexed hi hkey hitems =>
    have he : e ∈ (m.ruleState ctx.ruleId).items := List.mem_of_getElem? hi
    have hslot : m.slotFor ⟨ctx.ruleId, op, ctx.subject⟩ = e := hkey ▸ h.slotFor_eq he
    have hmem := mem_set_iff (h ctx.ruleId).1.nodup hi (hf e)
    rw [← hitems] at hmem
    have hkeyed' := hkeyed hindexed fun x hx => by
      rcases (hmem x).mp hx with rfl | ⟨hx, -⟩
      · exact hrule.trans ((h ctx.ruleId).2 e he)
      · exact (h ctx.ruleId).2 x hx
    have hentry : (f e).entry.ruleId = ctx.ruleId := hrule.trans ((h ctx.ruleId).2 e he)
    have hreplaces : Replaces m m' (f e).entry := by
      refine ⟨fun j hj => hother j (hentry ▸ hj), fun x => ?_⟩
      rw [hentry, hthere]
      exact hmem x
    refine ⟨hkeyed', ?_⟩
    change r = (f e).result at hresult
    rw [hresult, ← hslot]
    refine .step hlt fun k' => ?_
    rw [hslot, hreplaces.slotFor h hkeyed', hf, hkey]
  | @new st' hindexed hfresh hitems =>
    generalize hk : (⟨ctx.ruleId, op, ctx.subject⟩ : StateKey) = k at *
    have hslot : m.slotFor k = freshEntry k := by
      unfold Machine.slotFor
      cases hfind : m.slotOf k with
      | none => rfl
      | some e =>
        obtain ⟨he, hkey⟩ := h.slotOf_eq_some.mp hfind
        have hin : k ∈ (m.ruleState k.ruleId).keys := List.mem_map.mpr ⟨e, he, hkey⟩
        rw [← hk] at hin hfresh
        exact absurd hin hfresh
    have hentry : (f (freshEntry k)).entry.ruleId = ctx.ruleId := by
      rw [hrule, ← hk]
      rfl
    have hmem : ∀ x, x ∈ st'.items ↔ x = (f (freshEntry k)).entry ∨
        x ∈ (m.ruleState ctx.ruleId).items ∧ x.key ≠ (f (freshEntry k)).entry.key := by
      intro x
      have hne : x ∈ (m.ruleState ctx.ruleId).items → x.key ≠ (f (freshEntry k)).entry.key := by
        rintro hx hsame
        rw [hf] at hsame
        exact hfresh (List.mem_map.mpr ⟨x, hx, hsame⟩)
      rw [hitems, List.mem_append, List.mem_singleton, or_comm]
      exact or_congr_right (and_iff_left_of_imp hne).symm
    have hkeyed' := hkeyed hindexed fun x hx => by
      rcases (hmem x).mp hx with rfl | ⟨hx, -⟩
      · exact hentry
      · exact (h ctx.ruleId).2 x hx
    have hreplaces : Replaces m m' (f (freshEntry k)).entry := by
      refine ⟨fun j hj => hother j (hentry ▸ hj), fun x => ?_⟩
      rw [hentry, hthere]
      exact hmem x
    refine ⟨hkeyed', ?_⟩
    change r = (f (freshEntry k)).result at hresult
    rw [hresult, ← hslot]
    refine .step (hk ▸ hlt) fun k' => ?_
    rw [hslot, hreplaces.slotFor h hkeyed', hf]
    rfl

/-- The tick of the slot at a position. -/
theorem Keyed.tickEntry (h : Keyed m) {A : EvalAlloc → Bool} {now : UInt64} {j i : ℕ}
    {r : Except EvalError (Fired N ⊕ Option (StateEntry.BarClose N))} {m' : Machine N W}
    (hrun : (atSlot j i (tickEntry A now) : EvalM N W _).run m = some (r, m')) :
    Keyed m' ∧ ((∀ fires, r = .ok fires → emitted now fires = []) ∧
        (∀ k, m'.slotFor k = m.slotFor k) ∨
      ∃ e, (m.ruleState j).items[i]? = some e ∧ r = (Patchbay.tickEntry A now e).result ∧
        ∀ k, m'.slotFor k = if k = e.key then (Patchbay.tickEntry A now e).entry else m.slotFor k) := by
  obtain ⟨x, hx, hstates⟩ := run_atSlot_spec j i (Patchbay.tickEntry A now) m
  cases hrun.symm.trans hx
  cases hi : (m.ruleState j).items[i]? with
  | none =>
    have hset : ∀ e, setSlot (m.ruleState j) i e = m.ruleState j := by
      intro e
      unfold setSlot
      rw [List.set_eq_of_length_le (List.getElem?_eq_none_iff.mp hi)]
    have hsame : ∀ j', m'.ruleState j' = m.ruleState j' := by
      intro j'
      rw [hstates.states, stepAt, hset]
      split_ifs with hj
      · rw [hj.1]
      · rfl
    have hfresh : r = (Patchbay.tickEntry A now (freshEntry ⟨0, [], []⟩)).result := by
      have hresult := hstates.result
      have hslot : slotAt (m.ruleState j) i = freshEntry ⟨0, [], []⟩ := by
        unfold slotAt
        rw [hi]
        rfl
      rw [stepAt, hslot] at hresult
      dsimp only at hresult
      split_ifs at hresult
      · exact hresult
      · exact hresult
    refine ⟨fun j' => hsame j' ▸ h j', .inl ⟨fun fires hfires => ?_, ?_⟩⟩
    · have hkind : (freshEntry ⟨0, [], []⟩ : StateEntry N).kind ≠ .clock := fun h => by cases h
      exact tickEntry_unclocked A now hkind (hfresh.symm.trans hfires)
    · exact slotFor_congr fun j' => congrArg EvalState.items (hsame j')
  | some e =>
    have hlt : j < m.program.rules.length := by
      by_contra hnot
      rw [ruleState_of_missing (Nat.le_of_not_lt hnot)] at hi
      cases hi
    have he : e ∈ (m.ruleState j).items := List.mem_of_getElem? hi
    have hkey := key_tickEntry A now e
    have hrule : (Patchbay.tickEntry A now e).entry.ruleId = j :=
      (congrArg StateKey.ruleId hkey).trans ((h j).2 e he)
    have hresult := hstates.result
    rw [if_pos hlt, stepAt, slotAt_of_getElem? hi] at hresult
    have hthere : m'.ruleState j =
        setSlot (m.ruleState j) i (Patchbay.tickEntry A now e).entry := by
      rw [hstates.states, if_pos ⟨rfl, hlt⟩, stepAt, slotAt_of_getElem? hi]
    have hother : ∀ j' ≠ j, m'.ruleState j' = m.ruleState j' := by
      intro j' hj
      rw [hstates.states, if_neg fun hj' => hj hj'.1.symm]
    have hmem := mem_set_iff (h j).1.nodup hi hkey
    have hkeyed : Keyed m' := by
      intro j'
      by_cases hj : j' = j
      · rw [hj, hthere]
        refine ⟨(h j).1.setSlot ?_, fun x hx => ?_⟩
        · rw [slotAt_of_getElem? hi]
          exact hkey
        · rcases (hmem x).mp hx with rfl | ⟨hx, -⟩
          · exact hrule
          · exact (h j).2 x hx
      · rw [hother j' hj]
        exact h j'
    have hreplaces : Replaces m m' (Patchbay.tickEntry A now e).entry := by
      refine ⟨fun j' hj => hother j' (hrule ▸ hj), fun x => ?_⟩
      rw [hrule, hthere]
      exact hmem x
    refine ⟨hkeyed, .inr ⟨e, rfl, hresult, fun k => ?_⟩⟩
    rw [hreplaces.slotFor h hkeyed, hkey]

end Slots

/-! ## Steps -/

inductive RunEvent (N : Type) where
  /-- A message to the program. -/
  | given (now : UInt64) (subject payload : Bytes)
  /-- A message to `debounce!` or `sample!`. -/
  | retains (slot : StateKey) (a : Incoming Bytes)
  /-- A message to `aggregate!`. -/
  | counts (slot : StateKey) (a : Incoming (MetricKind × N))
  | emits (slot : StateKey) (e : Emission)
  /-- A message of a rule, or of a bar that closes. -/
  | publishes (subject payload : Bytes)

def emitterOps : List Bytes := [lit "debounce", lit "sample", lit "aggregate"]

/-- A message at this time comes at the deadline of the slot, that has yet to be ticked. -/
def StateEntry.dueAt (e : StateEntry N) (now : UInt64) : Bool :=
  decide (e.Armed ∧ now = e.clockDeadlineMs)

/-- The router has been given a message, if its subject is one to publish on. -/
def Machine.handed (m : Machine N W) (route : W → Bytes → Bytes → W × Bool)
    (subject payload : Bytes) : Machine N W :=
  if publishSubjectValid subject then { m with world := (route m.world subject payload).1 } else m

/-- One step of a run at a time, with its events. -/
inductive Step (A : EvalAlloc → Bool) (route : W → Bytes → Bytes → W × Bool) (now : UInt64) :
    Machine N W → List (RunEvent N) → Machine N W → Prop
  | debounce {ctx : Ctx N W} {a : Incoming Bytes} {v : Value N} {m m' : Machine N W}
      (alloc : ctx.alloc = A) (time : a.now = now)
      (place : ctx.ruleId < m.program.rules.length)
      (early : a.early = (m.slotFor ⟨ctx.ruleId, lit "debounce", ctx.subject⟩).dueAt now)
      (form : SlotForm A now (lit "debounce") (debounceArm A a : StateEntry N → SlotStep N (Value N)))
      (run : (onSlot ctx (lit "debounce") (debounceArm A a)).run m = some (.ok v, m')) :
      Step A route now m [.retains ⟨ctx.ruleId, lit "debounce", ctx.subject⟩ a] m'
  | sample {ctx : Ctx N W} {a : Incoming Bytes} {v : Value N} {m m' : Machine N W}
      (alloc : ctx.alloc = A) (time : a.now = now)
      (place : ctx.ruleId < m.program.rules.length)
      (early : a.early = (m.slotFor ⟨ctx.ruleId, lit "sample", ctx.subject⟩).dueAt now)
      (form : SlotForm A now (lit "sample") (sampleArm A a : StateEntry N → SlotStep N (Value N)))
      (run : (onSlot ctx (lit "sample") (sampleArm A a)).run m = some (.ok v, m')) :
      Step A route now m [.retains ⟨ctx.ruleId, lit "sample", ctx.subject⟩ a] m'
  | aggregate {ctx : Ctx N W} {a : Incoming (MetricKind × N)} {v : Value N} {m m' : Machine N W}
      (alloc : ctx.alloc = A) (time : a.now = now)
      (place : ctx.ruleId < m.program.rules.length)
      (early : a.early = (m.slotFor ⟨ctx.ruleId, lit "aggregate", ctx.subject⟩).dueAt now)
      (form : SlotForm A now (lit "aggregate") (aggregateArm A a : StateEntry N → SlotStep N (Value N)))
      (run : (onSlot ctx (lit "aggregate") (aggregateArm A a)).run m = some (.ok v, m')) :
      Step A route now m [.counts ⟨ctx.ruleId, lit "aggregate", ctx.subject⟩ a] m'
  /-- Another form, or one of an emitter that fails. -/
  | form {α : Type} {ctx : Ctx N W} {op : Bytes} {f : StateEntry N → SlotStep N α}
      {r : Except EvalError α} {m m' : Machine N W} (alloc : ctx.alloc = A)
      (form : SlotForm A now op f)
      (quiet : op ∈ emitterOps → ctx.ruleId < m.program.rules.length → ∃ err, r = .error err)
      (run : (onSlot ctx op f).run m = some (r, m')) : Step A route now m [] m'
  /-- The tick of a slot that emits nothing. -/
  | tick {j i : ℕ} {r : Except EvalError (Fired N ⊕ Option (StateEntry.BarClose N))}
      {m m' : Machine N W}
      (run : (atSlot j i (tickEntry A now) : EvalM N W _).run m = some (r, m'))
      (quiet : ∀ fires, r = .ok fires → emitted now fires = []) : Step A route now m [] m'
  /-- The tick of a slot that emits, and the message it gives to the router. -/
  | emit {j i : ℕ} {e : StateEntry N} {subject payload : Bytes} {m m' : Machine N W}
      (slot : (m.ruleState j).items[i]? = some e)
      (run : (atSlot j i (tickEntry A now) : EvalM N W _).run m =
        some (.ok (.inl (.publish subject payload)), m')) :
      Step A route now m [.emits e.key ⟨now.toNat, subject, payload⟩] (m'.handed route subject payload)
  | publish (subject payload : Bytes) (m : Machine N W) :
      Step A route now m [.publishes subject payload]
        { m with world := (route m.world subject payload).1 }
  | suppressed (j : ℕ) (m : Machine N W) : Step A route now m []
      (m.modifyRule j fun r => { r with publishesSuppressed := r.publishesSuppressed + 1 })
  | counted (j : ℕ) (m : Machine N W) : Step A route now m [] (countEmitted j m)

inductive Steps (A : EvalAlloc → Bool) (route : W → Bytes → Bytes → W × Bool) (now : UInt64)
    (m : Machine N W) : List (RunEvent N) → Machine N W → Prop
  | nil : Steps A route now m [] m
  | snoc {l l' : List (RunEvent N)} {m₁ m₂ : Machine N W} (steps : Steps A route now m l m₁)
      (step : Step A route now m₁ l' m₂) : Steps A route now m (l ++ l') m₂

/-- What an event gives to the router. -/
def RunEvent.handed : RunEvent N → Option (Bytes × Bytes)
  | .emits _ e => if publishSubjectValid e.subject then some (e.subject, e.payload) else none
  | .publishes subject payload => some (subject, payload)
  | _ => none

/-- What happens to the router is in the events. -/
theorem Step.world {A : EvalAlloc → Bool} {route : W → Bytes → Bytes → W × Bool} {now : UInt64}
    {m m' : Machine N W} {l : List (RunEvent N)} (h : Step A route now m l m') :
    m'.world = (l.filterMap RunEvent.handed).foldl (fun w x => (route w x.1 x.2).1) m.world := by
  have hform : ∀ {α : Type} {ctx : Ctx N W} {op : Bytes} {f : StateEntry N → SlotStep N α}
      {r : Except EvalError α} {m' : Machine N W}, (onSlot ctx op f).run m = some (r, m') →
        m'.world = m.world := by
    intro α ctx op f r m' hrun
    obtain ⟨x, hx, hstep⟩ := run_onSlot_spec ctx op f m
    cases hrun.symm.trans hx
    exact hstep.world
  have htick : ∀ {j i : ℕ} {r : Except EvalError (Fired N ⊕ Option (StateEntry.BarClose N))}
      {m' : Machine N W}, (atSlot j i (tickEntry A now) : EvalM N W _).run m = some (r, m') →
        m'.world = m.world := by
    intro j i r m' hrun
    obtain ⟨x, hx, hstep⟩ := run_atSlot_spec j i (tickEntry A now) m
    cases hrun.symm.trans hx
    exact hstep.world
  cases h with
  | debounce alloc time place early form run => exact hform run
  | sample alloc time place early form run => exact hform run
  | aggregate alloc time place early form run => exact hform run
  | form alloc form quiet run => exact hform run
  | tick run quiet => exact htick run
  | emit slot run =>
    unfold Machine.handed
    simp only [List.filterMap_cons, RunEvent.handed, List.filterMap_nil]
    split_ifs
    · simp [htick run]
    · exact htick run
  | publish | suppressed | counted => rfl

/-- A step changes nothing that comes from the source. -/
theorem Step.source {A : EvalAlloc → Bool} {route : W → Bytes → Bytes → W × Bool} {now : UInt64}
    {m m' : Machine N W} {l : List (RunEvent N)} (h : Step A route now m l m') :
    m'.program.source = m.program.source := by
  have hform : ∀ {α : Type} {ctx : Ctx N W} {op : Bytes} {f : StateEntry N → SlotStep N α}
      {r : Except EvalError α} {m' : Machine N W}, (onSlot ctx op f).run m = some (r, m') →
        m'.program.source = m.program.source := by
    intro α ctx op f r m' hrun
    obtain ⟨x, hx, hstep⟩ := run_onSlot_spec ctx op f m
    cases hrun.symm.trans hx
    exact hstep.source
  have htick : ∀ {j i : ℕ} {r : Except EvalError (Fired N ⊕ Option (StateEntry.BarClose N))}
      {m' : Machine N W}, (atSlot j i (tickEntry A now) : EvalM N W _).run m = some (r, m') →
        m'.program.source = m.program.source := by
    intro j i r m' hrun
    obtain ⟨x, hx, hstep⟩ := run_atSlot_spec j i (tickEntry A now) m
    cases hrun.symm.trans hx
    exact hstep.source
  cases h with
  | debounce alloc time place early form run => exact hform run
  | sample alloc time place early form run => exact hform run
  | aggregate alloc time place early form run => exact hform run
  | form alloc form quiet run => exact hform run
  | tick run quiet => exact htick run
  | emit slot run =>
    have hsource := htick run
    unfold Machine.handed
    split_ifs
    · exact hsource
    · exact hsource
  | publish => rfl
  | suppressed j => exact source_modifyRule m j fun _ => ⟨rfl, rfl, rfl⟩
  | counted j => exact source_modifyRule m j fun _ => ⟨rfl, rfl, rfl⟩

theorem Steps.world {A : EvalAlloc → Bool} {route : W → Bytes → Bytes → W × Bool} {now : UInt64}
    {m m' : Machine N W} {l : List (RunEvent N)} (h : Steps A route now m l m') :
    m'.world = (l.filterMap RunEvent.handed).foldl (fun w x => (route w x.1 x.2).1) m.world := by
  induction h with
  | nil => rfl
  | snoc steps step ih => rw [step.world, ih, List.filterMap_append, List.foldl_append]

/-! ## Evaluations are steps -/

section Evaluations

variable {env : Env N W} {now : UInt64}

theorem step_onSlot {α : Type} {ctx : Ctx N W} {op : Bytes} {f : StateEntry N → SlotStep N α}
    (halloc : ctx.alloc = env.alloc) (hform : SlotForm env.alloc now op f)
    {r : Except EvalError α} {m m' : Machine N W}
    (hrun : (onSlot ctx op f).run m = some (r, m')) : ∃ l, Step env.alloc env.route now m l m' := by
  by_cases hquiet : op ∈ emitterOps → ctx.ruleId < m.program.rules.length → ∃ err, r = .error err
  · exact ⟨[], .form halloc hform hquiet hrun⟩
  obtain ⟨hop, hquiet⟩ := Classical.not_imp.mp hquiet
  obtain ⟨hplace, hok⟩ := Classical.not_imp.mp hquiet
  cases r with
  | error err => exact absurd ⟨err, rfl⟩ hok
  | ok v =>
    rcases hform.timed_or_untimed with htimed | ⟨hnot, -⟩
    swap
    · have hall : ∀ o ∈ emitterOps, o ∈ clockOps ++ barOps := by decide
      exact absurd (hall op hop) hnot
    cases htimed with
    | @bar args timeWindow count windowMs input hargs x =>
      cases timeWindow
      all_goals exact absurd hop (by decide)
    | @debounce ms hms subject payload =>
      exact ⟨_, @Step.debounce _ _ _ env.alloc env.route now ctx ⟨now, Number.toU64 ms, _, subject, payload⟩ v m m'
        halloc rfl hplace rfl hform hrun⟩
    | @sample ms hms subject payload =>
      exact ⟨_, @Step.sample _ _ _ env.alloc env.route now ctx ⟨now, Number.toU64 ms, _, subject, payload⟩ v m m'
        halloc rfl hplace rfl hform hrun⟩
    | @aggregate metric hmetric ms hms subject x =>
      exact ⟨_, @Step.aggregate _ _ _ env.alloc env.route now ctx ⟨now, Number.toU64 ms, _, subject, (metric, x)⟩ v
        m m' halloc rfl hplace rfl hform hrun⟩
    | onSilence hms payload body => exact absurd hop (by decide)
    | dropout hms lost found => exact absurd hop (by decide)

/-- The same machine, with a run of steps that has led to it. -/
def Leads (env : Env N W) (now : UInt64) (m₀ m m' : Machine N W) : Prop :=
  m = m' ∧ Keyed m ∧ ∃ l, Steps env.alloc env.route now m₀ l m

variable {m₀ : Machine N W}

theorem Leads.step {m m' : Machine N W} (h : Leads env now m₀ m m) (hkeyed : Keyed m')
    {l : List (RunEvent N)} (hstep : Step env.alloc env.route now m l m') : Leads env now m₀ m' m' := by
  obtain ⟨-, -, l₀, hsteps⟩ := h
  exact ⟨rfl, hkeyed, _, .snoc hsteps hstep⟩

omit [Number N] in
theorem keyed_of_states {m m' : Machine N W} (h : Keyed m)
    (hstates : ∀ j, m'.ruleState j = m.ruleState j) : Keyed m' :=
  fun j => hstates j ▸ h j

theorem evalCompatible_leads :
    EvalCompatible env (fun _ _ t => t = now) (Leads env now m₀) where
  onSlot := by
    rintro α ctx op f halloc rfl hform m _ ⟨rfl, hm⟩
    obtain ⟨⟨r, m'⟩, hrun, -⟩ := run_onSlot_spec ctx op f m
    obtain ⟨l, hstep⟩ := step_onSlot halloc hform hrun
    have hleads := Leads.step ⟨rfl, hm⟩ (hm.1.onSlot hform.key hrun).1 hstep
    rw [hrun]
    exact .some r hleads
  suppressed j := by
    rintro m _ ⟨rfl, hm⟩
    have hkeyed := keyed_of_states hm.1 fun j' =>
      ruleState_modifyRule m j j'
        (f := fun r => { r with publishesSuppressed := r.publishesSuppressed + 1 }) fun _ => rfl
    exact .some (Except.ok ()) (Leads.step ⟨rfl, hm⟩ hkeyed (.suppressed j m))
  emitted j := by
    rintro m _ ⟨rfl, hm⟩
    have hkeyed := keyed_of_states hm.1 fun j' =>
      ruleState_modifyRule m j j'
        (f := fun r => { r with publishesEmitted := r.publishesEmitted + 1 }) fun _ => rfl
    exact Leads.step ⟨rfl, hm⟩ hkeyed (.counted j m)
  route subject payload := by
    rintro m _ ⟨rfl, hm⟩
    exact ⟨rfl, Leads.step ⟨rfl, hm⟩ hm.1 (.publish subject payload m)⟩

/-- An evaluation is a run of steps. -/
theorem steps_evalPublish {t : Moment} {m m' : Machine N W} (h : Keyed m) {subject payload : Bytes}
    {ok : Bool} (hrun : evalPublish env t subject payload m = some (ok, m')) :
    Keyed m' ∧ ∃ l, Steps env.alloc env.route t.nowMs m l m' := by
  have hleads : Leads env t.nowMs m m m := ⟨rfl, h, [], .nil⟩
  have hsource : KeepsSource (Leads env t.nowMs m) := fun h => h.1 ▸ ⟨rfl, rfl, rfl, rfl⟩
  have hrespects : Respects (Leads env t.nowMs m) (evalPublish env t subject payload) :=
    respects_evalPublishSlices evalCompatible_leads t hsource (fun _ _ => rfl) maxReentryDepth
      (.held subject) (.held payload) (liesAlike_held _) (liesAlike_held _)
  exact (hrespects.self hleads hrun).2

/-! ## Ticks are steps -/

/-- What a tick publishes for a slot lies in its buffers. -/
theorem lies_of_publish {A : EvalAlloc → Bool} {e : StateEntry N} {subject payload : Bytes}
    (h : (tickEntry A now e).result = .ok (.inl (.publish subject payload))) :
    (tickEntry A now e).entry.emitSubject = subject ∧ (tickEntry A now e).entry.bytes = payload := by
  have haggregate : (tickAggregate A e).result = .ok (.publish subject payload) →
      (tickAggregate A e).entry.emitSubject = subject ∧ (tickAggregate A e).entry.bytes = payload := by
    unfold tickAggregate
    intro h
    split at h
    · cases h
    · split at h
      · cases h
      · split at h
        · cases h
        · rename_i hlen _ v hv _ e' he'
          rw [if_neg hlen]
          cases h
          exact ⟨rfl, rfl⟩
  by_cases hkind : e.kind = .clock
  · rw [tickEntry_clock A now hkind] at h ⊢
    dsimp only at h ⊢
    have hclock : (tickClock A now e).result = .ok (.publish subject payload) := by
      cases hresult : (tickClock A now e).result with
      | error err =>
        rw [hresult] at h
        cases h
      | ok fired =>
        rw [hresult] at h
        cases h
        rfl
    unfold tickClock at hclock ⊢
    split at hclock
    · cases hclock
    · rename_i hdue
      rw [if_neg hdue]
      cases hc : e.clockKind with
      | aggregate =>
        rw [hc] at hclock
        exact haggregate hclock
      | debounce | sample =>
        rw [hc] at hclock
        cases hclock
        exact ⟨rfl, rfl⟩
      | onSilence | dropout | none =>
        rw [hc] at hclock
        cases hclock
  · have hnone := tickEntry_unclocked A now hkind h
    cases hnone

/-- A slot lends out what it holds. -/
theorem read_of_slotFor {m : Machine N W} {rewritten : Bytes → Bytes → Bytes} {k : StateKey}
    {buffer : SlotBuffer} {text : Bytes} (h : (m.slotFor k).buffer buffer = text) :
    m.read rewritten (.lent ⟨k, buffer, text, text⟩) = text := by
  unfold Machine.slotFor at h
  unfold Machine.read Machine.lender
  dsimp only
  cases hfind : m.slotOf k with
  | none => rfl
  | some e =>
    rw [hfind] at h
    exact if_pos h

/-- What is left of a tick that has come by steps to where it publishes. -/
theorem leads_published {j : ℕ} {reentrant : Bool} {again : Slice → Slice → MachineM N W Bool}
    (hagain : AgainOk (Leads env now m₀) again) {subject payload : Slice}
    {s pl : Bytes} {m : Machine N W} (hs : m.read env.rewritten subject = s)
    (hpl : m.read env.rewritten payload = pl)
    (h : Leads env now m₀ (m.handed env.route s pl) (m.handed env.route s pl)) {x : Bool × Machine N W}
    (hrun : publishCb env again j reentrant subject payload m = some x) :
    Leads env now m₀ x.2 x.2 := by
  rw [run_publishCb, hs] at hrun
  unfold Machine.handed at h
  cases hvalid : publishSubjectValid s with
  | false =>
    rw [if_pos hvalid] at hrun
    rw [hvalid] at h
    cases hrun
    exact h
  | true =>
    have hrouted : ({ m with world := (env.route m.world s pl).1 } : Machine N W) =
        routed env subject payload m := by
      unfold routed
      rw [hs, hpl]
    rw [if_neg (by simp [hvalid])] at hrun
    rw [if_pos hvalid, hrouted] at h
    have hcounted : Leads env now m₀ (countEmitted j (routed env subject payload m))
        (countEmitted j (routed env subject payload m)) := evalCompatible_leads.emitted j h
    split_ifs at hrun with hrefused hreentrant
    · cases hrun
      exact h
    · obtain ⟨y, hagain', heq⟩ := Option.bind_eq_some_iff.mp hrun
      cases heq
      have hrespects : Respects (Leads env now m₀) (again subject payload) :=
        hagain subject payload (fun h => h.1 ▸ rfl) fun h => h.1 ▸ rfl
      exact hrespects.self hcounted hagain'
    · cases hrun
      exact hcounted

/-- The tick of a slot is a run of steps. -/
theorem respects_tickStateEntry_leads (t : Moment) (m₀ : Machine N W) (j : ℕ) (reentrant : Bool)
    (subject : Bytes) (i : ℕ) :
    Respects (Leads env t.nowMs m₀)
      (tickStateEntry env.fuel (tickCtx env t j reentrant subject) i).run := by
  have hsource : KeepsSource (Leads env t.nowMs m₀) := fun h => h.1 ▸ ⟨rfl, rfl, rfl, rfl⟩
  have hagain := respects_evalPublishSlices (@evalCompatible_leads _ _ _ env t.nowMs m₀) t hsource
    (fun _ _ => rfl) (maxReentryDepth - 1)
  have hctx : CtxOk env (fun _ _ now => now = t.nowMs) (Leads env t.nowMs m₀)
      (tickCtx env t j reentrant subject) :=
    ctxOk_held evalCompatible_leads t (fun _ => hagain) rfl []
  rintro m _ ⟨rfl, hm⟩
  obtain ⟨⟨r, m₁⟩, hrun, -⟩ := run_atSlot_spec j i (tickEntry env.alloc t.nowMs) m
  obtain ⟨hkeyed, hafter⟩ := hm.1.tickEntry hrun
  have hquiet : (∀ fires, r = .ok fires → emitted t.nowMs fires = []) →
      Leads env t.nowMs m₀ m₁ m₁ := fun hquiet => Leads.step ⟨rfl, hm⟩ hkeyed (.tick hrun hquiet)
  rw [run_tickStateEntry, run_evalBind]
  change Agree _ (((atSlot j i (tickEntry env.alloc t.nowMs) : EvalM N W _).run m).bind _)
    (((atSlot j i (tickEntry env.alloc t.nowMs) : EvalM N W _).run m).bind _)
  rw [hrun, Option.bind_some]
  generalize hslot : (slotAt (m.ruleState (tickCtx env t j reentrant subject).ruleId) i).key = slot
  cases r with
  | error err => exact .some (Except.error err) (hquiet fun fires hfires => by cases hfires)
  | ok fires =>
    dsimp only
    by_cases hemits : ∃ s pl, fires = .inl (.publish s pl)
    · obtain ⟨s, pl, rfl⟩ := hemits
      rcases hafter with ⟨hnone, -⟩ | ⟨e, hi, hresult, hslots⟩
      · cases hnone _ rfl
      -- the message lies in the buffers of the slot
      have hkey : slot = e.key := by
        rw [← hslot]
        exact congrArg StateEntry.key (slotAt_of_getElem? hi)
      have hlies := lies_of_publish hresult.symm
      have hentry : m₁.slotFor slot = (tickEntry env.alloc t.nowMs e).entry := by
        rw [hslots, if_pos hkey]
      have hs := @read_of_slotFor _ _ _ m₁ env.rewritten slot .emitSubject s
        ((congrArg StateEntry.emitSubject hentry).trans hlies.1)
      have hpl := @read_of_slotFor _ _ _ m₁ env.rewritten slot .bytes pl
        ((congrArg StateEntry.bytes hentry).trans hlies.2)
      have hhanded : Keyed (m₁.handed env.route s pl) := by
        unfold Machine.handed
        split_ifs
        · exact hkeyed
        · exact hkeyed
      have hleads := Leads.step ⟨rfl, hm⟩ hhanded (.emit hi hrun)
      rw [run_finishTick_publish]
      change Agree _ ((publishCb env (evalPublishSlices env t (maxReentryDepth - 1)) j reentrant _ _
        m₁).bind _) ((publishCb env (evalPublishSlices env t (maxReentryDepth - 1)) j reentrant _ _
        m₁).bind _)
      cases hpublish : publishCb env (evalPublishSlices env t (maxReentryDepth - 1)) j reentrant
          (.lent ⟨slot, .emitSubject, s, s⟩) (.lent ⟨slot, .bytes, pl, pl⟩) m₁ with
      | none => exact .none
      | some x =>
        have hend := leads_published hagain hs hpl hleads hpublish
        obtain ⟨ok, m₂⟩ := x
        cases ok with
        | false => exact .some (Except.error EvalError.publishFailed) hend
        | true => exact .some (Except.ok Value.nil) hend
    · have hleads := hquiet fun fires' heq => by
        cases heq
        cases fires with
        | inr close => rfl
        | inl fired =>
          cases fired with
          | publish s pl => exact absurd ⟨s, pl, rfl⟩ hemits
          | nothing | body | form => rfl
      exact respects_finishTick evalCompatible_leads hctx env.fuel
        (lends_of_states (fun h j => h.1 ▸ rfl) slot) fires m₁ m₁ hleads

/-- A tick is a run of steps. -/
theorem steps_tick {t : Moment} {m m' : Machine N W} (h : Keyed m) {ok : Bool}
    (hrun : tick env t m = some (ok, m')) : Keyed m' ∧ ∃ l, Steps env.alloc env.route t.nowMs m l m' := by
  have hleads : Leads env t.nowMs m m m := ⟨rfl, h, [], .nil⟩
  have hrespects : Respects (Leads env t.nowMs m) (tick env t) := by
    apply respects_tick_of (fun j _ _ h => h.1 ▸ rfl)
    · exact respects_tickStateEntry_leads t m
    · exact fun h => h.1 ▸ ⟨rfl, rfl, rfl, rfl⟩
  exact (hrespects.self hleads hrun).2

end Evaluations

end Monoblok.Patchbay
