import Monoblok.Patchbay.SlotMap
import Monoblok.Patchbay.Whole
import Monoblok.Snapshot.Load
import Monoblok.Snapshot.Reachable

/-!
# Rule state across restarts

The states of a rule over lookups, writes to slots and loads of snapshots. A
record names its rule by 32 bits of its number, so that a load can bring the slots
of two rules together in one; where it does not, the keys of every state stay
different and lookups go on as those of a map.
-/

namespace Monoblok.Snapshot

open LittleEndian Patchbay Relational

variable {N W : Type} [Number N]

/-! ## Where slots go -/

theorem colon_notMem_slotOps : ∀ op ∈ slotOps, colon ∉ op := by decide +kernel

omit [Number N] in
theorem splitKey_entryKey {e : StateEntry N} (h : e.op ∈ slotOps) :
    splitKey (entryKey e) = some (e.op, e.subject) := by
  have hop : ∀ b ∈ e.op, (b != colon) = true := by
    intro b hb
    rw [bne_iff_ne]
    rintro rfl
    exact colon_notMem_slotOps e.op h hb
  have htake : (e.op ++ colon :: e.subject).takeWhile (· != colon) = e.op := by
    rw [List.takeWhile_append_of_pos hop]
    simp
  simp [splitKey, entryKey, htake]

theorem key_restore (k : StateKey) (s : Saved N) : (restore (freshEntry k) s).key = k := by
  cases s <;> rfl

/-- The key that a written slot gets in rule `t`. -/
def keyIn (t : ℕ) (filter : Bytes) (x : Slot N) : Option StateKey :=
  if x.1 % 2 ^ 32 = t ∧ x.2.1 = filter then some ⟨t, x.2.2.op, x.2.2.subject⟩ else none

/-- The slots of a program that had none are among those placed in it, in order. -/
structure PlacedIn (p₀ p : Program N) (es : List (Slot N)) : Prop where
  filters : ∀ t : ℕ, (p.rules[t]?).map Rule.filter = (p₀.rules[t]?).map Rule.filter
  index : ∀ rule ∈ p.rules, rule.state.index = []
  keys : ∀ (t : ℕ) rule, p.rules[t]? = some rule →
    rule.state.keys.Sublist (es.filterMap (keyIn t rule.filter))

omit [Number N] in
theorem PlacedIn.fresh {p₀ : Program N} (h : ∀ rule ∈ p₀.rules, rule.state = stateInit) :
    PlacedIn p₀ p₀ [] := by
  constructor
  · intro t
    rfl
  · intro rule hrule
    rw [h rule hrule]
    rfl
  · intro t rule hrule
    rw [h rule (List.mem_of_getElem? hrule)]
    exact List.nil_sublist _

omit [Number N] in
theorem PlacedIn.skip {p₀ p : Program N} {es : List (Slot N)} (h : PlacedIn p₀ p es)
    (x : Slot N) : PlacedIn p₀ p (es ++ [x]) := by
  refine ⟨h.filters, h.index, fun t rule hrule => ?_⟩
  rw [List.filterMap_append]
  exact (h.keys t rule hrule).trans (List.sublist_append_left _ _)

theorem PlacedIn.append {p₀ p p' : Program N} {es : List (Slot N)} (h : PlacedIn p₀ p es)
    {x : Slot N} (hop : x.2.2.op ∈ slotOps) {s : Saved N}
    (happend : appendState p (x.1 % 2 ^ 32) x.2.1 (entryKey x.2.2) s = some p') :
    PlacedIn p₀ p' (es ++ [x]) := by
  unfold appendState at happend
  rw [splitKey_entryKey hop] at happend
  split at happend
  · rename_i rule op subject hrule hkey
    cases hkey
    split_ifs at happend with hfilter
    obtain ⟨st, hst, rfl⟩ := Option.map_eq_some_iff.mp happend
    obtain ⟨cap, -, rfl⟩ := Option.map_eq_some_iff.mp hst
    have hlt : x.1 % 2 ^ 32 < p.rules.length := (List.getElem?_eq_some_iff.mp hrule).1
    constructor
    · intro t
      rw [← h.filters t, List.getElem?_set]
      split_ifs with ht
      · rw [← ht, hrule]
        rfl
      · rfl
    · intro r hr
      rcases List.mem_or_eq_of_mem_set hr with hr | rfl
      · exact h.index r hr
      · exact h.index rule (List.mem_of_getElem? hrule)
    · intro t r hr
      rw [List.getElem?_set] at hr
      rw [List.filterMap_append]
      split_ifs at hr with ht
      · -- the slot goes to this rule, behind those it has
        subst ht
        cases hr
        have hsame : x.2.1 = rule.filter := (eq_of_beq hfilter).symm
        have hnew : [x].filterMap (keyIn (x.1 % 2 ^ 32) rule.filter) =
            [⟨x.1 % 2 ^ 32, x.2.2.op, x.2.2.subject⟩] := by
          simp [keyIn, hsame]
        rw [EvalState.keys, List.map_append, List.map_singleton, key_restore, hnew]
        exact (h.keys _ _ hrule).append (.refl _)
      · exact (h.keys t r hr).trans (List.sublist_append_left _ _)
  · cases happend

theorem PlacedIn.foldl {p₀ p : Program N} {es : List (Slot N)} (h : PlacedIn p₀ p es)
    {xs : List (Slot N)} (hops : ∀ x ∈ xs, x.2.2.op ∈ slotOps) {l : Loading N}
    (hl : l.program = some p) :
    ∃ q, (xs.foldl placeSlot l).program = some q ∧ PlacedIn p₀ q (es ++ xs) := by
  induction xs generalizing l p es with
  | nil => exact ⟨p, hl, by simpa using h⟩
  | cons x xs ih =>
    rw [List.forall_mem_cons] at hops
    have hstep : ∃ q, (placeSlot l x).program = some q ∧ PlacedIn p₀ q (es ++ [x]) := by
      unfold placeSlot placeEntry
      rw [hl]
      dsimp only
      split
      · rename_i q s hq hs
        cases hq
        split
        · exact ⟨_, hl, h.skip x⟩
        · rename_i p' happend
          exact ⟨p', rfl, h.append hops.1 happend⟩
      · exact ⟨p, hl, h.skip x⟩
    obtain ⟨q, hq, hplaced⟩ := hstep
    obtain ⟨q', hq', hplaced'⟩ := ih hplaced hops.2 hq
    exact ⟨q', hq', by simpa using hplaced'⟩

/-! ## Loads of what was built -/

theorem loadRecord_lvc_refused {e : LvcEntry} {bs : Bytes} (h : appendLvcEntry e = some bs)
    (l : Loading N) {r : Router}
    (hstore : lvcStore Alloc.succeeds l.router e.subject e.payload = (r, false)) (rest : Bytes) :
    loadRecord l (bs ++ rest) = none := by
  obtain ⟨hs, hp, rfl⟩ := appendLvcEntry_eq_some h
  simp only [List.cons_append, List.append_assoc, loadRecord, readU8, Option.bind_eq_bind,
    Option.bind_some, if_true, loadLvc, readLenPrefixed_append hs, readLenPrefixed_append hp,
    hstore]

/-- Cached values leave the program alone, into whatever router they are loaded. -/
theorem loadRecords_values {es : List LvcEntry} {bss : List Bytes}
    (h : es.mapM appendLvcEntry = some bss) {l l' : Loading N} {fuel : ℕ} {rest : Bytes}
    (hfuel : (bss.flatten ++ rest).length ≤ fuel)
    (hload : loadRecords fuel l (bss.flatten ++ rest) = some l') :
    ∃ l₁ fuel', l₁.program = l.program ∧ rest.length ≤ fuel' ∧
      loadRecords fuel' l₁ rest = some l' := by
  induction es generalizing l bss fuel with
  | nil =>
    cases h
    exact ⟨l, fuel, rfl, hfuel, hload⟩
  | cons e es ih =>
    rw [List.mapM_cons] at h
    simp only [Option.bind_eq_bind, Option.bind_eq_some_iff, Option.pure_def,
      Option.some.injEq] at h
    obtain ⟨bs, hbs, bss', hbss, rfl⟩ := h
    rw [List.flatten_cons, List.append_assoc] at hfuel hload
    have hne : bs ≠ [] := by
      obtain ⟨-, -, rfl⟩ := appendLvcEntry_eq_some hbs
      exact List.cons_ne_nil _ _
    cases hstore : lvcStore Alloc.succeeds l.router e.subject e.payload with
    | mk r ok =>
      cases ok with
      | true =>
        have hread := loadRecord_lvc hbs l hstore (bss'.flatten ++ rest)
        obtain ⟨fuel', hfuel', heq⟩ := loadRecords_of_some hne hread hfuel
        rw [heq] at hload
        obtain ⟨l₁, fuel₁, hl₁, hrest⟩ := ih hbss hfuel' hload
        exact ⟨l₁, fuel₁, hl₁, hrest⟩
      | false =>
        have hread := loadRecord_lvc_refused hbs l hstore (bss'.flatten ++ rest)
        rw [loadRecords_of_none hne hread] at hload
        cases hload

/-- A load of built bytes that is not refused places the written slots one by one. -/
theorem program_snapshotLoad {r r₀ : Router} {p p₀ : Program N} {bytes : Bytes} {l : Loading N}
    (build : snapshotBuild r (some p) = some bytes)
    (load : snapshotLoad bytes r₀ (some p₀) = some l) :
    ∃ l₀, l₀.program = some p₀ ∧ l = (savedEntries p).foldl placeSlot l₀ := by
  obtain ⟨lvc, slots, hlvc, hslots, rfl⟩ := snapshotBuild_eq_some build
  have hdrop : (header ++ (lvc.flatten ++ slots.flatten)).drop 8 =
      lvc.flatten ++ slots.flatten := List.drop_left' rfl
  have hlen : (lvc.flatten ++ slots.flatten).length ≤
      (header ++ (lvc.flatten ++ slots.flatten)).length := by
    simp
  rw [snapshotLoad, if_pos (headerOk_header _), hdrop] at load
  obtain ⟨l₀, fuel, hl₀, hfuel, hload⟩ := loadRecords_values hlvc hlen load
  have hp : l₀.program.isSome = true := by simp [hl₀]
  rw [loadRecords_slots hslots hp hfuel] at hload
  split_ifs at hload
  exact ⟨l₀, hl₀, (Option.some.inj hload).symm⟩

/-! ## Rules apart -/

/-- No two rules whose numbers agree in 32 bits, and that have the filter of the
loading rule of that number, have slots of one operation and subject to write. -/
def RulesApart (p p₀ : Program N) : Prop :=
  ∀ (i j : ℕ) (ri rj : Rule N), p.rules[i]? = some ri → p.rules[j]? = some rj → i ≠ j →
    i % 2 ^ 32 = j % 2 ^ 32 → ri.filter = rj.filter →
    (p₀.rules[i % 2 ^ 32]?).map Rule.filter = some ri.filter →
    ∀ e ∈ ri.state.items, ∀ e' ∈ rj.state.items, e.kind ≠ .clock → e'.kind ≠ .clock →
      (e.op, e.subject) ≠ (e'.op, e'.subject)

omit [Number N] in
/-- So it is as long as the numbers of rules fit in 32 bits. -/
theorem rulesApart_of_length {p : Program N} (h : p.rules.length ≤ 2 ^ 32) (p₀ : Program N) :
    RulesApart p p₀ := by
  intro i j ri rj hi hj hne hmod
  have hi' := (List.getElem?_eq_some_iff.mp hi).1
  have hj' := (List.getElem?_eq_some_iff.mp hj).1
  rw [Nat.mod_eq_of_lt (by omega), Nat.mod_eq_of_lt (by omega)] at hmod
  exact absurd hmod hne

/-- The slots of rule `i`, under its number and the operations of the forms. -/
structure OwnKeys (i : ℕ) (st : EvalState N) : Prop where
  indexed : StateIndexed st
  own : ∀ k ∈ st.keys, k.ruleId = i ∧ k.op ∈ slotOps

omit [Number N] in
/-- Two written slots are of one rule or of two. -/
theorem pairwise_savedEntries {p : Program N} {R : Slot N → Slot N → Prop}
    (hsame : ∀ (i : ℕ) r, p.rules[i]? = some r →
      r.state.items.Pairwise fun e e' => R (i, r.filter, e) (i, r.filter, e'))
    (hother : ∀ (i j : ℕ) ri rj, p.rules[i]? = some ri → p.rules[j]? = some rj → i ≠ j →
      ∀ e ∈ ri.state.items, ∀ e' ∈ rj.state.items, e.kind ≠ .clock → e'.kind ≠ .clock →
        R (i, ri.filter, e) (j, rj.filter, e')) :
    (savedEntries p).Pairwise R := by
  unfold savedEntries
  apply List.pairwise_flatMap.mpr
  constructor
  · rintro ⟨r, i⟩ hr
    rw [List.mem_zipIdx_iff_getElem?] at hr
    exact List.pairwise_map.mpr ((hsame i r hr).filter _)
  · rw [List.pairwise_iff_getElem]
    intro i j hi hj hlt x hx y hy
    rw [List.length_zipIdx] at hi hj
    simp only [List.getElem_zipIdx, Nat.zero_add] at hx hy
    obtain ⟨e, he, rfl⟩ := List.mem_map.mp hx
    obtain ⟨e', he', rfl⟩ := List.mem_map.mp hy
    rw [List.mem_filter, bne_iff_ne] at he he'
    exact hother i j _ _ (List.getElem?_eq_getElem hi) (List.getElem?_eq_getElem hj) hlt.ne
      e he.1 e' he'.1 he.2 he'.2

omit [Number N] in
/-- The keys that the written slots get in a rule are different. -/
theorem nodup_keyIn {p p₀ : Program N}
    (hown : ∀ (i : ℕ) r, p.rules[i]? = some r → OwnKeys i r.state) (apart : RulesApart p p₀)
    {t : ℕ} {filter : Bytes} (ht : (p₀.rules[t]?).map Rule.filter = some filter) :
    ((savedEntries p).filterMap (keyIn t filter)).Nodup := by
  apply List.pairwise_filterMap.mpr
  apply pairwise_savedEntries
  · intro i r hr
    have hkeys := List.pairwise_map.mp (hown i r hr).indexed.nodup
    have hid : ∀ e ∈ r.state.items, e.ruleId = i := fun e he =>
      ((hown i r hr).own e.key (List.mem_map_of_mem he)).1
    apply hkeys.imp_of_mem
    intro e e' he he' hne k hk k' hk' heq
    unfold keyIn at hk hk'
    split_ifs at hk hk' with hplace
    cases hk
    cases hk'
    injection heq with _ hop hsubject
    apply hne
    rw [StateEntry.key, StateEntry.key, hid e he, hid e' he']
    exact congrArg₂ (StateKey.mk i) hop hsubject
  · intro i j ri rj hi hj hne e he e' he' hclock hclock' k hk k' hk' heq
    unfold keyIn at hk hk'
    split_ifs at hk hk' with hplace hplace'
    cases hk
    cases hk'
    injection heq with _ hop hsubject
    obtain ⟨rfl, rfl⟩ := hplace
    exact apart i j ri rj hi hj hne hplace'.1.symm hplace'.2.symm ht e he e' he' hclock hclock'
      (Prod.ext hop hsubject)

/-! ## States of a rule -/

/-- The states that rule `i` comes to by lookups, with what memory there is, by
writes to its slots, and by loads of a built snapshot into a fresh program, where
the two programs are related as `Loads` says. -/
inductive RuleState (Loads : Program N → Program N → Prop) : ℕ → EvalState N → Prop
  | fresh (i : ℕ) : RuleState Loads i stateInit
  | lookup {i : ℕ} {st : EvalState N} (h : RuleState Loads i st) (early A : EvalAlloc → Bool)
      {op : Bytes} (hop : op ∈ slotOps) (subject : Bytes) :
      RuleState Loads i (stateSlotWith early A st ⟨i, op, subject⟩).1
  | write {i : ℕ} {st : EvalState N} (h : RuleState Loads i st) (j : ℕ) {e : StateEntry N}
      (key : e.key = (slotAt st j).key) : RuleState Loads i (setSlot st j e)
  | load {p p₀ q : Program N} {r r₀ : Router} {bytes : Bytes} {l : Loading N} {i : ℕ}
      {rule : Rule N}
      (written : ∀ (j : ℕ) rule, p.rules[j]? = some rule → RuleState Loads j rule.state)
      (fresh : ∀ rule ∈ p₀.rules, rule.state = stateInit) (loads : Loads p p₀)
      (build : snapshotBuild r (some p) = some bytes)
      (load : snapshotLoad bytes r₀ (some p₀) = some l) (program : l.program = some q)
      (hrule : q.rules[i]? = some rule) : RuleState Loads i rule.state

theorem OwnKeys.lookup {i : ℕ} {st : EvalState N} (h : OwnKeys i st)
    (early A : EvalAlloc → Bool) {op : Bytes} (hop : op ∈ slotOps) (subject : Bytes) :
    OwnKeys i (stateSlotWith early A st ⟨i, op, subject⟩).1 := by
  have hfound := h.indexed.foundWith early A ⟨i, op, subject⟩
  generalize stateSlotWith early A st ⟨i, op, subject⟩ = x at hfound ⊢
  have hkept : ∀ {st' : EvalState N}, st'.items = st.items →
      ∀ k ∈ st'.keys, k.ruleId = i ∧ k.op ∈ slotOps := by
    intro st' hitems k hk
    rw [EvalState.keys, hitems] at hk
    exact h.own k hk
  cases hfound with
  | failed hindexed hitems => exact ⟨hindexed, hkept hitems⟩
  | old hindexed hitems _ _ => exact ⟨hindexed, hkept hitems⟩
  | new hindexed _ hitems =>
    refine ⟨hindexed, fun k hk => ?_⟩
    rw [EvalState.keys, hitems, keys_append_fresh, List.mem_append] at hk
    rcases hk with hk | hk
    · exact h.own k hk
    · rw [List.mem_singleton.mp hk]
      exact ⟨rfl, hop⟩

theorem OwnKeys.write {i : ℕ} {st : EvalState N} (h : OwnKeys i st) {j : ℕ} {e : StateEntry N}
    (hkey : e.key = (slotAt st j).key) : OwnKeys i (setSlot st j e) := by
  refine ⟨h.indexed.setSlot hkey, ?_⟩
  rw [keys_setSlot hkey]
  exact h.own

/-- A load leaves a rule with some of the slots that were written, in order, and
without an index. -/
theorem OwnKeys.load {p p₀ q : Program N} {r r₀ : Router} {bytes : Bytes} {l : Loading N} {i : ℕ}
    {rule : Rule N} (written : ∀ (j : ℕ) rule, p.rules[j]? = some rule → OwnKeys j rule.state)
    (fresh : ∀ rule ∈ p₀.rules, rule.state = stateInit) (apart : RulesApart p p₀)
    (build : snapshotBuild r (some p) = some bytes)
    (load : snapshotLoad bytes r₀ (some p₀) = some l) (program : l.program = some q)
    (hrule : q.rules[i]? = some rule) : OwnKeys i rule.state := by
  obtain ⟨l₀, hl₀, rfl⟩ := program_snapshotLoad build load
  have hops : ∀ x ∈ savedEntries p, x.2.2.op ∈ slotOps := by
    intro x hx
    obtain ⟨⟨r', j⟩, hr, hx⟩ := List.mem_flatMap.mp hx
    obtain ⟨e, he, rfl⟩ := List.mem_map.mp hx
    have hown := written j r' (List.mem_zipIdx_iff_getElem?.mp hr)
    exact (hown.own e.key (List.mem_map_of_mem (List.mem_filter.mp he).1)).2
  obtain ⟨q', hq', hplaced⟩ := (PlacedIn.fresh fresh).foldl hops hl₀
  obtain rfl : q' = q := Option.some.inj (hq'.symm.trans program)
  have hfilter : (p₀.rules[i]?).map Rule.filter = some rule.filter := by
    rw [← hplaced.filters i, hrule]
    rfl
  have hkeys := hplaced.keys i rule hrule
  rw [List.nil_append] at hkeys
  constructor
  · exact ⟨hkeys.nodup (nodup_keyIn written apart hfilter),
      .inl (hplaced.index rule (List.mem_of_getElem? hrule))⟩
  · intro k hk
    obtain ⟨x, hx, hxk⟩ := List.mem_filterMap.mp (hkeys.subset hk)
    unfold keyIn at hxk
    split_ifs at hxk
    cases hxk
    exact ⟨rfl, hops x hx⟩

theorem RuleState.ownKeys {i : ℕ} {st : EvalState N} (h : RuleState RulesApart i st) :
    OwnKeys i st := by
  induction h with
  | fresh i => exact ⟨stateIndexed_init, fun k hk => by cases hk⟩
  | lookup _ early A hop subject ih => exact ih.lookup early A hop subject
  | write _ j key ih => exact ih.write key
  | load _ fresh apart build load program hrule ih =>
    exact OwnKeys.load ih fresh apart build load program hrule

/-! ## Running programs -/

section Running

variable {Loads : Program N → Program N → Prop}

theorem RuleState.stepAt {i : ℕ} {st : EvalState N} (h : RuleState Loads i st) {α : Type}
    {f : StateEntry N → SlotStep N α} (hf : ∀ e, (f e).entry.key = e.key) (j : ℕ) :
    RuleState Loads i (stepAt f j st).2 :=
  h.write j (hf _)

theorem RuleState.slotStep {i : ℕ} {st : EvalState N} (h : RuleState Loads i st) {α : Type}
    {f : StateEntry N → SlotStep N α} (hf : ∀ e, (f e).entry.key = e.key)
    (A : EvalAlloc → Bool) {op : Bytes} (hop : op ∈ slotOps) (subject : Bytes) :
    RuleState Loads i (slotStep A ⟨i, op, subject⟩ f st).2 := by
  have hlookup := h.lookup A A hop subject
  change RuleState Loads i (stateSlotIn A st ⟨i, op, subject⟩).1 at hlookup
  unfold Patchbay.slotStep
  generalize stateSlotIn A st ⟨i, op, subject⟩ = x at hlookup ⊢
  obtain ⟨st', j⟩ := x
  cases j with
  | none => exact hlookup
  | some j => exact hlookup.stepAt hf j

/-- The same machine, each of its rules in such a state. -/
abbrev WithStates (Loads : Program N → Program N → Prop) : Machine N W → Machine N W → Prop :=
  Linked (fun p p' => p = p') (fun j st st' => st = st' ∧ RuleState Loads j st) fun w w' => w = w'

theorem compatible_withStates (Loads : Program N → Program N → Prop) (env : Env N W) :
    Compatible env (WithStates Loads) := by
  have hlink : LinkOk env (fun _ _ _ => True) (fun p p' => p = p')
      (fun j st st' => st = st' ∧ RuleState Loads j st) fun w w' => w = w' := by
    refine ⟨?_, ?_, ?_⟩
    · rintro p _ rfl j -
      exact Iff.rfl
    · rintro j s now - α op f hform st _ ⟨rfl, hst⟩
      exact ⟨rfl, rfl, hst.slotStep hform.key env.alloc hform.op_mem s⟩
    · rintro subject payload w _ rfl
      exact ⟨rfl, rfl⟩
  refine hlink.compatible ?_ And.left
  refine ⟨?_, ?_, ?_, ?_⟩
  · rintro j i now st _ ⟨rfl, hst⟩
    exact ⟨rfl, rfl, hst.stepAt (key_tickClock env.alloc now) i⟩
  · rintro j i now st _ ⟨rfl, hst⟩
    exact ⟨rfl, rfl, hst.stepAt (key_tickWindow now) i⟩
  · rintro j st _ ⟨rfl, -⟩
    rfl
  · rintro j st _ ⟨rfl, -⟩
    rfl

/-- The machines of a chain of runs, each but the first started from a snapshot of
the one before, with what memory there is. -/
inductive Restarting (Loads : Program N → Program N → Prop) : Machine N W → Prop
  | start (rules : List (RuleSource N)) (usesClock : Bool) (world : W) :
      Restarting Loads ⟨loadProgram rules usesClock, world⟩
  | publish {m m' : Machine N W} (h : Restarting Loads m) (env : Env N W) (t : Moment)
      (subject payload : Bytes) {ok : Bool}
      (run : evalPublish env t subject payload m = some (ok, m')) : Restarting Loads m'
  | tick {m m' : Machine N W} (h : Restarting Loads m) (env : Env N W) (t : Moment) {ok : Bool}
      (run : tick env t m = some (ok, m')) : Restarting Loads m'
  | tickUntil {m m' : Machine N W} (h : Restarting Loads m) (env : Env N W) (t : Moment)
      {ok : Bool} (run : tickUntil env t m = some (ok, m')) : Restarting Loads m'
  | restart {m : Machine N W} (h : Restarting Loads m) {r r₀ : Router} {bytes : Bytes}
      {l : Loading N} {q : Program N} (rules : List (RuleSource N)) (usesClock : Bool) (world : W)
      (loads : Loads m.program (loadProgram rules usesClock))
      (build : snapshotBuild r (some m.program) = some bytes)
      (load : snapshotLoad bytes r₀ (some (loadProgram rules usesClock)) = some l)
      (program : l.program = some q) : Restarting Loads ⟨q, world⟩

omit [Number N] in
theorem state_loadProgram {rules : List (RuleSource N)} {usesClock : Bool} :
    ∀ rule ∈ (loadProgram rules usesClock).rules, rule.state = stateInit := by
  intro rule hrule
  obtain ⟨src, -, rfl⟩ := List.mem_map.mp hrule
  rfl

omit [Number N] in
theorem ruleState_of_getElem? {m : Machine N W} {j : ℕ} {rule : Rule N}
    (h : m.program.rules[j]? = some rule) : m.ruleState j = rule.state := by
  rw [Machine.ruleState, h]
  rfl

theorem Restarting.ruleState {m : Machine N W} (h : Restarting Loads m) (j : ℕ) :
    RuleState Loads j (m.ruleState j) := by
  have hself : ∀ {m : Machine N W}, (∀ j, RuleState Loads j (m.ruleState j)) →
      WithStates Loads m m := fun h => ⟨rfl, fun j => ⟨rfl, h j⟩, rfl⟩
  have hstates : ∀ {m : Machine N W}, (∀ (j : ℕ) rule, m.program.rules[j]? = some rule →
      RuleState Loads j rule.state) → ∀ j, RuleState Loads j (m.ruleState j) := by
    intro m h j
    cases hj : m.program.rules[j]? with
    | none =>
      rw [Machine.ruleState, hj]
      exact .fresh j
    | some rule =>
      rw [ruleState_of_getElem? hj]
      exact h j rule hj
  induction h generalizing j with
  | start rules usesClock world =>
    apply hstates
    intro j rule hrule
    rw [state_loadProgram rule (List.mem_of_getElem? hrule)]
    exact .fresh j
  | publish _ env t subject payload run ih =>
    have hrespects := respects_evalPublish (compatible_withStates Loads env) t subject payload
    exact ((hrespects.self (hself ih) run).states j).2
  | tick _ env t run ih =>
    have hrespects := respects_tick (compatible_withStates Loads env) t
    exact ((hrespects.self (hself ih) run).states j).2
  | tickUntil _ env t run ih =>
    have hrespects := respects_tickUntil (compatible_withStates Loads env) t
    exact ((hrespects.self (hself ih) run).states j).2
  | @restart m r r₀ bytes l q _ rules usesClock world loads build load program ih =>
    apply hstates
    intro j rule hrule
    apply RuleState.load _ state_loadProgram loads build load program hrule
    intro j rule hrule
    rw [← ruleState_of_getElem? hrule]
    exact ih j

end Running

/-! ## States are maps -/

theorem RuleState.slotMap {i : ℕ} {st : EvalState N} (h : RuleState RulesApart i st)
    (calls : List SlotLookup) : SlotMap (runLookups st calls) :=
  (h.ownKeys.indexed.lookups calls).slotMap

/-- A state of a rule is a map, and stays one through further lookups. So are the states
that the rules of a program are in while it runs, restarts included. -/
theorem RuleState.slotMap_lookups (N W : Type) [Number N] :
    (∀ {i : ℕ} {st : EvalState N}, RuleState RulesApart i st →
      ∀ calls : List SlotLookup, SlotMap (runLookups st calls)) ∧
      ∀ {m : Machine N W}, Restarting RulesApart m →
        ∀ (j : ℕ) (calls : List SlotLookup), SlotMap (runLookups (m.ruleState j) calls) :=
  ⟨fun h calls => h.slotMap calls, fun h j calls => (h.ruleState j).slotMap calls⟩

/-- `(on "a" (count!))` -/
def countRule : RuleSource ℤ := ⟨lit "a", .list [.symbol (lit "count!")], false⟩

/-- `(on "b" (count!))` -/
def idleRule : RuleSource ℤ := ⟨lit "b", .list [.symbol (lit "count!")], false⟩

/-- Two rules for `a`, and `n` others between them. -/
def countRules (n : ℕ) : List (RuleSource ℤ) :=
  countRule :: (List.replicate n idleRule ++ [countRule])

/-- The state of rule `j` after a message on `a`. -/
def counted (j : ℕ) : EvalState ℤ :=
  (slotStep (fun _ => true) ⟨j, lit "count", lit "a"⟩ countNext stateInit).2

/-- Those rules after a message on `a`. -/
def countedProgram (n : ℕ) : Program ℤ :=
  { loadProgram (countRules n) false with
    rules := { countRule.load with state := counted 0 } ::
      (List.replicate n idleRule.load ++ [{ countRule.load with state := counted (n + 1) }]) }

theorem ruleState_counted (Loads : Program ℤ → Program ℤ → Prop) (n j : ℕ) (rule : Rule ℤ)
    (h : (countedProgram n).rules[j]? = some rule) : RuleState Loads j rule.state := by
  have hcounted : ∀ j, RuleState Loads j (counted j) := fun j =>
    (RuleState.fresh j).slotStep (fun _ => rfl) _ (by decide) (lit "a")
  cases j with
  | zero =>
    cases h
    exact hcounted 0
  | succ j =>
    change (List.replicate n idleRule.load ++ _)[j]? = some rule at h
    rw [List.getElem?_append, List.length_replicate] at h
    split_ifs at h with hj
    · rw [List.getElem?_replicate, if_pos hj] at h
      cases h
      exact .fresh _
    · obtain rfl : j = n := by
        have := (List.getElem?_eq_some_iff.mp h).1
        simp only [List.length_singleton] at this
        omega
      rw [Nat.sub_self] at h
      cases h
      exact hcounted _

theorem source_counted (n : ℕ) :
    (countedProgram n).source = (loadProgram (countRules n) false).source := by
  simp [countedProgram, Program.source, loadProgram, countRules, RuleSource.load]

/-- The slot of rule `j`. -/
def countSlot (j : ℕ) : StateEntry ℤ :=
  (countNext (freshEntry ⟨j, lit "count", lit "a"⟩)).entry

theorem items_counted (j : ℕ) : (counted j).items = [countSlot j] := rfl

def countSlots (n : ℕ) : List (Slot ℤ) :=
  [(0, lit "a", countSlot 0), (n + 1, lit "a", countSlot (n + 1))]

theorem savedEntries_counted (n : ℕ) : savedEntries (countedProgram n) = countSlots n := by
  have hidle : ((List.replicate n idleRule.load).zipIdx 1).flatMap (fun r =>
      (r.1.state.items.filter fun e => e.kind != .clock).map fun e => (r.2, r.1.filter, e)) =
        [] := by
    apply List.flatMap_eq_nil_iff.mpr
    rintro ⟨r, i⟩ hr
    rw [List.eq_of_mem_replicate (List.fst_mem_of_mem_zipIdx hr)]
    rfl
  have hkind : ∀ j, ((countSlot j).kind != .clock) = true := fun j => rfl
  unfold savedEntries countedProgram
  dsimp only
  rw [List.zipIdx_cons, List.flatMap_cons, List.zipIdx_append, List.flatMap_append, hidle]
  simp [items_counted, hkind, countRule, RuleSource.load, Nat.add_comm, countSlots]

def countBytes (n : ℕ) : Bytes := header ++ ((appendSlots (countSlots n)).getD []).flatten

theorem snapshotBuild_counted (n : ℕ) :
    snapshotBuild routerInit (some (countedProgram n)) = some (countBytes n) := by
  have hslots : ∃ bss, appendSlots (countSlots n) = some bss := ⟨_, rfl⟩
  obtain ⟨bss, hbss⟩ := hslots
  have hstate : appendRuleState (countedProgram n) = some bss.flatten := by
    rw [appendRuleState, savedEntries_counted]
    exact congrArg (Option.map List.flatten) hbss
  simp [snapshotBuild, countBytes, hstate, hbss, routerInit]

/-- The keys of the first rule after the rules are loaded again. -/
def firstKeys (n : ℕ) : Option (List StateKey) :=
  ((snapshotLoad (countBytes n) routerInit (some (loadProgram (countRules n) false))).bind
    Loading.program).bind fun q => q.rules[0]?.map fun rule => rule.state.keys

theorem ruleState_loaded (Loads : Program ℤ → Program ℤ → Prop) {n : ℕ} {keys : List StateKey}
    (h : firstKeys n = some keys)
    (loads : Loads (countedProgram n) (loadProgram (countRules n) false)) :
    ∃ st, RuleState Loads 0 st ∧ st.keys = keys := by
  obtain ⟨q, hq, hkeys⟩ := Option.bind_eq_some_iff.mp h
  obtain ⟨l, load, program⟩ := Option.bind_eq_some_iff.mp hq
  obtain ⟨rule, hrule, rfl⟩ := Option.map_eq_some_iff.mp hkeys
  exact ⟨rule.state, .load (ruleState_counted Loads n) state_loadProgram loads
    (snapshotBuild_counted n) load program hrule, rfl⟩

/-- Lookups of twelve subjects, with no memory for an index at the ninth. -/
def twelveLookups : List SlotLookup :=
  (List.range 12).map fun i =>
    ⟨fun _ => i != 8, fun _ => true, ⟨0, lit "count", [0x61 + UInt8.ofNat i]⟩⟩

theorem slotMap_lookups_loaded :
    ∃ st : EvalState ℤ, st.keys = [⟨0, lit "count", lit "a"⟩] ∧
      SlotMap (runLookups st twelveLookups) := by
  have hfirst : firstKeys 1 = some [⟨0, lit "count", lit "a"⟩] := by decide +kernel
  obtain ⟨st, hst, hkeys⟩ := ruleState_loaded RulesApart hfirst
    (rulesApart_of_length (by simp [countedProgram]) _)
  exact ⟨st, hkeys, (RuleState.slotMap_lookups ℤ Unit).1 hst twelveLookups⟩

/-- Rule `2 ^ 32` comes back as rule 0, which has a counter of its own for `a`. -/
theorem keys_collide :
    ∃ st : EvalState ℤ, RuleState (fun p p₀ => p₀.source = p.source) 0 st ∧
      ¬ st.keys.Nodup ∧ ¬ SlotMap st := by
  have hfirst : firstKeys (2 ^ 32 - 1) =
      some [⟨0, lit "count", lit "a"⟩, ⟨0, lit "count", lit "a"⟩] := by
    decide +kernel
  obtain ⟨st, hst, hkeys⟩ := ruleState_loaded (fun p p₀ => p₀.source = p.source) hfirst
    (source_counted _).symm
  have hnodup : ¬ st.keys.Nodup := by
    rw [hkeys]
    decide
  exact ⟨st, hst, hnodup, fun h => hnodup h.agrees.distinct⟩

end Monoblok.Snapshot
