import Monoblok.Patchbay.Lookup
import Monoblok.Router.Agreement

/-!
# Rule state as a map

A lookup returns the one slot of its key or appends a fresh one, and changes
nothing else. The index agrees with the slots before the lookup, between its two
requests for memory and after it, so that every loop of it ends.
-/

namespace Monoblok.Patchbay

open OpenAddressing

variable {N : Type} [Number N]

/-- What a lookup does: the slot of the key is found, or the fresh one is the only
addition, or there is no slot because memory ran out. -/
structure SlotCall (st : EvalState N) (k : StateKey) (noMemory : Prop)
    (r : EvalState N × Option ℕ) : Prop where
  agrees : Agrees stateKeyHash r.1.keys r.1.index
  there : ∀ i, st.keys[i]? = some k → r.2 = some i ∧ r.1.items = st.items
  fresh : k ∉ st.keys → (r.2 = some st.items.length ∧ r.1.items = st.items ++ [freshEntry k]) ∨
    (r.2 = none ∧ r.1.items = st.items ∧ noMemory)

/-- Some request is refused, or the slots already take more than 2 ^ 61 bytes. -/
def NoMemory (A : EvalAlloc → Bool) (st : EvalState N) : Prop :=
  (∃ site, A site = false) ∨ 2 ^ 53 ≤ st.items.length

/-- The keys of a state are different, its index agrees with them, and lookups keep
it so. -/
structure SlotMap (st : EvalState N) : Prop where
  agrees : Agrees stateKeyHash st.keys st.index
  prepared : ∀ early, Agrees stateKeyHash (stateIndexPrepare early st).keys
    (stateIndexPrepare early st).index
  rebuilt : ∀ early ok st', stateIndexRebuild ok (stateIndexPrepare early st)
      (st.items.length + 1) = some st' → Agrees stateKeyHash st'.keys st'.index ∧ st'.index ≠ []
  call : ∀ early A k, SlotCall st k (NoMemory A st) (stateSlotWith early A st k)

omit [Number N] in
theorem getElem?_keys {st : EvalState N} {i : ℕ} {e : StateEntry N} (h : st.items[i]? = some e) :
    st.keys[i]? = some e.key := by
  rw [EvalState.keys, List.getElem?_map, h, Option.map_some]

/-- A slot that is there is found where it is. -/
theorem StateIndexed.slotWith_there {st : EvalState N} (h : StateIndexed st)
    (early A : EvalAlloc → Bool) {k : StateKey} {i : ℕ} (hi : st.keys[i]? = some k) :
    stateSlotWith early A st k = (stateIndexPrepare early st, some i) := by
  obtain ⟨hindexed, hitems, -⟩ := h.prepare early
  have hkeys : (stateIndexPrepare early st).keys = st.keys := by
    rw [EvalState.keys, hitems]
    rfl
  have hfind := (indexFind_iff hindexed k i).mpr (hkeys ▸ hi)
  simp [stateSlotWith, hfind]

theorem StateIndexed.call {st : EvalState N} (h : StateIndexed st) (early A : EvalAlloc → Bool)
    (k : StateKey) : SlotCall st k (NoMemory A st) (stateSlotWith early A st k) := by
  have hfound := h.foundWith early A k
  have hmemory : (stateSlotWith early A st k).2 = none → NoMemory A st := by
    intro hnone
    by_contra hno
    simp only [NoMemory, not_or, not_exists, Bool.not_eq_false, not_le] at hno
    have hsome := h.foundWith_isSome hno.2 early hno.1 k
    simp [hnone] at hsome
  constructor
  · generalize stateSlotWith early A st k = r at hfound
    cases hfound with
    | failed hindexed _ => exact Indexed.agrees hindexed
    | old hindexed _ _ _ => exact Indexed.agrees hindexed
    | new hindexed _ _ => exact Indexed.agrees hindexed
  · intro i hi
    rw [h.slotWith_there early A hi]
    exact ⟨rfl, (h.prepare early).2.1⟩
  · intro hnew
    generalize stateSlotWith early A st k = r at hfound hmemory
    cases hfound with
    | failed _ hitems => exact .inr ⟨rfl, hitems, hmemory rfl⟩
    | old _ _ hi hkey =>
      exact absurd (List.mem_of_getElem? (hkey ▸ getElem?_keys hi)) hnew
    | new _ _ hitems => exact .inl ⟨rfl, hitems⟩

theorem StateIndexed.slotMap {st : EvalState N} (h : StateIndexed st) : SlotMap st := by
  constructor
  · exact Indexed.agrees h
  · exact fun early => Indexed.agrees (h.prepare early).1
  · intro early ok st' hst'
    obtain ⟨hindexed, hitems, -⟩ := h.prepare early
    unfold stateIndexRebuild at hst'
    obtain ⟨index, hensure, rfl⟩ := Option.map_eq_some_iff.mp hst'
    have hlen : (stateIndexPrepare early st).keys.length = st.items.length := by
      rw [EvalState.keys, hitems, List.length_map]
    rw [← hlen] at hensure
    exact Indexed.ready hindexed ⟨0, [], []⟩ hensure
  · exact h.call

/-! ## Runs of lookups -/

/-- A lookup with the answers of memory to it. -/
structure SlotLookup where
  early : EvalAlloc → Bool
  alloc : EvalAlloc → Bool
  key : StateKey

def runLookups (st : EvalState N) (calls : List SlotLookup) : EvalState N :=
  calls.foldl (fun st c => (stateSlotWith c.early c.alloc st c.key).1) st

theorem StateIndexed.afterLookup {st : EvalState N} (h : StateIndexed st)
    (early A : EvalAlloc → Bool) (k : StateKey) : StateIndexed (stateSlotWith early A st k).1 := by
  have hfound := h.foundWith early A k
  generalize stateSlotWith early A st k = r at hfound
  cases hfound with
  | failed hindexed _ => exact hindexed
  | old hindexed _ _ _ => exact hindexed
  | new hindexed _ _ => exact hindexed

theorem StateIndexed.lookups {st : EvalState N} (h : StateIndexed st) (calls : List SlotLookup) :
    StateIndexed (runLookups st calls) := by
  induction calls generalizing st with
  | nil => exact h
  | cons c calls ih => exact ih (h.afterLookup c.early c.alloc c.key)

end Monoblok.Patchbay
