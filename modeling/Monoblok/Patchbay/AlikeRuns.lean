import Monoblok.Patchbay.Alike
import Monoblok.Patchbay.SlotMap

/-!
# Runs from states alike

States with the same slots up to what no form can see, of the same capacity. Each
may have its index or be without: with memory both find the same slot, get the same
new one, or are refused the same. So whole runs from such states cannot be told
apart.
-/

namespace Monoblok.Patchbay

open OpenAddressing Number Relational

variable {N W : Type}

/-! ## SlotAlike is transitive -/

section Transitive

theorem SameRing.trans {e e' e'' : StateEntry N} (h : SameRing e e') (h' : SameRing e' e'') :
    SameRing e e'' where
  inRing := h.inRing
  inRing' := h'.inRing'
  timeWindow := h'.timeWindow.trans h.timeWindow
  windowMs htime := (h'.windowMs (h.timeWindow.trans htime)).trans (h.windowMs htime)
  values := h'.values.trans h.values
  sum := h'.sum.trans h.sum
  samples htime := (h'.samples (h.timeWindow.trans htime)).trans (h.samples htime)
  cap htime := by
    obtain ⟨hcap, hcap'⟩ := h.cap htime
    exact ⟨hcap, (h'.cap (h.timeWindow.trans htime)).2.trans hcap'⟩

theorem BarAlike.trans {e e' e'' : StateEntry N} (h : BarAlike e e') (h' : BarAlike e' e'') :
    BarAlike e e'' where
  openEq := h'.openEq.trans h.openEq
  high := h'.high.trans h.high
  low := h'.low.trans h.low
  lastClose := h'.lastClose.trans h.lastClose
  count := h'.count.trans h.count
  cap := h'.cap.trans h.cap
  windowStart := h'.windowStart.trans h.windowStart
  timeWindow := h'.timeWindow.trans h.timeWindow
  windowMs htime := (h'.windowMs (h.timeWindow.trans htime)).trans (h.windowMs htime)

theorem SameSlot.trans {e e' e'' : StateEntry N} (h : SameSlot e e') (h' : SameSlot e' e'') :
    SameSlot e e'' where
  key := h'.key.trans h.key
  kind := h'.kind.trans h.kind
  op := h.op
  idle := h.idle
  idle' := h'.idle'
  contents := by
    have hkind' := h.kind
    cases hkind : e.kind with
    | empty => exact absurd hkind h.not_empty
    | clock => exact absurd hkind h.not_clock
    | number =>
      rw [hkind] at hkind'
      rw [SameContents, hkind]
      exact (h'.number hkind').trans (h.number hkind)
    | bytes =>
      rw [hkind] at hkind'
      rw [SameContents, hkind]
      exact (h'.bytes hkind').trans (h.bytes hkind)
    | ring =>
      rw [hkind] at hkind'
      rw [SameContents, hkind]
      exact (h.ring hkind).trans (h'.ring hkind')
    | bar =>
      rw [hkind] at hkind'
      rw [SameContents, hkind]
      exact (h.bar hkind).trans (h'.bar hkind')

theorem SlotAlike.trans {e e' e'' : StateEntry N} (h : SlotAlike e e') (h' : SlotAlike e' e'') :
    SlotAlike e e'' := by
  cases h with
  | refl => exact h'
  | same h =>
    cases h' with
    | refl => exact .same h
    | same h' => exact .same (h.trans h')

end Transitive

/-! ## Slot by slot -/

section Items

variable {R : StateEntry N → StateEntry N → Prop} {l l' l'' : List (StateEntry N)}

theorem forall₂_trans (hR : ∀ {e e' e''}, R e e' → R e' e'' → R e e'') (h : List.Forall₂ R l l')
    (h' : List.Forall₂ R l' l'') : List.Forall₂ R l l'' := by
  induction h generalizing l'' with
  | nil => exact h'
  | cons hfirst _ ih =>
    cases h' with
    | cons hfirst' hrest' => exact .cons (hR hfirst hfirst') (ih hrest')

theorem forall₂_set (h : List.Forall₂ R l l') {e e' : StateEntry N} (he : R e e') (i : ℕ) :
    List.Forall₂ R (l.set i e) (l'.set i e') := by
  induction h generalizing i with
  | nil => exact .nil
  | cons hfirst hrest ih =>
    cases i with
    | zero => exact .cons he hrest
    | succ i => exact .cons hfirst (ih i)

theorem forall₂_getElem? (h : List.Forall₂ R l l') {i : ℕ} {e : StateEntry N}
    (hi : l[i]? = some e) : ∃ e', l'[i]? = some e' ∧ R e e' := by
  induction h generalizing i with
  | nil => simp at hi
  | cons hfirst hrest ih =>
    cases i with
    | zero =>
      obtain rfl := Option.some.inj hi
      exact ⟨_, rfl, hfirst⟩
    | succ i => exact ih hi

/-- What is read of slots alike one by one. -/
theorem map_forall₂ {α : Type} {f : StateEntry N → α} (hf : ∀ {e e'}, R e e' → f e' = f e)
    (h : List.Forall₂ R l l') : l'.map f = l.map f := by
  induction h with
  | nil => rfl
  | cons hfirst _ ih => rw [List.map_cons, List.map_cons, hf hfirst, ih]

end Items

variable [Number N]

/-! ## States alike -/

structure AlikeStates (st st' : EvalState N) : Prop where
  indexed : StateIndexed st
  indexed' : StateIndexed st'
  items : List.Forall₂ SlotAlike st.items st'.items
  cap : st'.cap = st.cap
  fits : st.cap ≤ sizeMax / stateEntrySize

/-! ### Lookups -/

/-- The outcome of a lookup of a new key, from that of the request for one more
slot. -/
inductive Reserved (st : EvalState N) (k : StateKey) : Option ℕ → EvalState N × Option ℕ → Prop
  | refused {st' : EvalState N} (indexed : StateIndexed st') (items : st'.items = st.items)
      (cap : st'.cap = st.cap) : Reserved st k none (st', none)
  | granted {st' : EvalState N} {cap : ℕ} (indexed : StateIndexed st')
      (items : st'.items = st.items ++ [freshEntry k]) (grown : st'.cap = cap) :
      Reserved st k (some cap) (st', some st.items.length)

omit [Number N] in
/-- No array has room for what is beyond the address space. -/
theorem arrayReserve_eq_none {ok : Bool} {cap needed elemSize initialCap : ℕ}
    (hcap : cap ≤ sizeMax / elemSize) (hneeded : sizeMax / elemSize < needed) :
    arrayReserve ok cap needed elemSize initialCap = none := by
  have hgrow := (growLoop_bounds (n := needed) 65 (growStart cap initialCap)).1
  unfold arrayReserve
  rw [if_neg (by omega)]
  dsimp only
  rw [if_pos (by omega)]

omit [Number N] in
theorem arrayReserve_fits {ok : Bool} {cap cap' needed elemSize initialCap : ℕ}
    (hcap : cap ≤ sizeMax / elemSize)
    (h : arrayReserve ok cap needed elemSize initialCap = some cap') :
    cap' ≤ sizeMax / elemSize := by
  unfold arrayReserve at h
  dsimp only at h
  split_ifs at h
  · cases h
    exact hcap
  · cases h
    omega

omit [Number N] in
/-- With memory an index is refused beyond the address space only. -/
theorem stateIndexReady (st : EvalState N) :
    (if st.index.length ≠ 0 ∨ 8 ≤ st.items.length then
        stateIndexRebuild true st (st.items.length + 1) else some st) = none ∧
        2 ^ 61 < st.items.length + 1 ∨
      ∃ index, (if st.index.length ≠ 0 ∨ 8 ≤ st.items.length then
        stateIndexRebuild true st (st.items.length + 1) else some st) =
          some { st with index := index } := by
  split_ifs
  · unfold stateIndexRebuild
    cases hensure : indexEnsure stateKeyHash true st.index st.keys (st.items.length + 1) with
    | none =>
      left
      refine ⟨rfl, not_le.mp fun hsmall => ?_⟩
      have hsome := indexEnsure_isSome stateKeyHash st.index st.keys hsmall
      simp [hensure] at hsome
    | some index => exact .inr ⟨index, rfl⟩
  · exact .inr ⟨st.index, rfl⟩

/-- With memory only the array of slots can refuse a new one. -/
theorem StateIndexed.appended {st : EvalState N} (h : StateIndexed st)
    (hfits : st.cap ≤ sizeMax / stateEntrySize) {A : EvalAlloc → Bool} (hA : ∀ site, A site = true)
    {k : StateKey} (hnew : k ∉ st.keys) :
    Reserved st k (arrayReserve true st.cap (st.items.length + 1) stateEntrySize 8)
      (stateAppend A st k) := by
  have hfound := h.append A hnew
  unfold stateAppend at hfound ⊢
  simp only [hA] at hfound ⊢
  rcases stateIndexReady st with ⟨hready, hbig⟩ | ⟨index, hready⟩
  · have hnone : arrayReserve true st.cap (st.items.length + 1) stateEntrySize 8 = none := by
      apply arrayReserve_eq_none hfits
      rw [sizeMax, stateEntrySize]
      omega
    rw [hnone, hready]
    exact .refused h rfl rfl
  · rw [hready] at hfound ⊢
    unfold stateReserve at hfound ⊢
    cases hreserve : arrayReserve true st.cap (st.items.length + 1) stateEntrySize 8 with
    | none =>
      simp only [hreserve, Option.map_none] at hfound ⊢
      cases hfound with
      | failed hindexed hitems => exact .refused hindexed hitems rfl
    | some cap =>
      simp only [hreserve, Option.map_some, Bool.not_true, Bool.or_self, Bool.false_eq_true,
        if_false] at hfound ⊢
      cases hfound with
      | old _ hitems _ _ => simp at hitems
      | new hindexed _ hitems => exact .granted hindexed hitems rfl

/-- A lookup of a new key. -/
theorem StateIndexed.reserved {st : EvalState N} (h : StateIndexed st)
    (hfits : st.cap ≤ sizeMax / stateEntrySize) {A : EvalAlloc → Bool} (hA : ∀ site, A site = true)
    {k : StateKey} (hnew : k ∉ st.keys) :
    Reserved st k (arrayReserve true st.cap (st.items.length + 1) stateEntrySize 8)
      (stateSlotIn A st k) := by
  obtain ⟨hindexed, hitems, hcap⟩ := h.prepare A
  have hkeys : (stateIndexPrepare A st).keys = st.keys := congrArg (List.map StateEntry.key) hitems
  have hfind := (indexFind_eq_none hindexed k).mpr (hkeys ▸ hnew)
  have happended := hindexed.appended (hcap ▸ hfits) hA (hkeys ▸ hnew)
  unfold stateSlotIn
  dsimp only
  rw [hfind]
  dsimp only
  rw [hcap, hitems] at happended
  generalize arrayReserve true st.cap (st.items.length + 1) stateEntrySize 8 = room at happended ⊢
  generalize stateAppend A (stateIndexPrepare A st) k = r at happended ⊢
  cases happended with
  | refused hindexed hitems' hcap' => exact .refused hindexed (hitems'.trans hitems) (hcap'.trans hcap)
  | granted hindexed hitems' grown =>
    rw [hitems] at hitems' ⊢
    exact .granted hindexed hitems' grown

namespace AlikeStates

variable {st st' st'' : EvalState N}

omit [Number N] in
theorem length (h : AlikeStates st st') : st'.items.length = st.items.length :=
  h.items.length_eq.symm

omit [Number N] in
theorem keys (h : AlikeStates st st') : st'.keys = st.keys :=
  map_forall₂ SlotAlike.key h.items

omit [Number N] in
theorem trans (h : AlikeStates st st') (h' : AlikeStates st' st'') : AlikeStates st st'' where
  indexed := h.indexed
  indexed' := h'.indexed'
  items := forall₂_trans SlotAlike.trans h.items h'.items
  cap := h'.cap.trans h.cap
  fits := h.fits

/-! ### Steps -/

/-- A step on the slots at one position. -/
theorem stepAt (h : AlikeStates st st') {α : Type} {f : StateEntry N → SlotStep N α}
    (hkey : ∀ e, (f e).entry.key = e.key) {i : ℕ}
    (hf : ∀ e e', st.items[i]? = some e → SlotAlike e e' → AlikeStep (f e) (f e')) :
    SameStep AlikeStates (stepAt f i st) (stepAt f i st') := by
  have hslots : AlikeStep (f (slotAt st i)) (f (slotAt st' i)) := by
    cases hi : st.items[i]? with
    | none =>
      have hi' : st'.items[i]? = none := by
        rw [List.getElem?_eq_none_iff, h.length]
        exact List.getElem?_eq_none_iff.mp hi
      rw [slotAt, slotAt, hi, hi']
      exact alikeStep_self
    | some e =>
      obtain ⟨e', hi', he⟩ := forall₂_getElem? h.items hi
      rw [slotAt, slotAt, hi, hi']
      exact hf e e' hi he
  refine ⟨hslots.1.symm, ?_⟩
  constructor
  · exact h.indexed.setSlot (hkey _)
  · exact h.indexed'.setSlot (hkey _)
  · exact forall₂_set h.items hslots.2 i
  · exact h.cap
  · exact h.fits

omit [Number N] in
/-- States with the slots of states alike. -/
theorem of_items {st₁ st₁' : EvalState N} (h : AlikeStates st st') (indexed : StateIndexed st₁)
    (indexed' : StateIndexed st₁') (items : st₁.items = st.items) (items' : st₁'.items = st'.items)
    (cap : st₁.cap = st.cap) (cap' : st₁'.cap = st'.cap) : AlikeStates st₁ st₁' := by
  constructor
  · exact indexed
  · exact indexed'
  · rw [items, items']
    exact h.items
  · rw [cap, cap', h.cap]
  · rw [cap]
    exact h.fits

/-- A lookup and a step on what it finds. -/
theorem slotStep (h : AlikeStates st st') {A : EvalAlloc → Bool} (hA : ∀ site, A site = true)
    {k : StateKey} {α : Type} {f : StateEntry N → SlotStep N α} (hkey : ∀ e, (f e).entry.key = e.key)
    (hf : ∀ e e', e.key = k → SlotAlike e e' → AlikeStep (f e) (f e')) :
    SameStep AlikeStates (slotStep A k f st) (slotStep A k f st') := by
  unfold Patchbay.slotStep
  by_cases hold : k ∈ st.keys
  · obtain ⟨i, hi⟩ := List.mem_iff_getElem?.mp hold
    have hi' : st'.keys[i]? = some k := by rwa [h.keys]
    have hthere : stateSlotIn A st k = (stateIndexPrepare A st, some i) :=
      h.indexed.slotWith_there A A hi
    have hthere' : stateSlotIn A st' k = (stateIndexPrepare A st', some i) :=
      h.indexed'.slotWith_there A A hi'
    rw [hthere, hthere']
    obtain ⟨hindexed, hitems, hcap⟩ := h.indexed.prepare A
    obtain ⟨hindexed', hitems', hcap'⟩ := h.indexed'.prepare A
    apply (h.of_items hindexed hindexed' hitems hitems' hcap hcap').stepAt hkey
    intro e e' he halike
    rw [hitems] at he
    rw [getElem?_keys he] at hi
    exact hf e e' (Option.some.inj hi) halike
  · have hnew' : k ∉ st'.keys := by rwa [h.keys]
    have hroom := h.indexed.reserved h.fits hA hold
    have hroom' := h.indexed'.reserved (h.cap ▸ h.fits) hA hnew'
    rw [h.cap, h.length] at hroom'
    cases hreserve : arrayReserve true st.cap (st.items.length + 1) stateEntrySize 8 with
    | none =>
      rw [hreserve] at hroom hroom'
      generalize stateSlotIn A st k = r at hroom ⊢
      generalize stateSlotIn A st' k = r' at hroom' ⊢
      cases hroom with
      | refused hindexed hitems hcap =>
        cases hroom' with
        | refused hindexed' hitems' hcap' =>
          exact ⟨rfl, h.of_items hindexed hindexed' hitems hitems' hcap hcap'⟩
    | some cap =>
      have hfits := arrayReserve_fits h.fits hreserve
      rw [hreserve] at hroom hroom'
      generalize stateSlotIn A st k = r at hroom ⊢
      generalize stateSlotIn A st' k = r' at hroom' ⊢
      cases hroom with
      | granted hindexed hitems hgrown =>
        cases hroom' with
        | granted hindexed' hitems' hgrown' =>
          have hstates : ∀ {st₁ st₁' : EvalState N}, StateIndexed st₁ → StateIndexed st₁' →
              st₁.items = st.items ++ [freshEntry k] → st₁'.items = st'.items ++ [freshEntry k] →
              st₁.cap = cap → st₁'.cap = cap → AlikeStates st₁ st₁' := by
            intro st₁ st₁' hindexed hindexed' hitems hitems' hgrown hgrown'
            constructor
            · exact hindexed
            · exact hindexed'
            · rw [hitems, hitems']
              exact List.rel_append h.items (.cons .refl .nil)
            · rw [hgrown, hgrown']
            · rwa [hgrown]
          dsimp only
          rw [h.length]
          apply (hstates hindexed hindexed' hitems hitems' hgrown hgrown').stepAt hkey
          intro e e' he halike
          rw [hitems, List.getElem?_append_right le_rfl, Nat.sub_self] at he
          obtain rfl := Option.some.inj he
          exact hf _ e' rfl halike

end AlikeStates

/-! ## Runs -/

/-- Machines of one program in states alike, in worlds related by `V`. -/
abbrev AlikeMachines (V : W → W → Prop) : Machine N W → Machine N W → Prop :=
  Linked (fun p p' => p = p') (fun _ => AlikeStates) V

/-- Surroundings with memory that do the same to related worlds. -/
structure Fair (V : W → W → Prop) (env : Env N W) : Prop where
  memory : ∀ site, env.alloc site = true
  route : ∀ (subject payload : Bytes) {w w' : W}, V w w' →
    (env.route w subject payload).2 = (env.route w' subject payload).2 ∧
      V (env.route w subject payload).1 (env.route w' subject payload).1

/-- No tick tells states alike apart. -/
theorem tickOk_alike (env : Env N W) : TickOk env fun _ => (AlikeStates (N := N)) := by
  constructor
  · intro j i now st st' hst
    exact hst.stepAt (key_tickClock env.alloc now) fun e e' _ halike => halike.tickClock
  · intro j i now st st' hst
    exact hst.stepAt (key_tickWindow now) fun e e' _ halike => halike.tickWindow
  · intro j st st' hst
    apply (map_forall₂ _ hst.items).symm
    intro e e' he
    rw [he.kind, he.key]
  · intro j st st' hst
    exact (map_forall₂ (fun he => SlotAlike.entryDeadline he) hst.items).symm

omit [Number N] in
/-- Slots alike of a clock are the same. -/
theorem find?_clock {es es' : List (StateEntry N)} (h : List.Forall₂ SlotAlike es es')
    {k : StateKey} (hop : k.op ∈ clockOps) :
    es.find? (fun e => e.key = k) = es'.find? fun e => e.key = k := by
  induction h with
  | nil => rfl
  | @cons e e' es es' he _ ih =>
    rw [List.find?_cons, List.find?_cons, he.key, ih]
    by_cases hkey : e.key = k
    · have hclock : e.op ∈ clockOps := by
        rw [← hkey] at hop
        exact hop
      have hsame : e' = e := by
        cases he with
        | refl => rfl
        | same h => exact absurd hclock h.op
      simp [hkey, hsame]
    · simp [hkey]

omit [Number N] in
/-- What the slot of a clock lends out reads the same in states alike. -/
theorem lends_alike {R : Machine N W → Machine N W → Prop}
    (h : ∀ {m m' : Machine N W}, R m m' → ∀ j, AlikeStates (m.ruleState j) (m'.ruleState j))
    {k : StateKey} (hop : k.op ∈ clockOps) : Lends R k := by
  intro buffer within text m m' hm
  simp only [Machine.lender, Machine.slotOf, find?_clock (h hm k.ruleId).items hop]

end Monoblok.Patchbay
