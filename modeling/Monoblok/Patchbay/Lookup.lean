import Monoblok.Patchbay.Linked

/-!
# Looking up a slot

`state_slot` finds the slot of a key through the index or by a scan, and appends
one when there is none. Forms and ticks keep the key of a slot, so the index
stays right, and a step changes one slot at most.
-/

namespace Monoblok.Patchbay

open OpenAddressing Number

variable {N : Type} [Number N]

/-! ## Keys are kept -/

namespace StateEntry

/-- What only the dropout form writes to: the key, which nobody does, and whether
the slot is lost. -/
def held (e : StateEntry N) : StateKey × Bool := (e.key, e.dropoutLost)

omit [Number N] in
theorem key_of_held {e e' : StateEntry N} (h : e'.held = e.held) : e'.key = e.key :=
  congrArg Prod.fst h

omit [Number N] in
theorem held_setBytes {A : EvalAlloc → Bool} {e e' : StateEntry N} {bytes : Bytes}
    (h : e.setBytes A bytes = some e') : e'.held = e.held := by
  unfold setBytes at h
  split_ifs at h
  cases h
  rfl

omit [Number N] in
theorem held_setEmitSubject {A : EvalAlloc → Bool} {e e' : StateEntry N} {bytes : Bytes}
    (h : e.setEmitSubject A bytes = some e') : e'.held = e.held := by
  unfold setEmitSubject at h
  split_ifs at h
  cases h
  rfl

omit [Number N] in
theorem held_ringReserve {A : EvalAlloc → Bool} {e e' : StateEntry N} {cap : ℕ} {withTimes : Bool}
    (h : e.ringReserve A cap withTimes = some e') : e'.held = e.held := by
  unfold ringReserve at h
  split_ifs at h
  all_goals
    cases h
    rfl

theorem held_ringPushCount (e : StateEntry N) (x : N) : (e.ringPushCount x).held = e.held := by
  unfold ringPushCount
  split_ifs <;> rfl

theorem held_ringEvictLoop (cutoff : UInt64) (n : ℕ) (e : StateEntry N) :
    (ringEvictLoop cutoff n e).held = e.held := by
  induction n generalizing e with
  | zero => rfl
  | succ n ih =>
    unfold ringEvictLoop
    split_ifs
    · rfl
    · exact ih _

theorem held_ringEvictTime (e : StateEntry N) (cutoff : UInt64) :
    (e.ringEvictTime cutoff).held = e.held :=
  held_ringEvictLoop cutoff e.ringLen e

theorem held_ringPushTime {A : EvalAlloc → Bool} {e e' : StateEntry N} {x : N} {t : UInt64}
    (h : e.ringPushTime A x t = some e') : e'.held = e.held := by
  unfold ringPushTime at h
  obtain ⟨e₁, hroom, rfl⟩ := Option.map_eq_some_iff.mp h
  change e₁.held = e.held
  split_ifs at hroom
  · exact held_ringReserve hroom
  · exact held_ringReserve hroom
  · cases hroom
    rfl

theorem held_windowPush (A : EvalAlloc → Bool) (e : StateEntry N) (timeWindow : Bool) (count : ℕ)
    (ms now : UInt64) (x : N) : (e.windowPush A timeWindow count ms now x).1.held = e.held := by
  unfold windowPush
  split
  · dsimp only
    split
    · exact held_ringEvictTime e _
    · rename_i heq
      exact (held_ringPushTime heq).trans (held_ringEvictTime e _)
  · split
    · rfl
    · rename_i e' heq
      split_ifs at heq
      · exact (held_ringPushCount e' x).trans (held_ringReserve heq)
      · cases heq
        exact held_ringPushCount e x

omit [Number N] in
theorem held_barTimeTick (e : StateEntry N) (now : UInt64) : (e.barTimeTick now).1.held = e.held := by
  unfold barTimeTick
  split_ifs <;> rfl

end StateEntry

open StateEntry

omit [Number N] in
theorem held_windowSlot (A : EvalAlloc → Bool) (w : Window) (e : StateEntry N) :
    (windowSlot A w e).1.held = e.held := by
  unfold windowSlot
  dsimp only
  split
  · split
    · rfl
    · split
      · rfl
      · rename_i heq
        have hheld := held_ringReserve heq
        exact hheld
  · rfl

theorem held_windowStep (A : EvalAlloc → Bool) (w : Window) (now : UInt64) (x : N)
    (f : StateEntry N → Except EvalError (Value N)) (e : StateEntry N) :
    (windowStep A w now x f e).entry.held = e.held := by
  have hsample : (windowSample A w now x e).1.held = e.held := by
    have hslot := held_windowSlot A w e
    unfold windowSample
    generalize windowSlot A w e = s at hslot ⊢
    obtain ⟨e', ok⟩ := s
    cases ok with
    | false => exact hslot
    | true => exact (held_windowPush A e' w.timeWindow w.count w.ms now x).trans hslot
  unfold windowStep
  generalize windowSample A w now x e = s at hsample ⊢
  obtain ⟨e', ok⟩ := s
  cases ok with
  | false => exact hsample
  | true => exact hsample

theorem held_throttle (A : EvalAlloc → Bool) (w : Window) (now : UInt64) (max : N) (v : Value N)
    (e : StateEntry N) : (throttle A w now max v e).entry.held = e.held := by
  have hslot := held_windowSlot A w e
  unfold throttle
  generalize windowSlot A w e = s at hslot ⊢
  obtain ⟨e', ok⟩ := s
  cases ok with
  | false => exact hslot
  | true =>
    dsimp only at hslot ⊢
    split
    · split
      · exact (held_ringEvictTime e' _).trans hslot
      · split
        · exact (held_ringEvictTime e' _).trans hslot
        · rename_i heq
          exact ((held_ringPushTime heq).trans (held_ringEvictTime e' _)).trans hslot
    · exact (held_ringPushCount e' _).trans hslot

theorem held_statefulChanged (A : EvalAlloc → Bool) (v : Value N) (boolMode : Bool)
    (e : StateEntry N) : (statefulChanged A v boolMode e).entry.held = e.held := by
  unfold statefulChanged
  split
  · rfl
  · split
    · rfl
    · split
      · split
        · rfl
        · rename_i heq
          exact held_setBytes heq
      · rfl

theorem held_barSample (timeWindow : Bool) (count : UInt32) (windowMs now : UInt64) (x : N)
    (e : StateEntry N) : (barSample timeWindow count windowMs now x e).entry.held = e.held := by
  have htime : ∀ e : StateEntry N, (e.barTimeUpdate now x).1.held = e.held := by
    intro e
    unfold barTimeUpdate
    dsimp only
    split_ifs <;> rfl
  have htick : ∀ e : StateEntry N, (e.barTickUpdate x).1.held = e.held := by
    intro e
    unfold barTickUpdate
    dsimp only
    split_ifs <;> rfl
  have hkind : ∀ e : StateEntry N, (if e.kind = .empty then
      { e with kind := .bar, barTimeWindow := timeWindow, barCap := count, barWindowMs := windowMs }
      else e).held = e.held := by
    intro e
    split_ifs <;> rfl
  unfold barSample
  rw [← hkind e]
  dsimp only
  generalize (if e.kind = .empty then _ else e : StateEntry N) = e'
  split_ifs
  · rfl
  · exact htime e'
  · exact htick e'

omit [Number N] in
theorem held_retainPublish (A : EvalAlloc → Bool) (kind : ClockKind) (ms now : UInt64)
    (subject payload : Bytes) (resetDeadline : Bool) (e : StateEntry N) :
    (retainPublish A kind ms now subject payload resetDeadline e).entry.held = e.held := by
  unfold retainPublish
  dsimp only
  split
  · rfl
  · rename_i heq
    have hsubject := held_setEmitSubject heq
    split
    · exact hsubject
    · rename_i heq'
      exact (held_setBytes heq').trans hsubject

theorem held_aggregateSample (A : EvalAlloc → Bool) (metric : MetricKind) (ms now : UInt64)
    (subject : Bytes) (x : N) (e : StateEntry N) :
    (aggregateSample A metric ms now subject x e).entry.held = e.held := by
  have hstart : ∀ e : StateEntry N, (if e.kind = .empty then
      { e with
        clockKind := .aggregate
        clockIntervalMs := ms
        clockDeadlineMs := now + ms
        clockArmed := true }
      else e).held = e.held := by
    intro e
    split_ifs <;> rfl
  unfold aggregateSample
  rw [← hstart e]
  dsimp only
  generalize (if e.kind = .empty then _ else e : StateEntry N) = e'
  split
  · rfl
  · rename_i heq
    have hsubject := held_setEmitSubject heq
    split
    · exact hsubject
    · rename_i heq'
      exact (held_ringPushTime heq').trans hsubject

omit [Number N] in
theorem held_onSilenceArm (A : EvalAlloc → Bool) (ms now : UInt64) (payload : Bytes)
    (body : List (Value N)) (e : StateEntry N) :
    (onSilenceArm A ms now payload body e).entry.held = e.held := by
  have hstart : ∀ e : StateEntry N, (if e.kind = .empty then
      { e with clockKind := .onSilence, clockBody := body } else e).held = e.held := by
    intro e
    split_ifs <;> rfl
  unfold onSilenceArm
  split
  · rfl
  · rw [← hstart e]
    dsimp only
    generalize (if e.kind = .empty then _ else e : StateEntry N) = e'
    split
    · rfl
    · rename_i heq
      have hheld := held_setBytes heq
      exact hheld

omit [Number N] in
theorem held_dropoutArm (ms now : UInt64) (lost found : Value N) (e : StateEntry N) :
    (dropoutArm ms now lost found e).entry.key = e.key ∧
      ((dropoutArm ms now lost found e).entry.dropoutLost = true → e.dropoutLost = true) := by
  unfold dropoutArm
  dsimp only
  split_ifs with hother hempty hlost
  all_goals
    refine ⟨rfl, fun h => ?_⟩
    first
    | exact h
    | cases h

/-- Forms keep the key of their slot, and none makes it lost. -/
theorem SlotForm.held {A : EvalAlloc → Bool} {now : UInt64} {α : Type} {op : Bytes}
    {f : StateEntry N → SlotStep N α} (h : SlotForm A now op f) (e : StateEntry N) :
    (f e).entry.key = e.key ∧ ((f e).entry.dropoutLost = true → e.dropoutLost = true) := by
  have hkept : ∀ {e' : StateEntry N}, e'.held = e.held →
      e'.key = e.key ∧ (e'.dropoutLost = true → e.dropoutLost = true) := by
    intro e' hheld
    have hlost : e'.dropoutLost = e.dropoutLost := congrArg Prod.snd hheld
    exact ⟨key_of_held hheld, fun h => hlost ▸ h⟩
  cases h with
  | squelch v => exact hkept (held_statefulChanged A v false e)
  | changed v => exact hkept (held_statefulChanged A v true e)
  | holdOff windowMs v =>
    apply hkept
    unfold Patchbay.holdOff
    dsimp only
    split
    · rfl
    · split_ifs <;> rfl
    · rfl
  | risingEdge cur =>
    apply hkept
    unfold edge
    split <;> rfl
  | fallingEdge cur =>
    apply hkept
    unfold edge
    split <;> rfl
  | transition cur =>
    apply hkept
    unfold levelChange
    split <;> rfl
  | deadband threshold x =>
    apply hkept
    unfold Patchbay.deadband
    split_ifs <;> rfl
  | delta x => exact hkept rfl
  | count => exact hkept rfl
  | windowCalc hop hw x what => exact hkept (held_windowStep A _ now x _ e)
  | percentile hop hw x p => exact hkept (held_windowStep A _ now x _ e)
  | rate hms => exact hkept (held_windowStep A _ now _ _ e)
  | throttle hw max v => exact hkept (held_throttle A _ now max v e)
  | bar h x => exact hkept (held_barSample _ _ _ now x e)
  | debounce hms subject payload => exact hkept (held_retainPublish A _ _ now subject payload _ e)
  | sample hms subject payload => exact hkept (held_retainPublish A _ _ now subject payload _ e)
  | aggregate hmetric hms subject x => exact hkept (held_aggregateSample A _ _ now subject x e)
  | onSilence hms payload body => exact hkept (held_onSilenceArm A _ now payload body e)
  | dropout hms lost found => exact held_dropoutArm _ now lost found e

/-- Forms keep the key of their slot. -/
theorem SlotForm.key {A : EvalAlloc → Bool} {now : UInt64} {α : Type} {op : Bytes}
    {f : StateEntry N → SlotStep N α} (h : SlotForm A now op f) (e : StateEntry N) :
    (f e).entry.key = e.key :=
  (h.held e).1

/-- The operations slots are looked up by. -/
def slotOps : List Bytes :=
  [lit "squelch", lit "changed?", lit "hold-off", lit "rising-edge", lit "falling-edge",
    lit "transition", lit "deadband", lit "delta", lit "count", lit "bar/m", lit "bar/t",
    lit "debounce", lit "sample", lit "aggregate", lit "on-silence", lit "dropout"] ++
  (windowCalcOps ++ ["median", "percentile", "rate", "throttle"]).flatMap fun op =>
    [lit op ++ lit "/m", lit op ++ lit "/t"]

theorem windowOp_mem {op : String}
    (h : op ∈ windowCalcOps ++ ["median", "percentile", "rate", "throttle"]) (w : Window) :
    windowOp op w ∈ slotOps := by
  apply List.mem_append_right
  refine List.mem_flatMap.mpr ⟨op, h, ?_⟩
  unfold windowOp
  cases w.timeWindow with
  | false => exact List.mem_cons_of_mem _ List.mem_cons_self
  | true => exact List.mem_cons_self

theorem SlotForm.op_mem {A : EvalAlloc → Bool} {now : UInt64} {α : Type} {op : Bytes}
    {f : StateEntry N → SlotStep N α} (h : SlotForm A now op f) : op ∈ slotOps := by
  cases h with
  | windowCalc hop hw x what => exact windowOp_mem (List.mem_append_left _ hop) _
  | percentile hop hw x p =>
    refine windowOp_mem (List.mem_append_right _ ?_) _
    rcases List.mem_cons.mp hop with rfl | hop
    · decide
    · rw [List.mem_singleton.mp hop]
      decide
  | rate hms => exact windowOp_mem (by decide) _
  | throttle hw max v => exact windowOp_mem (by decide) _
  | bar h x =>
    split_ifs
    · decide
    · decide
  | _ => decide

theorem key_tickClock (A : EvalAlloc → Bool) (now : UInt64) (e : StateEntry N) :
    (tickClock A now e).entry.key = e.key := by
  unfold tickClock
  split
  · rfl
  · split
    any_goals rfl
    unfold tickAggregate
    split
    · rfl
    · split
      · rfl
      · split
        · rfl
        · rename_i heq
          obtain ⟨bytes, -, hset⟩ := Option.bind_eq_some_iff.mp heq
          have hkey := key_of_held (held_setBytes hset)
          exact hkey

theorem key_tickWindow (now : UInt64) (e : StateEntry N) : (tickWindow now e).entry.key = e.key := by
  unfold tickWindow
  dsimp only [SlotStep.done]
  rw [key_of_held (held_barTimeTick _ now)]
  split_ifs
  · exact key_of_held (held_ringEvictTime e _)
  · rfl

theorem key_tickEntry (A : EvalAlloc → Bool) (now : UInt64) (e : StateEntry N) :
    (tickEntry A now e).entry.key = e.key := by
  rw [tickEntry]
  split_ifs
  · exact key_tickClock A now e
  · exact key_tickWindow now e

/-! ## Lookups -/

/-- The keys of a state are different, and its index agrees with them. -/
def StateIndexed (st : EvalState N) : Prop := Indexed stateKeyHash st.keys st.index

omit [Number N] in
theorem stateIndexed_init : StateIndexed (stateInit : EvalState N) := indexed_nil stateKeyHash

omit [Number N] in
theorem StateIndexed.prepare {st : EvalState N} (h : StateIndexed st) (A : EvalAlloc → Bool) :
    StateIndexed (stateIndexPrepare A st) ∧ (stateIndexPrepare A st).items = st.items ∧
      (stateIndexPrepare A st).cap = st.cap := by
  unfold stateIndexPrepare
  split_ifs with hready
  · unfold stateIndexRebuild
    cases hensure : indexEnsure stateKeyHash (A .index) st.index st.keys st.items.length with
    | none => exact ⟨h, rfl, rfl⟩
    | some index =>
      refine ⟨⟨h.nodup, ?_⟩, rfl, rfl⟩
      unfold indexEnsure at hensure
      dsimp only at hensure
      rw [if_neg (by simp [hready.1]), if_neg (by omega : ¬st.items.length = 0)] at hensure
      split_ifs at hensure with hbig hcap
      cases hensure
      obtain ⟨k, hk, hle⟩ := nextIndexCap_pow hcap
      refine .inr ⟨k, ?_, ?_⟩
      · have hkeys : st.keys.length < 2 ^ k := by
          rw [EvalState.keys, List.length_map]
          omega
        exact hkeys
      · rw [hk]
        rfl
  · exact ⟨h, rfl, rfl⟩

/-- What a lookup comes to: a slot that is there, a new one at the end, or no
memory. -/
inductive Found (st : EvalState N) (k : StateKey) : EvalState N × Option ℕ → Prop
  | failed {st' : EvalState N} (indexed : StateIndexed st') (items : st'.items = st.items) :
      Found st k (st', none)
  | old {st' : EvalState N} {i : ℕ} {e : StateEntry N} (indexed : StateIndexed st')
      (items : st'.items = st.items) (hi : st.items[i]? = some e) (key : e.key = k) :
      Found st k (st', some i)
  | new {st' : EvalState N} (indexed : StateIndexed st') (fresh : k ∉ st.keys)
      (items : st'.items = st.items ++ [freshEntry k]) : Found st k (st', some st.items.length)

theorem keys_append_fresh (st : EvalState N) (k : StateKey) :
    (st.items ++ [freshEntry k]).map StateEntry.key = st.keys ++ [k] := by
  rw [List.map_append]
  rfl

/-- Appending a slot. -/
theorem StateIndexed.append {st : EvalState N} (h : StateIndexed st) (A : EvalAlloc → Bool)
    {k : StateKey} (hnew : k ∉ st.keys) : Found st k (stateAppend A st k) := by
  have hlen : st.keys.length = st.items.length := List.length_map _
  unfold stateAppend
  dsimp only
  split
  · exact .failed h rfl
  · rename_i st₁ hready
    -- the index is left out while the state is small
    have hst₁ : StateIndexed st₁ ∧ st₁.items = st.items ∧ (st₁.index.length ≠ 0 →
        StateIndexed ⟨st.items ++ [freshEntry k], insert st₁.index (stateKeyHash k) st.items.length,
          st₁.cap⟩) := by
      split_ifs at hready with hbig
      · unfold stateIndexRebuild at hready
        obtain ⟨index, hensure, rfl⟩ := Option.map_eq_some_iff.mp hready
        rw [← hlen] at hensure
        obtain ⟨hindexed, hins⟩ := Indexed.insert h k hensure
        refine ⟨hindexed, rfl, fun _ => ?_⟩
        have hins := hins hnew
        rw [hlen] at hins
        unfold StateIndexed EvalState.keys
        rw [keys_append_fresh]
        exact hins
      · cases hready
        exact ⟨h, rfl, fun hne => absurd (.inl hne) hbig⟩
    obtain ⟨hindexed, hitems, hinsert⟩ := hst₁
    split
    · exact .failed hindexed hitems
    · rename_i st₂ hreserve
      obtain ⟨cap, -, rfl⟩ := Option.map_eq_some_iff.mp hreserve
      dsimp only
      split_ifs with hmem hlen₀
      · exact .failed hindexed hitems
      · rw [hitems]
        exact .new (hinsert hlen₀) hnew rfl
      · rw [hitems]
        refine .new ?_ hnew rfl
        have hempty : st₁.index = [] := by
          rw [not_not] at hlen₀
          exact List.length_eq_zero_iff.mp hlen₀
        refine ⟨?_, .inl hempty⟩
        unfold EvalState.keys
        rw [keys_append_fresh, List.nodup_append]
        refine ⟨h.nodup, List.nodup_singleton _, fun a ha b hb => ?_⟩
        rw [List.mem_singleton.mp hb]
        rintro rfl
        exact hnew ha

/-- `state_slot` with its two requests for an index answered apart. -/
def stateSlotWith (early A : EvalAlloc → Bool) (st : EvalState N) (k : StateKey) :
    EvalState N × Option ℕ :=
  let st := stateIndexPrepare early st
  match indexFind stateKeyHash st.index st.keys k with
  | some i => (st, some i)
  | none => stateAppend A st k

theorem StateIndexed.foundWith {st : EvalState N} (h : StateIndexed st)
    (early A : EvalAlloc → Bool) (k : StateKey) : Found st k (stateSlotWith early A st k) := by
  obtain ⟨hindexed, hitems, -⟩ := h.prepare early
  have hkeys : (stateIndexPrepare early st).keys = st.keys := by
    rw [EvalState.keys, hitems]
    rfl
  unfold stateSlotWith
  dsimp only
  split
  · rename_i i hfind
    rw [indexFind_iff hindexed, hkeys, EvalState.keys, List.getElem?_map,
      Option.map_eq_some_iff] at hfind
    obtain ⟨e, hi, hkey⟩ := hfind
    exact .old hindexed hitems hi hkey
  · rename_i hfind
    have hnew := (indexFind_eq_none hindexed k).mp hfind
    have hfound := hindexed.append A hnew
    generalize stateAppend A (stateIndexPrepare early st) k = x at hfound ⊢
    cases hfound with
    | failed hindexed' hitems' => exact .failed hindexed' (hitems'.trans hitems)
    | old hindexed' hitems' hi hkey =>
      rw [hitems] at hi
      exact .old hindexed' (hitems'.trans hitems) hi hkey
    | new hindexed' hfresh hitems' =>
      rw [hitems] at hitems' ⊢
      rw [hkeys] at hfresh
      exact .new hindexed' hfresh hitems'

theorem StateIndexed.found {st : EvalState N} (h : StateIndexed st) (A : EvalAlloc → Bool)
    (k : StateKey) : Found st k (stateSlotIn A st k) :=
  h.foundWith A A k

/-! ## Steps -/

section Steps

variable {α : Type}

/-- What a step on the slot of a key does to a state. -/
inductive Stepped (A : EvalAlloc → Bool) (st : EvalState N) (k : StateKey)
    (f : StateEntry N → SlotStep N α) : Except EvalError α × EvalState N → Prop
  | failed {st' : EvalState N} (memory : (stateSlotIn A st k).2 = none)
      (indexed : StateIndexed st') (items : st'.items = st.items) :
      Stepped A st k f (.error .oom, st')
  | old {st' : EvalState N} {i : ℕ} {e : StateEntry N} (indexed : StateIndexed st')
      (hi : st.items[i]? = some e) (key : e.key = k)
      (items : st'.items = st.items.set i (f e).entry) : Stepped A st k f ((f e).result, st')
  | new {st' : EvalState N} (indexed : StateIndexed st') (fresh : k ∉ st.keys)
      (items : st'.items = st.items ++ [(f (freshEntry k)).entry]) :
      Stepped A st k f ((f (freshEntry k)).result, st')

theorem slotAt_of_getElem? {st : EvalState N} {i : ℕ} {e : StateEntry N}
    (h : st.items[i]? = some e) : slotAt st i = e := by
  rw [slotAt, h]
  rfl

theorem keys_setSlot {st : EvalState N} {i : ℕ} {e : StateEntry N} (h : e.key = (slotAt st i).key) :
    (setSlot st i e).keys = st.keys := by
  unfold EvalState.keys setSlot
  dsimp only
  rw [List.map_set]
  by_cases hi : i < st.items.length
  · have hget := List.getElem?_eq_getElem hi
    rw [h, slotAt_of_getElem? hget, ← List.getElem_map StateEntry.key (h := by simpa using hi)]
    exact List.set_getElem_self _
  · exact List.set_eq_of_length_le (by rw [List.length_map]; omega)

theorem StateIndexed.setSlot {st : EvalState N} (h : StateIndexed st) {i : ℕ} {e : StateEntry N}
    (hkey : e.key = (slotAt st i).key) : StateIndexed (setSlot st i e) := by
  unfold StateIndexed
  rw [keys_setSlot hkey]
  exact h

theorem StateIndexed.slotStep {st : EvalState N} (h : StateIndexed st) (A : EvalAlloc → Bool)
    (k : StateKey) {f : StateEntry N → SlotStep N α} (hf : ∀ e, (f e).entry.key = e.key) :
    Stepped A st k f (slotStep A k f st) := by
  have hfound := h.found A k
  unfold Patchbay.slotStep
  generalize hx : stateSlotIn A st k = x at hfound ⊢
  cases hfound with
  | failed hindexed hitems => exact .failed (by rw [hx]) hindexed hitems
  | @old st' i e hindexed hitems hi hkey =>
    have hslot : slotAt st' i = e := slotAt_of_getElem? (by rw [hitems]; exact hi)
    dsimp only [stepAt]
    rw [hslot]
    refine .old (hindexed.setSlot ?_) hi hkey ?_
    · rw [hslot]
      exact hf e
    · rw [Patchbay.setSlot, hitems]
  | @new st' hindexed hfresh hitems =>
    have hslot : slotAt st' st.items.length = freshEntry k :=
      slotAt_of_getElem? (by rw [hitems]; simp)
    dsimp only [stepAt]
    rw [hslot]
    refine .new (hindexed.setSlot ?_) hfresh ?_
    · rw [hslot]
      exact hf _
    · rw [Patchbay.setSlot, hitems]
      simp

/-! ## Memory for one more slot -/

theorem arrayReserve_isSome {cap needed elemSize initialCap : ℕ}
    (h : max initialCap (max 1 (2 * needed)) ≤ sizeMax / elemSize) :
    (arrayReserve true cap needed elemSize initialCap).isSome = true := by
  unfold arrayReserve
  dsimp only
  split_ifs with hfits hbig
  · rfl
  · have hgrow := (growLoop_bounds (n := needed) 65 (growStart cap initialCap)).2
    have hstart : growStart cap initialCap ≤ max initialCap (max 1 needed) := by
      unfold growStart
      dsimp only
      split_ifs <;> omega
    omega
  · rfl
  · rename_i hfalse
    exact absurd rfl hfalse

/-- A state that is small beside the address space always finds its slot, also
when it does without the index it asks for first. -/
theorem StateIndexed.foundWith_isSome {st : EvalState N} (h : StateIndexed st)
    (hsmall : st.items.length < 2 ^ 53) (early : EvalAlloc → Bool) {A : EvalAlloc → Bool}
    (hA : ∀ site, A site = true) (k : StateKey) :
    (stateSlotWith early A st k).2.isSome = true := by
  obtain ⟨-, hitems, -⟩ := h.prepare early
  unfold stateSlotWith
  dsimp only
  split
  · rfl
  · generalize stateIndexPrepare early st = st₁ at hitems ⊢
    have hlength : st₁.items.length < 2 ^ 53 := by
      rw [hitems]
      exact hsmall
    have hreserve : ∀ st₂ : EvalState N, st₂.items.length = st₁.items.length →
        (stateReserve true st₂).isSome = true := by
      intro st₂ hlen
      rw [stateReserve, Option.isSome_map, hlen]
      apply arrayReserve_isSome
      rw [sizeMax, stateEntrySize]
      omega
    unfold stateAppend
    dsimp only
    rw [hA, hA]
    split
    · rename_i hready
      split_ifs at hready
      unfold stateIndexRebuild at hready
      have hensure := @indexEnsure_isSome _ stateKeyHash st₁.index st₁.keys
        (st₁.items.length + 1) (by omega)
      rw [Option.map_eq_none_iff] at hready
      rw [hready] at hensure
      exact absurd hensure (by decide)
    · rename_i st₂ hready
      have hlen : st₂.items.length = st₁.items.length := by
        split_ifs at hready
        · unfold stateIndexRebuild at hready
          obtain ⟨index, -, rfl⟩ := Option.map_eq_some_iff.mp hready
          rfl
        · cases hready
          rfl
      split
      · rename_i hnone
        have := hreserve st₂ hlen
        rw [hnone] at this
        exact absurd this (by simp)
      · rw [hA, hA, if_neg (by decide)]
        rfl

theorem StateIndexed.found_isSome {st : EvalState N} (h : StateIndexed st)
    (hsmall : st.items.length < 2 ^ 53) {A : EvalAlloc → Bool} (hA : ∀ site, A site = true)
    (k : StateKey) : (stateSlotIn A st k).2.isSome = true :=
  h.foundWith_isSome hsmall A hA k

end Steps

end Monoblok.Patchbay
