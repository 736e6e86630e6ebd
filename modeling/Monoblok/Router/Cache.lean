import Monoblok.Router.Invariant

/-!
# The cache over whole runs

The cached subjects are valid and different, their number and the size of their
payloads stay within the limits, and the index agrees with the array. This holds
in every reachable router, whatever the allocator answers. Only a store changes
the cache.
-/

namespace Monoblok

open OpenAddressing

/-- The parts of a router that belong to the cache. -/
structure Cache where
  entries : List LvcEntry
  payloadCaps : List ℕ
  index : Index
  payloadBytes : ℕ
  enabled : Bool
  filters : List Bytes
  deriving DecidableEq, Repr

def cacheOf (r : Router) : Cache :=
  ⟨r.lvc, r.lvcPayloadCaps, r.lvcIndex, r.lvcPayloadBytes, r.lvcEnabled, r.lvcFilters⟩

def cacheBytes (l : List LvcEntry) : ℕ := (l.map fun e => e.payload.length).sum

structure LvcInv (r : Router) : Prop where
  indexed : Indexed sliceHash (lvcKeys r) r.lvcIndex
  valid : ∀ k ∈ lvcKeys r, subjectValid k false = true
  count : r.lvc.length ≤ maxLvcEntries
  caps : r.lvcPayloadCaps.length = r.lvc.length
  total : cacheBytes r.lvc ≤ r.lvcPayloadBytes
  bytes : r.lvcPayloadBytes ≤ maxLvcBytes

theorem lvcInv_init : LvcInv routerInit :=
  ⟨indexed_nil sliceHash, by simp [lvcKeys, routerInit], by decide, by decide, by decide, by decide⟩

theorem LvcInv.of_entries {r r' : Router} (h : LvcInv r) (he : r'.lvc = r.lvc)
    (hc : r'.lvcPayloadCaps = r.lvcPayloadCaps) (hi : r'.lvcIndex = r.lvcIndex) (hb : r'.lvcPayloadBytes = r.lvcPayloadBytes) : LvcInv r' := by
  constructor
  · rw [lvcKeys, he, hi]
    exact h.indexed
  · rw [lvcKeys, he]
    exact h.valid
  · rw [he]
    exact h.count
  · rw [hc, he]
    exact h.caps
  · rw [he, hb]
    exact h.total
  · rw [hb]
    exact h.bytes

theorem LvcInv.of_cache {r r' : Router} (h : LvcInv r) (hc : cacheOf r' = cacheOf r) :
    LvcInv r' :=
  h.of_entries (congrArg Cache.entries hc) (congrArg Cache.payloadCaps hc) (congrArg Cache.index hc)
    (congrArg Cache.payloadBytes hc)

/-! ## Stores -/

theorem subjects_modify (l : List LvcEntry) (i : ℕ) (payload : Bytes) :
    (l.modify i fun e => { e with payload := payload }).map LvcEntry.subject =
      l.map LvcEntry.subject := by
  induction l generalizing i with
  | nil => rw [List.modify_nil]
  | cons e l ih =>
    cases i with
    | zero => rfl
    | succ i => rw [List.modify_succ_cons, List.map_cons, List.map_cons, ih]

theorem cacheBytes_modify {l : List LvcEntry} {i : ℕ} {e : LvcEntry} (h : l[i]? = some e)
    (payload : Bytes) :
    cacheBytes (l.modify i fun e => { e with payload := payload }) + e.payload.length =
      cacheBytes l + payload.length := by
  induction l generalizing i with
  | nil => simp at h
  | cons a l ih =>
    cases i with
    | zero =>
      simp only [List.getElem?_cons_zero, Option.some.injEq] at h
      simp only [cacheBytes, List.modify_zero_cons, List.map_cons, List.sum_cons, h]
      omega
    | succ i =>
      have hi := ih (by simpa using h)
      simp only [cacheBytes, List.modify_succ_cons, List.map_cons, List.sum_cons] at hi ⊢
      omega

theorem cacheBytes_append (l : List LvcEntry) (e : LvcEntry) :
    cacheBytes (l ++ [e]) = cacheBytes l + e.payload.length := by
  simp [cacheBytes]

/-- Writing a payload of an entry; `base` covers all other payloads. -/
theorem LvcInv.write {r : Router} (h : LvcInv r) (A : Alloc) {i base : ℕ} {payload : Bytes}
    {e : LvcEntry} (hi : r.lvc[i]? = some e) (hbase : cacheBytes r.lvc ≤ base + e.payload.length)
    (hfit : base + payload.length ≤ maxLvcBytes) : LvcInv (lvcWrite A r i base payload).1 := by
  unfold lvcWrite
  split
  · have hsum := cacheBytes_modify hi []
    have htotal := h.total
    constructor
    · rw [lvcKeys, subjects_modify]
      exact h.indexed
    · rw [lvcKeys, subjects_modify]
      exact h.valid
    · rw [List.length_modify]
      exact h.count
    · rw [List.length_modify]
      exact h.caps
    · simp only [List.length_nil] at hsum
      dsimp only
      omega
    · exact h.bytes
  · have hsum := cacheBytes_modify hi payload
    constructor
    · rw [lvcKeys, subjects_modify]
      exact h.indexed
    · rw [lvcKeys, subjects_modify]
      exact h.valid
    · rw [List.length_modify]
      exact h.count
    · rw [List.length_set, List.length_modify]
      exact h.caps
    · dsimp only
      omega
    · exact hfit

theorem LvcInv.append {r : Router} (h : LvcInv r) (A : Alloc) {subject payload : Bytes}
    (hvalid : subjectValid subject false = true) (hnew : subject ∉ lvcKeys r)
    (hfit : r.lvcPayloadBytes + payload.length ≤ maxLvcBytes) :
    LvcInv (lvcAppend A r subject r.lvcPayloadBytes payload).1 := by
  unfold lvcAppend
  split
  · exact h
  · rename_i hroom
    split
    · exact h
    · rename_i index hindex
      have hlen : (lvcKeys r).length = r.lvc.length := by simp [lvcKeys]
      obtain ⟨hsame, hinsert⟩ := h.indexed.insert subject (by rw [hlen]; exact hindex)
      have hready : LvcInv { r with lvcIndex := index } :=
        ⟨hsame, h.valid, h.count, h.caps, h.total, h.bytes⟩
      dsimp only
      split_ifs
      · exact hready
      · exact hready
      · have hkeys : lvcKeys { r with
            lvc := r.lvc ++ [⟨subject, []⟩]
            lvcPayloadCaps := r.lvcPayloadCaps ++ [0]
            lvcIndex := insert index (sliceHash subject) r.lvc.length } =
            lvcKeys r ++ [subject] := by
          simp [lvcKeys]
        have happ : LvcInv { r with
            lvc := r.lvc ++ [⟨subject, []⟩]
            lvcPayloadCaps := r.lvcPayloadCaps ++ [0]
            lvcIndex := insert index (sliceHash subject) r.lvc.length } := by
          constructor
          · rw [hkeys, ← hlen]
            exact hinsert hnew
          · rw [hkeys]
            intro k hk
            rcases List.mem_append.mp hk with hk | hk
            · exact h.valid k hk
            · rw [List.mem_singleton.mp hk]
              exact hvalid
          · rw [List.length_append, List.length_singleton]
            omega
          · rw [List.length_append, List.length_append, h.caps]
            rfl
          · rw [cacheBytes_append]
            exact h.total
          · exact h.bytes
        apply happ.write A (e := ⟨subject, []⟩)
        · rw [List.getElem?_append_right le_rfl, Nat.sub_self]
          rfl
        · exact happ.total
        · exact hfit

theorem LvcInv.storeEntry {r : Router} (h : LvcInv r) (A : Alloc) (subject payload : Bytes) :
    LvcInv (lvcStoreEntry A r subject payload).1 := by
  unfold lvcStoreEntry
  by_cases hvalid : subjectValid subject false = true
  · rw [if_neg (by simp [hvalid])]
    cases hfind : lvcEntryFind r subject with
    | none =>
      dsimp only
      split_ifs with hold hfit
      · exact h
      · exact h
      · apply h.append A hvalid
        · exact (indexFind_eq_none h.indexed subject).mp hfind
        · omega
    | some i =>
      have hkey : (lvcKeys r)[i]? = some subject := (indexFind_iff h.indexed subject i).mp hfind
      rw [lvcKeys, List.getElem?_map, Option.map_eq_some_iff] at hkey
      obtain ⟨e, he, -⟩ := hkey
      have hlen : lvcPayloadLen r i = e.payload.length := by
        rw [lvcPayloadLen, he]
        rfl
      have htotal := h.total
      dsimp only
      split_ifs with hold hfit
      · exact h
      · exact h
      · apply h.write A he
        · rw [hlen] at hold ⊢
          omega
        · omega
  · rw [if_pos (by simpa using hvalid)]
    exact h

theorem LvcInv.store {r : Router} (h : LvcInv r) (A : Alloc) (subject payload : Bytes) :
    LvcInv (lvcStore A r subject payload).1 := by
  unfold lvcStore
  split_ifs
  · exact h
  · exact h
  · exact h.storeEntry A subject payload
  · exact h
  · exact h.storeEntry A subject payload

/-- The subjects a store writes to the cache. -/
def cacheable (r : Router) (subject : Bytes) : Bool :=
  !subjectHasLvcPrefix subject &&
    if subjectHasStatsPrefix subject then lvcStatsSubjectEnabled r subject
    else lvcSubjectEnabled r subject

theorem lvcStore_of_cacheable {r : Router} {subject : Bytes} (h : cacheable r subject = true)
    (A : Alloc) (payload : Bytes) :
    lvcStore A r subject payload = lvcStoreEntry A r subject payload := by
  unfold cacheable at h
  unfold lvcStore
  split_ifs at h ⊢ with h₁ h₂ h₃ <;> simp_all

theorem lvcStore_of_not_cacheable {r : Router} {subject : Bytes}
    (h : cacheable r subject = false) (A : Alloc) (payload : Bytes) :
    lvcStore A r subject payload = (r, true) := by
  unfold cacheable at h
  unfold lvcStore
  split_ifs at h ⊢ with h₁ h₂ h₃ <;> simp_all

/-- A new subject within the limits is appended. -/
theorem lvcStore_new {r : Router} (h : LvcInv r) {subject payload : Bytes}
    (hc : cacheable r subject = true) (hvalid : subjectValid subject false = true)
    (hnew : subject ∉ lvcKeys r) (hcount : r.lvc.length < maxLvcEntries)
    (hfit : r.lvcPayloadBytes + payload.length ≤ maxLvcBytes) :
    ∃ index caps, lvcStore Alloc.succeeds r subject payload =
      ({ r with
          lvc := r.lvc ++ [⟨subject, payload⟩]
          lvcPayloadCaps := caps
          lvcIndex := index
          lvcPayloadBytes := r.lvcPayloadBytes + payload.length }, true) := by
  have hfind : lvcEntryFind r subject = none := (indexFind_eq_none h.indexed subject).mpr hnew
  have hsmall : r.lvc.length + 1 ≤ 2 ^ 61 := by
    rw [maxLvcEntries] at hcount
    omega
  obtain ⟨index, hindex⟩ := Option.isSome_iff_exists.mp
    (indexEnsure_isSome sliceHash r.lvcIndex (lvcKeys r) hsmall)
  have hsize : payload.length ≤ maxLvcBytes := (Nat.le_add_left _ _).trans hfit
  obtain ⟨cap, hcap⟩ : ∃ cap, payloadReserve true 0 payload.length = some cap := by
    apply Option.ne_none_iff_exists'.mp
    simp [payloadReserve_eq_none hsize]
  have hlast : (r.lvcPayloadCaps ++ [0]).getD r.lvc.length 0 = 0 := by
    simp [← h.caps]
  refine ⟨insert index (sliceHash subject) r.lvc.length,
    (r.lvcPayloadCaps ++ [0]).set r.lvc.length cap, ?_⟩
  have hlimits : ¬(maxLvcBytes < r.lvcPayloadBytes ∨
      maxLvcBytes - r.lvcPayloadBytes < payload.length) := by omega
  have hmodify : (r.lvc ++ [(⟨subject, []⟩ : LvcEntry)]).modify r.lvc.length
      (fun e => { e with payload := payload }) = r.lvc ++ [⟨subject, payload⟩] :=
    modify_append_cons r.lvc [] ⟨subject, []⟩ _
  rw [lvcStore_of_cacheable hc, lvcStoreEntry, if_neg (by simp [hvalid]), hfind]
  dsimp only
  rw [if_neg (Nat.not_lt_zero _), Nat.sub_zero, if_neg hlimits, lvcAppend,
    if_neg (not_le.mpr hcount), Alloc.succeeds, hindex]
  simp only [Alloc.succeeds, Bool.not_true, Bool.false_eq_true, if_false, lvcWrite, hlast, hcap,
    hmodify]

/-! ## Everything else leaves the cache alone -/

theorem cacheOf_sweepRouter (f : Subscription → Option Subscription) (w : World) :
    cacheOf (sweepRouter f w).router = cacheOf w.router := by
  rw [sweepRouter, foldl_noteSubRemoved_router]
  rfl

theorem cacheOf_insertSub (A : Alloc) (r : Router) (filter : Bytes) (sub : Subscription) :
    cacheOf (insertSub A r filter sub).1 = cacheOf r := by
  unfold insertSub
  split_ifs <;> rfl

theorem cacheOf_subscribeQueue (A : Alloc) (w : World) (conn : ConnId)
    (subject queue sid : Bytes) :
    cacheOf (subscribeQueue A w conn subject queue sid).1.router = cacheOf w.router := by
  unfold subscribeQueue
  dsimp only
  generalize (if subjectHasLvcPrefix subject then lvcInnerSubject subject else subject) = filter
  split
  · rfl
  · split
    · rfl
    · split
      · rfl
      · have hcap := (ensurePublishCapacity_spec A w.router (w.router.subCount + 1)).eq
        split
        · rename_i r heq
          rw [heq] at hcap
          exact (congrArg cacheOf hcap).trans rfl
        · rename_i r heq
          rw [heq] at hcap
          have hr : cacheOf r = cacheOf w.router := (congrArg cacheOf hcap).trans rfl
          split
          · exact hr
          · have hins := cacheOf_insertSub A r filter
              ⟨conn, filter, queue, sid, 0, 0, false, subjectHasLvcPrefix subject⟩
            split
            · rename_i r₂ heq₂
              rw [heq₂] at hins
              exact hins.trans hr
            · rename_i r₂ heq₂
              rw [heq₂] at hins
              have hdone : cacheOf { r₂ with subCount := r₂.subCount + 1 } = cacheOf w.router :=
                hins.trans hr
              split
              · split
                · rw [unsubscribe, cacheOf_sweepRouter]
                  exact hdone
                · split
                  · exact hdone
                  · rw [unsubscribe, cacheOf_sweepRouter]
                    exact hdone
              · exact hdone

theorem cacheOf_deliverMatchingList (A : Alloc) (p : Pub) (subs : List Subscription)
    (m : Message) (checkFilter : Bool) :
    cacheOf (deliverMatchingList A p subs m checkFilter).2.1.world.router =
      cacheOf p.world.router := by
  obtain ⟨rng, hrouter⟩ := (deliverMatchingList_spec A p subs m checkFilter).router
  rw [hrouter]
  rfl

theorem cacheOf_deliverAll (A : Alloc) (p : Pub) (m : Message) :
    cacheOf (deliverAll A p m).1.world.router = cacheOf p.world.router := by
  have hlit : cacheOf (deliverLiteral A p m).1.world.router = cacheOf p.world.router := by
    unfold deliverLiteral
    split
    · rfl
    · exact cacheOf_deliverMatchingList A p _ m false
  unfold deliverAll
  split
  · rename_i p₁ heq₁
    rw [heq₁] at hlit
    exact hlit
  · rename_i p₁ heq₁
    rw [heq₁] at hlit
    have hwild : cacheOf (deliverWildcard A p₁ m).1.world.router = cacheOf p₁.world.router := by
      unfold deliverWildcard
      split
      · rfl
      · exact cacheOf_deliverMatchingList A p₁ _ m true
    split
    · rename_i p₂ heq₂
      rw [heq₂] at hwild
      exact hwild.trans hlit
    · rename_i p₂ heq₂
      rw [heq₂] at hwild
      have hglobal : cacheOf (deliverGlobal A p₂ m).1.world.router = cacheOf p₂.world.router :=
        cacheOf_deliverMatchingList A p₂ _ m true
      exact hglobal.trans (hwild.trans hlit)

/-- A publish changes the cache as its store does. -/
theorem cacheOf_publish (A : Alloc) (w : World) (m : Message) :
    cacheOf (publishWithReply A w m).world.router = cacheOf w.router ∨
      cacheOf (publishWithReply A w m).world.router =
        cacheOf (lvcStore A w.router m.subject m.payload).1 := by
  unfold publishWithReply
  split
  · exact .inl rfl
  · split
    · exact .inl rfl
    · split
      · exact .inl rfl
      · right
        split
        · rename_i r heq
          rw [heq]
        · rename_i r heq
          rw [heq]
          split
          · rfl
          · exact cacheOf_deliverAll A _ m

theorem LvcInv.routerStep {w : World} (h : LvcInv w.router) (call : RouterCall) :
    LvcInv (routerStep w call).router := by
  cases call with
  | configureLvc A filters =>
    apply h.of_entries
    all_goals
      unfold Monoblok.routerStep configureLvc
      dsimp only
      split_ifs <;> rfl
  | storeLvc A subject payload => exact h.store A subject payload
  | subscribe A conn subject queue sid =>
    exact h.of_cache (cacheOf_subscribeQueue A w conn subject queue sid)
  | unsubscribe conn sid maxMsgs => exact h.of_cache (cacheOf_sweepRouter _ w)
  | removeAllFor conn => exact h.of_cache (cacheOf_sweepRouter _ w)
  | publish A m =>
    rcases cacheOf_publish A w m with hc | hc
    · exact h.of_cache hc
    · exact (h.store A m.subject m.payload).of_cache hc
  | server conns => exact h

theorem Reachable.lvcInv {w : World} (h : Reachable w) : LvcInv w.router :=
  h.invariant (P := fun w => LvcInv w.router) (fun _ _ => lvcInv_init)
    fun _ call _ ih => ih.routerStep call

end Monoblok
