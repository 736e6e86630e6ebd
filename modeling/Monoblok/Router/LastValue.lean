import Monoblok.Lib.Runs
import Monoblok.Router.Cache
import Monoblok.Router.Dispatch

/-!
# The cache as a map

A store replaces the payload of its subject or adds an entry at the end. Seen
through the lookups, the cache is the map of the last payloads that were
accepted, within a limit on their number and one on their size. A store that
fails leaves that map alone, with one exception: when the memory for the payload
itself cannot be had.
-/

namespace Monoblok

open OpenAddressing

/-- The payload cached for a subject. -/
def cached (l : List LvcEntry) (subject : Bytes) : Option Bytes :=
  (l.find? fun e => e.subject == subject).map LvcEntry.payload

def cachedLen (l : List LvcEntry) (subject : Bytes) : ℕ :=
  ((cached l subject).map List.length).getD 0

def putEntry (subject payload : Bytes) : List LvcEntry → List LvcEntry
  | [] => [⟨subject, payload⟩]
  | e :: l =>
    if e.subject = subject then { e with payload := payload } :: l
    else e :: putEntry subject payload l

section Entries

variable {l : List LvcEntry} {subject payload : Bytes}

theorem cached_cons (e : LvcEntry) (l : List LvcEntry) (subject : Bytes) :
    cached (e :: l) subject = if e.subject = subject then some e.payload else cached l subject := by
  by_cases h : e.subject = subject
  · simp [cached, h]
  · simp [cached, h]

theorem cached_putEntry (l : List LvcEntry) (subject payload s : Bytes) :
    cached (putEntry subject payload l) s = if s = subject then some payload else cached l s := by
  induction l with
  | nil =>
    rw [putEntry, cached_cons]
    simp only [eq_comm (a := subject)]
  | cons e l ih =>
    rw [putEntry]
    split_ifs with he hs hs
    · rw [cached_cons, if_pos (he.trans hs.symm)]
    · rw [cached_cons, cached_cons, if_neg fun h => hs (h.symm.trans he),
        if_neg fun h => hs (h.symm.trans he)]
    · rw [cached_cons, if_neg fun h => he (h.trans hs), ih, if_pos hs]
    · rw [cached_cons, cached_cons, ih, if_neg hs]

theorem cacheBytes_putEntry (l : List LvcEntry) (subject payload : Bytes) :
    cacheBytes (putEntry subject payload l) + cachedLen l subject =
      cacheBytes l + payload.length := by
  induction l with
  | nil => simp [putEntry, cacheBytes, cachedLen, cached]
  | cons e l ih =>
    rw [putEntry, cachedLen, cached_cons]
    split_ifs with he
    · simp only [cacheBytes, List.map_cons, List.sum_cons, Option.map_some, Option.getD_some]
      omega
    · simp only [cacheBytes, List.map_cons, List.sum_cons] at ih ⊢
      rw [cachedLen] at ih
      omega

theorem cachedLen_le_cacheBytes (l : List LvcEntry) (subject : Bytes) :
    cachedLen l subject ≤ cacheBytes l := by
  have h := cacheBytes_putEntry l subject []
  simp only [List.length_nil] at h
  omega

theorem cached_eq_none : cached l subject = none ↔ subject ∉ l.map LvcEntry.subject := by
  simp only [cached, Option.map_eq_none_iff, List.find?_eq_none, beq_iff_eq, List.mem_map,
    not_exists, not_and]

theorem putEntry_of_new (h : subject ∉ l.map LvcEntry.subject) (payload : Bytes) :
    putEntry subject payload l = l ++ [⟨subject, payload⟩] := by
  induction l with
  | nil => rfl
  | cons e l ih =>
    rw [List.map_cons, List.mem_cons, not_or] at h
    rw [putEntry, if_neg fun he => h.1 he.symm, ih h.2, List.cons_append]

/-- The entry at a position that is the first of its subject. -/
theorem putEntry_of_found (hnodup : (l.map LvcEntry.subject).Nodup) {i : ℕ}
    (h : (l.map LvcEntry.subject)[i]? = some subject) (payload : Bytes) :
    (l.modify i fun e => { e with payload := payload }) = putEntry subject payload l ∧
      l[i]?.map LvcEntry.payload = cached l subject := by
  induction l generalizing i with
  | nil => simp at h
  | cons e l ih =>
    rw [List.map_cons, List.nodup_cons] at hnodup
    cases i with
    | zero =>
      have he : e.subject = subject := by simpa using h
      rw [putEntry, if_pos he, cached_cons, if_pos he]
      exact ⟨rfl, rfl⟩
    | succ i =>
      rw [List.map_cons, List.getElem?_cons_succ] at h
      have he : e.subject ≠ subject := by
        rintro rfl
        exact hnodup.1 (List.mem_of_getElem? h)
      obtain ⟨hput, hcached⟩ := ih hnodup.2 h
      rw [putEntry, if_neg he, cached_cons, if_neg he, List.modify_succ_cons, hput,
        List.getElem?_cons_succ]
      exact ⟨rfl, hcached⟩

end Entries

/-! ## One store -/

/-- There is room for one more entry, and memory for all of it but the payload. -/
def newEntryFits (A : Alloc) (r : Router) : Bool :=
  decide (r.lvc.length < maxLvcEntries) &&
    (indexEnsure sliceHash (A .lvcIndex) r.lvcIndex (lvcKeys r) (r.lvc.length + 1)).isSome &&
    A .lvcEntries && A .lvcSubject

/-- A store comes as far as copying its payload. -/
def copiesPayload (A : Alloc) (r : Router) (subject payload : Bytes) : Bool :=
  cacheable r subject && subjectValid subject false &&
    decide (r.lvcPayloadBytes - cachedLen r.lvc subject + payload.length ≤ maxLvcBytes) &&
    ((cached r.lvc subject).isSome || newEntryFits A r)

/-- The memory that the buffer of a subject's payload has. -/
def payloadCap (r : Router) (subject : Bytes) : ℕ :=
  ((lvcEntryFind r subject).map fun i => r.lvcPayloadCaps.getD i 0).getD 0

/-- The payload is longer than what its buffer has, and memory for it cannot be had. -/
def payloadFails (A : Alloc) (r : Router) (subject payload : Bytes) : Prop :=
  payloadCap r subject < payload.length ∧ A .lvcPayload = false

instance (A : Alloc) (r : Router) (subject payload : Bytes) :
    Decidable (payloadFails A r subject payload) :=
  inferInstanceAs (Decidable (payloadCap r subject < payload.length ∧ A .lvcPayload = false))

section Store

variable {r : Router} {A : Alloc} {subject payload : Bytes}

theorem lvcEntryFind_eq_none (h : LvcInv r) :
    lvcEntryFind r subject = none ↔ cached r.lvc subject = none := by
  rw [lvcEntryFind, indexFind_eq_none h.indexed, cached_eq_none]
  rfl

theorem lvcEntryFind_eq_some (h : LvcInv r) {i : ℕ} (hfind : lvcEntryFind r subject = some i)
    (payload : Bytes) :
    (r.lvc.modify i fun e => { e with payload := payload }) = putEntry subject payload r.lvc ∧
      r.lvc[i]?.map LvcEntry.payload = cached r.lvc subject :=
  putEntry_of_found h.indexed.nodup ((indexFind_iff h.indexed subject i).mp hfind) payload

theorem lvcPayloadLen_of_found (h : LvcInv r) {i : ℕ} (hfind : lvcEntryFind r subject = some i) :
    lvcPayloadLen r i = cachedLen r.lvc subject := by
  rw [cachedLen, ← (lvcEntryFind_eq_some h hfind []).2, lvcPayloadLen, Option.map_map]
  rfl

/-- A store in terms of what is cached: the check of the size, then a write. -/
theorem lvcStoreEntry_eq (h : LvcInv r) (hvalid : subjectValid subject false = true) :
    lvcStoreEntry A r subject payload =
      if maxLvcBytes < r.lvcPayloadBytes - cachedLen r.lvc subject + payload.length then (r, false)
      else
        match lvcEntryFind r subject with
        | some i => lvcWrite A r i (r.lvcPayloadBytes - cachedLen r.lvc subject) payload
        | none =>
          lvcAppend A r subject (r.lvcPayloadBytes - cachedLen r.lvc subject) payload := by
  have hlen := (cachedLen_le_cacheBytes r.lvc subject).trans h.total
  have hbytes := h.bytes
  have hlimit : (maxLvcBytes < r.lvcPayloadBytes - cachedLen r.lvc subject ∨
      maxLvcBytes - (r.lvcPayloadBytes - cachedLen r.lvc subject) < payload.length) ↔
      maxLvcBytes < r.lvcPayloadBytes - cachedLen r.lvc subject + payload.length := by omega
  rw [lvcStoreEntry, if_neg (by simp [hvalid])]
  cases hfind : lvcEntryFind r subject with
  | none =>
    have hold : cachedLen r.lvc subject = 0 := by
      rw [cachedLen, (lvcEntryFind_eq_none h).mp hfind]
      rfl
    rw [hold] at hlimit ⊢
    simp only [hlimit, if_neg (Nat.not_lt_zero r.lvcPayloadBytes)]
  | some i =>
    simp only [lvcPayloadLen_of_found h hfind, hlimit, if_neg (not_lt.mpr hlen)]

/-- The two outcomes of a store that comes to its payload. -/
theorem lvcStore_of_copies (h : LvcInv r) (hcopies : copiesPayload A r subject payload = true) :
    ∃ index caps, lvcStore A r subject payload =
      if payloadFails A r subject payload then
        ({ r with lvc := putEntry subject [] r.lvc, lvcPayloadCaps := caps, lvcIndex := index },
          false)
      else
        ({ r with
            lvc := putEntry subject payload r.lvc
            lvcPayloadCaps := caps
            lvcIndex := index
            lvcPayloadBytes := r.lvcPayloadBytes - cachedLen r.lvc subject + payload.length },
          true) := by
  simp only [copiesPayload, Bool.and_eq_true, decide_eq_true_eq, Bool.or_eq_true] at hcopies
  obtain ⟨⟨⟨hcache, hvalid⟩, hfit⟩, hentry⟩ := hcopies
  rw [lvcStore_of_cacheable hcache, lvcStoreEntry_eq h hvalid, if_neg (not_lt.mpr hfit)]
  have hsize : payload.length ≤ maxLvcBytes := (Nat.le_add_left _ _).trans hfit
  have hfails :=
    @payloadReserve_eq_none (A .lvcPayload) (payloadCap r subject) payload.length hsize
  cases hfind : lvcEntryFind r subject with
  | some i =>
    have hcap : payloadCap r subject = r.lvcPayloadCaps.getD i 0 := by simp [payloadCap, hfind]
    rw [hcap] at hfails
    simp only [payloadFails, hcap, ← hfails, lvcWrite, (lvcEntryFind_eq_some h hfind _).1]
    cases payloadReserve (A .lvcPayload) (r.lvcPayloadCaps.getD i 0) payload.length with
    | none => exact ⟨r.lvcIndex, r.lvcPayloadCaps, by simp⟩
    | some cap => exact ⟨r.lvcIndex, r.lvcPayloadCaps.set i cap, by simp⟩
  | none =>
    have hcap : payloadCap r subject = 0 := by simp [payloadCap, hfind]
    have hnone := (lvcEntryFind_eq_none h).mp hfind
    rw [hnone, Option.isSome_none, or_iff_right Bool.false_ne_true, newEntryFits] at hentry
    simp only [Bool.and_eq_true, decide_eq_true_eq] at hentry
    obtain ⟨⟨⟨hcount, hindex⟩, hentries⟩, hsubject⟩ := hentry
    obtain ⟨index, hindex⟩ := Option.isSome_iff_exists.mp hindex
    have hput : ∀ p, (r.lvc ++ [(⟨subject, []⟩ : LvcEntry)]).modify r.lvc.length
        (fun e => { e with payload := p }) = putEntry subject p r.lvc := by
      intro p
      rw [putEntry_of_new (cached_eq_none.mp hnone)]
      exact modify_append_cons r.lvc [] ⟨subject, []⟩ _
    have hlast : (r.lvcPayloadCaps ++ [0]).getD r.lvc.length 0 = 0 := by simp [← h.caps]
    rw [hcap] at hfails
    dsimp only
    rw [lvcAppend, if_neg (not_le.mpr hcount), hindex]
    simp only [hentries, hsubject, Bool.not_true, Bool.false_eq_true, if_false, lvcWrite, hlast,
      hput, payloadFails, hcap, ← hfails]
    cases payloadReserve (A .lvcPayload) 0 payload.length with
    | none =>
      exact ⟨insert index (sliceHash subject) r.lvc.length, r.lvcPayloadCaps ++ [0], by simp⟩
    | some cap =>
      exact ⟨insert index (sliceHash subject) r.lvc.length,
        (r.lvcPayloadCaps ++ [0]).set r.lvc.length cap, by simp⟩

/-- A store of a cacheable subject that does not come to its payload fails and
leaves the entries alone. -/
theorem lvcStore_of_not_copies (h : LvcInv r) (hcache : cacheable r subject = true)
    (hcopies : copiesPayload A r subject payload = false) :
    ∃ index, lvcStore A r subject payload = ({ r with lvcIndex := index }, false) := by
  rw [lvcStore_of_cacheable hcache]
  by_cases hvalid : subjectValid subject false = true
  · rw [lvcStoreEntry_eq h hvalid]
    simp only [copiesPayload, hcache, hvalid, Bool.true_and] at hcopies
    by_cases hfit : maxLvcBytes <
        r.lvcPayloadBytes - cachedLen r.lvc subject + payload.length
    · rw [if_pos hfit]
      exact ⟨r.lvcIndex, rfl⟩
    · rw [if_neg hfit]
      simp only [decide_eq_true (not_lt.mp hfit), Bool.true_and, Bool.or_eq_false_iff] at hcopies
      obtain ⟨hnone, hroom⟩ := hcopies
      have hfind := (lvcEntryFind_eq_none h).mpr (Option.isNone_iff_eq_none.mp (by simpa using hnone))
      rw [hfind]
      dsimp only
      unfold lvcAppend
      split
      · exact ⟨r.lvcIndex, rfl⟩
      · rename_i hcount
        split
        · exact ⟨r.lvcIndex, rfl⟩
        · rename_i index hindex
          refine ⟨index, ?_⟩
          have hmem : A .lvcEntries = false ∨ A .lvcSubject = false := by
            simp only [newEntryFits, hindex, Option.isSome_some, Bool.and_true,
              Bool.and_eq_false_iff, decide_eq_false_iff_not] at hroom
            rcases hroom with (hroom | hroom) | hroom
            · exact absurd hroom (by omega)
            · exact .inl hroom
            · exact .inr hroom
          rcases hmem with hmem | hmem
          · simp [hmem]
          · cases A .lvcEntries <;> simp [hmem]
  · rw [lvcStoreEntry, if_pos (by simpa using hvalid)]
    exact ⟨r.lvcIndex, rfl⟩

/-- Where memory can be had, only the limits stand in the way. -/
theorem copiesPayload_succeeds (h : LvcInv r) (subject payload : Bytes) :
    copiesPayload .succeeds r subject payload = true ↔
      cacheable r subject = true ∧ subjectValid subject false = true ∧
        r.lvcPayloadBytes - cachedLen r.lvc subject + payload.length ≤ maxLvcBytes ∧
        ((cached r.lvc subject).isSome = true ∨ r.lvc.length < maxLvcEntries) := by
  have hfits : newEntryFits .succeeds r = true ↔ r.lvc.length < maxLvcEntries := by
    have hsmall : r.lvc.length + 1 ≤ 2 ^ 61 := by
      have hcount := h.count
      rw [maxLvcEntries] at hcount
      omega
    simp [newEntryFits, Alloc.succeeds, indexEnsure_isSome sliceHash r.lvcIndex (lvcKeys r) hsmall]
  simp only [copiesPayload, Bool.and_eq_true, Bool.or_eq_true, decide_eq_true_eq, hfits, and_assoc]

/-- A store beyond a limit changes nothing at all. -/
theorem lvcStore_refused (h : LvcInv r) (hcache : cacheable r subject = true)
    (hcopies : copiesPayload .succeeds r subject payload = false) :
    lvcStore .succeeds r subject payload = (r, false) := by
  rw [lvcStore_of_cacheable hcache]
  by_cases hvalid : subjectValid subject false = true
  · rw [lvcStoreEntry_eq h hvalid]
    by_cases hfit : maxLvcBytes <
        r.lvcPayloadBytes - cachedLen r.lvc subject + payload.length
    · rw [if_pos hfit]
    · rw [if_neg hfit]
      have hroom : ¬((cached r.lvc subject).isSome = true ∨ r.lvc.length < maxLvcEntries) := by
        intro hroom
        have hall := (copiesPayload_succeeds h subject payload).mpr
          ⟨hcache, hvalid, not_lt.mp hfit, hroom⟩
        rw [hcopies] at hall
        exact absurd hall (by decide)
      rw [not_or, not_lt] at hroom
      have hnone : cached r.lvc subject = none := by simpa using hroom.1
      rw [(lvcEntryFind_eq_none h).mpr hnone]
      dsimp only
      rw [lvcAppend, if_pos hroom.2]
  · rw [lvcStoreEntry, if_pos (by simpa using hvalid)]

theorem cacheable_enabled (h : cacheable r subject = true) :
    lvcSubjectEnabled r subject = true := by
  simp only [cacheable, Bool.and_eq_true] at h
  obtain ⟨-, h⟩ := h
  split_ifs at h with hstats
  · simp only [lvcStatsSubjectEnabled, Bool.and_eq_true, List.any_eq_true] at h
    obtain ⟨hon, f, hf, -, hmatches⟩ := h
    simp only [lvcSubjectEnabled, Bool.and_eq_true, List.any_eq_true]
    exact ⟨hon, f, hf, hmatches⟩
  · exact h

theorem lvcLatest_eq (h : LvcInv r) (subject : Bytes) :
    lvcLatest r subject =
      if subjectValid subject false && lvcSubjectEnabled r subject then cached r.lvc subject
      else none := by
  unfold lvcLatest
  cases hvalid : subjectValid subject false with
  | false => rfl
  | true =>
    cases henabled : lvcSubjectEnabled r subject with
    | false => rfl
    | true =>
      simp only [Bool.not_true, Bool.or_self, Bool.false_eq_true, if_false, Bool.and_self, if_true]
      cases hfind : lvcEntryFind r subject with
      | none => exact ((lvcEntryFind_eq_none h).mp hfind).symm
      | some i => exact (lvcEntryFind_eq_some h hfind []).2

end Store

/-! ## The store of a call -/

/-- A publish comes as far as its store. -/
def publishStores (m : Message) : Bool :=
  subjectValid m.subject false && (m.replyTo.isEmpty || subjectValid m.replyTo false) &&
    !subjectHasLvcPrefix m.subject

/-- Such a message passes the checks of a publish. -/
theorem publishStores_checks {m : Message} (h : publishStores m = true) :
    subjectValid m.subject false = true ∧
      (!m.replyTo.isEmpty && !subjectValid m.replyTo false) = false ∧
      subjectHasLvcPrefix m.subject = false := by
  simp only [publishStores, Bool.and_eq_true, Bool.or_eq_true, Bool.not_eq_true'] at h
  obtain ⟨⟨hvalid, hreply⟩, hlvc⟩ := h
  refine ⟨hvalid, ?_, hlvc⟩
  rcases hreply with h | h
  · simp [h]
  · simp [h]

/-- The store a call makes, if it makes one. -/
def storeOf : RouterCall → Option (Alloc × Bytes × Bytes)
  | .storeLvc A subject payload => some (A, subject, payload)
  | .publish A m => if publishStores m then some (A, m.subject, m.payload) else none
  | _ => none

def RouterCall.isConfigure : RouterCall → Bool
  | .configureLvc _ _ => true
  | _ => false

theorem cacheOf_publish_stores (A : Alloc) (w : World) {m : Message} (h : publishStores m = true) :
    cacheOf (publishWithReply A w m).world.router =
      cacheOf (lvcStore A w.router m.subject m.payload).1 := by
  obtain ⟨hvalid, hreply, hlvc⟩ := publishStores_checks h
  unfold publishWithReply
  rw [hvalid, hreply, hlvc, if_neg (by decide), if_neg (by decide), if_neg (by decide)]
  split
  · rename_i r heq
    rw [heq]
  · rename_i r heq
    rw [heq]
    split
    · rfl
    · exact cacheOf_deliverAll A _ m

theorem publish_of_not_stores (A : Alloc) (w : World) {m : Message}
    (h : publishStores m = false) : (publishWithReply A w m).world = w := by
  unfold publishWithReply
  split_ifs with h₁ h₂ h₃
  · rfl
  · rfl
  · rfl
  · simp only [Bool.not_eq_true'] at h₁ h₃
    simp_all [publishStores]

/-- Between two configurations, the cache changes by stores alone. -/
theorem cacheOf_routerStep (w : World) {call : RouterCall} (h : call.isConfigure = false) :
    cacheOf (routerStep w call).router =
      match storeOf call with
      | none => cacheOf w.router
      | some (A, subject, payload) => cacheOf (lvcStore A w.router subject payload).1 := by
  cases call with
  | configureLvc A filters => exact absurd h (by simp [RouterCall.isConfigure])
  | storeLvc A subject payload => rfl
  | subscribe A conn subject queue sid => exact cacheOf_subscribeQueue A w conn subject queue sid
  | unsubscribe conn sid maxMsgs => exact cacheOf_sweepRouter _ w
  | removeAllFor conn => exact cacheOf_sweepRouter _ w
  | publish A m =>
    cases hstores : publishStores m with
    | true =>
      simp only [storeOf, hstores, if_true]
      exact cacheOf_publish_stores A w hstores
    | false =>
      simp only [storeOf, hstores, Bool.false_eq_true, if_false]
      rw [routerStep, publish_of_not_stores A w hstores]
  | server conns => rfl

/-! ## Failed stores -/

/-- Nothing that can be read of the cache has changed, and its size is right. -/
structure StoreUndone (r r' : Router) : Prop where
  entries : ∀ e, e ∈ r'.lvc ↔ e ∈ r.lvc
  latest : ∀ subject, lvcLatest r' subject = lvcLatest r subject
  bytes : r'.lvcPayloadBytes = r.lvcPayloadBytes
  total : r'.lvcPayloadBytes = cacheBytes r'.lvc

/-- The memory for the payload cannot be had after the old payload is gone or a
new entry is in place. -/
def LosesPayload (A : Alloc) (r : Router) (subject payload : Bytes) : Prop :=
  copiesPayload A r subject payload = true ∧ payloadFails A r subject payload ∧
    cached r.lvc subject ≠ some []

theorem putEntry_cached {l : List LvcEntry} {subject payload : Bytes}
    (h : cached l subject = some payload) : putEntry subject payload l = l := by
  induction l with
  | nil => simp [cached] at h
  | cons e l ih =>
    rw [cached_cons] at h
    rw [putEntry]
    split_ifs at h ⊢ with he
    · rw [← Option.some.inj h]
    · rw [ih h]

section Failed

variable {r r' : Router} {A : Alloc} {subject payload : Bytes}

/-- Entries and size decide what can be read. -/
theorem storeUndone_of_entries (h : LvcInv r) (h' : LvcInv r') (hentries : r'.lvc = r.lvc)
    (hbytes : r'.lvcPayloadBytes = r.lvcPayloadBytes) (hsame : SameRouting r r') :
    StoreUndone r r' ↔ r.lvcPayloadBytes = cacheBytes r.lvc := by
  constructor
  · intro hundone
    rw [← hbytes, ← hentries]
    exact hundone.total
  · intro htotal
    refine ⟨fun e => by rw [hentries], fun s => ?_, hbytes, by rw [hbytes, hentries, htotal]⟩
    rw [lvcLatest_eq h, lvcLatest_eq h', hentries, hsame.lvcSubjectEnabled]

theorem storeUndone_iff (h : LvcInv r) (hfail : (lvcStore A r subject payload).2 = false) :
    StoreUndone r (lvcStore A r subject payload).1 ↔
      r.lvcPayloadBytes = cacheBytes r.lvc ∧ ¬LosesPayload A r subject payload := by
  have h' := h.store A subject payload
  have hsame := sameRouting_lvcStore A r subject payload
  have hcache : cacheable r subject = true := by
    by_contra hnot
    rw [lvcStore_of_not_cacheable (by simpa using hnot)] at hfail
    exact absurd hfail (by simp)
  cases hcopies : copiesPayload A r subject payload with
  | false =>
    obtain ⟨index, heq⟩ := lvcStore_of_not_copies h hcache hcopies
    rw [storeUndone_of_entries h h' (by rw [heq]) (by rw [heq]) hsame]
    simp [LosesPayload, hcopies]
  | true =>
    obtain ⟨index, caps, heq⟩ := lvcStore_of_copies h hcopies
    by_cases hmem : payloadFails A r subject payload
    · rw [if_pos hmem] at heq
      by_cases hempty : cached r.lvc subject = some []
      · have hput : putEntry subject [] r.lvc = r.lvc := putEntry_cached hempty
        rw [storeUndone_of_entries h h' (by rw [heq, hput]) (by rw [heq]) hsame]
        simp [LosesPayload, hempty]
      · -- the subject now reads as an empty payload
        have hvalid : subjectValid subject false = true := by
          simp only [copiesPayload, Bool.and_eq_true] at hcopies
          exact hcopies.1.1.2
        constructor
        · intro hundone
          have hlatest := hundone.latest subject
          rw [lvcLatest_eq h, lvcLatest_eq h', hsame.lvcSubjectEnabled, hvalid,
            cacheable_enabled hcache, if_pos (by decide), if_pos (by decide), heq] at hlatest
          rw [cached_putEntry, if_pos rfl] at hlatest
          exact absurd hlatest.symm hempty
        · rintro ⟨-, hnot⟩
          exact absurd ⟨hcopies, hmem, hempty⟩ hnot
    · rw [if_neg hmem] at heq
      rw [heq] at hfail
      exact absurd hfail (by simp)

/-- A store that loses no payload keeps the size right. -/
theorem cacheBytes_lvcStore (h : LvcInv r) (htotal : r.lvcPayloadBytes = cacheBytes r.lvc)
    (hkeeps : ¬LosesPayload A r subject payload) :
    (lvcStore A r subject payload).1.lvcPayloadBytes =
      cacheBytes (lvcStore A r subject payload).1.lvc := by
  cases hok : (lvcStore A r subject payload).2 with
  | false => exact ((storeUndone_iff h hok).mpr ⟨htotal, hkeeps⟩).total
  | true =>
    cases hcache : cacheable r subject with
    | false =>
      rw [lvcStore_of_not_cacheable hcache]
      exact htotal
    | true =>
      cases hcopies : copiesPayload A r subject payload with
      | false =>
        obtain ⟨index, heq⟩ := lvcStore_of_not_copies h hcache hcopies
        rw [heq] at hok
        exact absurd hok (by simp)
      | true =>
        obtain ⟨index, caps, heq⟩ := lvcStore_of_copies h hcopies
        split_ifs at heq with hmem
        · rw [heq] at hok
          exact absurd hok (by simp)
        · have hput := cacheBytes_putEntry r.lvc subject payload
          have hlen := cachedLen_le_cacheBytes r.lvc subject
          rw [heq]
          dsimp only
          omega

end Failed

/-- No store of the call loses a payload. -/
def KeepsPayloads (w : World) (call : RouterCall) : Prop :=
  ∀ A subject payload, storeOf call = some (A, subject, payload) →
    ¬LosesPayload A w.router subject payload

theorem cacheBytes_routerStep {w : World} (h : LvcInv w.router) (call : RouterCall)
    (hkeeps : KeepsPayloads w call)
    (htotal : w.router.lvcPayloadBytes = cacheBytes w.router.lvc) :
    (routerStep w call).router.lvcPayloadBytes = cacheBytes (routerStep w call).router.lvc := by
  cases hconf : call.isConfigure with
  | true =>
    cases call with
    | configureLvc A filters =>
      unfold routerStep configureLvc
      dsimp only
      split_ifs
      all_goals exact htotal
    | _ => exact absurd hconf (by simp [RouterCall.isConfigure])
  | false =>
    have hcache := cacheOf_routerStep w hconf
    cases hstore : storeOf call with
    | none =>
      rw [hstore] at hcache
      have hentries := congrArg Cache.entries hcache
      have hbytes := congrArg Cache.payloadBytes hcache
      simp only [cacheOf] at hentries hbytes
      rw [hentries, hbytes]
      exact htotal
    | some x =>
      obtain ⟨A, subject, payload⟩ := x
      rw [hstore] at hcache
      have hentries := congrArg Cache.entries hcache
      have hbytes := congrArg Cache.payloadBytes hcache
      simp only [cacheOf] at hentries hbytes
      rw [hentries, hbytes]
      exact cacheBytes_lvcStore h htotal (hkeeps A subject payload hstore)

/-- What a call whose store fails leaves. -/
theorem storeUndone_routerStep {w : World} (h : LvcInv w.router) {call : RouterCall} {A : Alloc}
    {subject payload : Bytes} (hstore : storeOf call = some (A, subject, payload)) :
    StoreUndone w.router (routerStep w call).router ↔
      StoreUndone w.router (lvcStore A w.router subject payload).1 := by
  have hconf : call.isConfigure = false := by
    cases call <;> simp_all [storeOf, RouterCall.isConfigure]
  have hcache := cacheOf_routerStep w hconf
  rw [hstore] at hcache
  have hentries := congrArg Cache.entries hcache
  have hbytes := congrArg Cache.payloadBytes hcache
  have henabled := congrArg Cache.enabled hcache
  have hfilters := congrArg Cache.filters hcache
  have hlatest : ∀ s, lvcLatest (routerStep w call).router s =
      lvcLatest (lvcStore A w.router subject payload).1 s := by
    intro s
    have h' := h.store A subject payload
    simp only [cacheOf] at hentries henabled hfilters
    rw [lvcLatest_eq h', lvcLatest_eq (h'.of_cache hcache), lvcSubjectEnabled, lvcSubjectEnabled,
      hentries, henabled, hfilters]
  simp only [cacheOf] at hentries hbytes
  constructor
  · rintro ⟨h₁, h₂, h₃, h₄⟩
    rw [hbytes] at h₃ h₄
    rw [hentries] at h₁ h₄
    exact ⟨h₁, fun s => (hlatest s).symm.trans (h₂ s), h₃, h₄⟩
  · rintro ⟨h₁, h₂, h₃, h₄⟩
    rw [← hbytes] at h₃ h₄
    rw [← hentries] at h₁ h₄
    exact ⟨h₁, fun s => (hlatest s).trans (h₂ s), h₃, h₄⟩

/-- **A failed store is undone.** It changes nothing that can be read of the
cache exactly when the size was right before and the store does not lose a
payload. The size is right after every run in which no store does. -/
theorem failed_store_undone_iff {conns : ConnId → RouterConn} (hconns : ∀ c, (conns c).subCount = 0)
    (calls : List RouterCall) (call : RouterCall) {A : Alloc} {subject payload : Bytes}
    (hstore : storeOf call = some (A, subject, payload))
    (hfail : (lvcStore A (calls.foldl routerStep ⟨routerInit, conns⟩).router subject payload).2 =
      false) :
    (StoreUndone (calls.foldl routerStep ⟨routerInit, conns⟩).router
        (routerStep (calls.foldl routerStep ⟨routerInit, conns⟩) call).router ↔
      (calls.foldl routerStep ⟨routerInit, conns⟩).router.lvcPayloadBytes =
          cacheBytes (calls.foldl routerStep ⟨routerInit, conns⟩).router.lvc ∧
        ¬LosesPayload A (calls.foldl routerStep ⟨routerInit, conns⟩).router subject payload) ∧
    (Runs.Along routerStep KeepsPayloads ⟨routerInit, conns⟩ calls →
      (calls.foldl routerStep ⟨routerInit, conns⟩).router.lvcPayloadBytes =
        cacheBytes (calls.foldl routerStep ⟨routerInit, conns⟩).router.lvc) := by
  have hinit : Reachable ⟨routerInit, conns⟩ := .init conns hconns
  have hlvc := (hinit.run calls).lvcInv
  constructor
  · rw [storeUndone_routerStep hlvc hstore]
    exact storeUndone_iff hlvc hfail
  · intro halong
    have hinv := halong.invariant
      (I := fun w => LvcInv w.router ∧ w.router.lvcPayloadBytes = cacheBytes w.router.lvc) ?_
      ⟨lvcInv_init, rfl⟩
    · exact hinv.2
    · rintro w c ⟨hw, htotal⟩ hkeeps
      refine ⟨?_, cacheBytes_routerStep hw c hkeeps htotal⟩
      exact hw.routerStep c

/-- Memory for everything but payloads. -/
def noPayloadMemory : Alloc := fun site => decide (site ≠ .lvcPayload)

/-- Everything is cached, and `a` has a value. -/
def onePayloadCached : List RouterCall :=
  [.configureLvc .succeeds [lit ">"], .storeLvc .succeeds (lit "a") (lit "1")]

/-- One byte more than the buffer of a first short payload has. -/
def longPayload : Bytes := List.replicate 1025 0x32

/-- The value of `a` cannot be replaced by a longer one and is gone. -/
theorem replaced_payload_lost :
    ¬∀ conns : ConnId → RouterConn, (∀ c, (conns c).subCount = 0) →
      ∀ (calls : List RouterCall) (call : RouterCall) (A : Alloc) (subject payload : Bytes),
        storeOf call = some (A, subject, payload) →
        (lvcStore A (calls.foldl routerStep ⟨routerInit, conns⟩).router subject payload).2 = false →
        StoreUndone (calls.foldl routerStep ⟨routerInit, conns⟩).router
          (routerStep (calls.foldl routerStep ⟨routerInit, conns⟩) call).router := by
  intro hall
  have hundone := hall (fun _ => plainConn) (fun _ => rfl) onePayloadCached
    (.storeLvc noPayloadMemory (lit "a") longPayload) _ _ _ rfl (by decide +kernel)
  have hlatest := hundone.latest (lit "a")
  exact absurd hlatest (by decide +kernel)

/-- A new subject for which there is no memory leaves the cache as it was. -/
theorem new_subject_undone :
    (lvcStore (fun site => decide (site ≠ .lvcSubject))
        (onePayloadCached.foldl routerStep ⟨routerInit, fun _ => plainConn⟩).router (lit "b")
        (lit "1")).2 = false ∧
      StoreUndone (onePayloadCached.foldl routerStep ⟨routerInit, fun _ => plainConn⟩).router
        (routerStep (onePayloadCached.foldl routerStep ⟨routerInit, fun _ => plainConn⟩)
          (.storeLvc (fun site => decide (site ≠ .lvcSubject)) (lit "b") (lit "1"))).router := by
  have hfail : (lvcStore (fun site => decide (site ≠ .lvcSubject))
      (onePayloadCached.foldl routerStep ⟨routerInit, fun _ => plainConn⟩).router (lit "b")
      (lit "1")).2 = false := by decide +kernel
  refine ⟨hfail, (failed_store_undone_iff (fun _ => rfl) onePayloadCached _ rfl hfail).1.mpr ?_⟩
  refine ⟨by decide +kernel, ?_⟩
  rintro ⟨hcopies, -, -⟩
  exact absurd hcopies (by decide +kernel)

/-! ## The map of accepted stores -/

/-- The write a call gets accepted. -/
def accepted (w : World) (call : RouterCall) : Option (Bytes × Bytes) :=
  match storeOf call with
  | none => none
  | some (A, subject, payload) =>
    if cacheable w.router subject && (lvcStore A w.router subject payload).2 then
      some (subject, payload)
    else none

def acceptedStores : World → List RouterCall → List (Bytes × Bytes)
  | _, [] => []
  | w, call :: calls => (accepted w call).toList ++ acceptedStores (routerStep w call) calls

/-- The last write to every subject. -/
def lastWrites (m : Bytes → Option Bytes) (writes : List (Bytes × Bytes)) : Bytes → Option Bytes :=
  writes.foldl (fun m x => Function.update m x.1 (some x.2)) m

/-- The calls of a router that has been configured, with memory for its stores. -/
def StoresFreely (call : RouterCall) : Prop :=
  call.isConfigure = false ∧ ∀ A subject payload,
    storeOf call = some (A, subject, payload) → A = .succeeds

/-- The cache agrees with a map. -/
structure CacheMap (m : Bytes → Option Bytes) (r : Router) : Prop where
  inv : LvcInv r
  total : r.lvcPayloadBytes = cacheBytes r.lvc
  keys : ∀ k ∈ lvcKeys r, cacheable r k = true
  cached : ∀ subject, cached r.lvc subject = m subject

theorem cacheable_congr {r r' : Router} (he : r'.lvcEnabled = r.lvcEnabled)
    (hf : r'.lvcFilters = r.lvcFilters) (subject : Bytes) :
    cacheable r' subject = cacheable r subject := by
  rw [cacheable, cacheable, lvcStatsSubjectEnabled, lvcStatsSubjectEnabled, lvcSubjectEnabled,
    lvcSubjectEnabled, he, hf]

theorem CacheMap.of_cache {m : Bytes → Option Bytes} {r r' : Router} (h : CacheMap m r)
    (hc : cacheOf r' = cacheOf r) : CacheMap m r' := by
  have hentries : r'.lvc = r.lvc := congrArg Cache.entries hc
  have hbytes : r'.lvcPayloadBytes = r.lvcPayloadBytes := congrArg Cache.payloadBytes hc
  constructor
  · exact h.inv.of_cache hc
  · rw [hbytes, hentries]
    exact h.total
  · intro k hk
    rw [cacheable_congr (congrArg Cache.enabled hc) (congrArg Cache.filters hc)]
    rw [lvcKeys, hentries] at hk
    exact h.keys k hk
  · rw [hentries]
    exact h.cached

/-- What is cached is what a lookup finds. -/
theorem CacheMap.latest {m : Bytes → Option Bytes} {r : Router} (h : CacheMap m r)
    (subject : Bytes) : lvcLatest r subject = m subject := by
  rw [lvcLatest_eq h.inv, ← h.cached]
  split_ifs with hread
  · rfl
  · symm
    rw [cached_eq_none]
    intro hmem
    apply hread
    rw [h.inv.valid subject hmem, cacheable_enabled (h.keys subject hmem), Bool.and_self]

theorem mem_subjects_putEntry {l : List LvcEntry} {subject payload k : Bytes}
    (h : k ∈ (putEntry subject payload l).map LvcEntry.subject) :
    k = subject ∨ k ∈ l.map LvcEntry.subject := by
  by_contra hnot
  rw [not_or] at hnot
  have hnone := cached_putEntry l subject payload k
  rw [if_neg hnot.1, cached_eq_none.mpr hnot.2, cached_eq_none] at hnone
  exact hnone h

/-- With memory, a store writes or is refused whole. -/
theorem CacheMap.store {m : Bytes → Option Bytes} {r : Router} (h : CacheMap m r)
    (subject payload : Bytes) :
    if cacheable r subject && (lvcStore .succeeds r subject payload).2 then
      CacheMap (Function.update m subject (some payload)) (lvcStore .succeeds r subject payload).1
    else cacheOf (lvcStore .succeeds r subject payload).1 = cacheOf r := by
  have hmem : ¬payloadFails .succeeds r subject payload := by simp [payloadFails, Alloc.succeeds]
  cases hcache : cacheable r subject with
  | false =>
    rw [lvcStore_of_not_cacheable hcache]
    rfl
  | true =>
    cases hcopies : copiesPayload .succeeds r subject payload with
    | true =>
      have hinv := h.inv.store .succeeds subject payload
      have htotal := @cacheBytes_lvcStore _ _ _ payload h.inv h.total
        (fun hloses : LosesPayload .succeeds r subject payload => hmem hloses.2.1)
      obtain ⟨index, caps, heq⟩ := lvcStore_of_copies h.inv hcopies
      rw [if_neg hmem] at heq
      rw [heq] at hinv htotal ⊢
      simp only [Bool.and_self, if_true]
      refine ⟨hinv, htotal, fun k hk => ?_, fun s => ?_⟩
      · rcases mem_subjects_putEntry hk with rfl | hk
        · exact hcache
        · exact h.keys k hk
      · rw [cached_putEntry, h.cached, Function.update_apply]
    | false =>
      have heq := lvcStore_refused h.inv hcache hcopies
      rw [heq]
      rfl

theorem CacheMap.step {m : Bytes → Option Bytes} {w : World} (h : CacheMap m w.router)
    {call : RouterCall} (hcall : StoresFreely call) :
    CacheMap (lastWrites m (accepted w call).toList) (routerStep w call).router := by
  have hcache := cacheOf_routerStep w hcall.1
  unfold accepted
  cases hstore : storeOf call with
  | none =>
    rw [hstore] at hcache
    exact h.of_cache hcache
  | some x =>
    obtain ⟨A, subject, payload⟩ := x
    obtain rfl := hcall.2 A subject payload hstore
    rw [hstore] at hcache
    have hmap := h.store subject payload
    dsimp only at hcache ⊢
    split_ifs at hmap ⊢ with hok
    · exact hmap.of_cache hcache
    · exact h.of_cache (hcache.trans hmap)

theorem CacheMap.run {m : Bytes → Option Bytes} {w : World} (h : CacheMap m w.router)
    {calls : List RouterCall} (hcalls : ∀ call ∈ calls, StoresFreely call) :
    CacheMap (lastWrites m (acceptedStores w calls)) (calls.foldl routerStep w).router := by
  induction calls generalizing m w with
  | nil => exact h
  | cons call calls ih =>
    have hnext := ih (h.step (hcalls call List.mem_cons_self))
      fun c hc => hcalls c (List.mem_cons_of_mem call hc)
    rw [acceptedStores, lastWrites, List.foldl_append]
    exact hnext

theorem cacheMap_configured (A : Alloc) (filters : List Bytes) :
    CacheMap (fun _ => none) (configureLvc A routerInit filters).1 := by
  have hentries : (configureLvc A routerInit filters).1.lvc = [] := by
    unfold configureLvc
    dsimp only
    split_ifs <;> rfl
  have hbytes : (configureLvc A routerInit filters).1.lvcPayloadBytes = 0 := by
    unfold configureLvc
    dsimp only
    split_ifs <;> rfl
  have hindex : (configureLvc A routerInit filters).1.lvcIndex = [] := by
    unfold configureLvc
    dsimp only
    split_ifs <;> rfl
  have hcaps : (configureLvc A routerInit filters).1.lvcPayloadCaps = [] := by
    unfold configureLvc
    dsimp only
    split_ifs <;> rfl
  refine ⟨lvcInv_init.of_entries hentries hcaps hindex hbytes, ?_, ?_, ?_⟩
  · rw [hentries, hbytes]
    rfl
  · intro k hk
    rw [lvcKeys, hentries] at hk
    exact absurd hk List.not_mem_nil
  · intro s
    rw [hentries]
    rfl

/-- A store of a configured router is accepted exactly within the two limits. -/
theorem CacheMap.accepts_iff {m : Bytes → Option Bytes} {r : Router} (h : CacheMap m r)
    {subject : Bytes} (hcache : cacheable r subject = true)
    (hvalid : subjectValid subject false = true) (payload : Bytes) :
    (lvcStore .succeeds r subject payload).2 = true ↔
      cacheBytes r.lvc - cachedLen r.lvc subject + payload.length ≤ maxLvcBytes ∧
        ((m subject).isSome = true ∨ r.lvc.length < maxLvcEntries) := by
  have hcopies := copiesPayload_succeeds h.inv subject payload
  rw [h.total, h.cached] at hcopies
  have hok : (lvcStore .succeeds r subject payload).2 = copiesPayload .succeeds r subject payload := by
    cases hc : copiesPayload .succeeds r subject payload with
    | false => rw [lvcStore_refused h.inv hcache hc]
    | true =>
      obtain ⟨index, caps, heq⟩ := lvcStore_of_copies h.inv hc
      rw [if_neg (by simp [payloadFails, Alloc.succeeds])] at heq
      rw [heq]
  rw [hok, hcopies]
  constructor
  · rintro ⟨-, -, hlimits⟩
    exact hlimits
  · intro hlimits
    exact ⟨hcache, hvalid, hlimits⟩

/-- **The cache is a bounded map.** After any calls on a router configured once,
a lookup gives the last payload accepted for its subject; the entries are within
the limits, and what a limit refuses changes nothing. -/
theorem cache_is_last_write_map (conns : ConnId → RouterConn) (A : Alloc) (filters : List Bytes)
    (calls : List RouterCall) (hcalls : ∀ call ∈ calls, StoresFreely call) :
    let start : World := ⟨(configureLvc A routerInit filters).1, conns⟩
    let r := (calls.foldl routerStep start).router
    (r.lvc.map LvcEntry.subject).Nodup ∧
      (∀ subject, lvcLatest r subject =
        lastWrites (fun _ => none) (acceptedStores start calls) subject) ∧
      r.lvcPayloadBytes = cacheBytes r.lvc ∧ r.lvcPayloadBytes ≤ maxLvcBytes ∧
      r.lvc.length ≤ maxLvcEntries ∧
      (∀ subject payload, cacheable r subject = true → subjectValid subject false = true →
        ((lvcStore .succeeds r subject payload).2 = true ↔
          cacheBytes r.lvc - cachedLen r.lvc subject + payload.length ≤ maxLvcBytes ∧
            ((lvcLatest r subject).isSome = true ∨ r.lvc.length < maxLvcEntries))) ∧
      ∀ call subject payload, storeOf call = some (.succeeds, subject, payload) →
        (lvcStore .succeeds r subject payload).2 = false →
        cacheOf (routerStep (calls.foldl routerStep start) call).router = cacheOf r := by
  intro start r
  have hmap : CacheMap (lastWrites (fun _ => none) (acceptedStores start calls)) r :=
    (show CacheMap (fun _ => none) start.router from cacheMap_configured A filters).run hcalls
  refine ⟨hmap.inv.indexed.nodup, hmap.latest, hmap.total, hmap.inv.bytes, hmap.inv.count, ?_, ?_⟩
  · intro subject payload hcache hvalid
    rw [hmap.latest]
    exact hmap.accepts_iff hcache hvalid payload
  · intro call subject payload hstore hfail
    have hconf : call.isConfigure = false := by
      cases call <;> simp_all [storeOf, RouterCall.isConfigure]
    have hcache := cacheOf_routerStep (calls.foldl routerStep start) hconf
    have hrefused := hmap.store subject payload
    rw [hstore] at hcache
    rw [if_neg (by simp [hfail])] at hrefused
    exact hcache.trans hrefused

/-- A value is replaced and read back. -/
theorem replaced_value_read :
    lvcLatest ([RouterCall.storeLvc .succeeds (lit "a") (lit "1"),
        .storeLvc .succeeds (lit "a") (lit "22")].foldl routerStep
          ⟨(configureLvc .succeeds routerInit [lit ">"]).1, fun _ => plainConn⟩).router (lit "a") =
      some (lit "22") := by
  have hmap := cache_is_last_write_map (fun _ => plainConn) .succeeds [lit ">"]
    [.storeLvc .succeeds (lit "a") (lit "1"), .storeLvc .succeeds (lit "a") (lit "22")] ?_
  · rw [hmap.2.1]
    decide +kernel
  · intro call hcall
    simp only [List.mem_cons, List.not_mem_nil, or_false] at hcall
    rcases hcall with rfl | rfl
    · exact ⟨rfl, fun _ _ _ h => by simp_all [storeOf]⟩
    · exact ⟨rfl, fun _ _ _ h => by simp_all [storeOf]⟩

end Monoblok
