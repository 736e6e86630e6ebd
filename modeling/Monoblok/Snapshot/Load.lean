import Monoblok.Router.Cache
import Monoblok.Snapshot.Records

/-!
# Loading a built snapshot

What a load makes of exactly the bytes a build produced, into a router with the
same cache configuration and nothing cached. The cached values come back in
order; the slots are restored one after another, or skipped, until one is beyond
the limits of the reader.
-/

namespace Monoblok.Snapshot

open LittleEndian Patchbay

variable {N : Type} [Number N]

/-! ## Sequences of records -/

theorem loadRecords_of_some {fuel : ℕ} {l l' : Loading N} {bs rest : Bytes} (hne : bs ≠ [])
    (h : loadRecord l (bs ++ rest) = some (l', rest)) (hfuel : (bs ++ rest).length ≤ fuel) :
    ∃ fuel', rest.length ≤ fuel' ∧
      loadRecords fuel l (bs ++ rest) = loadRecords fuel' l' rest := by
  obtain ⟨b, bs, rfl⟩ := List.exists_cons_of_ne_nil hne
  simp only [List.cons_append, List.length_cons, List.length_append] at hfuel
  obtain ⟨fuel, rfl⟩ := Nat.exists_eq_succ_of_ne_zero (show fuel ≠ 0 by omega)
  refine ⟨fuel, by omega, ?_⟩
  rw [List.cons_append] at h ⊢
  rw [loadRecords, h]
  rfl
  exact List.cons_ne_nil _ _

theorem loadRecords_of_none {fuel : ℕ} {l : Loading N} {bs rest : Bytes} (hne : bs ≠ [])
    (h : loadRecord l (bs ++ rest) = none) : loadRecords fuel l (bs ++ rest) = none := by
  obtain ⟨b, bs, rfl⟩ := List.exists_cons_of_ne_nil hne
  rw [List.cons_append] at h ⊢
  cases fuel with
  | zero => rfl
  | succ fuel =>
    rw [loadRecords, h]
    rfl
    exact List.cons_ne_nil _ _

theorem loadRecords_nil (fuel : ℕ) (l : Loading N) : loadRecords fuel l [] = some l := by
  cases fuel <;> rfl

/-- A slot that is written: the number and the filter of its rule, and the slot. -/
abbrev Slot (N : Type) := ℕ × Bytes × StateEntry N

def fitsLoad (e : StateEntry N) : Bool := ((savedOf e).map Saved.fitsLoad).getD false

def fitsSkip (e : StateEntry N) : Bool := ((savedOf e).map Saved.fitsSkip).getD false

def placeSlot (l : Loading N) (x : Slot N) : Loading N :=
  match l.program, savedOf x.2.2 with
  | some p, some s => placeEntry l p x.1 x.2.1 x.2.2 s
  | _, _ => l

theorem isSome_program_placeSlot {l : Loading N} (h : l.program.isSome = true) (x : Slot N) :
    (placeSlot l x).program.isSome = true := by
  unfold placeSlot placeEntry
  split
  · split
    · exact h
    · rfl
  · exact h

theorem EntryBytes.ne_nil {ruleIdx : ℕ} {filter bs : Bytes} {e : StateEntry N} {s : Saved N}
    (h : EntryBytes ruleIdx filter e bs s) : bs ≠ [] := by
  obtain ⟨-, ⟨variant, body, -, rfl⟩, -, -⟩ := h
  exact List.cons_ne_nil _ _

/-- The records of a list of slots. -/
def appendSlots (es : List (Slot N)) : Option (List Bytes) :=
  es.mapM fun x => appendEntry x.1 x.2.1 x.2.2

theorem appendSlots_cons {x : Slot N} {es : List (Slot N)} {bss : List Bytes}
    (h : appendSlots (x :: es) = some bss) :
    ∃ bs s bss', EntryBytes x.1 x.2.1 x.2.2 bs s ∧ appendSlots es = some bss' ∧
      bss = bs :: bss' := by
  rw [appendSlots, List.mapM_cons] at h
  simp only [Option.bind_eq_bind, Option.bind_eq_some_iff, Option.pure_def,
    Option.some.injEq] at h
  obtain ⟨bs, hbs, bss', hbss, rfl⟩ := h
  obtain ⟨s, hs⟩ := appendEntry_eq_some hbs
  exact ⟨bs, s, bss', hs, hbss, rfl⟩

theorem loadRecords_slots {es : List (Slot N)} {bss : List Bytes} (h : appendSlots es = some bss)
    {l : Loading N} (hp : l.program.isSome = true) {fuel : ℕ} (hfuel : bss.flatten.length ≤ fuel) :
    loadRecords fuel l bss.flatten =
      if es.all fun x => fitsLoad x.2.2 then some (es.foldl placeSlot l) else none := by
  induction es generalizing l bss fuel with
  | nil =>
    cases h
    exact loadRecords_nil fuel l
  | cons x es ih =>
    obtain ⟨bs, s, bss', hs, hbss, rfl⟩ := appendSlots_cons h
    obtain ⟨p, hp'⟩ := Option.isSome_iff_exists.mp hp
    have hfits : fitsLoad x.2.2 = s.fitsLoad := by simp [fitsLoad, hs.saved]
    have hplace : placeSlot l x = placeEntry l p x.1 x.2.1 x.2.2 s := by
      simp [placeSlot, hp', hs.saved]
    have hread := loadRecord_entry hs hp' bss'.flatten
    rw [List.flatten_cons] at hfuel ⊢
    rw [List.all_cons, List.foldl_cons, hfits]
    cases hfit : s.fitsLoad with
    | true =>
      rw [hfit, if_pos rfl, ← hplace] at hread
      obtain ⟨fuel', hfuel', heq⟩ := loadRecords_of_some hs.ne_nil hread hfuel
      rw [heq, ih hbss (isSome_program_placeSlot hp x) hfuel', Bool.true_and]
    | false =>
      rw [hfit, if_neg (by simp)] at hread
      rw [loadRecords_of_none hs.ne_nil hread]
      simp

theorem loadRecords_slots_skip {es : List (Slot N)} {bss : List Bytes}
    (h : appendSlots es = some bss) {l : Loading N} (hp : l.program = none) {fuel : ℕ}
    (hfuel : bss.flatten.length ≤ fuel) :
    loadRecords fuel l bss.flatten =
      if es.all fun x => fitsSkip x.2.2 then some l else none := by
  induction es generalizing bss fuel with
  | nil =>
    cases h
    exact loadRecords_nil fuel l
  | cons x es ih =>
    obtain ⟨bs, s, bss', hs, hbss, rfl⟩ := appendSlots_cons h
    have hfits : fitsSkip x.2.2 = s.fitsSkip := by simp [fitsSkip, hs.saved]
    have hread := loadRecord_entry_skip hs hp bss'.flatten
    rw [List.flatten_cons] at hfuel ⊢
    rw [List.all_cons, hfits]
    cases hfit : s.fitsSkip with
    | true =>
      rw [hfit, if_pos rfl] at hread
      obtain ⟨fuel', hfuel', heq⟩ := loadRecords_of_some hs.ne_nil hread hfuel
      rw [heq, ih hbss hfuel', Bool.true_and]
    | false =>
      rw [hfit, if_neg (by simp)] at hread
      rw [loadRecords_of_none hs.ne_nil hread]
      simp

/-! ## Cached values -/

/-- A router with the same cache configuration and nothing cached. -/
structure EmptyCache (r r₀ : Router) : Prop where
  lvc : r₀.lvc = []
  caps : r₀.lvcPayloadCaps = []
  index : r₀.lvcIndex = []
  bytes : r₀.lvcPayloadBytes = 0
  enabled : r₀.lvcEnabled = r.lvcEnabled
  filters : r₀.lvcFilters = r.lvcFilters

theorem EmptyCache.lvcInv {r r₀ : Router} (h : EmptyCache r r₀) : LvcInv r₀ := by
  have hkeys : lvcKeys r₀ = [] := by simp [lvcKeys, h.lvc]
  constructor
  · rw [hkeys, h.index]
    exact indexed_nil sliceHash
  · simp [hkeys]
  · simp [h.lvc]
  · simp [h.lvc, h.caps]
  · simp [h.lvc, cacheBytes]
  · simp [h.bytes]

/-- The router after the values of `es` have been loaded into it. -/
structure LoadedCache (r : Router) (es : List LvcEntry) (r' : Router) : Prop where
  inv : LvcInv r'
  routing : SameRouting r r'
  lvc : r'.lvc = r.lvc ++ es.filter fun e => cacheable r e.subject
  bytes : r'.lvcPayloadBytes =
    r.lvcPayloadBytes + cacheBytes (es.filter fun e => cacheable r e.subject)

theorem cacheable_congr {r r' : Router} (h : SameRouting r r') (subject : Bytes) :
    cacheable r' subject = cacheable r subject := by
  simp only [cacheable, lvcStatsSubjectEnabled, lvcSubjectEnabled, h.lvcEnabled, h.lvcFilters]

theorem cacheBytes_cons (e : LvcEntry) (es : List LvcEntry) :
    cacheBytes (e :: es) = e.payload.length + cacheBytes es := by
  simp [cacheBytes]

/-- One value, stored if it may be cached. -/
theorem store_loaded {r : Router} (h : LvcInv r) {e : LvcEntry}
    (hvalid : subjectValid e.subject false = true) (hnew : e.subject ∉ lvcKeys r)
    (hcount : r.lvc.length < maxLvcEntries)
    (hfit : r.lvcPayloadBytes + e.payload.length ≤ maxLvcBytes) :
    ∃ r', lvcStore Alloc.succeeds r e.subject e.payload = (r', true) ∧
      LoadedCache r [e] r' := by
  have hinv := h.store Alloc.succeeds e.subject e.payload
  have hrouting := sameRouting_lvcStore Alloc.succeeds r e.subject e.payload
  cases hc : cacheable r e.subject with
  | true =>
    obtain ⟨index, caps, hstore⟩ := lvcStore_new h hc hvalid hnew hcount hfit
    rw [hstore] at hinv hrouting
    refine ⟨_, hstore, hinv, hrouting, ?_, ?_⟩
    · simp [hc]
    · simp [hc, cacheBytes]
  | false =>
    have hstore := lvcStore_of_not_cacheable hc Alloc.succeeds e.payload
    rw [hstore] at hinv hrouting
    refine ⟨_, hstore, hinv, hrouting, ?_, ?_⟩
    · simp [hc]
    · simp [hc, cacheBytes]

theorem LoadedCache.cons {r r₁ r₂ : Router} {e : LvcEntry} {es : List LvcEntry}
    (h₁ : LoadedCache r [e] r₁) (h₂ : LoadedCache r₁ es r₂) : LoadedCache r (e :: es) r₂ := by
  have hfilter : (es.filter fun e => cacheable r₁ e.subject) =
      es.filter fun e => cacheable r e.subject := by
    simp only [cacheable_congr h₁.routing]
  have hcons : ((e :: es).filter fun e => cacheable r e.subject) =
      ([e].filter fun e => cacheable r e.subject) ++
        es.filter fun e => cacheable r e.subject := by
    rw [← List.filter_append]
    rfl
  refine ⟨h₂.inv, h₁.routing.trans h₂.routing, ?_, ?_⟩
  · rw [h₂.lvc, h₁.lvc, hfilter, hcons, List.append_assoc]
  · rw [h₂.bytes, h₁.bytes, hfilter, hcons]
    simp only [cacheBytes, List.map_append, List.sum_append]
    omega

theorem loadRecords_lvc {es : List LvcEntry} {bss : List Bytes}
    (h : es.mapM appendLvcEntry = some bss) {l : Loading N} (hinv : LvcInv l.router)
    (hvalid : ∀ e ∈ es, subjectValid e.subject false = true)
    (hnodup : (es.map LvcEntry.subject).Nodup)
    (hnew : ∀ e ∈ es, e.subject ∉ lvcKeys l.router)
    (hcount : l.router.lvc.length + es.length ≤ maxLvcEntries)
    (hfit : l.router.lvcPayloadBytes + cacheBytes es ≤ maxLvcBytes) {fuel : ℕ} {rest : Bytes}
    (hfuel : (bss.flatten ++ rest).length ≤ fuel) :
    ∃ r fuel', LoadedCache l.router es r ∧ rest.length ≤ fuel' ∧
      loadRecords fuel l (bss.flatten ++ rest) =
        loadRecords fuel' { l with router := r, counts.lvc := l.counts.lvc + es.length } rest := by
  induction es generalizing l bss fuel with
  | nil =>
    cases h
    have hempty : LoadedCache l.router [] l.router :=
      ⟨hinv, .refl _, by simp, by simp [cacheBytes]⟩
    exact ⟨l.router, fuel, hempty, hfuel, rfl⟩
  | cons e es ih =>
    rw [List.mapM_cons] at h
    simp only [Option.bind_eq_bind, Option.bind_eq_some_iff, Option.pure_def,
      Option.some.injEq] at h
    obtain ⟨bs, hbs, bss', hbss, rfl⟩ := h
    rw [List.map_cons, List.nodup_cons] at hnodup
    rw [List.length_cons] at hcount
    rw [cacheBytes_cons] at hfit
    rw [List.flatten_cons, List.append_assoc] at hfuel ⊢
    obtain ⟨r₁, hstore, hr₁⟩ := store_loaded hinv (hvalid e (by simp)) (hnew e (by simp))
      (by omega) (by omega)
    have hne : bs ≠ [] := by
      obtain ⟨-, -, rfl⟩ := appendLvcEntry_eq_some hbs
      exact List.cons_ne_nil _ _
    obtain ⟨fuel₁, hfuel₁, heq₁⟩ :=
      loadRecords_of_some hne (loadRecord_lvc hbs l hstore (bss'.flatten ++ rest)) hfuel
    -- the entry just loaded is new to the others, and takes at most its own room
    have hsub : ([e].filter fun e => cacheable l.router e.subject).Sublist [e] :=
      List.filter_sublist
    have hlen := hsub.length_le
    have hkeys : ∀ k ∈ lvcKeys r₁, k ∈ lvcKeys l.router ∨ k = e.subject := by
      intro k hk
      rw [lvcKeys, hr₁.lvc, List.map_append, List.mem_append] at hk
      rcases hk with hk | hk
      · exact .inl hk
      · obtain ⟨e', he', rfl⟩ := List.mem_map.mp hk
        rw [List.mem_singleton.mp (hsub.subset he')]
        exact .inr rfl
    have hbytes : cacheBytes ([e].filter fun e => cacheable l.router e.subject) ≤
        e.payload.length := by
      cases hc : cacheable l.router e.subject <;> simp [hc, cacheBytes]
    obtain ⟨r, fuel', hr, hfuel', heq⟩ := ih (l := { l with
        router := r₁
        counts.lvc := l.counts.lvc + 1 }) hbss hr₁.inv
      (fun e' he' => hvalid e' (List.mem_cons_of_mem e he')) hnodup.2
      (fun e' he' hk => by
        rcases hkeys _ hk with hk | hk
        · exact hnew e' (List.mem_cons_of_mem e he') hk
        · exact hnodup.1 (hk ▸ List.mem_map_of_mem he'))
      (by
        rw [hr₁.lvc, List.length_append]
        simp only [List.length_singleton] at hlen
        omega)
      (by
        rw [hr₁.bytes]
        omega) hfuel₁
    refine ⟨r, fuel', hr₁.cons hr, hfuel', ?_⟩
    have hcounts : l.counts.lvc + (e :: es).length = l.counts.lvc + 1 + es.length := by
      rw [List.length_cons]
      omega
    rw [heq₁, heq, hcounts]

/-! ## The whole file -/

def slotsOf (p : Option (Program N)) : List (Slot N) := (p.map savedEntries).getD []

theorem snapshotBuild_eq_some {r : Router} {p : Option (Program N)} {bs : Bytes}
    (h : snapshotBuild r p = some bs) :
    ∃ lvc slots, r.lvc.mapM appendLvcEntry = some lvc ∧ appendSlots (slotsOf p) = some slots ∧
      bs = header ++ (lvc.flatten ++ slots.flatten) := by
  unfold snapshotBuild at h
  cases p with
  | none =>
    simp only [Option.bind_eq_bind, Option.bind_eq_some_iff, Option.pure_def,
      Option.some.injEq] at h
    obtain ⟨lvc, hlvc, -, rfl, rfl⟩ := h
    exact ⟨lvc, [], hlvc, rfl, by simp⟩
  | some p =>
    simp only [Option.bind_eq_bind, Option.bind_eq_some_iff, Option.pure_def,
      Option.some.injEq] at h
    obtain ⟨lvc, hlvc, state, hstate, rfl⟩ := h
    obtain ⟨slots, hslots, rfl⟩ := Option.map_eq_some_iff.mp hstate
    exact ⟨lvc, slots, hlvc, hslots, by rw [List.append_assoc]⟩

theorem headerOk_header (rest : Bytes) : headerOk (header ++ rest) = true := by
  simp [headerOk, header, lit, snapVersion, snapMinReadVersion]

/-- A load of built bytes restores the cache and comes to the slots. -/
theorem snapshotLoad_build {r r₀ : Router} (hr : LvcInv r) (h₀ : EmptyCache r r₀)
    {p : Option (Program N)} {bs : Bytes} (hb : snapshotBuild r p = some bs)
    (q : Option (Program N)) :
    ∃ r' slots fuel, LoadedCache r₀ r.lvc r' ∧ appendSlots (slotsOf p) = some slots ∧
      slots.flatten.length ≤ fuel ∧
      snapshotLoad bs r₀ q = loadRecords fuel ⟨r', q, ⟨r.lvc.length, 0⟩⟩ slots.flatten := by
  obtain ⟨lvc, slots, hlvc, hslots, rfl⟩ := snapshotBuild_eq_some hb
  have hheader : header.length = 8 := rfl
  have hdrop : (header ++ (lvc.flatten ++ slots.flatten)).drop 8 =
      lvc.flatten ++ slots.flatten := List.drop_left' hheader
  have hlen : (lvc.flatten ++ slots.flatten).length ≤
      (header ++ (lvc.flatten ++ slots.flatten)).length := by
    simp only [List.length_append]
    omega
  obtain ⟨r', fuel, hr', hfuel, heq⟩ := loadRecords_lvc hlvc (l := ⟨r₀, q, ⟨0, 0⟩⟩) h₀.lvcInv
    (fun e he => hr.valid _ (List.mem_map_of_mem he)) hr.indexed.nodup
    (fun e _ => by simp [lvcKeys, h₀.lvc])
    (by
      have hcount := hr.count
      simp only [h₀.lvc, List.length_nil]
      omega)
    (by
      have htotal := hr.total.trans hr.bytes
      simp only [h₀.bytes]
      omega) hlen
  refine ⟨r', slots, fuel, hr', hslots, hfuel, ?_⟩
  rw [snapshotLoad, if_pos (headerOk_header _), hdrop, heq]
  simp only [Nat.zero_add]

end Monoblok.Snapshot
