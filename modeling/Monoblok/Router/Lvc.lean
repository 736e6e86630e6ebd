import Monoblok.Router.State

/-!
# The last-value cache

`mb_router_configure_lvc`, `lvc_store` and the lookups of `router.c`. A store
finds the entry of its subject through the index or appends one, then replaces
the payload. The only failing allocation that leaves a trace is the one of the
payload: the old value is cleared before the new one is copied. Its buffer keeps
its memory, so a payload that fits in what an earlier one was given needs none.
-/

namespace Monoblok

open OpenAddressing

def configureLvc (A : Alloc) (r : Router) (filters : List Bytes) : Router × Bool :=
  let r := { r with lvcEnabled := false, lvcFilters := [] }
  if filters.isEmpty then (r, true)
  else if filters.any (fun f => !subjectValid f true) then (r, false)
  else if !A .lvcFilters then (r, false)
  else if (List.range filters.length).any (fun i => !A (.lvcFilter i)) then (r, false)
  else ({ r with lvcEnabled := true, lvcFilters := filters }, true)

def lvcSubjectEnabled (r : Router) (subject : Bytes) : Bool :=
  r.lvcEnabled && r.lvcFilters.any (subjectMatches · subject)

def lvcStatsSubjectEnabled (r : Router) (subject : Bytes) : Bool :=
  r.lvcEnabled && r.lvcFilters.any fun f => subjectHasStatsPrefix f && subjectMatches f subject

def lvcKeys (r : Router) : List Bytes := r.lvc.map LvcEntry.subject

def lvcEntryFind (r : Router) (subject : Bytes) : Option ℕ :=
  indexFind sliceHash r.lvcIndex (lvcKeys r) subject

def lvcPayloadLen (r : Router) (i : ℕ) : ℕ := (r.lvc[i]?.map fun e => e.payload.length).getD 0

/-- `mb_buf_reserve` of a cleared buffer: the capacity afterwards. -/
def payloadReserve (ok : Bool) (cap len : ℕ) : Option ℕ := arrayReserve ok cap len 1 1024

/-- Replaces the payload of entry `i`; `base` is the size of all other payloads. The buffer is
cleared first and asks for memory only beyond what it has. -/
def lvcWrite (A : Alloc) (r : Router) (i base : ℕ) (payload : Bytes) : Router × Bool :=
  match payloadReserve (A .lvcPayload) (r.lvcPayloadCaps.getD i 0) payload.length with
  | none => ({ r with lvc := r.lvc.modify i fun e => { e with payload := [] } }, false)
  | some cap =>
    ({ r with
        lvc := r.lvc.modify i fun e => { e with payload := payload }
        lvcPayloadCaps := r.lvcPayloadCaps.set i cap
        lvcPayloadBytes := base + payload.length }, true)

def lvcAppend (A : Alloc) (r : Router) (subject : Bytes) (base : ℕ) (payload : Bytes) :
    Router × Bool :=
  if maxLvcEntries ≤ r.lvc.length then (r, false)
  else
    match indexEnsure sliceHash (A .lvcIndex) r.lvcIndex (lvcKeys r) (r.lvc.length + 1) with
    | none => (r, false)
    | some index =>
      let r := { r with lvcIndex := index }
      if !A .lvcEntries then (r, false)
      else if !A .lvcSubject then (r, false)
      else
        lvcWrite A
          { r with
            lvc := r.lvc ++ [⟨subject, []⟩]
            lvcPayloadCaps := r.lvcPayloadCaps ++ [0]
            lvcIndex := insert r.lvcIndex (sliceHash subject) r.lvc.length }
          r.lvc.length base payload

def lvcStoreEntry (A : Alloc) (r : Router) (subject payload : Bytes) : Router × Bool :=
  if !subjectValid subject false then (r, false)
  else
    let found := lvcEntryFind r subject
    let oldLen := match found with
      | none => 0
      | some i => lvcPayloadLen r i
    if r.lvcPayloadBytes < oldLen then (r, false)
    else
      let base := r.lvcPayloadBytes - oldLen
      if maxLvcBytes < base ∨ maxLvcBytes - base < payload.length then (r, false)
      else
        match found with
        | some i => lvcWrite A r i base payload
        | none => lvcAppend A r subject base payload

def lvcStore (A : Alloc) (r : Router) (subject payload : Bytes) : Router × Bool :=
  if subjectHasLvcPrefix subject then (r, true)
  else if subjectHasStatsPrefix subject then
    if !lvcStatsSubjectEnabled r subject then (r, true) else lvcStoreEntry A r subject payload
  else if !lvcSubjectEnabled r subject then (r, true)
  else lvcStoreEntry A r subject payload

def lvcLatest (r : Router) (subject : Bytes) : Option Bytes :=
  if !subjectValid subject false || !lvcSubjectEnabled r subject then none
  else (lvcEntryFind r subject).bind fun i => r.lvc[i]?.map LvcEntry.payload

/-- Within the limit of the cache a request fails for want of memory only. -/
theorem payloadReserve_eq_none {ok : Bool} {cap len : ℕ} (h : len ≤ maxLvcBytes) :
    payloadReserve ok cap len = none ↔ cap < len ∧ ok = false := by
  rw [payloadReserve, arrayReserve]
  by_cases hcap : len ≤ cap
  · simp [hcap]
  · have hgrow := (growLoop_bounds (n := len) 65 (growStart cap 1024)).2
    have hstart : growStart cap 1024 ≤ max 1024 len := by
      simp only [growStart]
      split_ifs <;> omega
    have hsmall : ¬sizeMax / 1 < growLoop len 65 (growStart cap 1024) := by
      simp only [maxLvcBytes, sizeMax] at h ⊢
      omega
    rw [if_neg hcap]
    dsimp only
    rw [if_neg hsmall]
    cases ok <;> simp [not_le.mp hcap]

/-! ## What a store leaves alone -/

/-- Two routers that differ in the cached values at most. -/
structure SameRouting (r r' : Router) : Prop where
  literal : r'.literal = r.literal
  wildcard : r'.wildcard = r.wildcard
  wildcardGlobal : r'.wildcardGlobal = r.wildcardGlobal
  kickCap : r'.kickCap = r.kickCap
  closeCap : r'.closeCap = r.closeCap
  queueCap : r'.queueCap = r.queueCap
  kickEpoch : r'.kickEpoch = r.kickEpoch
  queueRng : r'.queueRng = r.queueRng
  subCount : r'.subCount = r.subCount
  lvcEnabled : r'.lvcEnabled = r.lvcEnabled
  lvcFilters : r'.lvcFilters = r.lvcFilters

theorem SameRouting.refl (r : Router) : SameRouting r r := by constructor <;> rfl

theorem SameRouting.trans {r s t : Router} (h : SameRouting r s) (g : SameRouting s t) :
    SameRouting r t :=
  ⟨g.1.trans h.1, g.2.trans h.2, g.3.trans h.3, g.4.trans h.4, g.5.trans h.5, g.6.trans h.6,
    g.7.trans h.7, g.8.trans h.8, g.9.trans h.9, g.10.trans h.10, g.11.trans h.11⟩

theorem sameRouting_lvcWrite (A : Alloc) (r : Router) (i base : ℕ) (payload : Bytes) :
    SameRouting r (lvcWrite A r i base payload).1 := by
  unfold lvcWrite
  split
  · constructor <;> rfl
  · constructor <;> rfl

theorem sameRouting_lvcAppend (A : Alloc) (r : Router) (subject : Bytes) (base : ℕ)
    (payload : Bytes) : SameRouting r (lvcAppend A r subject base payload).1 := by
  unfold lvcAppend
  split
  · exact .refl r
  · split
    · exact .refl r
    · dsimp only
      split_ifs
      · constructor <;> rfl
      · constructor <;> rfl
      · refine .trans ?_ (sameRouting_lvcWrite A _ _ base payload)
        constructor <;> rfl

theorem sameRouting_lvcStoreEntry (A : Alloc) (r : Router) (subject payload : Bytes) :
    SameRouting r (lvcStoreEntry A r subject payload).1 := by
  unfold lvcStoreEntry
  dsimp only
  split_ifs
  · exact .refl r
  · exact .refl r
  · exact .refl r
  · split
    · exact sameRouting_lvcWrite A r _ _ payload
    · exact sameRouting_lvcAppend A r subject _ payload

theorem sameRouting_lvcStore (A : Alloc) (r : Router) (subject payload : Bytes) :
    SameRouting r (lvcStore A r subject payload).1 := by
  unfold lvcStore
  split_ifs
  · exact .refl r
  · exact .refl r
  · exact sameRouting_lvcStoreEntry A r subject payload
  · exact .refl r
  · exact sameRouting_lvcStoreEntry A r subject payload

theorem SameRouting.lvcSubjectEnabled {r r' : Router} (h : SameRouting r r') (subject : Bytes) :
    lvcSubjectEnabled r' subject = Monoblok.lvcSubjectEnabled r subject := by
  rw [Monoblok.lvcSubjectEnabled, Monoblok.lvcSubjectEnabled, h.lvcEnabled, h.lvcFilters]

end Monoblok
