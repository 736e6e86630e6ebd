import Monoblok.Lib.OpenAddressing
import Monoblok.Lib.SwapRemove
import Monoblok.Proto.Write
import Monoblok.Router.Match

/-!
# Router state

The data of `router.h` and the parts of `router.c` that look after single
tables: growable scratch arrays, bucket tables with their hash index, and the
last-value cache.

Memory comes from an oracle that answers every request by its place in the
source. The capacity of an array is kept only where the code reads it again
(the scratch arrays of `publish`, the buffers of the cached payloads).
-/

namespace Monoblok

open OpenAddressing

abbrev ConnId := ℕ

def maxPending : ℕ := 64 * 1024 * 1024
def maxSubsPerConn : ℕ := 4096
def maxSubsTotal : ℕ := 65536
def maxLvcEntries : ℕ := 65536
def maxLvcBytes : ℕ := 64 * 1024 * 1024

/-- The places where the router asks for memory; a call that asks several times
at one place numbers the requests. -/
inductive AllocSite where
  | kickScratch
  | closeScratch
  | queueScratch
  | subSubject
  | subQueue
  | subSid
  | index
  | buckets
  | bucketKey
  | subItems
  | lvcFilters
  | lvcFilter (i : ℕ)
  | lvcIndex
  | lvcEntries
  | lvcSubject
  | lvcPayload
  | out (i : ℕ)
  | write (i j : ℕ)
  deriving DecidableEq, Repr

abbrev Alloc := AllocSite → Bool

def Alloc.succeeds : Alloc := fun _ => true

/-- The length of a message as the arguments prefix, subject, sid, reply and
payload give it. -/
abbrev MsgLenFn := Bytes → Bytes → Bytes → Bytes → Bytes → Option ℕ

/-- Appends a message to a buffer; the first argument answers its requests for
memory in turn. -/
abbrev WriteMsgFn :=
  (ℕ → Bool) → Bytes → Bytes → Bytes → Bytes → Bytes → Bytes → Bytes × Bool

structure RouterConn where
  out : Bytes
  kickSeenEpoch : UInt64
  closeSeenEpoch : UInt64
  subCount : ℕ
  closed : Bool
  msgLenFn : Option MsgLenFn
  writeMsgFn : Option WriteMsgFn
  hasKickFn : Bool
  hasCloseFn : Bool

/-- The two counters are a `size_t` each. With a maximum, which `UNSUB` reads as one, the
subscription is gone once the deliveries have come to it; without one they would come round after
`2 ^ 64` messages to a single subscription, centuries at any rate of a socket. -/
structure Subscription where
  conn : ConnId
  subject : Bytes
  queue : Bytes
  sid : Bytes
  delivered : ℕ
  maxMsgs : ℕ
  hasMaxMsgs : Bool
  isLvc : Bool
  deriving DecidableEq, Repr

structure Bucket where
  key : Bytes
  subs : List Subscription
  deriving DecidableEq, Repr

structure BucketTable where
  buckets : List Bucket
  index : Index
  deriving DecidableEq, Repr

structure LvcEntry where
  subject : Bytes
  payload : Bytes
  deriving DecidableEq, Repr

structure Router where
  literal : BucketTable
  wildcard : BucketTable
  wildcardGlobal : List Subscription
  kickCap : ℕ
  closeCap : ℕ
  queueCap : ℕ
  kickEpoch : UInt64
  queueRng : UInt64
  subCount : ℕ
  lvc : List LvcEntry
  /-- `payload.cap` of every entry, by position. -/
  lvcPayloadCaps : List ℕ
  lvcIndex : Index
  lvcPayloadBytes : ℕ
  lvcEnabled : Bool
  lvcFilters : List Bytes
  deriving DecidableEq, Repr

def queueRngSeed : UInt64 := 0x9e3779b97f4a7c15

def routerInit : Router :=
  ⟨⟨[], []⟩, ⟨[], []⟩, [], 0, 0, 0, 0, queueRngSeed, 0, [], [], [], 0, false, []⟩

/-! ## Growable arrays -/

def growLoop (needed : ℕ) : ℕ → ℕ → ℕ
  | 0, _ => needed
  | fuel + 1, next =>
    if next < needed then
      if sizeMax / 2 < next then needed else growLoop needed fuel (next * 2)
    else next

/-- The capacity an array starts to grow from. -/
def growStart (cap initialCap : ℕ) : ℕ :=
  let next := if cap = 0 then initialCap else cap
  if next = 0 then 1 else next

/-- `mb_array_reserve`: the capacity afterwards, or `none` when the array
cannot grow. Doubling passes every `size_t` within 64 rounds. -/
def arrayReserve (ok : Bool) (cap needed elemSize initialCap : ℕ) : Option ℕ :=
  if needed ≤ cap then some cap
  else
    let next := growLoop needed 65 (growStart cap initialCap)
    if sizeMax / elemSize < next then none else if ok then some next else none

theorem growLoop_bounds {n : ℕ} (fuel next : ℕ) :
    n ≤ growLoop n fuel next ∧ growLoop n fuel next ≤ max next (2 * n) := by
  induction fuel generalizing next with
  | zero => exact ⟨le_rfl, by rw [growLoop]; omega⟩
  | succ fuel ih =>
    unfold growLoop
    split_ifs
    · omega
    · obtain ⟨h₁, h₂⟩ := ih (next * 2)
      omega
    · omega

theorem arrayReserve_ge {ok : Bool} {cap needed elemSize initialCap n : ℕ}
    (h : arrayReserve ok cap needed elemSize initialCap = some n) : needed ≤ n ∧ cap ≤ n := by
  unfold arrayReserve at h
  dsimp only at h
  split_ifs at h with hcap
  · cases h
    exact ⟨hcap, le_rfl⟩
  · have hgrow := (growLoop_bounds (n := needed) 65 (growStart cap initialCap)).1
    cases h
    omega

/-! ## Hash indexes -/

def nextIndexCapLoop (needed : ℕ) : ℕ → ℕ → ℕ
  | 0, _ => 0
  | fuel + 1, cap =>
    if cap < needed then
      if sizeMax / 2 < cap then 0 else nextIndexCapLoop needed fuel (cap * 2)
    else cap

/-- A power of two with room for `needed`, or 0 beyond `SIZE_MAX`. -/
def nextIndexCap (needed : ℕ) : ℕ := nextIndexCapLoop needed 64 16

theorem nextIndexCapLoop_pow {needed : ℕ} (fuel j : ℕ)
    (hne : nextIndexCapLoop needed fuel (2 ^ j) ≠ 0) :
    ∃ k, nextIndexCapLoop needed fuel (2 ^ j) = 2 ^ k ∧ needed ≤ 2 ^ k := by
  induction fuel generalizing j with
  | zero => exact absurd rfl hne
  | succ fuel ih =>
    unfold nextIndexCapLoop at hne ⊢
    split_ifs at hne ⊢ with h₁ h₂
    · exact absurd rfl hne
    · rw [← Nat.pow_succ] at hne ⊢
      exact ih (j + 1) hne
    · exact ⟨j, rfl, by omega⟩

theorem nextIndexCap_pow {needed : ℕ} (hne : nextIndexCap needed ≠ 0) :
    ∃ k, nextIndexCap needed = 2 ^ k ∧ needed ≤ 2 ^ k :=
  nextIndexCapLoop_pow 64 4 hne

theorem nextIndexCapLoop_pos {needed : ℕ} (h : needed ≤ 2 ^ 63) (fuel j : ℕ) (hj : j ≤ 63)
    (hfuel : 63 < j + fuel) : nextIndexCapLoop needed fuel (2 ^ j) ≠ 0 := by
  induction fuel generalizing j with
  | zero => omega
  | succ fuel ih =>
    unfold nextIndexCapLoop
    split_ifs with h₁ h₂
    · have hj62 : j ≤ 62 := by
        by_contra hlt
        have hj63 : j = 63 := by omega
        rw [hj63] at h₁
        omega
      have hpow : 2 ^ j ≤ 2 ^ 62 := Nat.pow_le_pow_right (by decide) hj62
      rw [sizeMax] at h₂
      omega
    · rw [← Nat.pow_succ]
      apply ih (j + 1)
      · by_contra hlt
        have hj63 : j = 63 := by omega
        rw [hj63] at h₁
        omega
      · omega
    · exact (Nat.two_pow_pos j).ne'

theorem nextIndexCap_pos {needed : ℕ} (h : needed ≤ 2 ^ 63) : nextIndexCap needed ≠ 0 :=
  nextIndexCapLoop_pos h 64 4 (by decide) (by decide)

section HashIndex

variable {α : Type*} (hash : α → UInt64)

/-- `literal_index_ensure` and its siblings: the index for one more key. -/
def indexEnsure (ok : Bool) (index : Index) (keys : List α) (needed : ℕ) : Option Index :=
  if index.length ≠ 0 ∧ needed < index.length / 2 then some index
  else if sizeMax / 4 < needed then none
  else
    let cap := nextIndexCap (if needed = 0 then 16 else needed * 4)
    if cap = 0 then none else if ok then some (build cap (keys.map hash)) else none

def indexRefresh (index : Index) (keys : List α) : Index :=
  if index.length = 0 then index else build index.length (keys.map hash)

/-- The position of a key: through the index, or by a scan while there is no
index. -/
def indexFind [DecidableEq α] (index : Index) (keys : List α) (key : α) : Option ℕ :=
  if index.length = 0 then keys.findIdx? (· == key)
  else find index (fun i => keys[i]? == some key) (hash key)

/-- The keys are different, and an index that is there agrees with them. -/
structure Indexed (keys : List α) (index : Index) : Prop where
  nodup : keys.Nodup
  built : index = [] ∨ ∃ k, keys.length < 2 ^ k ∧ index = build (2 ^ k) (keys.map hash)

theorem indexed_nil : Indexed hash [] [] := ⟨List.nodup_nil, .inl rfl⟩

variable {hash}

theorem findIdx?_eq_some_iff_getElem? [DecidableEq α] {keys : List α} (h : keys.Nodup) (key : α) (i : ℕ) :
    keys.findIdx? (· == key) = some i ↔ keys[i]? = some key := by
  constructor
  · intro hi
    obtain ⟨hlt, heq, -⟩ := List.findIdx?_eq_some_iff_getElem.mp hi
    rw [List.getElem?_eq_getElem hlt, Option.some.injEq]
    exact beq_iff_eq.mp heq
  · intro hi
    obtain ⟨hlt, heq⟩ := List.getElem?_eq_some_iff.mp hi
    refine List.findIdx?_eq_some_iff_getElem.mpr ⟨hlt, beq_iff_eq.mpr heq, fun j hj hbeq => ?_⟩
    have hji : j = i := h.getElem_inj_iff.mp ((beq_iff_eq.mp hbeq).trans heq.symm)
    omega

theorem indexFind_iff [DecidableEq α] {keys : List α} {index : Index}
    (h : Indexed hash keys index) (key : α) (i : ℕ) :
    indexFind hash index keys key = some i ↔ keys[i]? = some key := by
  rcases h.built with rfl | ⟨k, hk, rfl⟩
  · exact findIdx?_eq_some_iff_getElem? h.nodup key i
  · have hlen : (build (2 ^ k) (keys.map hash)).length ≠ 0 := by
      rw [length_build]
      exact (Nat.two_pow_pos k).ne'
    rw [indexFind, if_neg hlen]
    exact find_build_iff h.nodup hk.le key i

theorem indexFind_eq_none [DecidableEq α] {keys : List α} {index : Index}
    (h : Indexed hash keys index) (key : α) :
    indexFind hash index keys key = none ↔ key ∉ keys := by
  rw [List.mem_iff_getElem?, Option.eq_none_iff_forall_ne_some]
  simp only [Ne, indexFind_iff h, not_exists]

theorem indexEnsure_isSome (hash : α → UInt64) (index : Index) (keys : List α) {needed : ℕ}
    (h : needed ≤ 2 ^ 61) : (indexEnsure hash true index keys needed).isSome = true := by
  have hcap : nextIndexCap (if needed = 0 then 16 else needed * 4) ≠ 0 := by
    apply nextIndexCap_pos
    split_ifs
    · decide
    · omega
  have hmax : ¬sizeMax / 4 < needed := by
    rw [sizeMax]
    omega
  unfold indexEnsure
  dsimp only
  rw [if_neg hmax, if_neg hcap, if_pos rfl]
  split_ifs <;> rfl

/-- An index that has been made ready takes the next key. -/
theorem Indexed.insert {keys : List α} {index index' : Index} {ok : Bool}
    (h : Indexed hash keys index) (key : α)
    (he : indexEnsure hash ok index keys (keys.length + 1) = some index') :
    Indexed hash keys index' ∧ (key ∉ keys →
      Indexed hash (keys ++ [key]) (insert index' (hash key) keys.length)) := by
  -- either way the new index is built from the keys and has room to spare
  have hbuilt : ∃ k, keys.length + 1 < 2 ^ k ∧ index' = build (2 ^ k) (keys.map hash) := by
    unfold indexEnsure at he
    rw [if_neg (Nat.succ_ne_zero keys.length)] at he
    dsimp only at he
    split_ifs at he with h₁ h₂ h₃ h₄
    · cases he
      rcases h.built with rfl | ⟨k, hk, rfl⟩
      · exact absurd rfl h₁.1
      · rw [length_build] at h₁
        exact ⟨k, by omega, rfl⟩
    · cases he
      obtain ⟨k, hk, hle⟩ := nextIndexCap_pow h₃
      exact ⟨k, by omega, by rw [hk]⟩
  obtain ⟨k, hk, rfl⟩ := hbuilt
  refine ⟨⟨h.nodup, .inr ⟨k, by omega, rfl⟩⟩, fun hnew => ⟨?_, .inr ⟨k, ?_, ?_⟩⟩⟩
  · rw [List.nodup_append]
    refine ⟨h.nodup, List.nodup_singleton _, fun a ha b hb => ?_⟩
    rw [List.mem_singleton.mp hb]
    exact fun hab => hnew (hab ▸ ha)
  · rw [List.length_append, List.length_singleton]
    exact hk
  · rw [List.map_append, List.map_singleton, build_append, List.length_map]

theorem Indexed.refresh {keys keys' : List α} {index : Index} (h : Indexed hash keys index)
    (hnodup : keys'.Nodup) (hlen : keys'.length ≤ keys.length) :
    Indexed hash keys' (indexRefresh hash index keys') := by
  refine ⟨hnodup, ?_⟩
  rcases h.built with rfl | ⟨k, hk, rfl⟩
  · exact .inl rfl
  · have hcap := length_build (2 ^ k) (keys.map hash)
    refine .inr ⟨k, by omega, ?_⟩
    rw [indexRefresh, hcap, if_neg (Nat.two_pow_pos k).ne']

end HashIndex

end Monoblok
