import Mathlib.Data.Nat.Bitwise
import Mathlib.Data.List.Basic
import Mathlib.Tactic

/-!
# Open-addressing indexes

An index with linear probing over a table of `2 ^ k` slots. The index stores
positions of an array of keys, not the keys. `find_build_iff` says that a
lookup in the index built from an array finds the position of the key in the
array, and `exists_free` that a probe of an index that is not full ends.
-/

namespace Monoblok.OpenAddressing

structure Slot where
  hash : UInt64
  index : ℕ
  deriving DecidableEq, Repr

abbrev Index := List (Option Slot)

/-- The slot at some position, when the position holds an occupied one. -/
def slotAt (entries : Index) (pos : ℕ) : Option Slot := entries[pos]?.join

def home (cap : ℕ) (hash : UInt64) : ℕ := hash.toNat &&& (cap - 1)

def nextPos (cap pos : ℕ) : ℕ := (pos + 1) &&& (cap - 1)

def insertFrom (entries : Index) (s : Slot) : ℕ → ℕ → Index
  | 0, _ => entries
  | fuel + 1, pos =>
    match slotAt entries pos with
    | some _ => insertFrom entries s fuel (nextPos entries.length pos)
    | none => entries.set pos (some s)

/-- The first free slot from the home position on. -/
def insert (entries : Index) (hash : UInt64) (index : ℕ) : Index :=
  insertFrom entries ⟨hash, index⟩ entries.length (home entries.length hash)

def findFrom (entries : Index) (isKey : ℕ → Bool) (hash : UInt64) : ℕ → ℕ → Option ℕ
  | 0, _ => none
  | fuel + 1, pos =>
    match slotAt entries pos with
    | none => none
    | some s =>
      if s.hash == hash && isKey s.index then some s.index
      else findFrom entries isKey hash fuel (nextPos entries.length pos)

/-- Probes until a free slot or a slot of the key. -/
def find (entries : Index) (isKey : ℕ → Bool) (hash : UInt64) : Option ℕ :=
  findFrom entries isKey hash entries.length (home entries.length hash)

def insertAll : Index → List UInt64 → ℕ → Index
  | entries, [], _ => entries
  | entries, hash :: hashes, index => insertAll (insert entries hash index) hashes (index + 1)

/-- The index of an array of keys with these hashes. -/
def build (cap : ℕ) (hashes : List UInt64) : Index := insertAll (List.replicate cap none) hashes 0

theorem insertAll_append (entries : Index) (hs : List UInt64) (h : UInt64) (i : ℕ) :
    insertAll entries (hs ++ [h]) i = insert (insertAll entries hs i) h (i + hs.length) := by
  induction hs generalizing entries i with
  | nil => rfl
  | cons g hs ih =>
    rw [List.cons_append, insertAll, ih, insertAll, List.length_cons]
    congr 1
    omega

theorem build_append (cap : ℕ) (hs : List UInt64) (h : UInt64) :
    build cap (hs ++ [h]) = insert (build cap hs) h hs.length := by
  rw [build, insertAll_append, Nat.zero_add]
  rfl

theorem length_insertFrom (entries : Index) (s : Slot) (fuel pos : ℕ) :
    (insertFrom entries s fuel pos).length = entries.length := by
  induction fuel generalizing pos with
  | zero => rfl
  | succ fuel ih =>
    unfold insertFrom
    split
    · exact ih _
    · exact List.length_set

theorem length_insert (entries : Index) (hash : UInt64) (i : ℕ) :
    (insert entries hash i).length = entries.length :=
  length_insertFrom entries _ _ _

/-- Building does not change the size of the table. -/
theorem length_build (cap : ℕ) (hashes : List UInt64) : (build cap hashes).length = cap := by
  induction hashes using List.reverseRecOn with
  | nil => exact List.length_replicate
  | append_singleton hs h ih => rw [build_append, length_insert, ih]

/-! ## The probe sequence -/

def probe (cap : ℕ) (hash : UInt64) (d : ℕ) : ℕ := (hash.toNat + d) % cap

section Probe

variable {k : ℕ} {hash : UInt64}

theorem home_eq_probe : home (2 ^ k) hash = probe (2 ^ k) hash 0 := by
  rw [home, probe, Nat.and_two_pow_sub_one_eq_mod, Nat.add_zero]

theorem nextPos_probe (d : ℕ) :
    nextPos (2 ^ k) (probe (2 ^ k) hash d) = probe (2 ^ k) hash (d + 1) := by
  rw [nextPos, probe, probe, Nat.and_two_pow_sub_one_eq_mod, Nat.mod_add_mod, Nat.add_assoc]

theorem probe_lt (d : ℕ) : probe (2 ^ k) hash d < 2 ^ k := Nat.mod_lt _ (Nat.two_pow_pos k)

/-- Every position is probed within one round. -/
theorem exists_probe (hash : UInt64) {pos : ℕ} (hpos : pos < 2 ^ k) : ∃ d < 2 ^ k, probe (2 ^ k) hash d = pos := by
  have hcap := Nat.two_pow_pos k
  have hmod := Nat.mod_lt hash.toNat hcap
  refine ⟨(pos + (2 ^ k - hash.toNat % 2 ^ k)) % 2 ^ k, Nat.mod_lt _ hcap, ?_⟩
  rw [probe, Nat.add_mod_mod, ← Nat.mod_add_mod]
  have hsum : hash.toNat % 2 ^ k + (pos + (2 ^ k - hash.toNat % 2 ^ k)) = pos + 2 ^ k := by omega
  rw [hsum, Nat.add_mod_right, Nat.mod_eq_of_lt hpos]

end Probe

theorem slotAt_eq_some {entries : Index} {pos : ℕ} {s : Slot} :
    slotAt entries pos = some s ↔ entries[pos]? = some (some s) := by
  simp [slotAt, Option.join_eq_some_iff]

theorem slotAt_set {entries : Index} {pos p : ℕ} {s : Slot} (h : pos < entries.length) :
    slotAt (entries.set pos (some s)) p = if pos = p then some s else slotAt entries p := by
  unfold slotAt
  rw [List.getElem?_set]
  split_ifs with hp
  · rfl
  · rfl

theorem slotAt_isSome_set {entries : Index} {pos p : ℕ} {s : Slot}
    (h : (slotAt entries p).isSome = true) (hpos : pos < entries.length) :
    (slotAt (entries.set pos (some s)) p).isSome = true := by
  rw [slotAt_set hpos]
  split_ifs
  · rfl
  · exact h

/-- What an index says about the hashes of an array. -/
structure Covers (k : ℕ) (hashes : List UInt64) (entries : Index) : Prop where
  length : entries.length = 2 ^ k
  sound : ∀ pos s, slotAt entries pos = some s → hashes[s.index]? = some s.hash
  complete : ∀ i h, hashes[i]? = some h → ∃ d < 2 ^ k,
    slotAt entries (probe (2 ^ k) h d) = some ⟨h, i⟩ ∧
      ∀ e < d, (slotAt entries (probe (2 ^ k) h e)).isSome = true
  used : entries.countP Option.isSome = hashes.length

theorem covers_nil (k : ℕ) : Covers k [] (List.replicate (2 ^ k) none) := by
  refine ⟨by simp, ?_, by simp, ?_⟩
  · intro pos s h
    rw [slotAt_eq_some, List.getElem?_replicate] at h
    split_ifs at h
    cases h
  · rw [List.countP_replicate]
    rfl

/-- A probe from any hash reaches a free slot. -/
theorem exists_free {k : ℕ} {hashes : List UInt64} {entries : Index} (h : Covers k hashes entries)
    (hfull : hashes.length < 2 ^ k) (hash : UInt64) :
    ∃ d < 2 ^ k, slotAt entries (probe (2 ^ k) hash d) = none ∧
      ∀ e < d, (slotAt entries (probe (2 ^ k) hash e)).isSome = true := by
  have hexists : ∃ d, d < 2 ^ k ∧ slotAt entries (probe (2 ^ k) hash d) = none := by
    have hne : ¬ ∀ x ∈ entries, Option.isSome x = true := by
      rw [← List.countP_eq_length, h.used, h.length]
      omega
    simp only [not_forall, Bool.not_eq_true, Option.isSome_eq_false_iff, Option.isNone_iff_eq_none,
      exists_prop] at hne
    obtain ⟨x, hx, rfl⟩ := hne
    obtain ⟨pos, hpos, hget⟩ := List.getElem_of_mem hx
    rw [h.length] at hpos
    obtain ⟨d, hd, hprobe⟩ := exists_probe hash hpos
    refine ⟨d, hd, ?_⟩
    rw [hprobe, slotAt, List.getElem?_eq_getElem (by rw [h.length]; exact hpos), hget]
    rfl
  classical
  refine ⟨Nat.find hexists, (Nat.find_spec hexists).1, (Nat.find_spec hexists).2, ?_⟩
  intro e he
  have hmin := Nat.find_min hexists he
  have hlt : e < 2 ^ k := he.trans (Nat.find_spec hexists).1
  rw [not_and] at hmin
  exact Option.isSome_iff_ne_none.mpr (hmin hlt)

theorem insertFrom_eq {k : ℕ} {entries : Index} {s : Slot} {hash : UInt64}
    (hlen : entries.length = 2 ^ k) (d : ℕ) :
    ∀ (fuel j : ℕ), d < fuel →
      slotAt entries (probe (2 ^ k) hash (j + d)) = none →
      (∀ e < d, (slotAt entries (probe (2 ^ k) hash (j + e))).isSome = true) →
      insertFrom entries s fuel (probe (2 ^ k) hash j) =
        entries.set (probe (2 ^ k) hash (j + d)) (some s) := by
  induction d with
  | zero =>
    intro fuel j hfuel hfree _
    cases fuel with
    | zero => omega
    | succ fuel =>
      rw [Nat.add_zero] at hfree
      rw [insertFrom, hfree, Nat.add_zero]
  | succ d ih =>
    intro fuel j hfuel hfree hbusy
    cases fuel with
    | zero => omega
    | succ fuel =>
      obtain ⟨t, ht⟩ := Option.isSome_iff_exists.mp (hbusy 0 (Nat.succ_pos d))
      rw [Nat.add_zero] at ht
      rw [insertFrom, ht]
      simp only
      have hshift : ∀ e, j + (e + 1) = j + 1 + e := fun e => by omega
      rw [hlen, nextPos_probe, hshift d]
      apply ih fuel (j + 1) (by omega)
      · rw [← hshift d]
        exact hfree
      · intro e he
        rw [← hshift e]
        exact hbusy (e + 1) (by omega)

theorem Covers.insert {k : ℕ} {hashes : List UInt64} {entries : Index} (h : Covers k hashes entries)
    (hfull : hashes.length < 2 ^ k) (hash : UInt64) :
    Covers k (hashes ++ [hash]) (insert entries hash hashes.length) := by
  obtain ⟨d, hd, hfree, hbusy⟩ := exists_free h hfull hash
  have heq : OpenAddressing.insert entries hash hashes.length =
      entries.set (probe (2 ^ k) hash d) (some ⟨hash, hashes.length⟩) := by
    have := insertFrom_eq (s := ⟨hash, hashes.length⟩) h.length d (2 ^ k) 0 hd
      (by rwa [Nat.zero_add]) (by simpa using hbusy)
    rw [Nat.zero_add] at this
    rw [OpenAddressing.insert, h.length, home_eq_probe]
    exact this
  have hpos : probe (2 ^ k) hash d < entries.length := by
    rw [h.length]
    exact probe_lt d
  rw [heq]
  refine ⟨by rw [List.length_set, h.length], ?_, ?_, ?_⟩
  · intro pos s hs
    rw [slotAt_set hpos] at hs
    split_ifs at hs with hp
    · cases hs
      simp
    · have := h.sound pos s hs
      rw [List.getElem?_append_left]
      · exact this
      · exact (List.getElem?_eq_some_iff.mp this).1
  · intro i g hg
    rcases Nat.lt_or_ge i hashes.length with hi | hi
    · -- an older key keeps its chain; the new slot was free, so it is not its slot
      rw [List.getElem?_append_left hi] at hg
      obtain ⟨e, he, hslot, hchain⟩ := h.complete i g hg
      refine ⟨e, he, ?_, fun e' he' => slotAt_isSome_set (hchain e' he') hpos⟩
      rw [slotAt_set hpos, if_neg]
      · exact hslot
      · intro hsame
        rw [← hsame, hfree] at hslot
        cases hslot
    · have hlen := (List.getElem?_eq_some_iff.mp hg).1
      rw [List.length_append, List.length_singleton] at hlen
      have hi' : i = hashes.length := by omega
      subst hi'
      rw [List.getElem?_append_right (Nat.le_refl _), Nat.sub_self] at hg
      cases hg
      refine ⟨d, hd, ?_, fun e he => slotAt_isSome_set (hbusy e he) hpos⟩
      rw [slotAt_set hpos, if_pos rfl]
  · have hnone : entries[probe (2 ^ k) hash d] = none := by
      have hget := hfree
      rw [slotAt, List.getElem?_eq_getElem hpos] at hget
      simpa using hget
    rw [List.countP_set hpos, hnone, List.length_append, List.length_singleton, h.used]
    simp

theorem covers_build {k : ℕ} (hashes : List UInt64) (hfit : hashes.length ≤ 2 ^ k) :
    Covers k hashes (build (2 ^ k) hashes) := by
  induction hashes using List.reverseRecOn with
  | nil => exact covers_nil k
  | append_singleton hs h ih =>
    rw [List.length_append, List.length_singleton] at hfit
    rw [build_append]
    exact (ih (by omega)).insert (by omega) h

/-! ## Lookups -/

theorem findFrom_sound {entries : Index} {isKey : ℕ → Bool} {hash : UInt64} {fuel pos i : ℕ}
    (h : findFrom entries isKey hash fuel pos = some i) : isKey i = true := by
  induction fuel generalizing pos with
  | zero => cases h
  | succ fuel ih =>
    unfold findFrom at h
    split at h
    · cases h
    · split_ifs at h with hkey
      · cases h
        simp only [Bool.and_eq_true] at hkey
        exact hkey.2
      · exact ih h

theorem findFrom_of_chain {k : ℕ} {entries : Index} {isKey : ℕ → Bool} {hash : UInt64} {i : ℕ}
    (hlen : entries.length = 2 ^ k) (hkey : isKey i = true)
    (honly : ∀ j, isKey j = true → j = i) (d : ℕ) :
    ∀ (fuel j : ℕ), d < fuel →
      slotAt entries (probe (2 ^ k) hash (j + d)) = some ⟨hash, i⟩ →
      (∀ e < d, (slotAt entries (probe (2 ^ k) hash (j + e))).isSome = true) →
      findFrom entries isKey hash fuel (probe (2 ^ k) hash j) = some i := by
  induction d with
  | zero =>
    intro fuel j hfuel hslot _
    cases fuel with
    | zero => omega
    | succ fuel =>
      rw [Nat.add_zero] at hslot
      rw [findFrom, hslot]
      simp [hkey]
  | succ d ih =>
    intro fuel j hfuel hslot hbusy
    cases fuel with
    | zero => omega
    | succ fuel =>
      obtain ⟨t, ht⟩ := Option.isSome_iff_exists.mp (hbusy 0 (Nat.succ_pos d))
      rw [Nat.add_zero] at ht
      have hshift : ∀ e, j + (e + 1) = j + 1 + e := fun e => by omega
      rw [findFrom, ht]
      simp only
      split_ifs with hhit
      · simp only [Bool.and_eq_true] at hhit
        rw [honly _ hhit.2]
      · rw [hlen, nextPos_probe]
        apply ih fuel (j + 1) (by omega)
        · rw [← hshift d]
          exact hslot
        · intro e he
          rw [← hshift e]
          exact hbusy (e + 1) (by omega)

variable {α : Type*} [BEq α] [LawfulBEq α]

/-- A lookup returns the position of the key, as a scan of the array would. -/
theorem find_build_iff {hash : α → UInt64} {k : ℕ} {keys : List α} (hnodup : keys.Nodup)
    (hfit : keys.length ≤ 2 ^ k) (key : α) (i : ℕ) :
    find (build (2 ^ k) (keys.map hash)) (fun j => keys[j]? == some key) (hash key) = some i ↔
      keys[i]? = some key := by
  have hcover := covers_build (k := k) (keys.map hash) (by simpa using hfit)
  constructor
  · intro h
    simpa using findFrom_sound h
  · intro h
    have hget : (keys.map hash)[i]? = some (hash key) := by rw [List.getElem?_map, h]; rfl
    obtain ⟨d, hd, hslot, hbusy⟩ := hcover.complete i (hash key) hget
    rw [find, hcover.length, home_eq_probe]
    refine findFrom_of_chain hcover.length (by simpa using h) ?_ d _ 0 hd
      (by rwa [Nat.zero_add]) (by simpa using hbusy)
    intro j hj
    have hj' : keys[j]? = some key := by simpa using hj
    obtain ⟨hjlt, hjeq⟩ := List.getElem?_eq_some_iff.mp hj'
    obtain ⟨hilt, hieq⟩ := List.getElem?_eq_some_iff.mp h
    exact (List.Nodup.getElem_inj_iff hnodup).mp (hjeq.trans hieq.symm)

/-! ## Loops that only a slot ends

The loops of a program count nothing. A loop that reads outside of the table or
goes round it for ever has no result. -/

section Loops

variable (entries : Index)

/-- The loop of a lookup from a position, with its result. -/
inductive FindLoop (isKey : ℕ → Bool) (hash : UInt64) : ℕ → Option ℕ → Prop
  | free {pos : ℕ} (hpos : pos < entries.length) (hslot : slotAt entries pos = none) :
      FindLoop isKey hash pos none
  | hit {pos : ℕ} {s : Slot} (hslot : slotAt entries pos = some s)
      (hkey : (s.hash == hash && isKey s.index) = true) : FindLoop isKey hash pos (some s.index)
  | next {pos : ℕ} {s : Slot} {r : Option ℕ} (hslot : slotAt entries pos = some s)
      (hkey : (s.hash == hash && isKey s.index) = false)
      (hrest : FindLoop isKey hash (nextPos entries.length pos) r) : FindLoop isKey hash pos r

/-- The loop of an insertion. -/
inductive InsertLoop (s : Slot) : ℕ → Index → Prop
  | free {pos : ℕ} (hpos : pos < entries.length) (hslot : slotAt entries pos = none) :
      InsertLoop s pos (entries.set pos (some s))
  | next {pos : ℕ} {t : Slot} {r : Index} (hslot : slotAt entries pos = some t)
      (hrest : InsertLoop s (nextPos entries.length pos) r) : InsertLoop s pos r

end Loops

section Ends

variable {k : ℕ} {entries : Index} {hash : UInt64}

/-- A free slot ahead ends a lookup. -/
theorem findLoop_of_free (hlen : entries.length = 2 ^ k) (isKey : ℕ → Bool) (hash' : UInt64)
    (d : ℕ) (fuel j : ℕ) (hfuel : d < fuel)
    (hfree : slotAt entries (probe (2 ^ k) hash (j + d)) = none) :
    FindLoop entries isKey hash' (probe (2 ^ k) hash j)
      (findFrom entries isKey hash' fuel (probe (2 ^ k) hash j)) := by
  induction d generalizing fuel j with
  | zero =>
    cases fuel with
    | zero => omega
    | succ fuel =>
      rw [Nat.add_zero] at hfree
      rw [findFrom, hfree]
      exact .free (by rw [hlen]; exact probe_lt j) hfree
  | succ d ih =>
    cases fuel with
    | zero => omega
    | succ fuel =>
      cases hslot : slotAt entries (probe (2 ^ k) hash j) with
      | none =>
        rw [findFrom, hslot]
        exact .free (by rw [hlen]; exact probe_lt j) hslot
      | some s =>
        rw [findFrom, hslot]
        dsimp only
        split_ifs with hkey
        · exact .hit hslot hkey
        · apply FindLoop.next hslot (by simpa using hkey)
          rw [hlen, nextPos_probe]
          apply ih fuel (j + 1) (by omega)
          rw [Nat.add_assoc, Nat.add_comm 1 d]
          exact hfree

/-- And an insertion. -/
theorem insertLoop_of_free (hlen : entries.length = 2 ^ k) (s : Slot) (d : ℕ) (fuel j : ℕ)
    (hfuel : d < fuel) (hfree : slotAt entries (probe (2 ^ k) hash (j + d)) = none) :
    InsertLoop entries s (probe (2 ^ k) hash j)
      (insertFrom entries s fuel (probe (2 ^ k) hash j)) := by
  induction d generalizing fuel j with
  | zero =>
    cases fuel with
    | zero => omega
    | succ fuel =>
      rw [Nat.add_zero] at hfree
      rw [insertFrom, hfree]
      exact .free (by rw [hlen]; exact probe_lt j) hfree
  | succ d ih =>
    cases fuel with
    | zero => omega
    | succ fuel =>
      cases hslot : slotAt entries (probe (2 ^ k) hash j) with
      | none =>
        rw [insertFrom, hslot]
        exact .free (by rw [hlen]; exact probe_lt j) hslot
      | some t =>
        rw [insertFrom, hslot]
        apply InsertLoop.next hslot
        rw [hlen, nextPos_probe]
        apply ih fuel (j + 1) (by omega)
        rw [Nat.add_assoc, Nat.add_comm 1 d]
        exact hfree

/-- While a table is not full, a lookup ends, whatever it looks for. -/
theorem find_ends {hashes : List UInt64} (h : Covers k hashes entries)
    (hfull : hashes.length < 2 ^ k) (isKey : ℕ → Bool) (hash : UInt64) :
    FindLoop entries isKey hash (home entries.length hash) (find entries isKey hash) := by
  obtain ⟨d, hd, hfree, -⟩ := exists_free h hfull hash
  rw [find, h.length, home_eq_probe]
  apply findLoop_of_free h.length isKey hash d _ 0 hd
  rwa [Nat.zero_add]

theorem insert_ends {hashes : List UInt64} (h : Covers k hashes entries)
    (hfull : hashes.length < 2 ^ k) (hash : UInt64) (i : ℕ) :
    InsertLoop entries ⟨hash, i⟩ (home entries.length hash) (insert entries hash i) := by
  obtain ⟨d, hd, hfree, -⟩ := exists_free h hfull hash
  rw [insert, h.length, home_eq_probe]
  apply insertLoop_of_free h.length _ d _ 0 hd
  rwa [Nat.zero_add]

end Ends

end Monoblok.OpenAddressing
