import Monoblok.Router.State

/-!
# What an index promises

An index that is right (`Indexed`) has its size, its free slots, its chains and
its lookups in order, and every loop over it ends: those of lookups and
insertions, and those that built it. An index made ready for one more key is
right as well.
-/

namespace Monoblok

open OpenAddressing

section Agreement

variable {α : Type*} [DecidableEq α] (hash : α → UInt64)

/-- `literal_index_find` and its siblings, which find nothing without an index. -/
def tableIndexFind (index : Index) (keys : List α) (key : α) : Option ℕ :=
  if index.length = 0 then none else find index (fun i => keys[i]? == some key) (hash key)

/-- An array of keys and its index agree. -/
structure Agrees (keys : List α) (index : Index) : Prop where
  distinct : keys.Nodup
  lookup : ∀ key, indexFind hash index keys key = keys.findIdx? fun k => decide (k = key)
  unique : ∀ key i, indexFind hash index keys key = some i ↔ keys[i]? = some key
  size : index ≠ [] → ∃ k, index.length = 2 ^ k
  occupied : index ≠ [] → index.countP Option.isSome = keys.length
  room : index ≠ [] → index.countP Option.isSome < index.length
  slots : ∀ pos s, slotAt index pos = some s → ∃ key, keys[s.index]? = some key ∧ s.hash = hash key
  chains : index ≠ [] → ∀ i key, keys[i]? = some key → ∃ d < index.length,
    slotAt index (probe index.length (hash key) d) = some ⟨hash key, i⟩ ∧
      ∀ e < d, (slotAt index (probe index.length (hash key) e)).isSome = true
  findEnds : index ≠ [] → ∀ (isKey : ℕ → Bool) (h : UInt64),
    FindLoop index isKey h (home index.length h) (find index isKey h)
  insertEnds : index ≠ [] → ∀ (h : UInt64) (i : ℕ),
    InsertLoop index ⟨h, i⟩ (home index.length h) (insert index h i)
  rebuildEnds : index ≠ [] → ∀ i key, keys[i]? = some key →
    InsertLoop (build index.length ((keys.take i).map hash)) ⟨hash key, i⟩
      (home index.length (hash key)) (build index.length ((keys.take (i + 1)).map hash))

variable {hash} {keys : List α} {index : Index}

theorem Indexed.scan (h : Indexed hash keys index) (key : α) :
    indexFind hash index keys key = keys.findIdx? fun k => decide (k = key) := by
  apply Option.ext
  intro i
  rw [indexFind_iff h]
  exact (findIdx?_eq_some_iff_getElem? h.nodup key i).symm

omit [DecidableEq α] in
/-- The next key of an array goes into an index built from those before it. -/
theorem build_step {k i : ℕ} {key : α} (hget : keys[i]? = some key) (hfit : keys.length < 2 ^ k) :
    InsertLoop (build (2 ^ k) ((keys.take i).map hash)) ⟨hash key, i⟩ (home (2 ^ k) (hash key))
      (build (2 ^ k) ((keys.take (i + 1)).map hash)) := by
  obtain ⟨hi, hkey⟩ := List.getElem?_eq_some_iff.mp hget
  have hlen : ((keys.take i).map hash).length = i := by
    simp only [List.length_map, List.length_take]
    omega
  have hfull : ((keys.take i).map hash).length < 2 ^ k := by omega
  have hnext : (keys.take (i + 1)).map hash = (keys.take i).map hash ++ [hash key] := by
    rw [← List.take_append_getElem hi, List.map_append, hkey, List.map_singleton]
  have hends := insert_ends (covers_build _ hfull.le) hfull (hash key) i
  rw [length_build] at hends
  rw [hnext, build_append, hlen]
  exact hends

theorem Indexed.agrees (h : Indexed hash keys index) : Agrees hash keys index := by
  have hcover : index ≠ [] → ∃ k, keys.length < 2 ^ k ∧ index = build (2 ^ k) (keys.map hash) ∧
      index.length = 2 ^ k ∧ Covers k (keys.map hash) index := by
    intro hne
    obtain ⟨k, hk, rfl⟩ := h.built.resolve_left hne
    exact ⟨k, hk, rfl, length_build _ _, covers_build _ (by simpa using hk.le)⟩
  constructor
  · exact h.nodup
  · exact h.scan
  · exact indexFind_iff h
  · intro hne
    obtain ⟨k, -, -, hlen, -⟩ := hcover hne
    exact ⟨k, hlen⟩
  · intro hne
    obtain ⟨k, -, -, -, hc⟩ := hcover hne
    simpa using hc.used
  · intro hne
    obtain ⟨k, hk, -, hlen, hc⟩ := hcover hne
    rw [hc.used, List.length_map, hlen]
    exact hk
  · intro pos s hslot
    by_cases hne : index = []
    · simp [hne, slotAt] at hslot
    · obtain ⟨k, -, -, -, hc⟩ := hcover hne
      have hhash := hc.sound pos s hslot
      rw [List.getElem?_map, Option.map_eq_some_iff] at hhash
      obtain ⟨key, hkey, heq⟩ := hhash
      exact ⟨key, hkey, heq.symm⟩
  · intro hne i key hkey
    obtain ⟨k, -, -, hlen, hc⟩ := hcover hne
    rw [hlen]
    apply hc.complete
    rw [List.getElem?_map, hkey, Option.map_some]
  · intro hne isKey g
    obtain ⟨k, hk, -, -, hc⟩ := hcover hne
    exact find_ends hc (by simpa using hk) isKey g
  · intro hne g i
    obtain ⟨k, hk, -, -, hc⟩ := hcover hne
    exact insert_ends hc (by simpa using hk) g i
  · intro hne i key hkey
    obtain ⟨k, hk, -, hlen, -⟩ := hcover hne
    rw [hlen]
    exact build_step hkey hk

/-- So does an index that was made ready for the next key, and it is there. -/
theorem Indexed.ready {index' : Index} {ok : Bool} (h : Indexed hash keys index) (key : α)
    (he : indexEnsure hash ok index keys (keys.length + 1) = some index') :
    Agrees hash keys index' ∧ index' ≠ [] := by
  refine ⟨(h.insert key he).1.agrees, ?_⟩
  unfold indexEnsure at he
  rw [if_neg (Nat.succ_ne_zero _)] at he
  dsimp only at he
  split_ifs at he with h₁ h₂ h₃ h₄
  · cases he
    intro hnil
    simp [hnil] at h₁
  · cases he
    apply List.ne_nil_of_length_pos
    rw [length_build]
    omega

/-- Where there is an index as soon as there are keys, it finds what a scan would. -/
theorem Indexed.tableScan (h : Indexed hash keys index) (hmade : index = [] → keys = []) (key : α) :
    tableIndexFind hash index keys key = keys.findIdx? fun k => decide (k = key) := by
  rw [← h.scan key, tableIndexFind, indexFind]
  split_ifs with hnil
  · have hkeys := hmade (List.length_eq_zero_iff.mp hnil)
    simp [hkeys]
  · rfl

end Agreement

end Monoblok
