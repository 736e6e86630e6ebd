import Mathlib.Data.Nat.Digits.Defs
import Monoblok.Patchbay.Forms
import Monoblok.Proto.Subject

/-!
# JSON paths

A path is followed token by token: an object step takes the member of that name, an
array step the element at the decimal index. The lookup reads an index in machine
arithmetic, so that an index of `2 ^ 64` or more may come round to an element.
-/

namespace Monoblok.Patchbay.JsonPaths

open Tokens

variable {N : Type}

/-! ## What a path denotes -/

/-- Following tokens from a value, with `index` to read the index a token spells. -/
inductive Follows (index : Bytes → Option ℕ) : Json N → List Bytes → Json N → Prop
  | here (v : Json N) : Follows index v [] v
  | member {members : List (Bytes × Json N)} {name name' : Bytes} {next v : Json N}
      {toks : List Bytes} (hfind : members.find? (fun m => m.1 == name) = some (name', next))
      (hrest : Follows index next toks v) : Follows index (.obj members) (name :: toks) v
  | element {items : List (Json N)} {tok : Bytes} {i : ℕ} {next v : Json N} {toks : List Bytes}
      (hindex : index tok = some i) (hitem : items[i]? = some next)
      (hrest : Follows index next toks v) : Follows index (.arr items) (tok :: toks) v

def IsIndex (tok : Bytes) : Prop := tok ≠ [] ∧ ∀ b ∈ tok, 0x30 ≤ b ∧ b ≤ 0x39

instance (tok : Bytes) : Decidable (IsIndex tok) := inferInstanceAs (Decidable (_ ∧ _))

/-- The natural number that decimal digits spell. -/
def spelled (tok : Bytes) : ℕ := Nat.ofDigits 10 ((tok.map fun b => b.toNat - 0x30).reverse)

def decimalIndex (tok : Bytes) : Option ℕ := if IsIndex tok then some (spelled tok) else none

/-- The value at the end of a path. -/
def Denotes (root : Json N) (path : Bytes) (v : Json N) : Prop :=
  Follows decimalIndex root (tokens path) v

/-! ## Machine indices -/

theorem foldl_index (w : ℕ) (tok : Bytes) (n : ℕ) :
    tok.foldl (fun n b => (n * 10 + (b.toNat - 0x30)) % w) (n % w) =
      (n * 10 ^ tok.length + spelled tok) % w := by
  induction tok generalizing n with
  | nil => simp [spelled]
  | cons b tok ih =>
    have hstep : (n % w * 10 + (b.toNat - 0x30)) % w = (n * 10 + (b.toNat - 0x30)) % w :=
      ((Nat.mod_modEq n w).mul_right 10).add_right _
    have hspelled : spelled (b :: tok) =
        spelled tok + 10 ^ tok.length * (b.toNat - 0x30) := by
      simp [spelled, Nat.ofDigits_append, Nat.ofDigits_singleton]
    rw [List.foldl_cons, hstep, ih, hspelled, List.length_cons]
    apply congrArg (· % w)
    ring

theorem tokenIndex_eq (tok : Bytes) : tokenIndex tok = (decimalIndex tok).map (· % 2 ^ 64) := by
  have hdigits : (tok.isEmpty || tok.any fun b => b < 0x30 || 0x39 < b) = true ↔ ¬ IsIndex tok := by
    simp only [IsIndex, Bool.or_eq_true, List.isEmpty_iff, List.any_eq_true, decide_eq_true_eq,
      not_and_or, not_forall, UInt8.not_le, not_not, exists_prop]
  unfold tokenIndex decimalIndex
  by_cases h : IsIndex tok
  · have hfold := foldl_index (2 ^ 64) tok 0
    rw [if_neg (hdigits.not.mpr (not_not.mpr h)), if_pos h]
    simpa using hfold
  · rw [if_pos (hdigits.mpr h), if_neg h, Option.map_none]

/-! ## The lookup follows the path -/

theorem pathToken_last {path : Bytes} (hr : rest dot path = []) (hne : first dot path ≠ []) :
    pathToken path = some (first dot path, []) := by
  have happ := first_append_rest dot path
  rw [hr, List.append_nil] at happ
  unfold pathToken
  have hempty : (path.takeWhile (· != dot)).isEmpty = false := by
    simpa [first] using hne
  have hdrop : path.drop (path.takeWhile (· != dot)).length = [] := by
    rw [show path.takeWhile (· != dot) = path from happ, List.drop_length]
  simp [hempty, hdrop, first]

theorem pathToken_inner {path r : Bytes} (hr : rest dot path = dot :: r)
    (hne : first dot path ≠ []) : pathToken path = some (first dot path, r) := by
  have happ := first_append_rest dot path
  have hdrop : path.drop (first dot path).length = dot :: r := by
    conv => lhs; arg 2; rw [← happ]
    rw [List.drop_left, hr]
  have hempty : (first dot path).isEmpty = false := by simpa using hne
  unfold pathToken
  change (if (first dot path).isEmpty = true then none
    else some (first dot path, (path.drop (first dot path).length).drop 1)) = _
  simp [hempty, hdrop]

theorem follows_child {cur v : Json N} {tok : Bytes} {toks : List Bytes} :
    Follows tokenIndex cur (tok :: toks) v ↔
      ∃ next, jsonChild cur tok = some next ∧ Follows tokenIndex next toks v := by
  constructor
  · intro h
    cases h with
    | member hfind hrest => exact ⟨_, by simp [jsonChild, hfind], hrest⟩
    | element hindex hitem hrest => exact ⟨_, by simp [jsonChild, hindex, hitem], hrest⟩
  · rintro ⟨next, hchild, hrest⟩
    cases cur with
    | obj members =>
      obtain ⟨⟨name, _⟩, hfind, rfl⟩ := Option.map_eq_some_iff.mp hchild
      exact .member hfind hrest
    | arr items =>
      obtain ⟨i, hindex, hitem⟩ := Option.bind_eq_some_iff.mp hchild
      exact .element hindex hitem hrest
    | _ => cases hchild

theorem follows_nil {cur v : Json N} {index : Bytes → Option ℕ} :
    Follows index cur [] v ↔ cur = v := by
  constructor
  · intro h
    cases h
    rfl
  · rintro rfl
    exact .here cur

theorem jsonLookupFrom_iff {fuel : ℕ} {cur v : Json N} {path : Bytes}
    (hlen : path.length < fuel) (hne : ∀ tok ∈ tokens path, tok ≠ []) :
    jsonLookupFrom fuel cur path = some v ↔ Follows tokenIndex cur (tokens path) v := by
  induction fuel generalizing cur path with
  | zero => omega
  | succ fuel ih =>
    rcases rest_eq_cons (rfl : rest dot path = rest dot path) with hr | ⟨r, hr⟩
    · rw [tokens_of_rest_nil hr] at hne ⊢
      have hfirst := hne _ List.mem_cons_self
      have happ := first_append_rest dot path
      have hpos : 0 < (first dot path).length := List.length_pos_iff.mpr hfirst
      rw [hr, List.append_nil] at happ
      rw [happ] at hpos
      obtain ⟨fuel', rfl⟩ : ∃ fuel', fuel = fuel' + 1 := ⟨fuel - 1, by omega⟩
      have hdone : ∀ next : Json N, jsonLookupFrom (fuel' + 1) next [] = some next := by
        intro next
        rfl
      unfold jsonLookupFrom
      simp only [pathToken_last hr hfirst, Option.bind_eq_some_iff, follows_child, follows_nil,
        hdone, Option.some.injEq]
    · rw [tokens_of_rest_cons hr] at hne ⊢
      obtain ⟨hfirst, hrest⟩ := List.forall_mem_cons.mp hne
      have hshort : r.length < fuel := by
        have h := congrArg List.length (first_append_rest dot path)
        rw [hr] at h
        simp only [List.length_append, List.length_cons] at h
        omega
      unfold jsonLookupFrom
      simp only [pathToken_inner hr hfirst, Option.bind_eq_some_iff, follows_child, ih hshort hrest]

theorem tokens_ne_nil_of_valid {path : Bytes} (h : jsonPathValid path = true) :
    ∀ tok ∈ tokens path, tok ≠ [] := by
  unfold jsonPathValid at h
  intro tok htok
  have hall := List.all_eq_true.mp (Bool.and_eq_true_iff.mp h).1 tok htok
  simpa using hall

theorem jsonLookup_iff {root v : Json N} {path : Bytes} (h : jsonPathValid path = true) :
    jsonLookup root path = some v ↔ Follows tokenIndex root (tokens path) v :=
  jsonLookupFrom_iff (Nat.lt_succ_self _) (tokens_ne_nil_of_valid h)

/-! ## Where the two readings part -/

/-- The parts of a value. -/
inductive Part : Json N → Json N → Prop
  | whole (v : Json N) : Part v v
  | element {items : List (Json N)} {x v : Json N} (hx : x ∈ items) (h : Part x v) :
      Part (.arr items) v
  | member {members : List (Bytes × Json N)} {m : Bytes × Json N} {v : Json N}
      (hm : m ∈ members) (h : Part m.2 v) : Part (.obj members) v

/-- Every array has a length that a `size_t` counts. -/
def Held (root : Json N) : Prop := ∀ items, Part root (.arr items) → items.length ≤ 2 ^ 64

/-- Somewhere on the path stands an index beyond its array that comes round to an element
from which the rest of the path, its indices read modulo `2 ^ 64`, leads on to a value. -/
inductive ComesRound : Json N → List Bytes → Prop
  | here {items : List (Json N)} {tok : Bytes} {toks : List Bytes} {next v : Json N}
      (htok : IsIndex tok) (hbeyond : items.length ≤ spelled tok)
      (hitem : items[spelled tok % 2 ^ 64]? = some next)
      (hrest : Follows (fun t => (decimalIndex t).map (· % 2 ^ 64)) next toks v) :
      ComesRound (.arr items) (tok :: toks)
  | member {members : List (Bytes × Json N)} {name name' : Bytes} {next : Json N}
      {toks : List Bytes} (hfind : members.find? (fun m => m.1 == name) = some (name', next))
      (h : ComesRound next toks) : ComesRound (.obj members) (name :: toks)
  | element {items : List (Json N)} {tok : Bytes} {toks : List Bytes} {next : Json N}
      (htok : IsIndex tok) (hitem : items[spelled tok]? = some next)
      (h : ComesRound next toks) : ComesRound (.arr items) (tok :: toks)

theorem Held.element {items : List (Json N)} {i : ℕ} {x : Json N} (h : Held (.arr items))
    (hx : items[i]? = some x) : Held x :=
  fun inner hpart => h inner (.element (List.mem_of_getElem? hx) hpart)

theorem Held.member {members : List (Bytes × Json N)} {name name' : Bytes} {x : Json N}
    (h : Held (.obj members))
    (hfind : members.find? (fun m => m.1 == name) = some (name', x)) : Held x :=
  fun inner hpart => h inner (.member (List.mem_of_find?_eq_some hfind) hpart)

theorem Held.index_eq {items : List (Json N)} {i : ℕ} {x : Json N} (h : Held (.arr items))
    (hx : items[i]? = some x) : i % 2 ^ 64 = i := by
  have hlen := h items (.whole _)
  obtain ⟨hi, -⟩ := List.getElem?_eq_some_iff.mp hx
  exact Nat.mod_eq_of_lt (by omega)

@[simp] theorem decimalIndex_eq_some {tok : Bytes} {i : ℕ} :
    decimalIndex tok = some i ↔ IsIndex tok ∧ spelled tok = i := by
  unfold decimalIndex
  split_ifs with h <;> simp [h]

theorem tokenIndex_eq_some {tok : Bytes} {i : ℕ} :
    tokenIndex tok = some i ↔ IsIndex tok ∧ spelled tok % 2 ^ 64 = i := by
  simp [tokenIndex_eq, and_assoc]

theorem follows_of_denoted {cur v : Json N} {toks : List Bytes} (hheld : Held cur)
    (h : Follows decimalIndex cur toks v) : Follows tokenIndex cur toks v := by
  induction h with
  | here v => exact .here v
  | member hfind hrest ih => exact .member hfind (ih (hheld.member hfind))
  | element hindex hitem hrest ih =>
    obtain ⟨htok, rfl⟩ := decimalIndex_eq_some.mp hindex
    have hsame := hheld.index_eq hitem
    exact .element (tokenIndex_eq_some.mpr ⟨htok, hsame⟩) hitem (ih (hheld.element hitem))

/-- A value is found that the path does not denote only where an index comes round. -/
theorem denoted_or_comesRound {cur v : Json N} {toks : List Bytes} (hheld : Held cur)
    (h : Follows tokenIndex cur toks v) :
    Follows decimalIndex cur toks v ∨ ComesRound cur toks := by
  induction h with
  | here v => exact .inl (.here v)
  | member hfind hrest ih =>
    rcases ih (hheld.member hfind) with hden | hround
    · exact .inl (.member hfind hden)
    · exact .inr (.member hfind hround)
  | @element items tok i next v toks hindex hitem hrest ih =>
    obtain ⟨htok, rfl⟩ := tokenIndex_eq_some.mp hindex
    by_cases hbeyond : items.length ≤ spelled tok
    · have hmachine : (tokenIndex : Bytes → Option ℕ) =
          fun t => (decimalIndex t).map (· % 2 ^ 64) := funext tokenIndex_eq
      exact .inr (.here htok hbeyond hitem (hmachine ▸ hrest))
    · have hlen := hheld items (.whole _)
      have hsame : spelled tok % 2 ^ 64 = spelled tok := Nat.mod_eq_of_lt (by omega)
      rw [hsame] at hitem
      rcases ih (hheld.element hitem) with hden | hround
      · exact .inl (.element (decimalIndex_eq_some.mpr ⟨htok, rfl⟩) hitem hden)
      · exact .inr (.element htok hitem hround)

/-- Where an index comes round, the lookup finds a value and the path denotes none. -/
theorem ComesRound.found {cur : Json N} {toks : List Bytes} (h : ComesRound cur toks)
    (hheld : Held cur) :
    (∃ v, Follows tokenIndex cur toks v) ∧ ∀ v, ¬ Follows decimalIndex cur toks v := by
  induction h with
  | @here items tok toks next v htok hbeyond hitem hrest =>
    constructor
    · have hmachine : (fun t => (decimalIndex t).map (· % 2 ^ 64)) = tokenIndex :=
        (funext tokenIndex_eq).symm
      exact ⟨v, .element (tokenIndex_eq_some.mpr ⟨htok, rfl⟩) hitem (hmachine ▸ hrest)⟩
    · intro w hw
      cases hw with
      | element hindex hitem' _ =>
        obtain ⟨-, rfl⟩ := decimalIndex_eq_some.mp hindex
        rw [List.getElem?_eq_none hbeyond] at hitem'
        cases hitem'
  | member hfind hround ih =>
    obtain ⟨⟨v, hv⟩, hnone⟩ := ih (hheld.member hfind)
    constructor
    · exact ⟨v, .member hfind hv⟩
    · intro w hw
      cases hw with
      | member hfind' hrest =>
        rw [hfind] at hfind'
        cases hfind'
        exact hnone w hrest
  | element htok hitem hround ih =>
    obtain ⟨⟨v, hv⟩, hnone⟩ := ih (hheld.element hitem)
    constructor
    · exact ⟨v, .element (tokenIndex_eq_some.mpr ⟨htok, hheld.index_eq hitem⟩) hitem hv⟩
    · intro w hw
      cases hw with
      | element hindex hitem' hrest =>
        obtain ⟨-, rfl⟩ := decimalIndex_eq_some.mp hindex
        rw [hitem] at hitem'
        cases hitem'
        exact hnone w hrest

/-- The lookup finds what the path denotes, and nothing where it denotes nothing, exactly
where no index comes round. -/
theorem lookup_denotes_iff {root : Json N} {path : Bytes} (hpath : jsonPathValid path = true)
    (hheld : Held root) :
    (∀ v, jsonLookup root path = some v ↔ Denotes root path v) ↔
      ¬ ComesRound root (tokens path) := by
  constructor
  · intro h hround
    obtain ⟨⟨v, hv⟩, hnone⟩ := hround.found hheld
    exact hnone v ((h v).mp ((jsonLookup_iff hpath).mpr hv))
  · intro hround v
    rw [jsonLookup_iff hpath]
    constructor
    · intro h
      exact (denoted_or_comesRound hheld h).resolve_right hround
    · exact follows_of_denoted hheld

def twoReadings : Json ℤ := .obj [(lit "r", .arr [.num 5, .num 7])]

theorem held_twoReadings : Held twoReadings := by
  intro items hpart
  cases hpart with
  | member hm h =>
    obtain rfl := List.mem_singleton.mp hm
    cases h with
    | whole => decide
    | element hx h =>
      rcases List.mem_cons.mp hx with rfl | hx
      · cases h
      · obtain rfl := List.mem_singleton.mp hx
        cases h

theorem lookup_denotes_iff_second_reading :
    jsonPathValid (lit "r.1") = true ∧ Held twoReadings ∧
      ((∀ v, jsonLookup twoReadings (lit "r.1") = some v ↔ Denotes twoReadings (lit "r.1") v) ↔
        ¬ ComesRound twoReadings (tokens (lit "r.1"))) :=
  have hpath : jsonPathValid (lit "r.1") = true := by decide +kernel
  ⟨hpath, held_twoReadings, lookup_denotes_iff hpath held_twoReadings⟩

/-- `2 ^ 64` selects the only element. -/
theorem index_comes_round :
    jsonPathValid (lit "18446744073709551616") = true ∧
      jsonLookup (Json.arr [.num (1 : ℤ)]) (lit "18446744073709551616") = some (.num 1) ∧
      ¬ Denotes (Json.arr [.num (1 : ℤ)]) (lit "18446744073709551616") (.num 1) := by
  have htoks : tokens (lit "18446744073709551616") = [lit "18446744073709551616"] := by
    decide +kernel
  have hspelled : spelled (lit "18446744073709551616") = 2 ^ 64 := by decide +kernel
  refine ⟨by decide +kernel, rfl, ?_⟩
  unfold Denotes
  rw [htoks]
  intro h
  cases h with
  | element hindex hitem _ =>
    obtain ⟨-, rfl⟩ := decimalIndex_eq_some.mp hindex
    rw [hspelled] at hitem
    cases hitem

end Monoblok.Patchbay.JsonPaths
