import Monoblok.Lib.Parsing
import Monoblok.Source.Shape

/-!
# Reading forms

`pb_sexpr.c`: strict patchbay source into expressions. The cursor is the rest of the
source, so an error is where the rest begins. Memory runs out only for the copy of a
token that may be a number, which makes it a word; elsewhere it would end the parse.
-/

namespace Monoblok.Patchbay

open Number Parsing

variable {N : Type}

inductive ParseError where
  | unexpectedEof
  | unexpectedRparen
  | unexpectedRbracket
  | mismatchedBracket
  | unterminatedString
  | invalidEscape
  | invalidListHead
  | invalidJson
  | invalidYaml
  deriving DecidableEq, Repr

/-- An error with its offset, or the forms. -/
abbrev ParseResult (N : Type) := Except (ParseError × ℕ) (List (Value N))

namespace Sexpr

def lparen : UInt8 := 0x28
def rparen : UInt8 := 0x29
def lbracket : UInt8 := 0x5b
def rbracket : UInt8 := 0x5d
def quote : UInt8 := 0x22
def backslash : UInt8 := 0x5c
def semicolon : UInt8 := 0x3b
def colon : UInt8 := 0x3a

def isSpace (c : UInt8) : Bool := c == space || c == tab || c == cr || c == lf

def isDigit (c : UInt8) : Bool := decide (0x30 ≤ c ∧ c ≤ 0x39)

/-- What comes after the white space and the comments. -/
def skipFrom : Bool → Bytes → Bytes
  | _, [] => []
  | true, c :: s => skipFrom (c != lf) s
  | false, c :: s =>
    if isSpace c then skipFrom false s
    else if c = semicolon then skipFrom true s
    else c :: s

def skipWs (s : Bytes) : Bytes := skipFrom false s

/-- Where it went wrong, and how. -/
structure Failure where
  err : ParseError
  rest : Bytes

abbrev Parse (α : Type) := Parsed Failure Bytes α

def fail {α : Type} (err : ParseError) (rest : Bytes) : Parse α := Parsed.fail ⟨err, rest⟩

/-! ## Atoms -/

def looksNumeric : Bytes → Bool
  | [] => false
  | [c] => isDigit c || c == dot
  | c :: d :: _ => isDigit c || (c == 0x2d || c == 0x2b) && isDigit d || c == dot

/-- `parse_number`; `memory` is whether there is some for the copy. -/
def parseNumber [Number N] (memory : Bool) (tok : Bytes) : Option N :=
  if looksNumeric tok && memory then
    let (n, used, err) := strtod (tok.takeWhile (· != 0))
    if err || used != tok.length then none else some n
  else none

def isDelimiter (c : UInt8) : Bool :=
  isSpace c || c == lparen || c == rparen || c == lbracket || c == rbracket || c == semicolon

def atomValue [Number N] (memory : Bool) (tok : Bytes) : Value N :=
  if tok = lit "nil" then .nil
  else if tok = lit "true" then .bool true
  else if tok = lit "false" then .bool false
  else
    match parseNumber memory tok with
    | some n => .number n
    | none =>
      match tok with
      | c :: d :: name => if c = colon then .keyword (d :: name) else .symbol tok
      | _ => .symbol tok

def parseAtom [Number N] (memory : Bytes → Bool) (s : Bytes) : Except Failure (Value N × Bytes) :=
  let tok := s.takeWhile fun c => !isDelimiter c
  let rest := s.dropWhile fun c => !isDelimiter c
  if tok.isEmpty then .error ⟨.unexpectedEof, rest⟩ else .ok (atomValue (memory rest) tok, rest)

/-! ## Strings -/

def unescape (c : UInt8) : Option UInt8 :=
  if c = 0x6e then some lf
  else if c = 0x72 then some cr
  else if c = 0x74 then some tab
  else if c = backslash then some backslash
  else if c = quote then some quote
  else none

/-- The text up to the closing quote; `start` is where the string begins. -/
def stringText (start : Bytes) : Bytes → Except Failure (Bytes × Bytes)
  | [] => .error ⟨.unterminatedString, start⟩
  | c :: s =>
    if c = quote then .ok ([], s)
    else if c = backslash then
      match s with
      | [] => .error ⟨.unterminatedString, start⟩
      | e :: s' =>
        match unescape e with
        | none => .error ⟨.invalidEscape, e :: s'⟩
        | some b => (stringText start s').map fun x => (b :: x.1, x.2)
    else (stringText start s).map fun x => (c :: x.1, x.2)

def parseString (s : Bytes) : Except Failure (Value N × Bytes) :=
  (stringText s s.tail).map fun x => (.string x.1, x.2)

/-! ## Forms -/

/-- What a sequence that begins at `start` is once it is closed. -/
def freeze (list : Bool) (start : Bytes) (items : List (Value N)) (rest : Bytes) :
    Parse (Value N) :=
  if list then
    match items with
    | .symbol _ :: _ => Parsed.done (.list items) rest
    | _ => fail .invalidListHead start
  else Parsed.done (.vector items) rest

section Forms

variable [Number N] (memory : Bytes → Bool)

mutual

/-- `parse_one` -/
def parseOne : ℕ → Bytes → Parse (Value N)
  | 0, _ => none
  | fuel + 1, s =>
    match skipWs s with
    | [] => fail .unexpectedEof []
    | c :: rest =>
      if c = lparen then (parseItems rparen rbracket fuel rest).andThen (freeze true (c :: rest))
      else if c = lbracket then
        (parseItems rbracket rparen fuel rest).andThen (freeze false (c :: rest))
      else if c = rparen then fail .unexpectedRparen (c :: rest)
      else if c = rbracket then fail .unexpectedRbracket (c :: rest)
      else if c = quote then some (parseString (c :: rest))
      else some (parseAtom memory (c :: rest))

/-- The loop of `parse_seq`. -/
def parseItems (close wrongClose : UInt8) : ℕ → Bytes → Parse (List (Value N))
  | 0, _ => none
  | fuel + 1, s =>
    match skipWs s with
    | [] => fail .unexpectedEof []
    | c :: rest =>
      if c = close then Parsed.done [] rest
      else if c = wrongClose then fail .mismatchedBracket (c :: rest)
      else
        (parseOne fuel (c :: rest)).andThen fun v rest' =>
          (parseItems close wrongClose fuel rest').andThen fun vs rest'' =>
            Parsed.done (v :: vs) rest''

end

/-- The loop of `pb_parse_all`. -/
def parseForms : ℕ → Bytes → Parse (List (Value N))
  | 0, _ => none
  | fuel + 1, s =>
    match skipWs s with
    | [] => Parsed.done [] []
    | c :: rest =>
      (parseOne memory fuel (c :: rest)).andThen fun v rest' =>
        (parseForms fuel rest').andThen fun vs rest'' => Parsed.done (v :: vs) rest''

/-- Enough for every source: a form takes at least one byte, and so does a bracket. -/
def parseFuel (s : Bytes) : ℕ := 2 * s.length + 2

/-- `pb_parse_all` -/
def parseAll (src : Bytes) : Option (ParseResult N) :=
  (parseForms memory (parseFuel src) src).map fun r =>
    match r with
    | .error e => .error (e.err, src.length - e.rest.length)
    | .ok x => .ok x.1

end Forms

/-! ## Lists are calls -/

section Shape

theorem shaped_freeze {list : Bool} {start rest rest' : Bytes} {items : List (Value N)} {v : Value N}
    (hitems : ∀ w ∈ items, w.Shaped)
    (h : freeze list start items rest = some (.ok (v, rest'))) : v.Shaped := by
  unfold freeze at h
  cases list with
  | false =>
    cases h
    exact shaped_vector.mpr hitems
  | true =>
    rw [if_pos rfl] at h
    split at h
    · rename_i name args
      cases h
      exact shaped_list.mpr ⟨⟨name, args, rfl⟩, hitems⟩
    · cases h

theorem shaped_parseString {s rest : Bytes} {v : Value N} (h : parseString s = .ok (v, rest)) :
    v.Shaped := by
  unfold parseString at h
  cases htext : stringText s s.tail with
  | error e =>
    rw [htext] at h
    cases h
  | ok x =>
    rw [htext] at h
    cases h
    exact shaped_string _

variable [Number N] {memory : Bytes → Bool}

theorem shaped_atomValue (memory : Bool) (tok : Bytes) : (atomValue memory tok : Value N).Shaped := by
  unfold atomValue
  split_ifs
  · exact shaped_nil
  · exact shaped_bool true
  · exact shaped_bool false
  · split
    · exact shaped_number _
    · split
      · split_ifs
        · exact shaped_keyword _
        · exact shaped_symbol _
      · exact shaped_symbol _

theorem shaped_parseAtom {s rest : Bytes} {v : Value N} (h : parseAtom memory s = .ok (v, rest)) :
    v.Shaped := by
  unfold parseAtom at h
  dsimp only at h
  split_ifs at h
  cases h
  exact shaped_atomValue _ _

theorem shaped_parse (fuel : ℕ) :
    (∀ {s rest : Bytes} {v : Value N}, parseOne memory fuel s = some (.ok (v, rest)) → v.Shaped) ∧
      ∀ {close wrongClose : UInt8} {s rest : Bytes} {vs : List (Value N)},
        parseItems memory close wrongClose fuel s = some (.ok (vs, rest)) → ∀ v ∈ vs, v.Shaped := by
  induction fuel with
  | zero =>
    constructor
    · intro s rest v h
      cases h
    · intro close wrongClose s rest vs h
      cases h
  | succ fuel ih =>
    obtain ⟨hone, hitems⟩ := ih
    constructor
    · intro s rest v h
      rw [parseOne] at h
      split at h
      · cases h
      · split_ifs at h
        · obtain ⟨items, rest', hread, hfreeze⟩ := Parsed.andThen_ok h
          exact shaped_freeze (hitems hread) hfreeze
        · obtain ⟨items, rest', hread, hfreeze⟩ := Parsed.andThen_ok h
          exact shaped_freeze (hitems hread) hfreeze
        · cases h
        · cases h
        · exact shaped_parseString (Option.some.inj h)
        · exact shaped_parseAtom (Option.some.inj h)
    · intro close wrongClose s rest vs h
      rw [parseItems] at h
      split at h
      · cases h
      · split_ifs at h
        · cases h
          simp
        · cases h
        · obtain ⟨v, rest', hread, h⟩ := Parsed.andThen_ok h
          obtain ⟨vs', rest'', hrest, h⟩ := Parsed.andThen_ok h
          cases h
          exact List.forall_mem_cons.mpr ⟨hone hread, hitems hrest⟩

theorem shaped_parseForms {fuel : ℕ} {s rest : Bytes} {vs : List (Value N)}
    (h : parseForms memory fuel s = some (.ok (vs, rest))) : ∀ v ∈ vs, v.Shaped := by
  induction fuel generalizing s rest vs with
  | zero => cases h
  | succ fuel ih =>
    rw [parseForms] at h
    split at h
    · cases h
      simp
    · obtain ⟨v, rest', hread, h⟩ := Parsed.andThen_ok h
      obtain ⟨vs', rest'', hrest, h⟩ := Parsed.andThen_ok h
      cases h
      exact List.forall_mem_cons.mpr ⟨(shaped_parse fuel).1 hread, ih hrest⟩

theorem shaped_parseAll {src : Bytes} {forms : List (Value N)}
    (h : parseAll memory src = some (.ok forms)) : ∀ v ∈ forms, v.Shaped := by
  unfold parseAll at h
  obtain ⟨r, hr, hforms⟩ := Option.map_eq_some_iff.mp h
  cases r with
  | error e => cases hforms
  | ok x =>
    cases hforms
    exact shaped_parseForms hr

end Shape

/-! ## Every source is read to an end -/

section Progress

theorem length_skipFrom (comment : Bool) (s : Bytes) : (skipFrom comment s).length ≤ s.length := by
  induction s generalizing comment with
  | nil => cases comment <;> exact le_refl _
  | cons c s ih =>
    have hlater := fun comment => (ih comment).trans (Nat.le_succ s.length)
    cases comment with
    | true => exact hlater _
    | false =>
      unfold skipFrom
      split_ifs
      · exact hlater _
      · exact hlater _
      · exact le_refl _

theorem length_of_skipWs {c : UInt8} {s rest : Bytes} (h : skipWs s = c :: rest) :
    rest.length < s.length := by
  have hle := length_skipFrom false s
  rw [skipWs] at h
  rw [h, List.length_cons] at hle
  exact hle

theorem length_stringText {start s : Bytes} {x : Bytes × Bytes}
    (h : stringText start s = .ok x) : x.2.length < s.length := by
  fun_induction stringText start s generalizing x with
  | case1 => cases h
  | case2 =>
    cases h
    simp
  | case3 => cases h
  | case4 => cases h
  | case5 _ _ _ _ _ ih =>
    obtain ⟨y, hy, rfl⟩ := Parsed.map_ok h
    have hlt := ih hy
    simp only [List.length_cons]
    omega
  | case6 _ _ _ _ ih =>
    obtain ⟨y, hy, rfl⟩ := Parsed.map_ok h
    have hlt := ih hy
    simp only [List.length_cons]
    omega

theorem length_parseString {c : UInt8} {s rest : Bytes} {v : Value N}
    (h : parseString (c :: s) = .ok (v, rest)) : rest.length < (c :: s).length := by
  obtain ⟨x, hx, heq⟩ := Parsed.map_ok h
  cases heq
  exact (length_stringText hx).trans (Nat.lt_succ_self s.length)

theorem freeze_rest {list : Bool} {start rest rest' : Bytes} {items : List (Value N)} {v : Value N}
    (h : freeze list start items rest = some (.ok (v, rest'))) : rest' = rest := by
  unfold freeze at h
  split at h
  · split at h
    · cases h
      rfl
    · cases h
  · cases h
    rfl

theorem isSome_freeze (list : Bool) (start rest : Bytes) (items : List (Value N)) :
    (freeze list start items rest).isSome = true := by
  unfold freeze
  split
  · split <;> rfl
  · rfl

variable [Number N] {memory : Bytes → Bool}

theorem length_parseAtom {s rest : Bytes} {v : Value N}
    (h : parseAtom memory s = .ok (v, rest)) : rest.length < s.length := by
  unfold parseAtom at h
  dsimp only at h
  split_ifs at h with hempty
  cases h
  have hboth := congrArg List.length
    (List.takeWhile_append_dropWhile (p := fun c => !isDelimiter c) (l := s))
  rw [List.length_append] at hboth
  rw [List.isEmpty_iff_length_eq_zero] at hempty
  omega

/-- Every form takes some of the source, and so does what is up to a bracket. -/
theorem length_parse (fuel : ℕ) :
    (∀ {s rest : Bytes} {v : Value N}, parseOne memory fuel s = some (.ok (v, rest)) →
      rest.length < s.length) ∧
      ∀ {close wrongClose : UInt8} {s rest : Bytes} {vs : List (Value N)},
        parseItems memory close wrongClose fuel s = some (.ok (vs, rest)) →
          rest.length < s.length := by
  induction fuel with
  | zero =>
    constructor
    · intro s rest v h
      cases h
    · intro close wrongClose s rest vs h
      cases h
  | succ fuel ih =>
    obtain ⟨hone, hitems⟩ := ih
    constructor
    · intro s rest v h
      rw [parseOne] at h
      split at h
      · cases h
      · rename_i c tail hskip
        have hlt := length_of_skipWs hskip
        split_ifs at h
        · obtain ⟨items, rest', hread, hfreeze⟩ := Parsed.andThen_ok h
          rw [freeze_rest hfreeze]
          exact (hitems hread).trans hlt
        · obtain ⟨items, rest', hread, hfreeze⟩ := Parsed.andThen_ok h
          rw [freeze_rest hfreeze]
          exact (hitems hread).trans hlt
        · cases h
        · cases h
        · exact (length_parseString (Option.some.inj h)).trans_le hlt
        · exact (length_parseAtom (Option.some.inj h)).trans_le hlt
    · intro close wrongClose s rest vs h
      rw [parseItems] at h
      split at h
      · cases h
      · rename_i c tail hskip
        have hlt := length_of_skipWs hskip
        split_ifs at h
        · cases h
          exact hlt
        · cases h
        · obtain ⟨v, rest', hread, h⟩ := Parsed.andThen_ok h
          obtain ⟨vs', rest'', hrest, h⟩ := Parsed.andThen_ok h
          cases h
          exact ((hitems hrest).trans (hone hread)).trans_le hlt

theorem isSome_parse (fuel : ℕ) :
    (∀ {s : Bytes}, 2 * s.length < fuel → (parseOne (N := N) memory fuel s).isSome = true) ∧
      ∀ {close wrongClose : UInt8} {s : Bytes}, 2 * s.length + 1 < fuel →
        (parseItems (N := N) memory close wrongClose fuel s).isSome = true := by
  induction fuel with
  | zero =>
    constructor
    · intro s hfuel
      omega
    · intro close wrongClose s hfuel
      omega
  | succ fuel ih =>
    obtain ⟨hone, hitems⟩ := ih
    constructor
    · intro s hfuel
      rw [parseOne]
      split
      · rfl
      · rename_i c rest hskip
        have hlt := length_of_skipWs hskip
        split_ifs
        · exact Parsed.isSome_andThen (hitems (by omega)) fun items rest' _ => isSome_freeze _ _ _ _
        · exact Parsed.isSome_andThen (hitems (by omega)) fun items rest' _ => isSome_freeze _ _ _ _
        · rfl
        · rfl
        · rfl
        · rfl
    · intro close wrongClose s hfuel
      rw [parseItems]
      split
      · rfl
      · rename_i c rest hskip
        have hlt := length_of_skipWs hskip
        split_ifs
        · rfl
        · rfl
        · apply Parsed.isSome_andThen (hone (by simp only [List.length_cons]; omega))
          intro v rest' hread
          have hless := (length_parse fuel).1 hread
          rw [List.length_cons] at hless
          apply Parsed.isSome_andThen (hitems (by omega))
          exact fun vs rest'' _ => rfl

theorem isSome_parseForms {fuel : ℕ} {s : Bytes} (hfuel : 2 * s.length + 1 < fuel) :
    (parseForms (N := N) memory fuel s).isSome = true := by
  induction fuel generalizing s with
  | zero => omega
  | succ fuel ih =>
    rw [parseForms]
    split
    · rfl
    · rename_i c rest hskip
      have hlt := length_of_skipWs hskip
      apply Parsed.isSome_andThen ((isSome_parse fuel).1 (by simp only [List.length_cons]; omega))
      intro v rest' hread
      have hless := (length_parse fuel).1 hread
      rw [List.length_cons] at hless
      apply Parsed.isSome_andThen (ih (by omega))
      exact fun vs rest'' _ => rfl

/-- The parser comes to an end for every source. -/
theorem parseAll_total (src : Bytes) : ∃ r : ParseResult N, parseAll memory src = some r := by
  have hsome := @isSome_parseForms N _ memory (parseFuel src) src (by unfold parseFuel; omega)
  obtain ⟨r, hr⟩ := Option.isSome_iff_exists.mp hsome
  rw [parseAll, hr]
  exact ⟨_, rfl⟩

end Progress

end Sexpr

end Monoblok.Patchbay
