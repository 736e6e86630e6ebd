import Mathlib.Data.List.Basic
import Mathlib.Data.UInt

/-!
# JSON text

A reader of JSON strings, byte by byte, and of objects whose members are strings. A
string may hold any bytes from `0x20` on; escaped units are put out in UTF-8, each on its
own.
-/

namespace JsonText

def hexValue (c : UInt8) : Option ℕ :=
  if 0x30 ≤ c ∧ c ≤ 0x39 then some (c.toNat - 0x30)
  else if 0x61 ≤ c ∧ c ≤ 0x66 then some (c.toNat - 0x61 + 10)
  else if 0x41 ≤ c ∧ c ≤ 0x46 then some (c.toNat - 0x41 + 10)
  else none

def unitValue (a b c d : UInt8) : Option ℕ := do
  let a ← hexValue a
  let b ← hexValue b
  let c ← hexValue c
  let d ← hexValue d
  return ((a * 16 + b) * 16 + c) * 16 + d

def utf8 (n : ℕ) : List UInt8 :=
  if n < 0x80 then [UInt8.ofNat n]
  else if n < 0x800 then [UInt8.ofNat (0xc0 + n / 64), UInt8.ofNat (0x80 + n % 64)]
  else
    [UInt8.ofNat (0xe0 + n / 4096), UInt8.ofNat (0x80 + n / 64 % 64), UInt8.ofNat (0x80 + n % 64)]

def escapeValue (c : UInt8) : Option UInt8 :=
  if c = 0x22 ∨ c = 0x5c ∨ c = 0x2f then some c
  else if c = 0x62 then some 0x08
  else if c = 0x66 then some 0x0c
  else if c = 0x6e then some 0x0a
  else if c = 0x72 then some 0x0d
  else if c = 0x74 then some 0x09
  else none

/-- A string behind its opening quote, and what follows the closing one. -/
def readString : List UInt8 → Option (List UInt8 × List UInt8)
  | [] => none
  | 0x22 :: cs => some ([], cs)
  | 0x5c :: 0x75 :: a :: b :: c :: d :: cs =>
    match unitValue a b c d, readString cs with
    | some n, some (s, rest) => some (utf8 n ++ s, rest)
    | _, _ => none
  | 0x5c :: e :: cs =>
    match escapeValue e, readString cs with
    | some b, some (s, rest) => some (b :: s, rest)
    | _, _ => none
  | c :: cs =>
    if c < 0x20 ∨ c = 0x5c then none
    else
      match readString cs with
      | some (s, rest) => some (c :: s, rest)
      | none => none

/-- The members of an object, up to the closing brace at the end of the text. -/
def readMembers : ℕ → List UInt8 → Option (List (List UInt8 × List UInt8))
  | fuel + 1, 0x22 :: cs =>
    match readString cs with
    | some (name, 0x3a :: 0x22 :: cs) =>
      match readString cs with
      | some (value, [0x7d]) => some [(name, value)]
      | some (value, 0x2c :: cs) => (readMembers fuel cs).map ((name, value) :: ·)
      | _ => none
    | _ => none
  | _, _ => none

/-- An object of strings without blanks between its tokens. -/
def readObject : List UInt8 → Option (List (List UInt8 × List UInt8))
  | 0x7b :: cs => readMembers cs.length cs
  | _ => none

/-- A piece of text that stands for a byte in a string. -/
def Writes (piece : List UInt8) (b : UInt8) : Prop :=
  ∀ cs, readString (piece ++ cs) = (readString cs).map fun r => (b :: r.1, r.2)

theorem writes_plain {b : UInt8} (hlow : 0x20 ≤ b) (hquote : b ≠ 0x22) (hslash : b ≠ 0x5c) :
    Writes [b] b := by
  intro cs
  have hlow' : ¬ b < 0x20 := UInt8.not_lt.mpr hlow
  rw [List.singleton_append, readString]
  · simp only [hlow', hslash, or_self, if_false]
    cases readString cs <;> rfl
  · exact hquote
  · rintro _ _ _ _ _ rfl
    exact absurd rfl hslash
  · rintro _ _ rfl
    exact absurd rfl hslash

theorem writes_escape {e b : UInt8} (h : escapeValue e = some b) : Writes [0x5c, e] b := by
  intro cs
  have hunit : e ≠ 0x75 := by
    rintro rfl
    cases h
  change readString (0x5c :: e :: cs) = _
  rw [readString]
  · simp only [h]
    cases readString cs <;> rfl
  · rintro _ _ _ _ _ rfl
    exact absurd rfl hunit

theorem utf8_ascii {n : ℕ} (h : n < 0x80) : utf8 n = [UInt8.ofNat n] := if_pos h

theorem writes_unit {a b c d : UInt8} {n : ℕ} (h : unitValue a b c d = some n) (hn : n < 0x80) :
    Writes [0x5c, 0x75, a, b, c, d] (UInt8.ofNat n) := by
  intro cs
  change readString (0x5c :: 0x75 :: a :: b :: c :: d :: cs) = _
  rw [readString]
  rw [h]
  cases readString cs with
  | none => rfl
  | some r => simp [utf8_ascii hn]

/-- Pieces that stand for bytes at the front of a string. -/
theorem readString_pieces {piece : UInt8 → List UInt8} {s cs : List UInt8}
    (h : ∀ b ∈ s, Writes (piece b) b) :
    readString (s.flatMap piece ++ cs) = (readString cs).map fun r => (s ++ r.1, r.2) := by
  induction s with
  | nil =>
    cases h : readString cs <;> simp [h]
  | cons b s ih =>
    obtain ⟨hb, hs⟩ := List.forall_mem_cons.mp h
    rw [List.flatMap_cons, List.append_assoc, hb, ih hs, Option.map_map]
    rfl

/-- The bytes a string shows as they stand. -/
def Plain (c : UInt8) : Prop := 0x20 ≤ c ∧ c ≠ 0x22 ∧ c ≠ 0x5c

instance (c : UInt8) : Decidable (Plain c) := inferInstanceAs (Decidable (_ ∧ _))

theorem readString_plain {s cs : List UInt8} (h : ∀ c ∈ s, Plain c) :
    readString (s ++ cs) = (readString cs).map fun r => (s ++ r.1, r.2) := by
  have hpieces := @readString_pieces (fun c => [c]) s cs
    (fun c hc => writes_plain (h c hc).1 (h c hc).2.1 (h c hc).2.2)
  rwa [List.flatMap_singleton'] at hpieces

section Members

variable {fuel : ℕ} {name value nameText valueText rest : List UInt8}

theorem readMembers_last (hname : readString nameText = some (name, 0x3a :: 0x22 :: valueText))
    (hvalue : readString valueText = some (value, [0x7d])) :
    readMembers (fuel + 1) (0x22 :: nameText) = some [(name, value)] := by
  simp only [readMembers, hname, hvalue]

theorem readMembers_more (hname : readString nameText = some (name, 0x3a :: 0x22 :: valueText))
    (hvalue : readString valueText = some (value, 0x2c :: rest)) :
    readMembers (fuel + 1) (0x22 :: nameText) =
      (readMembers fuel rest).map ((name, value) :: ·) := by
  simp only [readMembers, hname, hvalue]

theorem readObject_brace (cs : List UInt8) :
    readObject (0x7b :: cs) = readMembers cs.length cs := rfl

end Members

end JsonText
