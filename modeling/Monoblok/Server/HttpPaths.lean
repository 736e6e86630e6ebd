import Mathlib.Data.List.Forall2
import Monoblok.Router.Match
import Monoblok.Server.HttpRequest

/-!
# Paths of subjects

A path below a prefix spells a subject segment by segment. What is decoded is a token
for every segment, and what spells a subject decodes to it.
-/

namespace Monoblok.Http

open List (Forall₂)

/-- A segment spells a token: byte by byte as it stands or as an escape. -/
inductive Spells : Bytes → Bytes → Prop
  | nil : Spells [] []
  | plain {c : UInt8} {tok seg : Bytes} (hc : c ≠ 0x25) (h : Spells tok seg) :
      Spells (c :: tok) (c :: seg)
  | escape {h l hi lo : UInt8} {tok seg : Bytes} (hhi : hexValue h = some hi)
      (hlo : hexValue l = some lo) (htok : Spells tok seg) :
      Spells ((hi <<< 4 ||| lo) :: tok) (0x25 :: h :: l :: seg)

/-! ## What is decoded -/

theorem hexValue_ne_slash {c v : UInt8} (h : hexValue c = some v) : c ≠ slash := by
  rintro rfl
  cases h

theorem splitOn_cons_self {a : UInt8} {cs : Bytes} : (a :: cs).splitOn a = [] :: cs.splitOn a :=
  List.splitOn_append_cons_self [] cs

theorem splitOn_cons_ne {a c : UInt8} {cs seg : Bytes} {segs : List Bytes} (hc : c ≠ a)
    (h : cs.splitOn a = seg :: segs) : (c :: cs).splitOn a = (c :: seg) :: segs := by
  rw [List.splitOn_cons_eq_if_modifyHead, if_neg (by simpa using hc), h, List.modifyHead_cons]

theorem intercalate_nil_cons {a : UInt8} {toks : List Bytes} (h : toks ≠ []) :
    [a].intercalate ([] :: toks) = a :: [a].intercalate toks := by
  rw [List.intercalate_cons_of_ne_nil h]
  rfl

/-- The bytes a path may spell. -/
def Spellable (c : UInt8) : Prop := 0x20 < c ∧ c ≠ 0x7f ∧ c ≠ slash ∧ c ≠ dot

theorem appendDecodedPathByte_eq {ok : ℕ → Bool} {out : Bytes} {c : UInt8} (hc : Spellable c)
    (hlen : out.length < maxControlLine) :
    appendDecodedPathByte ok out c = if ok out.length then some (out ++ [c]) else none := by
  obtain ⟨hlow, hdel, hslash, hdot⟩ := hc
  have hzero : c ≠ 0 := by
    rintro rfl
    exact absurd hlow (by decide)
  unfold appendDecodedPathByte
  simp [hzero, hdel, hslash, hdot, UInt8.not_le.mpr hlow, Nat.not_le.mpr hlen]

theorem of_appendDecodedPathByte {ok : ℕ → Bool} {out out' : Bytes} {c : UInt8}
    (h : appendDecodedPathByte ok out c = some out') :
    Spellable c ∧ out.length < maxControlLine ∧ out' = out ++ [c] := by
  unfold appendDecodedPathByte at h
  split_ifs at h with hbad hlen hok
  simp only [Bool.or_eq_true, beq_iff_eq, decide_eq_true_eq, not_or, UInt8.not_le] at hbad
  obtain ⟨⟨⟨⟨-, hslash⟩, hdot⟩, hlow⟩, hdel⟩ := hbad
  cases h
  exact ⟨⟨hlow, hdel, hslash, hdot⟩, Nat.lt_of_not_le hlen, rfl⟩

/-- What a run of the loop over a path has appended: a token for every segment. -/
structure Appended (out path s : Bytes) : Prop where
  tokens : ∃ toks, s = out ++ [dot].intercalate toks ∧ Forall₂ Spells toks (path.splitOn slash) ∧
    ∀ tok ∈ toks, dot ∉ tok
  bounded : out.length ≤ maxControlLine → s.length ≤ maxControlLine

theorem appended_nil {out : Bytes} : Appended out [] out where
  tokens := ⟨[[]], by simp, .cons .nil .nil, by simp⟩
  bounded := id

theorem appended_slash {out path s : Bytes} (hlen : out.length < maxControlLine)
    (h : Appended (out ++ [dot]) path s) : Appended out (slash :: path) s := by
  obtain ⟨toks, rfl, hspells, hdots⟩ := h.tokens
  have hne : toks ≠ [] := by
    rintro rfl
    exact List.splitOn_ne_nil slash path (List.forall₂_nil_left_iff.mp hspells)
  constructor
  · refine ⟨[] :: toks, by simp [intercalate_nil_cons hne], ?_, ?_⟩
    · rw [splitOn_cons_self]
      exact .cons .nil hspells
    · simpa using hdots
  · intro _
    exact h.bounded (by simpa using hlen)

/-- A byte that some bytes of the path spell goes before the first token of the rest. -/
theorem appended_byte {out path path' s : Bytes} {c : UInt8} (hc : Spellable c)
    (hlen : out.length < maxControlLine) (h : Appended (out ++ [c]) path s)
    (hsplit : ∀ seg segs, path.splitOn slash = seg :: segs →
      ∃ seg', path'.splitOn slash = seg' :: segs ∧ ∀ tok, Spells tok seg → Spells (c :: tok) seg') :
    Appended out path' s := by
  obtain ⟨toks, rfl, hspells, hdots⟩ := h.tokens
  obtain ⟨seg, segs, hpath⟩ := List.exists_cons_of_ne_nil (List.splitOn_ne_nil slash path)
  rw [hpath] at hspells
  obtain ⟨seg', hpath', hspell⟩ := hsplit seg segs hpath
  cases hspells with
  | @cons tok _ toks _ htok htoks =>
    obtain ⟨hhead, hrest⟩ := List.forall_mem_cons.mp hdots
    constructor
    · refine ⟨(c :: tok) :: toks, by simp, ?_, ?_⟩
      · rw [hpath']
        exact .cons (hspell tok htok) htoks
      · have hcons : dot ∉ c :: tok := by
          simp only [List.mem_cons, not_or]
          exact ⟨hc.2.2.2.symm, hhead⟩
        exact List.forall_mem_cons.mpr ⟨hcons, hrest⟩
    · intro _
      exact h.bounded (by simpa using hlen)

theorem appended_of_loop {ok : ℕ → Bool} {out path s : Bytes} {tokenHasBytes : Bool}
    (h : decodePathLoop ok out tokenHasBytes path = some s) : Appended out path s := by
  fun_induction decodePathLoop ok out tokenHasBytes path with
  | case1 =>
    cases h
    exact appended_nil
  | case4 out tokenHasBytes c cs hc hlen hok ih =>
    obtain rfl := beq_iff_eq.mp hc
    simp only [Bool.or_eq_true, Bool.not_eq_true', decide_eq_true_eq, not_or] at hlen
    exact appended_slash (Nat.lt_of_not_le hlen.2) (ih h)
  | case6 out tokenHasBytes c _ hc digit digit' cs hi lo hlo hhi out' happ ih =>
    obtain rfl := beq_iff_eq.mp hc
    obtain ⟨hspellable, hlen, rfl⟩ := of_appendDecodedPathByte happ
    apply appended_byte hspellable hlen (ih h)
    intro seg segs hpath
    have hinner := splitOn_cons_ne (hexValue_ne_slash hlo) hpath
    have houter := splitOn_cons_ne (hexValue_ne_slash hhi) hinner
    exact ⟨_, splitOn_cons_ne (by decide) houter, fun tok htok => .escape hhi hlo htok⟩
  | case10 out tokenHasBytes c cs hslash hc out' happ ih =>
    obtain ⟨hspellable, hlen, rfl⟩ := of_appendDecodedPathByte happ
    apply appended_byte hspellable hlen (ih h)
    intro seg segs hpath
    have hne : c ≠ slash := by simpa using hslash
    exact ⟨_, splitOn_cons_ne hne hpath, fun tok htok => .plain (by simpa using hc) htok⟩
  | _ => cases h

theorem decoded_path {ok : ℕ → Bool} {target pre s : Bytes} {allowWildcards : Bool}
    (h : decodeSubjectPath ok target pre allowWildcards = some s) :
    subjectValid s allowWildcards = true ∧ s.length ≤ maxControlLine ∧
      ∃ path, target = pre ++ path ∧ Forall₂ Spells (tokens s) (path.splitOn slash) := by
  unfold decodeSubjectPath at h
  split_ifs at h with hpre
  simp only [Bool.or_eq_true, decide_eq_true_eq, bne_iff_ne, ne_eq, not_or, not_not] at hpre
  cases hloop : decodePathLoop ok [] false (target.drop pre.length) with
  | none =>
    rw [hloop] at h
    cases h
  | some subject =>
    simp only [hloop, Option.ite_none_right_eq_some, Option.some.injEq] at h
    obtain ⟨hvalid, rfl⟩ := h
    have happended := appended_of_loop hloop
    obtain ⟨toks, hsubject, hspells, hdots⟩ := happended.tokens
    have hne : toks ≠ [] := by
      rintro rfl
      exact List.splitOn_ne_nil slash _ (List.forall₂_nil_left_iff.mp hspells)
    have htoks : tokens subject = toks := by
      rw [hsubject, List.nil_append]
      exact List.splitOn_intercalate dot hdots hne
    refine ⟨hvalid, happended.bounded (Nat.zero_le _), target.drop pre.length, ?_, ?_⟩
    · conv => lhs; rw [← List.take_append_drop pre.length target, hpre.2]
    · rwa [htoks]

/-! ## What is spelled -/

theorem Spells.length_le {tok seg : Bytes} (h : Spells tok seg) : tok.length ≤ seg.length := by
  induction h with
  | nil => exact Nat.le_refl 0
  | plain _ _ ih => simpa using ih
  | escape _ _ _ ih =>
    simp only [List.length_cons]
    omega

section Loop

variable {ok : ℕ → Bool} {out tok seg more : Bytes} {tokenHasBytes : Bool}

theorem hasRoom_add (ok : ℕ → Bool) (n j k : ℕ) :
    hasRoom ok n (j + k) = (hasRoom ok n j && hasRoom ok (n + j) k) := by
  induction j generalizing n with
  | zero => simp [hasRoom]
  | succ j ih =>
    rw [Nat.add_right_comm, hasRoom, hasRoom, ih, Bool.and_assoc, Nat.add_right_comm]
    rfl

theorem decodePathLoop_plain {c : UInt8} (hc : Spellable c) (hne : c ≠ 0x25)
    (hlen : out.length < maxControlLine) :
    decodePathLoop ok out tokenHasBytes (c :: more) =
      if ok out.length then decodePathLoop ok (out ++ [c]) true more else none := by
  have hslash : (c == slash) = false := by simpa using hc.2.2.1
  have hpercent : (c == 0x25) = false := by simpa using hne
  conv => lhs; unfold decodePathLoop
  simp only [hslash, hpercent, appendDecodedPathByte_eq hc hlen, Bool.false_eq_true, if_false]
  cases ok out.length <;> rfl

theorem decodePathLoop_escape {h l hi lo : UInt8} (hhi : hexValue h = some hi)
    (hlo : hexValue l = some lo) (hc : Spellable (hi <<< 4 ||| lo))
    (hlen : out.length < maxControlLine) :
    decodePathLoop ok out tokenHasBytes (0x25 :: h :: l :: more) =
      if ok out.length then decodePathLoop ok (out ++ [hi <<< 4 ||| lo]) true more else none := by
  have hslash : ((0x25 : UInt8) == slash) = false := by decide
  conv => lhs; unfold decodePathLoop
  simp only [hslash, beq_self_eq_true, hhi, hlo, appendDecodedPathByte_eq hc hlen,
    Bool.false_eq_true, if_false, if_true]
  cases ok out.length <;> rfl

theorem decodePathLoop_slash (hlen : out.length < maxControlLine) :
    decodePathLoop ok out true (slash :: more) =
      if ok out.length then decodePathLoop ok (out ++ [dot]) false more else none := by
  have hmax : decide (maxControlLine ≤ out.length) = false := by simpa using hlen
  conv => lhs; unfold decodePathLoop
  rw [if_pos (beq_self_eq_true slash), hmax]
  rfl

/-- A segment is decoded if there is room for the token it spells. -/
theorem decodePathLoop_segment (h : Spells tok seg) (hspellable : ∀ c ∈ tok, Spellable c)
    (hlen : out.length + tok.length ≤ maxControlLine) :
    decodePathLoop ok out tokenHasBytes (seg ++ more) =
      if hasRoom ok out.length tok.length then
        decodePathLoop ok (out ++ tok) (tokenHasBytes || !tok.isEmpty) more
      else none := by
  induction h generalizing out tokenHasBytes with
  | nil => simp [hasRoom]
  | @plain c tok seg hc hspells ih =>
    obtain ⟨hhead, hrest⟩ := List.forall_mem_cons.mp hspellable
    rw [List.length_cons] at hlen
    have hlen' : (out ++ [c]).length + tok.length ≤ maxControlLine := by
      rw [List.length_append, List.length_singleton]
      omega
    rw [List.cons_append, decodePathLoop_plain hhead hc (by omega), ih hrest hlen']
    cases hok : ok out.length <;> simp [hasRoom, hok]
  | @escape digit digit' hi lo tok seg hhi hlo hspells ih =>
    obtain ⟨hhead, hrest⟩ := List.forall_mem_cons.mp hspellable
    rw [List.length_cons] at hlen
    have hlen' : (out ++ [hi <<< 4 ||| lo]).length + tok.length ≤ maxControlLine := by
      rw [List.length_append, List.length_singleton]
      omega
    rw [List.cons_append, List.cons_append, List.cons_append,
      decodePathLoop_escape hhi hlo hhead (by omega), ih hrest hlen']
    cases hok : ok out.length <;> simp [hasRoom, hok]

/-- Segments that spell non-empty tokens are decoded if there is room for the tokens and the
dots between them. -/
theorem decodePathLoop_segments {toks segs : List Bytes} (h : Forall₂ Spells toks segs)
    (hne : toks ≠ []) (htoks : ∀ tok ∈ toks, tok ≠ [] ∧ ∀ c ∈ tok, Spellable c)
    (hlen : out.length + ([dot].intercalate toks).length ≤ maxControlLine) :
    decodePathLoop ok out false ([slash].intercalate segs) =
      if hasRoom ok out.length ([dot].intercalate toks).length then
        some (out ++ [dot].intercalate toks)
      else none := by
  induction h generalizing out with
  | nil => exact absurd rfl hne
  | @cons tok seg toks segs htok hrest ih =>
    obtain ⟨⟨hfull, hspellable⟩, htoks'⟩ := List.forall_mem_cons.mp htoks
    have hbytes : (!tok.isEmpty) = true := by simpa using hfull
    cases hrest with
    | nil =>
      rw [List.intercalate_singleton, List.intercalate_singleton] at *
      have hseg := @decodePathLoop_segment ok out tok seg [] false htok hspellable hlen
      rw [List.append_nil] at hseg
      rw [hseg, hbytes]
      rfl
    | @cons tok' seg' toks segs htok' hrest =>
      have hdots : [dot].intercalate (tok :: tok' :: toks) =
          tok ++ dot :: [dot].intercalate (tok' :: toks) := by
        simp [List.intercalate_cons_cons]
      have hslashes : [slash].intercalate (seg :: seg' :: segs) =
          seg ++ slash :: [slash].intercalate (seg' :: segs) := by
        simp [List.intercalate_cons_cons]
      rw [hdots, List.length_append, List.length_cons] at hlen
      have hlen' : (out ++ tok ++ [dot]).length + ([dot].intercalate (tok' :: toks)).length ≤
          maxControlLine := by
        simp only [List.length_append, List.length_singleton]
        omega
      have hmid : (out ++ tok).length < maxControlLine := by
        rw [List.length_append]
        omega
      have hroom : hasRoom ok out.length (tok ++ dot :: [dot].intercalate (tok' :: toks)).length =
          (hasRoom ok out.length tok.length && (ok (out ++ tok).length && hasRoom ok
            (out ++ tok ++ [dot]).length ([dot].intercalate (tok' :: toks)).length)) := by
        rw [List.length_append, List.length_cons, hasRoom_add, hasRoom]
        simp only [List.length_append, List.length_singleton]
      rw [hdots, hslashes, decodePathLoop_segment htok hspellable (by omega), hbytes, Bool.or_true,
        decodePathLoop_slash hmid, ih (List.cons_ne_nil _ _) htoks' hlen', hroom]
      cases hasRoom ok out.length tok.length <;> cases ok (out ++ tok).length <;> simp

end Loop

theorem Spells.intercalate_length_le {toks segs : List Bytes} (h : Forall₂ Spells toks segs) :
    ([dot].intercalate toks).length ≤ ([slash].intercalate segs).length := by
  induction h with
  | nil => exact Nat.le_refl 0
  | @cons tok seg toks segs htok hrest ih =>
    have hlen := htok.length_le
    cases hrest with
    | nil => simpa using hlen
    | cons =>
      simp only [List.intercalate_cons_cons, List.length_append, List.length_singleton] at ih ⊢
      omega

theorem spellable_of_valid {s : Bytes} {w : Bool} (h : subjectValid s w = true)
    (hslash : slash ∉ s) : ∀ tok ∈ tokens s, tok ≠ [] ∧ ∀ c ∈ tok, Spellable c := by
  obtain ⟨hbytes, hvalid⟩ := subjectValid_iff.mp h
  intro tok htok
  refine ⟨hvalid.ne_nil tok htok, ?_⟩
  intro c hc
  have hmem := Tokens.mem_of_mem_splitOn htok hc
  have hbyte := List.all_eq_true.mp (Bool.and_eq_true_iff.mp hbytes).2 c hmem
  simp only [Bool.not_eq_true', Bool.or_eq_false_iff, decide_eq_false_iff_not, UInt8.not_le,
    beq_eq_false_iff_ne, ne_eq] at hbyte
  refine ⟨hbyte.1, hbyte.2, ?_, ?_⟩
  · rintro rfl
    exact hslash hmem
  · rintro rfl
    exact Tokens.not_mem_of_mem_splitOn htok hc

theorem spelled_subject (ok : ℕ → Bool) (pre : Bytes) {s : Bytes} {w : Bool} {segs : List Bytes}
    (hvalid : subjectValid s w = true) (hslash : slash ∉ s)
    (hspells : Forall₂ Spells (tokens s) segs)
    (hlen : (pre ++ [slash].intercalate segs).length ≤ maxTarget) :
    decodeSubjectPath ok (pre ++ [slash].intercalate segs) pre w =
      if hasRoom ok 0 s.length then some s else none := by
  have hjoin : [dot].intercalate (tokens s) = s := List.intercalate_splitOn dot
  have hle := Spells.intercalate_length_le hspells
  have htarget : maxTarget ≤ maxControlLine := by decide
  have hne : s ≠ [] := by
    rintro rfl
    cases hvalid
  have hpos := List.length_pos_iff.mpr hne
  rw [List.length_append] at hlen
  rw [hjoin] at hle
  have hloop := @decodePathLoop_segments ok [] (tokens s) segs hspells (tokens_ne_nil s)
    (spellable_of_valid hvalid hslash) (by rw [hjoin, List.length_nil]; omega)
  rw [hjoin, List.length_nil, List.nil_append] at hloop
  have hlonger : ¬ (pre.length + ([slash].intercalate segs).length ≤ pre.length) := by omega
  unfold decodeSubjectPath
  rw [List.length_append, List.take_left, List.drop_left, hloop]
  simp only [hlonger, decide_false, bne_self_eq_false, Bool.or_false, Bool.false_eq_true, if_false]
  cases hasRoom ok 0 s.length <;> simp [hvalid]

/-- A path that is decoded spells, segment by segment, the tokens of a valid subject, and what
spells a valid subject without a slash within the limit of a target decodes to it if there is
memory for the subject. -/
theorem path_spells_subject (ok : ℕ → Bool) (pre : Bytes) (w : Bool) :
    (∀ target s, decodeSubjectPath ok target pre w = some s →
      subjectValid s w = true ∧ s.length ≤ maxControlLine ∧
        ∃ path, target = pre ++ path ∧
          (tokens s).length = (path.splitOn slash).length ∧
          Forall₂ Spells (tokens s) (path.splitOn slash)) ∧
    ∀ s segs, subjectValid s w = true → slash ∉ s → Forall₂ Spells (tokens s) segs →
      (pre ++ [slash].intercalate segs).length ≤ maxTarget →
      decodeSubjectPath ok (pre ++ [slash].intercalate segs) pre w =
        if hasRoom ok 0 s.length then some s else none := by
  constructor
  · intro target s h
    obtain ⟨hvalid, hlen, path, htarget, hspells⟩ := decoded_path h
    exact ⟨hvalid, hlen, path, htarget, hspells.length_eq, hspells⟩
  · intro s segs hvalid hslash hspells hlen
    exact spelled_subject ok pre hvalid hslash hspells hlen

theorem path_spells_subject_escaped :
    decodeSubjectPath (fun _ => true) (lit "/s/a/%62") (lit "/s/") false = some (lit "a.b") ∧
      ((tokens (lit "a.b")).length = 2 ∧
      decodeSubjectPath (fun _ => true) (lit "/s/" ++ [slash].intercalate [lit "a", lit "%62"])
        (lit "/s/") false = some (lit "a.b")) := by
  have hdecoded : decodeSubjectPath (fun _ => true) (lit "/s/a/%62") (lit "/s/") false =
      some (lit "a.b") := by decide +kernel
  have hvalid : subjectValid (lit "a.b") false = true := by decide +kernel
  have hslash : slash ∉ lit "a.b" := by decide +kernel
  have htoks : tokens (lit "a.b") = [lit "a", lit "b"] := by decide +kernel
  have hfits : (lit "/s/" ++ [slash].intercalate [lit "a", lit "%62"]).length ≤ maxTarget := by
    decide +kernel
  have hfirst : Spells (lit "a") (lit "a") := .plain (by decide) .nil
  have hsecond : Spells (lit "b") (lit "%62") :=
    @Spells.escape 0x36 0x32 6 2 [] [] (by decide) (by decide) .nil
  have hspells : Forall₂ Spells (tokens (lit "a.b")) [lit "a", lit "%62"] := by
    rw [htoks]
    exact .cons hfirst (.cons hsecond .nil)
  obtain ⟨hforth, hback⟩ := path_spells_subject (fun _ => true) (lit "/s/") false
  obtain ⟨-, -, path, htarget, hlen, -⟩ := hforth (lit "/s/a/%62") (lit "a.b") hdecoded
  have hsame : lit "/s/" ++ lit "a/%62" = lit "/s/" ++ path := htarget
  have hpath : path = lit "a/%62" := (List.append_cancel_left hsame).symm
  refine ⟨hdecoded, ?_, ?_⟩
  · rw [hlen, hpath]
    decide +kernel
  · exact (hback (lit "a.b") _ hvalid hslash hspells hfits).trans (by decide +kernel)

end Monoblok.Http
