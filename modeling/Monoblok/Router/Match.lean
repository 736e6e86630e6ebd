import Monoblok.Proto.Subject

/-!
# Subject matching

`next_subject_token` and `subject_matches` of `router.c` walk a filter and a
subject with two byte cursors; a cursor one past the end stands for an
exhausted string. `subjectMatches_eq_matchTokens` removes the cursors, and the
remaining results compare the matcher with the documented token grammar.
-/

namespace Monoblok

open Tokens

def lvcPrefix : Bytes := lit "$LVC."
def statsPrefix : Bytes := lit "$STATS."

def subjectHasLvcPrefix (subject : Bytes) : Bool := sliceHasPrefix subject lvcPrefix
def subjectHasStatsPrefix (subject : Bytes) : Bool := sliceHasPrefix subject statsPrefix

def lvcInnerSubject (subject : Bytes) : Bytes := subject.drop lvcPrefix.length

/-- One token from position `pos`, with the position of the next one. A string
read to its end leaves the cursor at `length + 1`. -/
def nextSubjectToken (s : Bytes) (pos : ℕ) : Option (Bytes × ℕ) :=
  if s.length < pos then none
  else
    let tok := first dot (s.drop pos)
    let stop := pos + tok.length
    if stop = pos then none
    else some (tok, if stop < s.length then stop + 1 else s.length + 1)

def firstToken (s : Bytes) : Bytes :=
  match nextSubjectToken s 0 with
  | some (tok, _) => tok
  | none => []

def isWildcardToken (tok : Bytes) : Bool := tok == [star] || tok == [gt]

def isLiteralFilter (filter : Bytes) : Bool := filter.all fun c => !(c == star || c == gt)

/-- The endless loop of `subject_matches`. Every round moves the filter cursor,
so the number of filter bytes bounds the rounds. -/
def subjectMatchesFrom (filter subject : Bytes) : ℕ → ℕ → ℕ → Bool
  | 0, _, _ => false
  | fuel + 1, fp, sp =>
    match nextSubjectToken filter fp with
    | none => decide (subject.length < sp)
    | some (ftok, fp) =>
      if ftok == [gt] then decide (filter.length < fp)
      else
        match nextSubjectToken subject sp with
        | none => false
        | some (stok, sp) =>
          if !(ftok == [star]) && !sliceEq ftok stok then false
          else subjectMatchesFrom filter subject fuel fp sp

def subjectMatches (filter subject : Bytes) : Bool :=
  subjectMatchesFrom filter subject (filter.length + 2) 0 0

/-! ## The cursors as token lists -/

/-- The tokens a cursor has not read yet. -/
def remaining (s : Bytes) (pos : ℕ) : List Bytes :=
  if s.length < pos then [] else tokens (s.drop pos)

/-- The matcher on token lists. An empty token ends its side, as in the code. -/
def matchTokens : List Bytes → List Bytes → Bool
  | [], st => st.isEmpty
  | f :: fs, st =>
    if f = [] then st.isEmpty
    else if f = [gt] then fs.isEmpty
    else
      match st with
      | [] => false
      | s :: ss =>
        if s = [] then false
        else if f ≠ [star] ∧ f ≠ s then false
        else matchTokens fs ss

theorem matchTokens_cons_eq (f : Bytes) (fs st : List Bytes) :
    matchTokens (f :: fs) st =
      if f = [] then st.isEmpty
      else if f = [gt] then fs.isEmpty
      else
        match st with
        | [] => false
        | s :: ss =>
          if s = [] then false
          else if f ≠ [star] ∧ f ≠ s then false
          else matchTokens fs ss := by
  cases st <;> simp [matchTokens]

theorem remaining_eq_nil {s : Bytes} {pos : ℕ} : remaining s pos = [] ↔ s.length < pos := by
  unfold remaining
  split_ifs with h
  · simp [h]
  · simp [h, tokens_ne_nil]

theorem remaining_zero (s : Bytes) : remaining s 0 = tokens s := by
  simp [remaining]

theorem remaining_isEmpty (s : Bytes) (pos : ℕ) :
    (remaining s pos).isEmpty = decide (s.length < pos) := by
  rw [Bool.eq_iff_iff, List.isEmpty_iff, remaining_eq_nil, decide_eq_true_eq]

/-- Reading a token is taking the head of the unread tokens. -/
theorem nextSubjectToken_of_cons {s : Bytes} {pos : ℕ} {tok : Bytes} {toks : List Bytes}
    (h : remaining s pos = tok :: toks) (hne : tok ≠ []) :
    ∃ pos', nextSubjectToken s pos = some (tok, pos') ∧ remaining s pos' = toks := by
  have hpos : ¬ s.length < pos := by
    intro hlt
    rw [remaining_eq_nil.mpr hlt] at h
    cases h
  rw [remaining, if_neg hpos] at h
  have hlen := congrArg List.length (first_append_rest dot (s.drop pos))
  simp only [List.length_append, List.length_drop] at hlen
  rcases rest_eq_cons (rfl : rest dot (s.drop pos) = _) with hr | ⟨r, hr⟩
  · -- the last token: the cursor goes past the end
    rw [tokens_of_rest_nil hr] at h
    obtain ⟨rfl, rfl⟩ := List.cons.inj h
    rw [hr, List.length_nil, Nat.add_zero] at hlen
    refine ⟨s.length + 1, ?_, remaining_eq_nil.mpr (Nat.lt_succ_self _)⟩
    have hp := List.length_pos_iff.mpr hne
    rw [nextSubjectToken, if_neg hpos]
    simp only
    rw [if_neg (by omega), if_neg (by omega)]
  · -- an inner token: the cursor goes past the dot
    rw [tokens_of_rest_cons hr] at h
    obtain ⟨rfl, rfl⟩ := List.cons.inj h
    rw [hr, List.length_cons] at hlen
    have hp := List.length_pos_iff.mpr hne
    refine ⟨pos + (first dot (s.drop pos)).length + 1, ?_, ?_⟩
    · rw [nextSubjectToken, if_neg hpos]
      simp only
      rw [if_neg (by omega), if_pos (by omega)]
    · have hd : s.drop (pos + (first dot (s.drop pos)).length + 1) = r := by
        rw [Nat.add_assoc, ← List.drop_drop, ← List.drop_drop, ← rest_eq_drop, hr]
        rfl
      rw [remaining, if_neg (by omega), hd]

theorem nextSubjectToken_of_nil {s : Bytes} {pos : ℕ} {toks : List Bytes}
    (h : remaining s pos = [] :: toks) : nextSubjectToken s pos = none := by
  have hpos : ¬ s.length < pos := by
    intro hlt
    rw [remaining_eq_nil.mpr hlt] at h
    cases h
  obtain ⟨ts, hts⟩ := exists_splitOn_eq_cons dot (s.drop pos)
  rw [remaining, if_neg hpos, tokens, hts] at h
  have hf := (List.cons.inj h).1
  simp [nextSubjectToken, hpos, hf]

theorem nextSubjectToken_of_exhausted {s : Bytes} {pos : ℕ} (h : remaining s pos = []) :
    nextSubjectToken s pos = none := by
  simp [nextSubjectToken, remaining_eq_nil.mp h]

theorem subjectMatchesFrom_eq (filter subject : Bytes) :
    ∀ (fuel fp sp : ℕ), (remaining filter fp).length < fuel →
      subjectMatchesFrom filter subject fuel fp sp =
        matchTokens (remaining filter fp) (remaining subject sp) := by
  intro fuel
  induction fuel with
  | zero => intro fp sp h; omega
  | succ fuel ih =>
    intro fp sp hfuel
    unfold subjectMatchesFrom
    cases hf : remaining filter fp with
    | nil =>
      rw [nextSubjectToken_of_exhausted hf, matchTokens, remaining_isEmpty]
    | cons f fs =>
      by_cases hne : f = []
      · subst hne
        rw [nextSubjectToken_of_nil hf, matchTokens_cons_eq, if_pos rfl, remaining_isEmpty]
      · obtain ⟨fp', hfn, hfr⟩ := nextSubjectToken_of_cons hf hne
        rw [hfn, matchTokens_cons_eq, if_neg hne]
        simp only [beq_iff_eq]
        by_cases hg : f = [gt]
        · rw [if_pos hg, if_pos hg, ← hfr, remaining_isEmpty]
        · rw [if_neg hg, if_neg hg]
          cases hs : remaining subject sp with
          | nil => rw [nextSubjectToken_of_exhausted hs]
          | cons s ss =>
            by_cases hse : s = []
            · subst hse
              simp [nextSubjectToken_of_nil hs]
            · obtain ⟨sp', hsn, hsr⟩ := nextSubjectToken_of_cons hs hse
              have hih := ih fp' sp' (by
                rw [hf, List.length_cons] at hfuel
                rw [hfr]
                omega)
              rw [hfr, hsr] at hih
              rw [hsn]
              simp [hse, hih, sliceEq]

theorem tokens_length_le (s : Bytes) : (tokens s).length ≤ s.length + 1 := by
  induction hn : s.length using Nat.strong_induction_on generalizing s with
  | _ n ih =>
    rcases rest_eq_cons (rfl : rest dot s = _) with hr | ⟨r, hr⟩
    · rw [tokens_of_rest_nil hr]
      simp
    · have h := congrArg List.length (first_append_rest dot s)
      rw [hr, List.length_append, List.length_cons] at h
      have hr' := ih r.length (by omega) r rfl
      rw [tokens_of_rest_cons hr, List.length_cons]
      omega

/-- The cursor matcher is the token matcher, for every filter and subject. -/
theorem subjectMatches_eq_matchTokens (filter subject : Bytes) :
    subjectMatches filter subject = matchTokens (tokens filter) (tokens subject) := by
  have hlen := tokens_length_le filter
  rw [subjectMatches, subjectMatchesFrom_eq _ _ _ _ _ (by rw [remaining_zero]; omega),
    remaining_zero, remaining_zero]

theorem firstToken_eq (s : Bytes) : firstToken s = first dot s := by
  unfold firstToken
  obtain ⟨ts, hr⟩ : ∃ ts, remaining s 0 = first dot s :: ts := by
    rw [remaining_zero]
    exact exists_splitOn_eq_cons dot s
  by_cases hne : first dot s = []
  · rw [hne] at hr
    rw [nextSubjectToken_of_nil hr, hne]
  · obtain ⟨pos', hn, -⟩ := nextSubjectToken_of_cons hr hne
    rw [hn]

/-! ## The documented grammar -/

/-- `*` stands for any single token, any other token only for itself. -/
def TokenMatches (f s : Bytes) : Prop := f = [star] ∨ f = s

instance : DecidableRel TokenMatches := fun f s => inferInstanceAs (Decidable (f = [star] ∨ f = s))

/-- The filter ends in the tail wildcard. -/
def EndsInTail (filter : Bytes) : Prop := (tokens filter).getLast? = some [gt]

instance (filter : Bytes) : Decidable (EndsInTail filter) :=
  inferInstanceAs (Decidable ((tokens filter).getLast? = some [gt]))

/-- The token grammar of the documentation: a final `>` takes one or more
further tokens of the subject. -/
def DocumentedMatch (filter subject : Bytes) : Prop :=
  if EndsInTail filter then
    (tokens filter).dropLast.length < (tokens subject).length ∧
      List.Forall₂ TokenMatches (tokens filter).dropLast
        ((tokens subject).take (tokens filter).dropLast.length)
  else List.Forall₂ TokenMatches (tokens filter) (tokens subject)

instance (filter subject : Bytes) : Decidable (DocumentedMatch filter subject) :=
  inferInstanceAs (Decidable (ite _ _ _))

/-- The filter is a pattern for the whole subject followed by `.>`. -/
def TailAfterWholeSubject (filter subject : Bytes) : Prop :=
  EndsInTail filter ∧ List.Forall₂ TokenMatches (tokens filter).dropLast (tokens subject)

theorem matchTokens_cons {f s : Bytes} {fs ss : List Bytes} (hf : f ≠ []) (hg : f ≠ [gt])
    (hs : s ≠ []) :
    matchTokens (f :: fs) (s :: ss) = true ↔ TokenMatches f s ∧ matchTokens fs ss = true := by
  rw [matchTokens_cons_eq, if_neg hf, if_neg hg]
  simp only [if_neg hs, TokenMatches]
  by_cases h : f = [star] ∨ f = s
  · rw [if_neg (by tauto)]
    simp [h]
  · rw [if_pos (by tauto)]
    simp [h]

theorem ValidTokens.head_ne_nil {w : Bool} {f : Bytes} {fs : List Bytes}
    (h : ValidTokens w (f :: fs)) : f ≠ [] := by
  rintro rfl
  cases fs with
  | nil => simp [ValidTokens, LiteralToken] at h
  | cons f' fs => simp [validTokens_cons_cons, LiteralToken] at h

theorem ValidTokens.tail {w : Bool} {f f' : Bytes} {fs : List Bytes}
    (h : ValidTokens w (f :: f' :: fs)) : ValidTokens w (f' :: fs) :=
  (validTokens_cons_cons.mp h).2

theorem ValidTokens.ne_nil {w : Bool} {ts : List Bytes} (h : ValidTokens w ts) :
    ∀ t ∈ ts, t ≠ [] := by
  induction ts with
  | nil => simp
  | cons t ts ih =>
    intro t' ht'
    rcases List.mem_cons.mp ht' with rfl | ht'
    · exact h.head_ne_nil
    · cases ts with
      | nil => simp at ht'
      | cons u us => exact ih h.tail t' ht'

/-- What the matcher decides on valid token lists: the tail wildcard also
accepts no further token at all. -/
theorem matchTokens_iff {ft : List Bytes} (hft : ValidTokens true ft) :
    ∀ {st : List Bytes}, (∀ s ∈ st, s ≠ []) →
      (matchTokens ft st = true ↔
        if ft.getLast? = some [gt] then
          ft.dropLast.length ≤ st.length ∧
            List.Forall₂ TokenMatches ft.dropLast (st.take ft.dropLast.length)
        else List.Forall₂ TokenMatches ft st) := by
  induction ft with
  | nil => exact absurd hft (by simp [ValidTokens])
  | cons f fs ih =>
    intro st hst
    have hf := hft.head_ne_nil
    cases fs with
    | nil =>
      by_cases hg : f = [gt]
      · simp [matchTokens, hg]
      · cases st with
        | nil => simp [matchTokens, hf, hg]
        | cons s ss =>
          rw [matchTokens_cons hf hg (hst s (by simp))]
          simp [hg, matchTokens]
    | cons f' fs =>
      have hg : f ≠ [gt] := by
        rintro rfl
        rcases (validTokens_cons_cons.mp hft).1 with h | ⟨-, h⟩
        · exact not_literalToken_gt h
        · simp [star_ne_gt.symm] at h
      cases st with
      | nil => simp [matchTokens, hf, hg]
      | cons s ss =>
        rw [matchTokens_cons hf hg (hst s (by simp)),
          ih hft.tail (fun s hs => hst s (by simp [hs]))]
        have hlast : (f :: f' :: fs).getLast? = (f' :: fs).getLast? := List.getLast?_cons_cons
        have hdrop : (f :: f' :: fs).dropLast = f :: (f' :: fs).dropLast :=
          List.dropLast_cons_of_ne_nil (by simp)
        rw [hlast, hdrop]
        split_ifs
        · simp only [List.length_cons, Nat.add_le_add_iff_right, List.take_succ_cons,
            List.forall₂_cons]
          tauto
        · simp

theorem subjectMatches_iff {filter subject : Bytes} (hf : subjectValid filter true = true)
    (hs : subjectValid subject false = true) :
    subjectMatches filter subject = true ↔
      if EndsInTail filter then
        (tokens filter).dropLast.length ≤ (tokens subject).length ∧
          List.Forall₂ TokenMatches (tokens filter).dropLast
            ((tokens subject).take (tokens filter).dropLast.length)
      else List.Forall₂ TokenMatches (tokens filter) (tokens subject) := by
  rw [subjectMatches_eq_matchTokens]
  exact matchTokens_iff (subjectValid_iff.mp hf).2 (subjectValid_iff.mp hs).2.ne_nil

/-- The matcher follows the documented grammar on a valid filter and subject
exactly when the filter is not a pattern for the whole subject with a further
`>` behind it. -/
theorem subjectMatches_documented_iff {filter subject : Bytes}
    (hf : subjectValid filter true = true) (hs : subjectValid subject false = true) :
    (subjectMatches filter subject = true ↔ DocumentedMatch filter subject) ↔
      ¬ TailAfterWholeSubject filter subject := by
  rw [subjectMatches_iff hf hs, DocumentedMatch, TailAfterWholeSubject]
  by_cases ht : EndsInTail filter
  · rw [if_pos ht, if_pos ht]
    rcases Nat.lt_trichotomy (tokens filter).dropLast.length (tokens subject).length with
      hlt | heq | hgt
    · have hne : ¬ List.Forall₂ TokenMatches (tokens filter).dropLast (tokens subject) :=
        fun h => absurd h.length_eq (Nat.ne_of_lt hlt)
      simp only [hne, and_false, not_false_eq_true, iff_true]
      rw [and_iff_right hlt, and_iff_right hlt.le]
    · simp [ht, heq]
    · have hne : ¬ List.Forall₂ TokenMatches (tokens filter).dropLast (tokens subject) :=
        fun h => absurd h.length_eq (Nat.ne_of_gt hgt)
      simp only [hne, and_false, not_false_eq_true, hgt.not_gt, hgt.not_ge, false_and]
  · simp [ht]

theorem subjectMatches_documented_iff_wildcard :
    subjectValid (lit "foo.*.>") true = true ∧ subjectValid (lit "foo.a.b") false = true ∧
      ((subjectMatches (lit "foo.*.>") (lit "foo.a.b") = true ↔
          DocumentedMatch (lit "foo.*.>") (lit "foo.a.b")) ↔
        ¬ TailAfterWholeSubject (lit "foo.*.>") (lit "foo.a.b")) :=
  ⟨by decide, by decide, subjectMatches_documented_iff (by decide) (by decide)⟩

/-- `foo.>` is delivered messages on `foo`. -/
theorem subjectMatches_tail_without_token :
    subjectValid (lit "foo.>") true = true ∧ subjectValid (lit "foo") false = true ∧
      subjectMatches (lit "foo.>") (lit "foo") = true ∧
      ¬ DocumentedMatch (lit "foo.>") (lit "foo") := by
  decide

end Monoblok
