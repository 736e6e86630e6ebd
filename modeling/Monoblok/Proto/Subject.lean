import Monoblok.Bytes
import Monoblok.Lib.Tokens

/-!
# Subject grammar

`mb_proto_token_valid` and `mb_proto_subject_valid` of `proto.c`. The second
scans the subject token by token; `subjectValid_iff` reads it off the list of
tokens.
-/

namespace Monoblok

open Tokens

/-- A token is non-empty and has no control byte, blank or DEL. -/
def tokenValid (token : Bytes) : Bool :=
  !token.isEmpty && token.all fun c => !(decide (c ≤ 0x20) || c == 0x7f)

/-- The `while` loop of `mb_proto_subject_valid`, on the unread suffix. Each
round takes one token off the suffix, so its length bounds the rounds. -/
def subjectValidLoop (allowWildcards : Bool) : ℕ → Bytes → Bool
  | 0, _ => false
  | fuel + 1, suffix =>
    let tok := first dot suffix
    let after := rest dot suffix
    let isStar := tok == [star]
    let isTail := tok == [gt]
    if tok.isEmpty then false
    else if (isStar || isTail) && (!allowWildcards || (isTail && !after.isEmpty)) then false
    else if !(isStar || isTail) && tok.any (fun c => c == star || c == gt) then false
    else
      match after with
      | [] => true
      | _ :: suffix => subjectValidLoop allowWildcards fuel suffix

def subjectValid (subject : Bytes) (allowWildcards : Bool) : Bool :=
  if subject.isEmpty || !tokenValid subject then false
  else subjectValidLoop allowWildcards (subject.length + 1) subject

/-- The dot-separated tokens of a subject or filter. -/
def tokens (s : Bytes) : List Bytes := s.splitOn dot

/-- A token without wildcard bytes. -/
def LiteralToken (tok : Bytes) : Prop := tok ≠ [] ∧ star ∉ tok ∧ gt ∉ tok

/-- The token lists `mb_proto_subject_valid` accepts. -/
def ValidTokens (allowWildcards : Bool) : List Bytes → Prop
  | [] => False
  | [tok] => LiteralToken tok ∨ allowWildcards = true ∧ (tok = [star] ∨ tok = [gt])
  | tok :: toks =>
    (LiteralToken tok ∨ allowWildcards = true ∧ tok = [star]) ∧ ValidTokens allowWildcards toks

theorem tokens_ne_nil (s : Bytes) : tokens s ≠ [] := List.splitOn_ne_nil dot s

theorem tokens_of_rest_nil {s : Bytes} (h : rest dot s = []) : tokens s = [first dot s] :=
  splitOn_of_rest_nil h

theorem tokens_of_rest_cons {s r : Bytes} (h : rest dot s = dot :: r) :
    tokens s = first dot s :: tokens r :=
  splitOn_of_rest_cons h

theorem tokens_injective {s t : Bytes} (h : tokens s = tokens t) : s = t := by
  have hjoin := congrArg (List.intercalate [dot]) h
  rwa [tokens, tokens, List.intercalate_splitOn, List.intercalate_splitOn] at hjoin

theorem literalToken_iff {tok : Bytes} (h : tok ≠ []) :
    (tok.any fun c => c == star || c == gt) = false ↔ LiteralToken tok := by
  simp only [List.any_eq_false, Bool.or_eq_true, beq_iff_eq, not_or, LiteralToken]
  constructor
  · intro hall
    exact ⟨h, fun hm => (hall _ hm).1 rfl, fun hm => (hall _ hm).2 rfl⟩
  · rintro ⟨-, hs, hg⟩ c hc
    exact ⟨fun e => hs (e ▸ hc), fun e => hg (e ▸ hc)⟩

@[simp] theorem star_ne_gt : star ≠ gt := by decide

theorem not_literalToken_star : ¬ LiteralToken [star] := by simp [LiteralToken]

theorem not_literalToken_gt : ¬ LiteralToken [gt] := by simp [LiteralToken]

theorem validTokens_cons_cons {w : Bool} {tok tok' : Bytes} {toks : List Bytes} :
    ValidTokens w (tok :: tok' :: toks) ↔
      (LiteralToken tok ∨ w = true ∧ tok = [star]) ∧ ValidTokens w (tok' :: toks) := by
  simp [ValidTokens]

theorem subjectValidLoop_iff (w : Bool) :
    ∀ (fuel : ℕ) (s : Bytes), s.length < fuel →
      (subjectValidLoop w fuel s = true ↔ ValidTokens w (tokens s)) := by
  intro fuel
  induction fuel with
  | zero => intro s h; omega
  | succ fuel ih =>
    intro s hlen
    unfold subjectValidLoop
    rcases rest_eq_cons (rfl : rest dot s = rest dot s) with hr | ⟨r, hr⟩
    · -- last token: the tail wildcard is allowed here
      rw [tokens_of_rest_nil hr, hr]
      by_cases he : first dot s = []
      · simp [he, ValidTokens, LiteralToken]
      · have hl := literalToken_iff he
        by_cases hs : first dot s = [star]
        · simp [hs, ValidTokens, not_literalToken_star]
        · by_cases hg : first dot s = [gt]
          · simp [hg, ValidTokens, not_literalToken_gt]
          · cases ha : (first dot s).any fun c => c == star || c == gt <;>
              simp_all [ValidTokens]
    · -- an inner token; the rest of the subject is shorter
      have hlt : r.length < fuel := by
        have h := congrArg List.length (first_append_rest dot s)
        rw [hr] at h
        simp only [List.length_append, List.length_cons] at h
        omega
      rw [tokens_of_rest_cons hr, hr]
      obtain ⟨tok', toks, ht⟩ := List.exists_cons_of_ne_nil (tokens_ne_nil r)
      have hih := ih r hlt
      rw [ht] at hih ⊢
      rw [validTokens_cons_cons]
      by_cases he : first dot s = []
      · simp [he, LiteralToken]
      · have hl := literalToken_iff he
        by_cases hs : first dot s = [star]
        · cases w <;> simp [hs, not_literalToken_star, hih]
        · by_cases hg : first dot s = [gt]
          · simp [hg, not_literalToken_gt, star_ne_gt.symm]
          · cases ha : (first dot s).any fun c => c == star || c == gt <;>
              simp_all

theorem subjectValid_iff {s : Bytes} {w : Bool} :
    subjectValid s w = true ↔ tokenValid s = true ∧ ValidTokens w (tokens s) := by
  unfold subjectValid
  have hloop := subjectValidLoop_iff w (s.length + 1) s (Nat.lt_succ_self _)
  cases hs : s with
  | nil => simp [tokenValid]
  | cons c cs =>
    rw [hs] at hloop
    cases ht : tokenValid (c :: cs)
    · simp
    · simpa using hloop

end Monoblok
