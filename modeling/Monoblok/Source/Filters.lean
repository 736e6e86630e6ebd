import Monoblok.Source.Agree
import Monoblok.Router.Match

/-!
# The filters of rules

Neither the loader nor the validator looks at the text of a rule's filter:
`accepted_map_withFilter` exchanges it for another one. So a source has checked
filters exactly where its filters happen to be valid or something else is wrong
with it.
-/

namespace Monoblok.Patchbay

open Tokens

variable {N : Type}

/-! ## A subject for every valid filter -/

/-- A letter in the place of a wildcard. -/
def plain (c : UInt8) : UInt8 := if c = star ∨ c = gt then 0x78 else c

theorem plain_eq_dot (c : UInt8) : plain c = dot ↔ c = dot := by
  unfold plain
  by_cases h : c = star ∨ c = gt
  · rw [if_pos h]
    constructor
    · intro he
      exact absurd he (by decide)
    · rintro rfl
      exact absurd h (by decide)
  · rw [if_neg h]

theorem tokens_map_plain (s : Bytes) : tokens (s.map plain) = (tokens s).map (List.map plain) := by
  unfold tokens List.splitOn
  induction s with
  | nil => rfl
  | cons c cs ih =>
    have hdot : (plain c == dot) = (c == dot) := by
      rw [Bool.eq_iff_iff, beq_iff_eq, beq_iff_eq, plain_eq_dot]
    rw [List.map_cons, List.splitOnP_cons_eq_if_modifyHead, List.splitOnP_cons_eq_if_modifyHead,
      hdot, ih]
    cases c == dot with
    | true => rfl
    | false =>
      cases cs.splitOnP (· == dot) <;> rfl

theorem plain_of_literal {tok : Bytes} (h : LiteralToken tok) : tok.map plain = tok := by
  conv_rhs => rw [← List.map_id tok]
  apply List.map_congr_left
  intro c hc
  have hne : ¬ (c = star ∨ c = gt) := by
    rintro (rfl | rfl)
    · exact h.2.1 hc
    · exact h.2.2 hc
  exact if_neg hne

theorem literal_map_plain {tok : Bytes} (h : tok ≠ []) : LiteralToken (tok.map plain) := by
  have hne : ∀ c : UInt8, plain c ≠ star ∧ plain c ≠ gt := by
    intro c
    unfold plain
    by_cases hc : c = star ∨ c = gt
    · rw [if_pos hc]
      decide
    · rw [if_neg hc]
      exact not_or.mp hc
  refine ⟨by simpa using h, ?_, ?_⟩
  · intro hm
    obtain ⟨c, -, hc⟩ := List.mem_map.mp hm
    exact (hne c).1 hc
  · intro hm
    obtain ⟨c, -, hc⟩ := List.mem_map.mp hm
    exact (hne c).2 hc

theorem validTokens_map_plain {ts : List Bytes} (h : ValidTokens true ts) :
    ValidTokens false (ts.map (List.map plain)) := by
  induction ts with
  | nil => exact h
  | cons t ts ih =>
    cases ts with
    | nil => exact .inl (literal_map_plain h.head_ne_nil)
    | cons u us => exact ⟨.inl (literal_map_plain h.head_ne_nil), ih h.tail⟩

theorem matchTokens_map_plain {ts : List Bytes} (h : ValidTokens true ts) :
    matchTokens ts (ts.map (List.map plain)) = true := by
  induction ts with
  | nil => rfl
  | cons t ts ih =>
    have hne := h.head_ne_nil
    have hplain := (literal_map_plain hne).1
    cases ts with
    | nil =>
      by_cases hg : t = [gt]
      · simp [matchTokens, hg]
      · rw [List.map_cons, matchTokens_cons hne hg hplain]
        refine ⟨?_, rfl⟩
        rcases h with hl | ⟨-, hs | hs⟩
        · exact .inr (plain_of_literal hl).symm
        · exact .inl hs
        · exact absurd hs hg
    | cons u us =>
      obtain ⟨hhead, htail⟩ := validTokens_cons_cons.mp h
      have hg : t ≠ [gt] := by
        rintro rfl
        rcases hhead with hl | ⟨-, hs⟩
        · exact not_literalToken_gt hl
        · exact absurd hs (by decide)
      rw [List.map_cons, matchTokens_cons hne hg hplain]
      refine ⟨?_, ih htail⟩
      rcases hhead with hl | ⟨-, hs⟩
      · exact .inr (plain_of_literal hl).symm
      · exact .inl hs

theorem tokenValid_map_plain {s : Bytes} (h : tokenValid s = true) :
    tokenValid (s.map plain) = true := by
  unfold tokenValid at h ⊢
  rw [Bool.and_eq_true, Bool.not_eq_true', List.isEmpty_eq_false_iff, List.all_eq_true] at h ⊢
  refine ⟨by simpa using h.1, ?_⟩
  intro c hc
  obtain ⟨b, hb, rfl⟩ := List.mem_map.mp hc
  unfold plain
  by_cases hw : b = star ∨ b = gt
  · rw [if_pos hw]
    decide
  · rw [if_neg hw]
    exact h.2 b hb

/-- A valid filter is for something. -/
theorem exists_subject_of_filter {filter : Bytes} (h : subjectValid filter true = true) :
    ∃ subject, subjectValid subject false = true ∧ subjectMatches filter subject = true := by
  obtain ⟨htok, hts⟩ := subjectValid_iff.mp h
  refine ⟨filter.map plain, ?_, ?_⟩
  · rw [subjectValid_iff, tokens_map_plain]
    exact ⟨tokenValid_map_plain htok, validTokens_map_plain hts⟩
  · rw [subjectMatches_eq_matchTokens, tokens_map_plain]
    exact matchTokens_map_plain hts

/-! ## Filters are not looked at -/

/-- The filter of a rule form. -/
def onFilter : Value N → Option Bytes
  | .list (.symbol head :: .string filter :: _) => if head = lit "on" then some filter else none
  | _ => none

/-- A rule form with another filter; other forms stay. -/
def withFilter (g : Bytes → Bytes) : Value N → Value N
  | .list (.symbol head :: .string filter :: rest) =>
    if head = lit "on" then .list (.symbol head :: .string (g filter) :: rest)
    else .list (.symbol head :: .string filter :: rest)
  | v => v

theorem withFilter_cases (g : Bytes → Bytes) (form : Value N) :
    (onFilter form = none ∧ withFilter g form = form) ∨
      ∃ filter rest, form = .list (.symbol (lit "on") :: .string filter :: rest) ∧
        withFilter g form = .list (.symbol (lit "on") :: .string (g filter) :: rest) := by
  unfold withFilter
  split
  · rename_i head filter rest
    by_cases hh : head = lit "on"
    · subst hh
      exact .inr ⟨filter, rest, rfl, if_pos rfl⟩
    · exact .inl ⟨if_neg hh, if_neg hh⟩
  · rename_i hne
    refine .inl ⟨?_, rfl⟩
    unfold onFilter
    split
    · rename_i head filter rest
      exact absurd rfl (hne head filter rest)
    · rfl

theorem loadOnRule_none {head : Bytes} {items : List (Value N)} (hon : head = lit "on")
    (h : onFilter (.list (.symbol head :: items)) = none) : loadOnRule items = none := by
  match items, h with
  | .string filter :: rest, h =>
    rw [onFilter, if_pos hon] at h
    cases h
  | [], _ | .nil :: _, _ | .bool _ :: _, _ | .number _ :: _, _ | .symbol _ :: _, _
  | .keyword _ :: _, _ | .list _ :: _, _ | .vector _ :: _, _ => rfl

variable [ConfigNumber N] (getenv : Bytes → Option Bytes)

theorem validateOnForm_withFilter (env : Env N Unit) (n : ℕ) (g : Bytes → Bytes) (form : Value N) :
    validateOnForm env getenv n (withFilter g form) = validateOnForm env getenv n form := by
  rcases withFilter_cases g form with ⟨-, h⟩ | ⟨filter, rest, rfl, h⟩
  · rw [h]
  · rw [h]
    rfl

theorem validateForms_withFilter (env : Env N Unit) (g : Bytes → Bytes) (forms : List (Value N)) :
    ∀ n, validateForms env getenv n (forms.map (withFilter g)) =
      validateForms env getenv n forms := by
  induction forms with
  | nil => exact fun n => rfl
  | cons form forms ih =>
    intro n
    simp only [List.map_cons, validateForms, validateOnForm_withFilter, ih]

def RuleSource.mapFilter (g : Bytes → Bytes) (r : RuleSource N) : RuleSource N :=
  { r with filter := g r.filter }

/-- A loaded source with other filters. -/
def LoadedSource.mapFilter (g : Bytes → Bytes) (p : LoadedSource N) : LoadedSource N :=
  { p with rules := p.rules.map (RuleSource.mapFilter g) }

theorem loadOnForm_withFilter (g : Bytes → Bytes) (p : LoadedSource N) (form : Value N) :
    loadOnForm getenv (p.mapFilter g) (withFilter g form) =
      (loadOnForm getenv p form).map (LoadedSource.mapFilter g) := by
  rcases withFilter_cases g form with ⟨hnone, h⟩ | ⟨filter, rest, rfl, h⟩
  · rw [h]
    unfold loadOnForm
    split
    · rename_i head items
      by_cases hl : head = lit "lvc"
      · rw [if_pos hl, if_pos hl, Option.map_map]
        rfl
      rw [if_neg hl, if_neg hl]
      by_cases hb : isExportConfigHead head = true
      · rw [if_pos hb, if_pos hb, Option.map_map]
        rfl
      rw [if_neg hb, if_neg hb]
      by_cases hi : head = lit "import"
      · rw [if_pos hi, if_pos hi, Option.map_map]
        rfl
      rw [if_neg hi, if_neg hi]
      by_cases hon : head = lit "on"
      · rw [if_pos hon, if_pos hon, loadOnRule_none hon hnone]
        rfl
      · rw [if_neg hon, if_neg hon]
        rfl
    · rfl
  · have hrule : loadOnRule (.string (g filter) :: rest) =
        (loadOnRule (.string filter :: rest)).map (RuleSource.mapFilter g) := by
      simp only [loadOnRule]
      cases rest.getLast? with
      | none => rfl
      | some body => cases onOptions false rest.dropLast <;> rfl
    have hon : ∀ (q : LoadedSource N) (items : List (Value N)),
        loadOnForm getenv q (.list (.symbol (lit "on") :: items)) =
          (loadOnRule items).map fun r => { q with rules := q.rules ++ [r] } := fun _ _ => rfl
    rw [h, hon, hon, hrule, Option.map_map, Option.map_map]
    congr 1
    funext r
    simp [LoadedSource.mapFilter]

theorem loadForms_withFilter (g : Bytes → Bytes) (forms : List (Value N)) :
    loadForms getenv (forms.map (withFilter g)) =
      (loadForms getenv forms).map (LoadedSource.mapFilter g) := by
  have hfold : ∀ p : LoadedSource N,
      (forms.map (withFilter g)).foldlM (loadOnForm getenv) (p.mapFilter g) =
        (forms.foldlM (loadOnForm getenv) p).map (LoadedSource.mapFilter g) := by
    induction forms with
    | nil => exact fun p => rfl
    | cons form forms ih =>
      intro p
      rw [List.map_cons, List.foldlM_cons, List.foldlM_cons, loadOnForm_withFilter]
      cases loadOnForm getenv p form with
      | none => rfl
      | some q => exact ih q
  exact hfold .zero

/-- The validator reports ok or the loader takes the source. -/
def Accepted (env : Env N Unit) (forms : List (Value N)) : Prop :=
  validateSource env getenv forms = some true ∨ (loadSource getenv forms).isSome = true

theorem accepted_withFilter (env : Env N Unit) (g : Bytes → Bytes) (forms : List (Value N)) :
    Accepted getenv env (forms.map (withFilter g)) ↔ Accepted getenv env forms := by
  unfold Accepted validateSource loadSource
  rw [validateForms_withFilter, loadForms_withFilter, Option.isSome_map, Option.isSome_map,
    Option.isSome_map]

/-- A filter that can be matched. -/
def FilterChecked (filter : Bytes) : Prop :=
  subjectValid filter true = true ∧
    ∃ subject, subjectValid subject false = true ∧ subjectMatches filter subject = true

/-- The filters of accepted sources are checked exactly where they are valid in the
first place, or the source is refused with `>` in the place of each as well. -/
theorem filters_checked_iff (env : Env N Unit) (forms : List (Value N)) :
    (Accepted getenv env forms → ∀ form ∈ forms, ∀ filter, onFilter form = some filter →
        FilterChecked filter) ↔
      (∀ form ∈ forms, ∀ filter, onFilter form = some filter → subjectValid filter true = true) ∨
        ¬ Accepted getenv env (forms.map (withFilter fun _ => lit ">")) := by
  rw [accepted_withFilter]
  constructor
  · intro h
    by_cases ha : Accepted getenv env forms
    · exact .inl fun form hform filter hf => (h ha form hform filter hf).1
    · exact .inr ha
  · rintro (h | h) ha form hform filter hf
    · exact ⟨h form hform filter hf, exists_subject_of_filter (h form hform filter hf)⟩
    · exact absurd ha h

theorem inner_tail_accepted :
    ¬ (Accepted (fun _ => none) plainEnv
          [.list [.symbol (lit "on"), .string (lit "a.>.b"), .string (lit "x")]] →
        ∀ form ∈ [.list [.symbol (lit "on"), .string (lit "a.>.b"), (.string (lit "x") : Value ℚ)]],
          ∀ filter, onFilter form = some filter → FilterChecked filter) := by
  intro h
  have hvalid := (h (.inl (by decide +kernel)) _ List.mem_cons_self (lit "a.>.b") rfl).1
  exact absurd hvalid (by decide)

end Monoblok.Patchbay
