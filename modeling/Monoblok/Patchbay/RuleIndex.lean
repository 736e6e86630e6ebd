import Monoblok.Router.Dispatch
import Monoblok.Patchbay.Terminates
import Monoblok.Patchbay.Whole

/-!
# The rule index

`build_rule_index` puts a rule in the bucket of the first token of its filter,
or in the global list when that token is empty or a wildcard. A filter is not
checked when it is loaded; still, one that is in a bucket matches only subjects
with the same first token. So the two lists that are merged for a subject hold
every rule that matches it, and a message is evaluated as by a loop over all
rules.
-/

namespace Monoblok.Patchbay

open Tokens Relational Filter

variable {N W : Type}

/-! ## The place of a filter -/

/-- The bucket of a filter, if it does not go to the global list. -/
def bucketOf (filter : Bytes) : Option Bytes :=
  (firstSubjectToken filter).filter fun tok => !isWildcardToken tok

theorem firstSubjectToken_eq (s : Bytes) :
    firstSubjectToken s = if first dot s = [] then none else some (first dot s) := by
  unfold firstSubjectToken first
  dsimp only
  by_cases h : List.takeWhile (fun x => x != dot) s = []
  · rw [h]
    rfl
  · rw [if_neg h, if_neg (by simpa using h)]

theorem bucketOf_eq_some {filter tok : Bytes} :
    bucketOf filter = some tok ↔
      firstSubjectToken filter = some tok ∧ isWildcardToken tok = false := by
  simp [bucketOf, Option.filter_eq_some_iff]

/-- A filter in a bucket matches only subjects with the same first token. -/
theorem bucketOf_of_matches {filter subject tok : Bytes} (hbucket : bucketOf filter = some tok)
    (hvalid : subjectValid subject false = true) (h : subjectMatches filter subject = true) :
    firstSubjectToken subject = some tok := by
  obtain ⟨hfirst, hwild⟩ := bucketOf_eq_some.mp hbucket
  obtain ⟨fs, hfs⟩ := exists_splitOn_eq_cons dot filter
  obtain ⟨ss, hss⟩ := exists_splitOn_eq_cons dot subject
  have hne : first dot filter ≠ [] ∧ first dot filter = tok := by
    rw [firstSubjectToken_eq] at hfirst
    split_ifs at hfirst with hnil
    exact ⟨hnil, Option.some.inj hfirst⟩
  have hne' := tokens_ne_nil_of_valid hvalid (first dot subject) (by rw [tokens, hss]; simp)
  simp only [isWildcardToken, Bool.or_eq_false_iff, beq_eq_false_iff_ne] at hwild
  rw [subjectMatches_eq_matchTokens, tokens, tokens, hfs, hss,
    matchTokens_cons hne.1 (by rw [hne.2]; exact hwild.2) hne'] at h
  have hsame : tok = first dot subject :=
    hne.2 ▸ h.1.resolve_left (by rw [hne.2]; exact hwild.1)
  rw [firstSubjectToken_eq, if_neg hne', hsame]

/-! ## What the index holds -/

/-- The rules of a bucket, or of the global list, in source order. -/
def members (filters : List Bytes) (place : Option Bytes) : List ℕ :=
  (filters.zipIdx.filter fun x => bucketOf x.1 == place).map Prod.snd

theorem members_append (filters : List Bytes) (filter : Bytes) (place : Option Bytes) :
    members (filters ++ [filter]) place =
      members filters place ++ if bucketOf filter = place then [filters.length] else [] := by
  rw [members, members, List.zipIdx_append, List.filter_append, List.map_append]
  by_cases h : bucketOf filter = place
  · simp [h]
  · simp [h]

def bucketRules (buckets : List RuleBucket) (tok : Bytes) : List ℕ :=
  ((buckets.find? fun b => b.key == tok).map RuleBucket.rules).getD []

theorem bucketRules_append (buckets : List RuleBucket) (key tok : Bytes) (i : ℕ) :
    bucketRules (ruleBucketAppend buckets key i) tok =
      bucketRules buckets tok ++ if key = tok then [i] else [] := by
  unfold ruleBucketAppend bucketRules
  induction buckets with
  | nil =>
    by_cases h : key = tok
    · simp [h]
    · simp [h]
  | cons b buckets ih =>
    rw [List.findIdx?_cons]
    by_cases hb : b.key = key
    · rw [hb]
      simp only [beq_self_eq_true, if_true, List.modify_zero_cons]
      by_cases h : key = tok
      · simp [h, hb.trans h]
      · simp [h, hb]
    · simp only [beq_eq_false_iff_ne.mpr hb, Bool.false_eq_true, if_false]
      cases hfind : buckets.findIdx? fun b => b.key == key with
      | none =>
        rw [hfind] at ih
        simp only [Option.map_none, List.cons_append, List.find?_cons] at ih ⊢
        by_cases h : b.key = tok
        · have : key ≠ tok := fun heq => hb (h.trans heq.symm)
          simp [h, this]
        · simp only [beq_eq_false_iff_ne.mpr h]
          exact ih
      | some j =>
        rw [hfind] at ih
        simp only [Option.map_some, List.modify_succ_cons, List.find?_cons] at ih ⊢
        by_cases h : b.key = tok
        · have : key ≠ tok := fun heq => hb (h.trans heq.symm)
          simp [h, this]
        · simp only [beq_eq_false_iff_ne.mpr h]
          exact ih

/-- The index of a list of filters. -/
structure IndexOf (filters : List Bytes) (index : List RuleBucket × List ℕ) : Prop where
  buckets : ∀ tok, bucketRules index.1 tok = members filters (some tok)
  global : index.2 = members filters none

theorem IndexOf.indexRule {filters : List Bytes} {index : List RuleBucket × List ℕ}
    (h : IndexOf filters index) (filter : Bytes) :
    IndexOf (filters ++ [filter]) (indexRule index filter filters.length) := by
  have hglobal : bucketOf filter = none →
      IndexOf (filters ++ [filter]) (index.1, index.2 ++ [filters.length]) := by
    intro hnone
    constructor
    · intro tok
      rw [members_append, hnone, if_neg (by simp), List.append_nil]
      exact h.buckets tok
    · rw [members_append, hnone, if_pos rfl]
      exact congrArg (· ++ [filters.length]) h.global
  unfold Patchbay.indexRule
  split
  · rename_i hfirst
    apply hglobal
    rw [bucketOf, hfirst]
    rfl
  · rename_i tok hfirst
    split_ifs with hwild
    · apply hglobal
      rw [bucketOf, hfirst]
      simp [hwild]
    · have hbucket : bucketOf filter = some tok :=
        bucketOf_eq_some.mpr ⟨hfirst, by simpa using hwild⟩
      constructor
      · intro tok'
        rw [members_append, hbucket]
        dsimp only
        rw [bucketRules_append, h.buckets]
        simp only [Option.some.injEq]
      · rw [members_append, hbucket, if_neg (by simp), List.append_nil]
        exact h.global

theorem indexOf_buildRuleIndex (filters : List Bytes) :
    IndexOf filters (buildRuleIndex filters) := by
  unfold buildRuleIndex
  induction filters using List.reverseRecOn with
  | nil => exact ⟨fun tok => rfl, rfl⟩
  | append_singleton filters filter ih =>
    rw [List.zipIdx_append, List.foldl_append]
    simpa using ih.indexRule filter

/-! ## The merge -/

/-- Two lists with nothing in common are merged as usual. -/
theorem mergeRefs_eq {n : ℕ} {bs gs : List ℕ} (hn : bs.length + gs.length ≤ n)
    (hdisjoint : ∀ i ∈ bs, i ∉ gs) : mergeRefs n bs gs = bs.merge gs fun a b => decide (a ≤ b) := by
  induction n generalizing bs gs with
  | zero =>
    have hbs : bs = [] := List.length_eq_zero_iff.mp (by omega)
    rw [hbs, List.nil_merge]
    rfl
  | succ n ih =>
    cases bs with
    | nil =>
      rw [List.nil_merge]
      rfl
    | cons b bs =>
      cases gs with
      | nil =>
        rw [List.merge_right]
        rfl
      | cons g gs =>
        have hne : b ≠ g := by
          rintro rfl
          exact hdisjoint b List.mem_cons_self List.mem_cons_self
        rw [List.length_cons, List.length_cons] at hn
        rw [mergeRefs, List.cons_merge_cons]
        simp only [decide_eq_true_eq]
        by_cases hlt : b < g
        · rw [if_pos hlt, if_pos (Nat.le_of_lt hlt), ih (by rw [List.length_cons]; omega)
            fun i hi => hdisjoint i (List.mem_cons_of_mem b hi)]
        · rw [if_neg hlt, if_neg (by omega), ih (by rw [List.length_cons]; omega)
            fun i hi hg => hdisjoint i hi (List.mem_cons_of_mem g hg)]

/-- The rules of a list that a condition on their filter selects, in source order. -/
def selected (p : Bytes → Bool) (filters : List Bytes) : List ℕ :=
  (filters.zipIdx.filter fun x => p x.1).map Prod.snd

theorem selected_sorted (p : Bytes → Bool) (filters : List Bytes) :
    (selected p filters).Pairwise (· < ·) := by
  have hall : (filters.zipIdx.map Prod.snd).Pairwise (· < ·) := by
    rw [List.zipIdx_map_snd]
    exact List.pairwise_lt_range' (s := 0) (n := filters.length)
  exact hall.sublist ((List.filter_sublist).map Prod.snd)

theorem mem_selected {p : Bytes → Bool} {filters : List Bytes} {i : ℕ} :
    i ∈ selected p filters ↔ ∃ filter, filters[i]? = some filter ∧ p filter = true := by
  simp only [selected, List.mem_map, List.mem_filter, Prod.exists, List.mem_zipIdx_iff_getElem?,
    exists_eq_right]

/-- The bucket and the global list, merged in source order. -/
theorem mergeRefs_members (filters : List Bytes) (tok : Bytes) :
    mergeRefs ((members filters (some tok)).length + (members filters none).length)
        (members filters (some tok)) (members filters none) =
      selected (fun f => bucketOf f == some tok || bucketOf f == none) filters := by
  have hmem : ∀ place i, i ∈ members filters place ↔
      ∃ filter, filters[i]? = some filter ∧ (bucketOf filter == place) = true :=
    fun place i => mem_selected (p := fun f => bucketOf f == place)
  have hsorted : ∀ place, (members filters place).Pairwise (· < ·) :=
    fun place => selected_sorted (fun f => bucketOf f == place) filters
  have hdisjoint : ∀ i ∈ members filters (some tok), i ∉ members filters none := by
    intro i hi hi'
    obtain ⟨f, hf, hsome⟩ := (hmem _ i).mp hi
    obtain ⟨f', hf', hnone⟩ := (hmem _ i).mp hi'
    rw [hf, Option.some.injEq] at hf'
    rw [← hf', beq_iff_eq] at hnone
    rw [hnone] at hsome
    exact absurd hsome (by simp)
  have hperm : (members filters (some tok) ++ members filters none).Perm
      (selected (fun f => bucketOf f == some tok || bucketOf f == none) filters) := by
    rw [List.perm_ext_iff_of_nodup]
    · intro i
      rw [List.mem_append, hmem, hmem, mem_selected]
      constructor
      · rintro (⟨f, hf, h⟩ | ⟨f, hf, h⟩)
        · exact ⟨f, hf, by simp [h]⟩
        · exact ⟨f, hf, by simp [h]⟩
      · rintro ⟨f, hf, h⟩
        rw [Bool.or_eq_true] at h
        rcases h with h | h
        · exact .inl ⟨f, hf, h⟩
        · exact .inr ⟨f, hf, h⟩
    · rw [List.nodup_append]
      refine ⟨(hsorted _).imp Nat.ne_of_lt, (hsorted _).imp Nat.ne_of_lt, ?_⟩
      rintro i hi _ hi' rfl
      exact hdisjoint i hi hi'
    · exact (selected_sorted _ filters).imp Nat.ne_of_lt
  have hweak : ∀ {l : List ℕ}, l.Pairwise (· < ·) → l.Pairwise fun a b => decide (a ≤ b) = true :=
    fun h => h.imp fun hab => decide_eq_true (Nat.le_of_lt hab)
  rw [mergeRefs_eq le_rfl hdisjoint]
  refine @List.Perm.eq_of_pairwise _ (fun a b => decide (a ≤ b) = true) _ _ ?_ ?_
    (hweak (selected_sorted _ filters)) ((List.merge_perm_append _).trans hperm)
  · intro a b _ _ hab hba
    exact Nat.le_antisymm (of_decide_eq_true hab) (of_decide_eq_true hba)
  · refine List.pairwise_merge ?_ ?_ _ _ (hweak (hsorted _)) (hweak (hsorted _))
    · intro a b c hab hbc
      exact decide_eq_true ((of_decide_eq_true hab).trans (of_decide_eq_true hbc))
    · intro a b
      rcases Nat.le_total a b with h | h
      · simp [h]
      · simp [h]

/-- The rules that are looked at for a subject: its bucket and the global list. -/
theorem ruleOrder_eq {p : Program N} {filters : List Bytes}
    (h : IndexOf filters (p.ruleBuckets, p.ruleGlobal)) {subject tok : Bytes}
    (hfirst : firstSubjectToken subject = some tok) :
    ruleOrder p subject =
      selected (fun f => bucketOf f == some tok || bucketOf f == none) filters := by
  have hrefs : ruleRefsForSubject p subject = members filters (some tok) := by
    rw [ruleRefsForSubject, hfirst]
    exact h.buckets tok
  rw [ruleOrder, hrefs, show p.ruleGlobal = members filters none from h.global]
  exact mergeRefs_members filters tok

/-- The same for every subject, also one without a first token. -/
theorem ruleOrder_eq_selected {p : Program N} {filters : List Bytes}
    (h : IndexOf filters (p.ruleBuckets, p.ruleGlobal)) (subject : Bytes) :
    ruleOrder p subject =
      selected (fun f => bucketOf f == firstSubjectToken subject || bucketOf f == none) filters := by
  cases hfirst : firstSubjectToken subject with
  | some tok => exact ruleOrder_eq h hfirst
  | none =>
    have hrefs : ruleRefsForSubject p subject = [] := by rw [ruleRefsForSubject, hfirst]
    have hmerge : ∀ (n : ℕ) (gs : List ℕ), mergeRefs n [] gs = gs := by
      intro n gs
      cases n <;> rfl
    rw [ruleOrder, hrefs, show p.ruleGlobal = members filters none from h.global, hmerge]
    simp only [Bool.or_self]
    rfl

theorem selected_filter (p q : Bytes → Bool) (filters : List Bytes) :
    (selected p filters).filter (fun i => (filters[i]?.map q).getD false) =
      selected (fun f => q f && p f) filters := by
  rw [selected, List.filter_map, List.filter_filter, selected]
  congr 1
  apply List.filter_congr
  rintro ⟨f, i⟩ hmem
  have hget := List.mem_zipIdx_iff_getElem?.mp hmem
  simp [hget]

theorem firstSubjectToken_of_valid {subject : Bytes} (hvalid : subjectValid subject false = true) :
    ∃ tok, firstSubjectToken subject = some tok := by
  obtain ⟨ss, hss⟩ := exists_splitOn_eq_cons dot subject
  have hne := tokens_ne_nil_of_valid hvalid (first dot subject) (by rw [tokens, hss]; simp)
  exact ⟨first dot subject, by rw [firstSubjectToken_eq, if_neg hne]⟩

/-- Among the rules looked at are all that match. -/
theorem ruleOrder_filter {p : Program N} {filters : List Bytes}
    (h : IndexOf filters (p.ruleBuckets, p.ruleGlobal)) {subject : Bytes}
    (hvalid : subjectValid subject false = true) :
    (ruleOrder p subject).filter
        (fun i => (filters[i]?.map fun f => subjectMatches f subject).getD false) =
      selected (fun f => subjectMatches f subject) filters := by
  obtain ⟨tok, hfirst⟩ := firstSubjectToken_of_valid hvalid
  rw [ruleOrder_eq h hfirst, selected_filter]
  congr 1
  funext f
  cases hmatch : subjectMatches f subject with
  | false => rfl
  | true =>
    cases hbucket : bucketOf f with
    | none => simp
    | some tok' =>
      have hsame := bucketOf_of_matches hbucket hvalid hmatch
      rw [hfirst] at hsame
      simp [hsame]

/-! ## The naive scan -/

section Scan

variable [Number N] (env : Env N W) (t : Moment)

/-- The evaluation of one rule. -/
def ruleEval (again : Slice → Slice → MachineM N W Bool) (subject payload : Slice)
    (x : RuleSource N × ℕ) : MachineM N W Bool :=
  succeeds (eval env.fuel (ruleCtx env t again x.2 x.1.reentrant subject payload) x.1.body)

/-- A loop over all rules: those that match the text are evaluated, also after one that
fails. -/
def scanRules (again : Slice → Slice → MachineM N W Bool) (text : Bytes) (subject payload : Slice) :
    List (RuleSource N × ℕ) → MachineM N W Bool
  | [] => pure true
  | x :: xs =>
    if subjectMatches x.1.filter text then do
      let a ← ruleEval env t again subject payload x
      let b ← scanRules again text subject payload xs
      pure (a && b)
    else scanRules again text subject payload xs

/-- What a published message comes to with so many levels left. -/
def reentry : ℕ → Slice → Slice → MachineM N W Bool
  | 0 => fun _ _ => pure true
  | left + 1 => evalPublishSlices env t left

/-- Whether the filter of a rule matches a text. -/
def Program.ruleMatches {N : Type} (p : Program N) (text : Bytes) (i : ℕ) : Bool :=
  (p.rules[i]?.map fun r => subjectMatches r.filter text).getD false

/-- The rules that a loop evaluates, each with the message as it is read then. -/
def evaluatedRules (again : Slice → Slice → MachineM N W Bool) (subject payload : Slice) :
    List ℕ → Machine N W → List (ℕ × Bytes × Bytes)
  | [], _ => []
  | i :: is, m =>
    let rest := ((evalRuleForPublish env t again subject payload i m).map fun x =>
      evaluatedRules again subject payload is x.2).getD []
    if m.program.ruleMatches (m.read env.rewritten subject) i then
      (i, m.read env.rewritten subject, m.read env.rewritten payload) :: rest
    else rest

/-- A property of the next rule and of the machine that holds whenever the loop over
the rules comes to one. -/
def WheneverReached (P : ℕ → Machine N W → Prop) (again : Slice → Slice → MachineM N W Bool)
    (subject payload : Slice) : List ℕ → Machine N W → Prop
  | [], _ => True
  | i :: is, m => P i m ∧
      ∀ ok m', evalRuleForPublish env t again subject payload i m = some (ok, m') →
        WheneverReached P again subject payload is m'

variable {env t} {rules : List (RuleSource N)} {usesClock : Bool}
  {again : Slice → Slice → MachineM N W Bool} {subject payload : Slice}

theorem wheneverReached_of_forall {P : ℕ → Machine N W → Prop} (h : ∀ i m, P i m) (is : List ℕ)
    (m : Machine N W) : WheneverReached env t P again subject payload is m := by
  induction is generalizing m with
  | nil => trivial
  | cons i is ih => exact ⟨h i m, fun _ m' _ => ih m'⟩

omit [Number N] in
/-- No rule is looked at twice. -/
theorem nodup_ruleOrder (rules : List (RuleSource N)) (usesClock : Bool) (text : Bytes) :
    (Patchbay.ruleOrder (loadProgram rules usesClock) text).Nodup := by
  rw [ruleOrder_eq_selected (p := loadProgram rules usesClock)
    (indexOf_buildRuleIndex (rules.map RuleSource.filter))]
  exact (selected_sorted _ _).imp Nat.ne_of_lt

omit [Number N] in
theorem SameSource.rule {m : Machine N W} (h : SameSource m.program (loadProgram rules usesClock))
    {i : ℕ} {src : RuleSource N} (hi : rules[i]? = some src) :
    ∃ r, m.program.rules[i]? = some r ∧ r.filter = src.filter ∧ r.body = src.body ∧
      r.reentrant = src.reentrant := by
  have hrule := h.getElem? i
  have hload : (loadProgram rules usesClock).rules[i]? = some src.load := by
    rw [loadProgram, List.getElem?_map, hi]
    rfl
  rw [hload] at hrule
  generalize m.program.rules[i]? = x at hrule ⊢
  cases hrule with
  | @some r _ hfilter hbody hreentrant => exact ⟨r, rfl, hfilter, hbody, hreentrant⟩

theorem evalRuleForPublish_eq {m : Machine N W}
    (h : SameSource m.program (loadProgram rules usesClock)) {i : ℕ} {src : RuleSource N}
    (hi : rules[i]? = some src) :
    evalRuleForPublish env t again subject payload i m =
      if subjectMatches src.filter (m.read env.rewritten subject) then
        ruleEval env t again subject payload (src, i) m
      else some (true, m) := by
  obtain ⟨r, hr, hfilter, hbody, hreentrant⟩ := h.rule hi
  rw [evalRuleForPublish_some hr, hfilter, hbody, hreentrant]
  rfl

theorem evalRules_cons (again : Slice → Slice → MachineM N W Bool)
    (subject payload : Slice) (i : ℕ) (is : List ℕ) (m : Machine N W) :
    evalRules env t again subject payload (i :: is) m =
      (evalRuleForPublish env t again subject payload i m).bind fun x =>
        (evalRules env t again subject payload is x.2).bind fun y => some (x.1 && y.1, y.2) := rfl

/-- Evaluations keep the source of the program. -/
theorem sameSource_evalRule
    (ha : AgainOk (Running (loadProgram rules usesClock)) again)
    {m m' : Machine N W} (h : SameSource m.program (loadProgram rules usesClock)) {i : ℕ} {ok : Bool}
    (hrun : evalRuleForPublish env t again subject payload i m = some (ok, m')) :
    SameSource m'.program (loadProgram rules usesClock) := by
  have hR := compatible_running env (loadProgram rules usesClock)
  exact Respects.invariant (I := fun m => SameSource m.program (loadProgram rules usesClock))
    (respects_evalRuleForPublish hR.toEvalCompatible t hR.source ha (fun _ => trivial)
      (fun h => h.1 ▸ rfl) fun h => h.1 ▸ rfl) h hrun

omit [Number N] in
theorem SameSource.ruleMatches_eq {p q : Program N} (h : SameSource p q) (text : Bytes) (i : ℕ) :
    p.ruleMatches text i = q.ruleMatches text i := by
  have hrule := h.getElem? i
  unfold Program.ruleMatches
  generalize p.rules[i]? = x at hrule ⊢
  generalize q.rules[i]? = y at hrule ⊢
  cases hrule with
  | none => rfl
  | some hfilter hbody hreentrant => simp [hfilter]

/-- The rules that match a text. -/
def matching (rules : List (RuleSource N)) (text : Bytes) (i : ℕ) : Bool :=
  (rules[i]?.map fun src => subjectMatches src.filter text).getD false

omit [Number N] in
theorem ruleMatches_loadProgram (text : Bytes) (i : ℕ) :
    (loadProgram rules usesClock).ruleMatches text i = matching rules text i := by
  simp only [Program.ruleMatches, loadProgram, List.getElem?_map, Option.map_map, matching]
  rfl

omit [Number N] in
theorem SameSource.matching {m : Machine N W}
    (h : SameSource m.program (loadProgram rules usesClock)) (text : Bytes) (i : ℕ) :
    m.program.ruleMatches text i = matching rules text i :=
  (h.ruleMatches_eq text i).trans (ruleMatches_loadProgram text i)

theorem evalRuleForPublish_of_not_matches {i : ℕ} {m : Machine N W}
    (h : ¬m.program.ruleMatches (m.read env.rewritten subject) i = true) :
    evalRuleForPublish env t again subject payload i m = some (true, m) := by
  cases hrule : m.program.rules[i]? with
  | none => exact evalRuleForPublish_none hrule
  | some rule =>
    rw [Program.ruleMatches, hrule] at h
    rw [evalRuleForPublish_some hrule]
    exact if_neg h

/-! ## The rules that are evaluated -/

theorem evaluatedRules_cons (again : Slice → Slice → MachineM N W Bool) (subject payload : Slice)
    (i : ℕ) (is : List ℕ) {m m' : Machine N W} {ok : Bool}
    (hrun : evalRuleForPublish env t again subject payload i m = some (ok, m')) :
    evaluatedRules env t again subject payload (i :: is) m =
      if m.program.ruleMatches (m.read env.rewritten subject) i then
        (i, m.read env.rewritten subject, m.read env.rewritten payload) ::
          evaluatedRules env t again subject payload is m'
      else evaluatedRules env t again subject payload is m' := by
  rw [evaluatedRules, hrun]
  rfl

theorem fst_mem_of_evaluatedRules {is : List ℕ} {m : Machine N W} {x : ℕ × Bytes × Bytes}
    (h : x ∈ evaluatedRules env t again subject payload is m) : x.1 ∈ is := by
  induction is generalizing m with
  | nil => cases h
  | cons i is ih =>
    have hrest : x ∈ ((evalRuleForPublish env t again subject payload i m).map fun x =>
        evaluatedRules env t again subject payload is x.2).getD [] → x.1 ∈ i :: is := by
      intro hmem
      cases hrun : evalRuleForPublish env t again subject payload i m with
      | none =>
        rw [hrun] at hmem
        cases hmem
      | some y =>
        rw [hrun] at hmem
        exact List.mem_cons_of_mem i (ih hmem)
    rw [evaluatedRules] at h
    split_ifs at h with hmatch
    · rcases List.mem_cons.mp h with rfl | hmem
      · exact List.mem_cons_self
      · exact hrest hmem
    · exact hrest h

omit [Number N] in
/-- Two lists that go on without an element agree when they begin alike. -/
theorem ite_cons_eq_iff {α : Type} {a b : Bool} {x y : α} {xs ys : List α} (hx : x ∉ ys)
    (hy : y ∉ xs) :
    ((if a then x :: xs else xs) = if b then y :: ys else ys) ↔
      (a = b ∧ (b = true → x = y)) ∧ xs = ys := by
  cases a <;> cases b
  · simp
  · simp only [Bool.false_eq_true, if_false, if_true, false_and, iff_false]
    rintro rfl
    exact hy List.mem_cons_self
  · simp only [Bool.false_eq_true, if_false, if_true, false_and, iff_false, reduceCtorEq]
    rintro rfl
    exact hx List.mem_cons_self
  · simp

/-- A rule matches what the subject reads as it matches a text. -/
def MatchedAlike (env : Env N W) (rules : List (RuleSource N)) (subject : Slice) (text : Bytes)
    (i : ℕ) (m : Machine N W) : Prop :=
  matching rules (m.read env.rewritten subject) i = matching rules text i

/-- The rules that are evaluated are those that match a text exactly when each rule that
the loop comes to matches what is read as it matches the text. -/
theorem evaluatedRules_iff (ha : AgainOk (Running (loadProgram rules usesClock)) again)
    (text : Bytes) {is : List ℕ} (hnodup : is.Nodup) {m : Machine N W} {r : Bool × Machine N W}
    (h : SameSource m.program (loadProgram rules usesClock))
    (hrun : evalRules env t again subject payload is m = some r) :
    (evaluatedRules env t again subject payload is m).map Prod.fst =
        is.filter (matching rules text) ↔
      WheneverReached env t (MatchedAlike env rules subject text) again subject payload is m := by
  induction is generalizing m r with
  | nil => simp [evaluatedRules, WheneverReached]
  | cons i is ih =>
    rw [evalRules_cons] at hrun
    obtain ⟨⟨ok, m'⟩, hrule, hrest⟩ := Option.bind_eq_some_iff.mp hrun
    obtain ⟨⟨ok', m''⟩, hloop, -⟩ := Option.bind_eq_some_iff.mp hrest
    have hafter := sameSource_evalRule ha h hrule
    obtain ⟨hnotMem, hnodup⟩ := List.nodup_cons.mp hnodup
    have hreached : WheneverReached env t (MatchedAlike env rules subject text) again subject payload
          (i :: is) m ↔
        MatchedAlike env rules subject text i m ∧
          (evaluatedRules env t again subject payload is m').map Prod.fst =
            is.filter (matching rules text) := by
      rw [ih hnodup hafter hloop]
      refine and_congr_right fun _ => ⟨fun hall => hall ok m' hrule, fun hm ok₁ m₁ hrun₁ => ?_⟩
      cases hrule.symm.trans hrun₁
      exact hm
    have hevaluated : (evaluatedRules env t again subject payload (i :: is) m).map Prod.fst =
        if matching rules (m.read env.rewritten subject) i then
          i :: (evaluatedRules env t again subject payload is m').map Prod.fst
        else (evaluatedRules env t again subject payload is m').map Prod.fst := by
      rw [evaluatedRules_cons again subject payload i is hrule, h.matching]
      split_ifs <;> rfl
    rw [hreached, hevaluated, List.filter_cons, ite_cons_eq_iff]
    · exact and_congr_left fun _ => and_iff_left fun _ => rfl
    · exact fun hmem => hnotMem (List.mem_of_mem_filter hmem)
    · intro hmem
      obtain ⟨x, hx, hfst⟩ := List.mem_map.mp hmem
      exact hnotMem (hfst ▸ fst_mem_of_evaluatedRules hx)

/-! ## The loop as a scan -/

section Steady

variable {text : Bytes} (ha : AgainOk (Running (loadProgram rules usesClock)) again)

include ha

/-- The rules that do not match may be left out, as long as what the subject reads is
matched alike. -/
theorem evalRules_filter {is : List ℕ} (his : ∀ i ∈ is, i < rules.length) {m : Machine N W}
    (h : SameSource m.program (loadProgram rules usesClock))
    (hsteady : WheneverReached env t (MatchedAlike env rules subject text) again subject
      payload is m) :
    evalRules env t again subject payload is m =
        evalRules env t again subject payload (is.filter (matching rules text)) m ∧
      WheneverReached env t (MatchedAlike env rules subject text) again subject payload
        (is.filter (matching rules text)) m := by
  induction is generalizing m with
  | nil => exact ⟨rfl, trivial⟩
  | cons i is ih =>
    obtain ⟨src, hi⟩ : ∃ src, rules[i]? = some src :=
      ⟨_, List.getElem?_eq_getElem (his i List.mem_cons_self)⟩
    obtain ⟨halike, hafter⟩ := hsteady
    have hrest := fun (m' : Machine N W) => ih (m := m') fun j hj => his j (List.mem_cons_of_mem i hj)
    have hread : subjectMatches src.filter (m.read env.rewritten subject) = matching rules text i := by
      rw [← halike, matching, hi]
      rfl
    rw [evalRules_cons, List.filter_cons]
    by_cases hmatch : matching rules text i = true
    · rw [if_pos hmatch, evalRules_cons]
      refine ⟨?_, halike, fun ok m' hrun => (hrest m' (sameSource_evalRule ha h hrun)
        (hafter ok m' hrun)).2⟩
      cases hrun : evalRuleForPublish env t again subject payload i m with
      | none => rfl
      | some x =>
        obtain ⟨ok, m'⟩ := x
        rw [Option.bind_some, Option.bind_some,
          (hrest m' (sameSource_evalRule ha h hrun) (hafter ok m' hrun)).1]
    · have hskip : evalRuleForPublish env t again subject payload i m = some (true, m) := by
        rw [evalRuleForPublish_eq h hi, hread, if_neg hmatch]
      obtain ⟨heq, hlater⟩ := hrest m h (hafter true m hskip)
      rw [if_neg hmatch, hskip, ← heq, Option.bind_some]
      refine ⟨?_, hlater⟩
      cases evalRules env t again subject payload is m with
      | none => rfl
      | some x => rfl

theorem evalRules_eq_scan {xs : List (RuleSource N × ℕ)} (hxs : ∀ x ∈ xs, rules[x.2]? = some x.1)
    {m : Machine N W} (h : SameSource m.program (loadProgram rules usesClock))
    (hsteady : WheneverReached env t (MatchedAlike env rules subject text) again subject
      payload ((xs.filter fun x => subjectMatches x.1.filter text).map Prod.snd) m) :
    evalRules env t again subject payload
        ((xs.filter fun x => subjectMatches x.1.filter text).map Prod.snd) m =
      scanRules env t again text subject payload xs m := by
  induction xs generalizing m with
  | nil => rfl
  | cons x xs ih =>
    have hx := hxs x List.mem_cons_self
    have hrest := fun (m' : Machine N W) => ih (m := m') fun y hy => hxs y (List.mem_cons_of_mem x hy)
    rw [List.filter_cons] at hsteady ⊢
    rw [scanRules]
    by_cases hmatch : subjectMatches x.1.filter text = true
    · rw [if_pos hmatch, List.map_cons] at hsteady
      rw [if_pos hmatch, if_pos hmatch, List.map_cons, evalRules_cons]
      obtain ⟨halike, hafter⟩ := hsteady
      have hread : subjectMatches x.1.filter (m.read env.rewritten subject) =
          subjectMatches x.1.filter text := by
        have hboth : matching rules (m.read env.rewritten subject) x.2 = matching rules text x.2 :=
          halike
        rwa [matching, matching, hx] at hboth
      have hstep : evalRuleForPublish env t again subject payload x.2 m =
          ruleEval env t again subject payload x m := by
        rw [evalRuleForPublish_eq h hx, hread, if_pos hmatch]
      have hscan : (do
          let a ← ruleEval env t again subject payload x
          let b ← scanRules env t again text subject payload xs
          pure (a && b) : MachineM N W Bool) m =
        (ruleEval env t again subject payload x m).bind fun y =>
          (scanRules env t again text subject payload xs y.2).bind fun z =>
            some (y.1 && z.1, z.2) := rfl
      rw [hscan, hstep]
      cases hrun : ruleEval env t again subject payload x m with
      | none => rfl
      | some y =>
        obtain ⟨ok, m'⟩ := y
        rw [hrun] at hstep
        rw [Option.bind_some, Option.bind_some,
          hrest m' (sameSource_evalRule ha h hstep) (hafter ok m' hstep)]
    · rw [if_neg hmatch] at hsteady
      rw [if_neg hmatch, if_neg hmatch]
      exact hrest m h hsteady

end Steady

theorem respects_reentry (env : Env N W) (t : Moment) (rules : List (RuleSource N))
    (usesClock : Bool) (left : ℕ) :
    AgainOk (Running (loadProgram rules usesClock)) (reentry env t left) := by
  have hR := compatible_running env (loadProgram rules usesClock)
  cases left with
  | zero => exact fun _ _ _ _ => .pure true
  | succ left =>
    exact respects_evalPublishSlices hR.toEvalCompatible t hR.source (fun _ _ => trivial) left

theorem evalRulesFor_eq_scan
    (ha : AgainOk (Running (loadProgram rules usesClock)) again) {m : Machine N W}
    {text : Bytes} (htext : m.read env.rewritten subject = text)
    (hvalid : subjectValid text false = true)
    (h : SameSource m.program (loadProgram rules usesClock))
    (hsteady : WheneverReached env t (MatchedAlike env rules subject text) again subject payload
      (ruleOrder m.program text) m) :
    evalRulesFor env t again subject payload m =
      scanRules env t again text subject payload rules.zipIdx m := by
  have hindex : IndexOf (rules.map RuleSource.filter) (m.program.ruleBuckets, m.program.ruleGlobal) := by
    rw [h.buckets, h.global]
    exact indexOf_buildRuleIndex (rules.map RuleSource.filter)
  have hunfold : evalRulesFor env t again subject payload m =
      evalRules env t again subject payload (ruleOrder m.program text) m := by
    rw [← htext]
    rfl
  have hbound : ∀ i ∈ ruleOrder m.program text, i < rules.length := by
    obtain ⟨tok, hfirst⟩ := firstSubjectToken_of_valid hvalid
    intro i hi
    rw [ruleOrder_eq hindex hfirst, mem_selected] at hi
    obtain ⟨f, hf, -⟩ := hi
    have := (List.getElem?_eq_some_iff.mp hf).1
    rwa [List.length_map] at this
  have hfilter := ruleOrder_filter hindex hvalid
  simp only [List.getElem?_map, Option.map_map] at hfilter
  obtain ⟨heq, hlater⟩ := evalRules_filter ha hbound h hsteady
  have hselected : (ruleOrder m.program text).filter (matching rules text) =
        (rules.zipIdx.filter fun x => subjectMatches x.1.filter text).map Prod.snd := by
    refine hfilter.trans ?_
    rw [selected, List.zipIdx_map, List.filter_map, List.map_map]
    rfl
  rw [hselected] at heq hlater
  rw [hunfold, heq]
  exact evalRules_eq_scan ha (fun x hx => List.mem_zipIdx_iff_getElem?.mp hx) h hlater

end Scan

/-- Rules whose filters are a literal, a wildcard, empty, and malformed in the
middle. -/
def mixedRules : List (RuleSource ℤ) :=
  [lit "b", lit "*.x", [], lit "a.>", lit "a..x", lit "a.>.x", lit "a.x"].map fun f => ⟨f, .nil, false⟩

/-- A clock that is re-armed with another subject when its message comes back to it. -/
def rearmingRules : List (RuleSource ℤ) :=
  [⟨lit "a", .list [.symbol (lit "debounce!"), .keyword (lit "ms"), .number 10,
      .list [.symbol (lit "if"), .list [.symbol (lit "="), .symbol (lit "payload"), .string (lit "1")],
        .string (lit "a"), .string (lit "b")],
      .string (lit "2")], true⟩,
    ⟨lit "a", .list [.symbol (lit "publish!"), .string (lit "seen"), .symbol (lit "payload")], false⟩]

/-- A router that keeps a journal. -/
def rearmingEnv : Env ℤ (List (Bytes × Bytes)) :=
  ⟨fun _ => true, fun _ => none, writtenOver, payloadDrawn, fun w s p => (w ++ [(s, p)], true), 20⟩

/-- What the tick of that clock hands on, in the buffers of its slot. -/
def rearmingSlice (buffer : SlotBuffer) (text : Bytes) : Slice :=
  .lent ⟨⟨0, lit "debounce", lit "a"⟩, buffer, text, text⟩

/-- The machine as the tick of the clock has published its message and evaluates it. -/
def rearmingEmission (m : Machine ℤ (List (Bytes × Bytes))) : Machine ℤ (List (Bytes × Bytes)) :=
  let entry := (tickClock rearmingEnv.alloc 10 (slotAt (m.ruleState 0) 0)).entry
  countEmitted 0 (routed rearmingEnv (rearmingSlice .emitSubject (lit "a"))
    (rearmingSlice .bytes (lit "2")) (m.setState 0 (setSlot (m.ruleState 0) 0 entry)))

end Monoblok.Patchbay
