import Monoblok.Patchbay.Exact
import Monoblok.Source.Lowering

/-!
# The maps of a rule

Which trees the lowering accepts, as a grammar, and the shape the rules of a source are
documented to have. A key is looked up, and whatever else is in the map is not looked at, so
an accepted rule has the documented keys but may have others beside them.
-/

namespace Monoblok.Patchbay.Yaml

variable {N : Type}

/-! ## What is found in a map -/

theorem isSome_lowerExprs (ns : List (Node N)) :
    (lowerExprs ns).isSome ↔ ∀ n ∈ ns, (lowerExpr n).isSome := by
  induction ns with
  | nil => simp [lowerExprs]
  | cons n ns ih =>
    rw [lowerExprs, List.forall_mem_cons, ← ih]
    cases lowerExpr n <;> simp

theorem isSome_lowerConfigs (ns : List (Node N)) :
    (lowerConfigs ns).isSome ↔ ∀ n ∈ ns, (lowerConfig n).isSome := by
  induction ns with
  | nil => simp [lowerConfigs]
  | cons n ns ih =>
    rw [lowerConfigs, List.forall_mem_cons, ← ih]
    cases lowerConfig n <;> simp

theorem isSome_lowerConfigPairs (pairs : List (Bytes × Node N)) :
    (lowerConfigPairs pairs).isSome ↔ ∀ p ∈ pairs, (lowerConfig p.2).isSome := by
  induction pairs with
  | nil => simp [lowerConfigPairs]
  | cons p pairs ih =>
    rw [lowerConfigPairs, List.forall_mem_cons, ← ih]
    cases lowerConfig p.2 <;> simp

/-! ## The grammar -/

/-- What a tree is lowered as. -/
inductive Kind where
  | expr
  | thread
  | when
  | do
  | config

/-- The keys of a body. -/
def bodyKeys : List String := ["thread", "when", "do", "form", "body"]

/-- The body of a map: the first of these keys that it has, and only that one. -/
def bodyOf (pairs : List (Bytes × Node N)) : Option (Kind × Node N) :=
  ((mapFind "thread" pairs).map (Kind.thread, ·)).or <|
    ((mapFind "when" pairs).map (Kind.when, ·)).or <|
      ((mapFind "do" pairs).map (Kind.do, ·)).or <|
        ((mapFind "form" pairs).map (Kind.expr, ·)).or
          ((mapFind "body" pairs).map (Kind.expr, ·))

/-- The trees of a kind. Every premise is about a part that is read. -/
inductive WellFormed : Kind → Node N → Prop
  | scalar (o : ℕ) (v : Scalar N) : WellFormed .expr (.scalar o v)
  | call {o o' : ℕ} {head : Bytes} {args : List (Node N)} (h : ∀ a ∈ args, WellFormed .expr a) :
      WellFormed .expr (.list o (.scalar o' (.text head) :: args))
  | body {o : ℕ} {pairs : List (Bytes × Node N)} {kind : Kind} {v : Node N}
      (hbody : bodyOf pairs = some (kind, v)) (h : WellFormed kind v) :
      WellFormed .expr (.map o pairs)
  | thread {o : ℕ} {items : List (Node N)} (hne : items ≠ [])
      (h : ∀ a ∈ items, WellFormed .expr a) : WellFormed .thread (.list o items)
  | threadMap {o o' : ℕ} {pairs : List (Bytes × Node N)} {start : Node N} {steps : List (Node N)}
      (hstart : mapFind "from" pairs = some start)
      (hsteps : mapFind "steps" pairs = some (.list o' steps)) (h : WellFormed .expr start)
      (h' : ∀ a ∈ steps, WellFormed .expr a) : WellFormed .thread (.map o pairs)
  | when {o : ℕ} {pairs : List (Bytes × Node N)} {test body : Node N}
      (htest : mapFind "test" pairs = some test) (hbody : mapFind "then" pairs = some body)
      (h : WellFormed .expr test) (h' : WellFormed .expr body) : WellFormed .when (.map o pairs)
  | do {o : ℕ} {items : List (Node N)} (h : ∀ a ∈ items, WellFormed .expr a) :
      WellFormed .do (.list o items)
  | configScalar (o : ℕ) (v : Scalar N) : WellFormed .config (.scalar o v)
  | configList {o : ℕ} {items : List (Node N)} (h : ∀ a ∈ items, WellFormed .config a) :
      WellFormed .config (.list o items)
  | env {o o' : ℕ} {name : Bytes} (hname : name ≠ []) :
      WellFormed .config (.map o [(lit "env", .scalar o' (.text name))])
  | configMap {o : ℕ} {pairs : List (Bytes × Node N)} (hplain : ∀ v, pairs ≠ [(lit "env", v)])
      (h : ∀ p ∈ pairs, WellFormed .config p.2) : WellFormed .config (.map o pairs)

/-- The lowering of a kind accepts the tree. -/
def lowers : Kind → Node N → Prop
  | .expr, n => (lowerExpr n).isSome
  | .thread, n => (lowerThread n).isSome
  | .when, n => (lowerWhen n).isSome
  | .do, n => (lowerDo n).isSome
  | .config, n => (lowerConfig n).isSome

/-- A map is lowered as its body is. -/
theorem lowers_body (o : ℕ) (pairs : List (Bytes × Node N)) :
    lowers .expr (.map o pairs) ↔ ∃ kind v, bodyOf pairs = some (kind, v) ∧ lowers kind v := by
  change (lowerExpr (.map o pairs)).isSome ↔ _
  rw [lowerExpr, lowerThreadAt_eq, lowerWhenAt_eq, lowerDoAt_eq, lowerExprAt_eq, lowerExprAt_eq,
    bodyOf]
  cases mapFind "thread" pairs with
  | some v => simp [lowers]
  | none =>
    cases mapFind "when" pairs with
    | some v => simp [lowers]
    | none =>
      cases mapFind "do" pairs with
      | some v => simp [lowers]
      | none =>
        cases mapFind "form" pairs with
        | some v => simp [lowers]
        | none =>
          cases mapFind "body" pairs with
          | some v => simp [lowers]
          | none => simp

theorem lowers_call (o : ℕ) (items : List (Node N)) :
    lowers .expr (.list o items) ↔ ∃ o' head args, items = .scalar o' (.text head) :: args ∧
      ∀ a ∈ args, lowers .expr a := by
  change (lowerExpr (.list o items)).isSome ↔ _
  rw [lowerExpr]
  constructor
  · intro h
    unfold lowerCall at h
    split at h
    · rename_i o' head args
      rw [Option.isSome_map] at h
      exact ⟨o', head, args, rfl, (isSome_lowerExprs args).mp h⟩
    · cases h
  · rintro ⟨o', head, args, rfl, hargs⟩
    rw [lowerCall, Option.isSome_map]
    exact (isSome_lowerExprs args).mpr hargs

theorem lowers_threadList (o : ℕ) (items : List (Node N)) :
    lowers .thread (.list o items) ↔ items ≠ [] ∧ ∀ a ∈ items, lowers .expr a := by
  cases items with
  | nil => simp [lowers, lowerThread]
  | cons start steps =>
    have hsteps := isSome_lowerExprs steps
    change (lowerThread (.list o (start :: steps))).isSome ↔ _
    rw [lowerThread, List.forall_mem_cons]
    cases hstart : lowerExpr start with
    | none => simp [lowers, hstart]
    | some seed => simpa [lowers, hstart] using hsteps

theorem lowers_threadMap (o : ℕ) (pairs : List (Bytes × Node N)) :
    lowers .thread (.map o pairs) ↔ ∃ start o' steps, mapFind "from" pairs = some start ∧
      mapFind "steps" pairs = some (.list o' steps) ∧ lowers .expr start ∧
        ∀ a ∈ steps, lowers .expr a := by
  change (lowerThread (.map o pairs)).isSome ↔ _
  rw [lowerThread, lowerExprAt_eq, lowerStepsAt_eq]
  cases hfrom : mapFind "from" pairs with
  | none => simp
  | some start =>
    cases hfind : mapFind "steps" pairs with
    | none => simp
    | some n =>
      cases n with
      | scalar o' v => cases hstart : lowerExpr start <;> simp [lowerSteps, hstart]
      | map o' inner => cases hstart : lowerExpr start <;> simp [lowerSteps, hstart]
      | list o' steps =>
        have hsteps := isSome_lowerExprs steps
        cases hstart : lowerExpr start with
        | none => simp [lowers, hstart]
        | some seed => simpa [lowers, lowerSteps, hstart] using hsteps

theorem lowers_when (o : ℕ) (pairs : List (Bytes × Node N)) :
    lowers .when (.map o pairs) ↔ ∃ test body, mapFind "test" pairs = some test ∧
      mapFind "then" pairs = some body ∧ lowers .expr test ∧ lowers .expr body := by
  change (lowerWhen (.map o pairs)).isSome ↔ _
  rw [lowerWhen, lowerExprAt_eq, lowerExprAt_eq]
  cases mapFind "test" pairs with
  | none => simp
  | some test =>
    cases mapFind "then" pairs with
    | none => simp
    | some body =>
      cases htest : lowerExpr test with
      | none => simp [lowers, htest]
      | some t => simp [lowers, htest]

theorem lowers_do (o : ℕ) (items : List (Node N)) :
    lowers .do (.list o items) ↔ ∀ a ∈ items, lowers .expr a := by
  change (lowerDo (.list o items)).isSome ↔ _
  rw [lowerDo, Option.isSome_map]
  exact isSome_lowerExprs items

theorem lowers_configList (o : ℕ) (items : List (Node N)) :
    lowers .config (.list o items) ↔ ∀ a ∈ items, lowers .config a := by
  change (lowerConfig (.list o items)).isSome ↔ _
  rw [lowerConfig, Option.isSome_map]
  exact isSome_lowerConfigs items

theorem lowers_env (o : ℕ) (v : Node N) :
    lowers .config (.map o [(lit "env", v)]) ↔ ∃ o' name, v = .scalar o' (.text name) ∧ name ≠ [] := by
  change (lowerConfig (.map o [(lit "env", v)])).isSome ↔ _
  rw [lowerConfig, if_pos rfl]
  unfold lowerEnv
  split
  · rename_i o' name
    cases name <;> simp
  · rename_i hother
    constructor
    · intro h
      cases h
    · rintro ⟨o', name, rfl, -⟩
      exact (hother o' name rfl).elim

theorem lowers_configMap (o : ℕ) {pairs : List (Bytes × Node N)}
    (hplain : ∀ v, pairs ≠ [(lit "env", v)]) :
    lowers .config (.map o pairs) ↔ ∀ p ∈ pairs, lowers .config p.2 := by
  change (lowerConfig (.map o pairs)).isSome ↔ _
  rcases pairs with _ | ⟨⟨key, v⟩, _ | ⟨q, rest⟩⟩
  · simp [lowerConfig, lowerConfigPairs]
  · have hkey : key ≠ lit "env" := by
      rintro rfl
      exact hplain v rfl
    rw [lowerConfig, if_neg hkey, Option.isSome_map, List.forall_mem_singleton]
    rfl
  · rw [lowerConfig, Option.isSome_map]
    · exact isSome_lowerConfigPairs _
    · simp

/-! ### The lowering accepts the grammar -/

theorem lowers_of_wellFormed {kind : Kind} {n : Node N} (h : WellFormed kind n) : lowers kind n := by
  induction h with
  | scalar o v => exact rfl
  | call _ ih => exact (lowers_call _ _).mpr ⟨_, _, _, rfl, ih⟩
  | body hbody _ ih => exact (lowers_body _ _).mpr ⟨_, _, hbody, ih⟩
  | thread hne _ ih => exact (lowers_threadList _ _).mpr ⟨hne, ih⟩
  | threadMap hstart hsteps _ _ ih ih' =>
    exact (lowers_threadMap _ _).mpr ⟨_, _, _, hstart, hsteps, ih, ih'⟩
  | when htest hbody _ _ ih ih' => exact (lowers_when _ _).mpr ⟨_, _, htest, hbody, ih, ih'⟩
  | «do» _ ih => exact (lowers_do _ _).mpr ih
  | configScalar o v => exact rfl
  | configList _ ih => exact (lowers_configList _ _).mpr ih
  | env hname => exact (lowers_env _ _).mpr ⟨_, _, rfl, hname⟩
  | configMap hplain _ ih => exact (lowers_configMap _ hplain).mpr ih

theorem sizeOf_lt_list {o : ℕ} {items : List (Node N)} {a : Node N} (h : a ∈ items) :
    sizeOf a < sizeOf (Node.list o items) := by
  have hmem := List.sizeOf_lt_of_mem h
  rw [Node.list.sizeOf_spec]
  omega

theorem sizeOf_lt_map {o : ℕ} {pairs : List (Bytes × Node N)} {key : Bytes} {v : Node N}
    (h : (key, v) ∈ pairs) : sizeOf v < sizeOf (Node.map o pairs) := by
  have hmem := List.sizeOf_lt_of_mem h
  rw [Prod.mk.sizeOf_spec] at hmem
  rw [Node.map.sizeOf_spec]
  omega

theorem bodyOf_mem {pairs : List (Bytes × Node N)} {kind : Kind} {v : Node N}
    (h : bodyOf pairs = some (kind, v)) :
    ∃ key ∈ bodyKeys, (lit key, v) ∈ pairs := by
  simp only [bodyOf, Option.or_eq_some_iff, Option.map_eq_some_iff, Prod.mk.injEq] at h
  rcases h with ⟨_, hfind, -, rfl⟩ | ⟨-, ⟨_, hfind, -, rfl⟩ | ⟨-, ⟨_, hfind, -, rfl⟩ |
    ⟨-, ⟨_, hfind, -, rfl⟩ | ⟨-, _, hfind, -, rfl⟩⟩⟩⟩
  · exact ⟨"thread", by decide, mapFind_some hfind⟩
  · exact ⟨"when", by decide, mapFind_some hfind⟩
  · exact ⟨"do", by decide, mapFind_some hfind⟩
  · exact ⟨"form", by decide, mapFind_some hfind⟩
  · exact ⟨"body", by decide, mapFind_some hfind⟩

theorem wellFormed_of_lowers {kind : Kind} {n : Node N} (h : lowers kind n) :
    WellFormed kind n := by
  induction hsize : sizeOf n using Nat.strong_induction_on generalizing kind n with
  | _ size below =>
    subst hsize
    cases n with
    | scalar o v =>
      cases kind with
      | expr => exact .scalar o v
      | config => exact .configScalar o v
      | thread => simp [lowers, lowerThread] at h
      | when => simp [lowers, lowerWhen] at h
      | «do» => simp [lowers, lowerDo] at h
    | list o items =>
      have hbelow : ∀ kind', (∀ a ∈ items, lowers kind' a) → ∀ a ∈ items, WellFormed kind' a :=
        fun kind' hitems a ha => below _ (sizeOf_lt_list ha) (hitems a ha) rfl
      cases kind with
      | expr =>
        obtain ⟨o', head, args, rfl, hargs⟩ := (lowers_call o items).mp h
        exact .call fun a ha => below _ (sizeOf_lt_list (List.mem_cons_of_mem _ ha)) (hargs a ha) rfl
      | config => exact .configList (hbelow .config ((lowers_configList o items).mp h))
      | thread =>
        obtain ⟨hne, hitems⟩ := (lowers_threadList o items).mp h
        exact .thread hne (hbelow .expr hitems)
      | when => simp [lowers, lowerWhen] at h
      | «do» => exact .do (hbelow .expr ((lowers_do o items).mp h))
    | map o pairs =>
      cases kind with
      | expr =>
        obtain ⟨kind, v, hbody, hv⟩ := (lowers_body o pairs).mp h
        obtain ⟨key, -, hmem⟩ := bodyOf_mem hbody
        exact .body hbody (below _ (sizeOf_lt_map hmem) hv rfl)
      | config =>
        by_cases hplain : ∀ v, pairs ≠ [(lit "env", v)]
        · have hpairs := (lowers_configMap o hplain).mp h
          exact .configMap hplain fun p hp => below _ (sizeOf_lt_map hp) (hpairs p hp) rfl
        · obtain ⟨v, rfl⟩ := not_forall_not.mp hplain
          obtain ⟨o', name, rfl, hname⟩ := (lowers_env o v).mp h
          exact .env hname
      | thread =>
        obtain ⟨start, o', steps, hstart, hsteps, hs, hall⟩ := (lowers_threadMap o pairs).mp h
        have hlist := sizeOf_lt_map (o := o) (mapFind_some hsteps)
        exact .threadMap hstart hsteps (below _ (sizeOf_lt_map (mapFind_some hstart)) hs rfl)
          fun a ha => below _ ((sizeOf_lt_list ha).trans hlist) (hall a ha) rfl
      | when =>
        obtain ⟨test, body, htest, hbody, ht, hb⟩ := (lowers_when o pairs).mp h
        exact .when htest hbody (below _ (sizeOf_lt_map (mapFind_some htest)) ht rfl)
          (below _ (sizeOf_lt_map (mapFind_some hbody)) hb rfl)
      | «do» => simp [lowers, lowerDo] at h

theorem lowers_iff {kind : Kind} {n : Node N} : lowers kind n ↔ WellFormed kind n :=
  ⟨wellFormed_of_lowers, lowers_of_wellFormed⟩

/-! ### Rules and sections -/

/-- A rule: the keys that are looked up have values that are accepted. -/
structure IsRule (o : ℕ) (pairs : List (Bytes × Node N)) : Prop where
  sub : ∃ o' filter, mapFind "sub" pairs = some (.scalar o' (.text filter))
  reentrant : ∀ v, mapFind "reentrant" pairs = some v → ∃ o' b, v = .scalar o' (.bool b)
  body : WellFormed .expr (.map o pairs)

inductive IsSection : Bytes → Node N → Prop
  | on {o : ℕ} {items : List (Node N)} (h : ∀ n ∈ items, ∃ o pairs, n = .map o pairs ∧ IsRule o pairs) :
      IsSection (lit "on") (.list o items)
  | lvc {v : Node N} (h : WellFormed .config v) : IsSection (lit "lvc") v
  | config {key : Bytes} {o : ℕ} {pairs : List (Bytes × Node N)} (hkey : isConfigKey key = true)
      (h : ∀ p ∈ pairs, WellFormed .config p.2) : IsSection key (.map o pairs)

def IsRoot (n : Node N) : Prop := ∃ o pairs, n = .map o pairs ∧ ∀ p ∈ pairs, IsSection p.1 p.2

theorem isSome_lowerReentrant (pairs : List (Bytes × Node N)) :
    (lowerReentrant pairs).isSome ↔
      ∀ v, mapFind "reentrant" pairs = some v → ∃ o b, v = .scalar o (.bool b) := by
  unfold lowerReentrant
  split
  · rename_i hnone
    simp [hnone]
  · rename_i o b hfind
    constructor
    · intro _ v hv
      cases hfind.symm.trans hv
      exact ⟨o, b, rfl⟩
    · exact fun _ => rfl
  · rename_i v hother hfind
    constructor
    · intro h
      cases h
    · intro h
      obtain ⟨o, b, rfl⟩ := h v hfind
      exact (hother o b rfl).elim

theorem isSome_lowerOnRule (n : Node N) :
    (lowerOnRule n).isSome ↔ ∃ o pairs, n = .map o pairs ∧ IsRule o pairs := by
  unfold lowerOnRule
  split
  · rename_i o pairs
    have hbody := @lowers_iff N .expr (.map o pairs)
    have hreentrant := isSome_lowerReentrant pairs
    split
    · rename_i o' filter hsub
      constructor
      · intro h
        obtain ⟨form, hform⟩ := Option.isSome_iff_exists.mp h
        obtain ⟨options, hoptions, hform⟩ := Option.bind_eq_some_iff.mp hform
        obtain ⟨body, hlower, -⟩ := Option.map_eq_some_iff.mp hform
        refine ⟨o, pairs, rfl, ⟨o', filter, hsub⟩, hreentrant.mp ?_, hbody.mp ?_⟩
        · rw [hoptions, Option.isSome_some]
        · exact Option.isSome_iff_exists.mpr ⟨body, hlower⟩
      · rintro ⟨_, _, heq, -, hr, hb⟩
        cases heq
        obtain ⟨options, hoptions⟩ := Option.isSome_iff_exists.mp (hreentrant.mpr hr)
        obtain ⟨body, hbody⟩ := Option.isSome_iff_exists.mp (hbody.mpr hb)
        simp [hoptions, hbody]
    · rename_i hother
      constructor
      · intro h
        cases h
      · rintro ⟨_, _, heq, ⟨o', filter, hsub⟩, -, -⟩
        cases heq
        exact (hother o' filter hsub).elim
  · rename_i hother
    constructor
    · intro h
      cases h
    · rintro ⟨o, pairs, rfl, -⟩
      exact (hother o pairs rfl).elim

theorem isSome_mapM {α β : Type} (f : α → Option β) (xs : List α) :
    (xs.mapM f).isSome ↔ ∀ x ∈ xs, (f x).isSome := by
  induction xs with
  | nil => simp
  | cons x xs ih =>
    rw [List.mapM_cons, List.forall_mem_cons, ← ih]
    cases f x with
    | none => simp
    | some y => cases xs.mapM f <;> simp

theorem isSome_lowerConfigForm (name : Bytes) (n : Node N) :
    (lowerConfigForm name n).isSome ↔
      ∃ o pairs, n = .map o pairs ∧ ∀ p ∈ pairs, WellFormed .config p.2 := by
  cases n with
  | scalar o v => simp [lowerConfigForm]
  | list o items => simp [lowerConfigForm]
  | map o pairs =>
    rw [lowerConfigForm, Option.isSome_map, isSome_lowerConfigPairs]
    constructor
    · exact fun h => ⟨o, pairs, rfl, fun p hp => lowers_iff.mp (h p hp)⟩
    · rintro ⟨_, _, heq, h⟩
      cases heq
      exact fun p hp => lowers_iff.mpr (h p hp)

theorem isSome_lowerSection (key : Bytes) (v : Node N) :
    (lowerSection key v).isSome ↔ IsSection key v := by
  unfold lowerSection
  split_ifs with hon hlvc hconfig
  · subst hon
    constructor
    · intro h
      unfold lowerOn at h
      split at h
      · exact .on fun n hn => (isSome_lowerOnRule n).mp ((isSome_mapM _ _).mp h n hn)
      · cases h
    · rintro (h | h | ⟨hkey, h⟩)
      · exact (isSome_mapM _ _).mpr fun n hn => (isSome_lowerOnRule n).mpr (h n hn)
      · exact absurd hkey (by decide)
  · subst hlvc
    have hlvc := @lowers_iff N .config v
    rw [Option.isSome_map, lowerLvc, Option.isSome_map]
    constructor
    · exact fun h => .lvc (hlvc.mp h)
    · rintro (h | h | ⟨hkey, h⟩)
      · exact hlvc.mpr h
      · exact absurd hkey (by decide)
  · rw [Option.isSome_map, isSome_lowerConfigForm]
    constructor
    · rintro ⟨o, pairs, rfl, h⟩
      exact .config hconfig h
    · rintro (h | h | ⟨hkey, h⟩)
      · exact (hon rfl).elim
      · exact (hlvc rfl).elim
      · exact ⟨_, _, rfl, h⟩
  · constructor
    · intro h
      cases h
    · rintro (h | h | ⟨hkey, h⟩)
      · exact (hon rfl).elim
      · exact (hlvc rfl).elim
      · exact (hconfig hkey).elim

/-- The lowering accepts just the trees of the grammar. -/
theorem isSome_lowerRoot (n : Node N) : (lowerRoot n).isSome ↔ IsRoot n := by
  cases n with
  | scalar o v => simp [lowerRoot, IsRoot]
  | list o items => simp [lowerRoot, IsRoot]
  | map o pairs =>
    rw [lowerRoot, Option.isSome_map, isSome_mapM]
    constructor
    · exact fun h => ⟨o, pairs, rfl, fun p hp => (isSome_lowerSection _ _).mp (h p hp)⟩
    · rintro ⟨_, _, heq, h⟩
      cases heq
      exact fun p hp => (isSome_lowerSection _ _).mpr (h p hp)

/-! ## The documented shape -/

def keyCount (key : String) (pairs : List (Bytes × Node N)) : ℕ :=
  (pairs.map Prod.fst).count (lit key)

def bodyCount (pairs : List (Bytes × Node N)) : ℕ :=
  (pairs.map Prod.fst).countP fun key => key ∈ bodyKeys.map lit

/-- Every key of the map is one of these. -/
def KnownKeys (keys : List String) (pairs : List (Bytes × Node N)) : Prop :=
  ∀ p ∈ pairs, p.1 ∈ keys.map lit

def ruleKeys : List String := "sub" :: "reentrant" :: bodyKeys

/-- A rule has one filter, one body, at most one `reentrant`, and no other key. -/
structure DocumentedRule (pairs : List (Bytes × Node N)) : Prop where
  sub : keyCount "sub" pairs = 1
  reentrant : keyCount "reentrant" pairs ≤ 1
  body : bodyCount pairs = 1
  known : KnownKeys ruleKeys pairs

/-- No key of a rule is repeated, misspelt or a second body. -/
structure NothingBeside (pairs : List (Bytes × Node N)) : Prop where
  sub : keyCount "sub" pairs ≤ 1
  reentrant : keyCount "reentrant" pairs ≤ 1
  body : bodyCount pairs ≤ 1
  known : KnownKeys ruleKeys pairs

/-- Each of the keys once, and no other. -/
structure HasJust (keys : List String) (pairs : List (Bytes × Node N)) : Prop where
  once : ∀ key ∈ keys, keyCount key pairs = 1
  known : KnownKeys keys pairs

/-- The one is the other or somewhere in it. -/
inductive Inside : Node N → Node N → Prop
  | self (n : Node N) : Inside n n
  | list {m n : Node N} {o : ℕ} {items : List (Node N)} (hn : n ∈ items) (h : Inside m n) :
      Inside m (.list o items)
  | map {m n : Node N} {o : ℕ} {key : Bytes} {pairs : List (Bytes × Node N)}
      (hn : (key, n) ∈ pairs) (h : Inside m n) : Inside m (.map o pairs)

/-- Every thread and every `when` in the tree that is written as a map has its two keys. -/
def DocumentedInner (n : Node N) : Prop :=
  ∀ o pairs, Inside (.map o pairs) n → ∀ o' inner,
    ((lit "thread", .map o' inner) ∈ pairs → HasJust ["from", "steps"] inner) ∧
      ((lit "when", .map o' inner) ∈ pairs → HasJust ["test", "then"] inner)

/-- The items of a list. -/
def Node.items : Node N → List (Node N)
  | .list _ items => items
  | _ => []

/-- The pairs of a map. -/
def Node.pairs : Node N → List (Bytes × Node N)
  | .map _ pairs => pairs
  | _ => []

/-- The items of the `on` lists of the root. -/
def onItems (root : Node N) : List (Node N) :=
  (root.pairs.filter fun p => p.1 = lit "on").flatMap fun p => p.2.items

def Documented (root : Node N) : Prop :=
  ∀ o pairs, Node.map o pairs ∈ onItems root → DocumentedRule pairs ∧ DocumentedInner (.map o pairs)

def Tidy (root : Node N) : Prop :=
  ∀ o pairs, Node.map o pairs ∈ onItems root → NothingBeside pairs ∧ DocumentedInner (.map o pairs)

theorem isRule_of_isRoot {root : Node N} {o : ℕ} {pairs : List (Bytes × Node N)} (h : IsRoot root)
    (hn : Node.map o pairs ∈ onItems root) : IsRule o pairs := by
  obtain ⟨_, sections, rfl, hsections⟩ := h
  obtain ⟨⟨key, v⟩, hp, hmem⟩ := List.mem_flatMap.mp hn
  obtain ⟨hp, hkey⟩ := List.mem_filter.mp hp
  have hsection := (isSome_lowerSection _ _).mpr (hsections _ hp)
  cases v with
  | scalar => cases hmem
  | map => cases hmem
  | list o' items =>
    rw [of_decide_eq_true hkey] at hsection
    obtain ⟨_, _, heq, hrule⟩ :=
      (isSome_lowerOnRule _).mp ((isSome_mapM lowerOnRule items).mp hsection _ hmem)
    cases heq
    exact hrule

theorem one_le_keyCount {key : String} {pairs : List (Bytes × Node N)} {v : Node N}
    (h : mapFind key pairs = some v) : 1 ≤ keyCount key pairs := by
  have hmem : lit key ∈ pairs.map Prod.fst := List.mem_map_of_mem (mapFind_some h)
  exact List.count_pos_iff.mpr hmem

theorem one_le_bodyCount {o : ℕ} {pairs : List (Bytes × Node N)}
    (h : WellFormed .expr (.map o pairs)) : 1 ≤ bodyCount pairs := by
  cases h with
  | body hbody _ =>
    obtain ⟨key, hkey, hmem⟩ := bodyOf_mem hbody
    apply List.countP_pos_iff.mpr
    exact ⟨lit key, List.mem_map_of_mem hmem, by simpa using ⟨key, hkey, rfl⟩⟩

theorem documentedRule_iff {o : ℕ} {pairs : List (Bytes × Node N)} (h : IsRule o pairs) :
    DocumentedRule pairs ↔ NothingBeside pairs := by
  obtain ⟨_, _, hsub⟩ := h.sub
  have hsub := one_le_keyCount hsub
  have hbody := one_le_bodyCount h.body
  constructor
  · intro hrule
    exact ⟨hrule.sub.le, hrule.reentrant, hrule.body.le, hrule.known⟩
  · intro hrule
    exact ⟨le_antisymm hrule.sub hsub, hrule.reentrant, le_antisymm hrule.body hbody, hrule.known⟩

/-- What the lowering accepts is as documented if nothing is beside the keys it looks up. -/
theorem documented_iff_tidy {root : Node N} (h : IsRoot root) : Documented root ↔ Tidy root := by
  constructor
  · intro hroot o pairs hn
    obtain ⟨hrule, hinner⟩ := hroot o pairs hn
    exact ⟨(documentedRule_iff (isRule_of_isRoot h hn)).mp hrule, hinner⟩
  · intro hroot o pairs hn
    obtain ⟨hrule, hinner⟩ := hroot o pairs hn
    exact ⟨(documentedRule_iff (isRule_of_isRoot h hn)).mpr hrule, hinner⟩

/-! ## Sources -/

section Sources

variable [Number N]

/-- The tree of a source, if it has lines and they are read. -/
def treeOf (src : Bytes) : Option (Node N) :=
  match collectLines 0 (src.splitOn lf) with
  | .ok (line :: lines) =>
    match parseTree src.length (line :: lines) with
    | some (.ok root) => some root
    | _ => none
  | _ => none

theorem parseYamlPatchbay_of_treeOf {src : Bytes} {root : Node N} (h : treeOf src = some root) :
    (∃ forms, parseYamlPatchbay (N := N) src = some (.ok forms)) ↔ IsRoot root := by
  rw [← isSome_lowerRoot]
  unfold treeOf at h
  unfold parseYamlPatchbay
  split at h
  · rename_i hlines
    split at h
    · rename_i htree
      cases h
      rw [hlines]
      dsimp only
      rw [htree]
      cases hlower : lowerRoot root <;> simp [hlower]
    · cases h
  · cases h

/-- An accepted source has rules of the documented shape exactly when its tree is none of the
grammar, so that it is not accepted, or nothing is beside the documented keys in it. -/
theorem accepted_documented_iff (src : Bytes) :
    (∀ forms, parseYamlPatchbay (N := N) src = some (.ok forms) →
      ∀ root : Node N, treeOf src = some root → Documented root) ↔
    ∀ root : Node N, treeOf src = some root → IsRoot root → Tidy root := by
  constructor
  · intro h root htree hroot
    obtain ⟨forms, hforms⟩ := (parseYamlPatchbay_of_treeOf htree).mpr hroot
    exact (documented_iff_tidy hroot).mp (h forms hforms root htree)
  · intro h forms hforms root htree
    have hroot := (parseYamlPatchbay_of_treeOf htree).mp ⟨forms, hforms⟩
    exact (documented_iff_tidy hroot).mpr (h root htree hroot)

end Sources

/-- Of two bodies the first that is looked for is read, and a misspelt key is not read at all. -/
theorem second_body_ignored :
    (∃ forms : List (Value ℚ),
      parseYamlPatchbay (lit "on:\n  - sub: a\n    form: b\n    do: []\n    reentrent: c") =
        some (.ok forms) ∧ forms.length = 1) ∧
    ∃ root : Node ℚ,
      treeOf (lit "on:\n  - sub: a\n    form: b\n    do: []\n    reentrent: c") = some root ∧
        ¬ Documented root := by
  have hforms : (parseYamlPatchbay (N := ℚ)
      (lit "on:\n  - sub: a\n    form: b\n    do: []\n    reentrent: c")).map
        (fun r => r.toOption.map List.length) = some (some 1) := by
    decide +kernel
  have hkeys : (treeOf (N := ℚ)
      (lit "on:\n  - sub: a\n    form: b\n    do: []\n    reentrent: c")).map
        (fun root => (onItems root).map fun n => bodyCount n.pairs) = some [2] := by
    decide +kernel
  obtain ⟨r, hr, hlength⟩ := Option.map_eq_some_iff.mp hforms
  obtain ⟨root, hroot, hcount⟩ := Option.map_eq_some_iff.mp hkeys
  constructor
  · cases r with
    | error e => cases hlength
    | ok forms => exact ⟨forms, hr, by simpa [Except.toOption] using hlength⟩
  · refine ⟨root, hroot, fun h => ?_⟩
    obtain ⟨n, hitems, hbodies⟩ := List.map_eq_singleton_iff.mp hcount
    cases n with
    | scalar => cases hbodies
    | list => cases hbodies
    | map o pairs =>
      have hrule := (h o pairs (by rw [hitems]; exact List.mem_singleton_self _)).1
      exact absurd (hbodies.symm.trans hrule.body) (by decide)

end Monoblok.Patchbay.Yaml
