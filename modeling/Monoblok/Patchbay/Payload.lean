import Monoblok.Patchbay.Linked
import Monoblok.Patchbay.Program
import Monoblok.Patchbay.Whole

/-!
# Numeric payloads

When `payload-float` and `payload-int` have a value, and what an evaluation that
needs one of them does where it has none: it fails before any form has touched a
slot.
-/

namespace Monoblok.Patchbay

open Number

variable {N W : Type} [Number N]

/-! ## `strtod` -/

/-- `strtod` reads the longest numeric text a string starts with, or nothing. -/
structure StrtodSpec (N : Type) [Number N] (numeric : Bytes → Prop) : Prop where
  nonempty : ¬numeric []
  noNul : ∀ {t}, numeric t → ∀ b ∈ t, b ≠ 0
  longest : ∀ {p t}, p <+: t → numeric p →
    numeric (t.take (strtod t : N × ℕ × Bool).2.1) ∧ p.length ≤ (strtod t : N × ℕ × Bool).2.1 ∧
      (strtod t : N × ℕ × Bool).2.1 ≤ t.length
  nothing : ∀ {t}, (∀ p, p <+: t → ¬numeric p) → (strtod t : N × ℕ × Bool).2.1 = 0

/-- What a payload other than the empty one is rejected for. -/
def Rejected (N : Type) [Number N] (numeric : Bytes → Prop) (payload : Bytes) : Prop :=
  ¬numeric payload ∨ 128 ≤ payload.length ∨ (strtod payload : N × ℕ × Bool).2.2 = true

omit [Number N] in
theorem takeWhile_noNul {t : Bytes} (h : ∀ b ∈ t, b ≠ 0) : t.takeWhile (· != 0) = t := by
  apply List.takeWhile_eq_self_iff.mpr
  intro b hb
  exact bne_iff_ne.mpr (h b hb)

theorem StrtodSpec.used_eq_iff {numeric : Bytes → Prop} (h : StrtodSpec N numeric) {t : Bytes}
    (hne : t ≠ []) :
    (strtod (t.takeWhile (· != 0)) : N × ℕ × Bool).2.1 = t.length ↔ numeric t := by
  constructor
  · intro hused
    by_cases hsome : ∃ p, p <+: t.takeWhile (· != 0) ∧ numeric p
    · obtain ⟨p, hp, hnum⟩ := hsome
      obtain ⟨hread, -, hle⟩ := h.longest hp hnum
      have hprefix := List.takeWhile_prefix (l := t) (· != 0)
      rw [hused] at hread hle
      have hwhole : t.takeWhile (· != 0) = t := hprefix.eq_of_length_le hle
      rwa [hwhole, List.take_length] at hread
    · push Not at hsome
      rw [h.nothing hsome] at hused
      exact absurd (List.eq_nil_of_length_eq_zero hused.symm) hne
  · intro hnum
    rw [takeWhile_noNul (h.noNul hnum)]
    obtain ⟨-, hge, hle⟩ := h.longest (List.prefix_refl t) hnum
    exact le_antisymm hle hge

/-- A payload is a number unless it is rejected. -/
theorem parseNumber_iff {numeric : Bytes → Prop} (h : StrtodSpec N numeric) {payload : Bytes}
    (hne : payload ≠ []) :
    (Rejected N numeric payload → (parseNumber payload : Option N) = none) ∧
      (¬Rejected N numeric payload →
        (parseNumber payload : Option N) = some (strtod payload : N × ℕ × Bool).1) := by
  have hused := h.used_eq_iff hne
  unfold parseNumber Rejected
  by_cases hlong : 128 ≤ payload.length
  · rw [if_pos hlong]
    exact ⟨fun _ => rfl, fun hnot => absurd (.inr (.inl hlong)) hnot⟩
  rw [if_neg hlong]
  dsimp only
  by_cases hnum : numeric payload
  · have htext := takeWhile_noNul (h.noNul hnum)
    have hlen := hused.mpr hnum
    rw [htext] at hlen ⊢
    cases herr : (strtod payload : N × ℕ × Bool).2.2 with
    | true =>
      rw [Bool.true_or, if_pos rfl]
      exact ⟨fun _ => rfl, fun hnot => absurd (.inr (.inr rfl)) hnot⟩
    | false =>
      have hread : (false || ((strtod payload : N × ℕ × Bool).2.1 != payload.length)) = false := by
        rw [hlen, bne_self_eq_false, Bool.or_false]
      rw [hread, if_neg Bool.false_ne_true]
      refine ⟨fun hrej => ?_, fun _ => rfl⟩
      rcases hrej with hrej | hrej | hrej
      · exact absurd hnum hrej
      · exact absurd hrej hlong
      · cases hrej
  · have hlen : (strtod (payload.takeWhile (· != 0)) : N × ℕ × Bool).2.1 ≠ payload.length :=
      fun heq => hnum (hused.mp heq)
    rw [bne_iff_ne.mpr hlen, Bool.or_true, if_pos rfl]
    exact ⟨fun _ => rfl, fun hnot => absurd (.inl hnum) hnot⟩

/-! ## Evaluations that need the number -/

/-- The forms whose arguments are all evaluated first. -/
def Form.eager : Form → Bool
  | .doForm | .ifForm | .when | .and | .or | .thread | .transition | .onSilence | .dropout => false
  | _ => true

/-- The special forms that evaluate their first argument before anything else. -/
def Form.firstFirst : Form → Bool
  | .doForm | .ifForm | .when | .and | .or | .thread | .transition => true
  | _ => false

/-- An expression whose evaluation changes nothing. -/
def NeverChanges (W : Type) (v : Value N) : Prop :=
  ∀ (depth : ℕ) (ctx : Ctx N W) (m m' : Machine N W) (r : Except EvalError (Value N)),
    (eval depth ctx v).run m = some (r, m') → m' = m

/-- An expression that evaluates a symbol before it changes anything. -/
inductive Needs (W : Type) (name : Bytes) : Value N → Prop
  | symbol : Needs W name (.symbol name)
  | arg {f : Bytes} {form : Form} {before after : List (Value N)} {x : Value N}
      (hform : findForm f = some form) (heager : form.eager = true)
      (hbefore : ∀ v ∈ before, NeverChanges W v) (hx : Needs W name x) :
      Needs W name (.list (.symbol f :: (before ++ x :: after)))
  | first {f : Bytes} {form : Form} {after : List (Value N)} {x : Value N}
      (hform : findForm f = some form) (hfirst : form.firstFirst = true) (hx : Needs W name x) :
      Needs W name (.list (.symbol f :: x :: after))

/-- A run that fails, if it ends, without a change. -/
def FailsHere {α : Type} (x : EvalM N W α) (m : Machine N W) : Prop :=
  ∀ (r : Except EvalError α) (m' : Machine N W), x.run m = some (r, m') →
    (∃ e, r = .error e) ∧ m' = m

omit [Number N] in
theorem failsHere_throw {α : Type} (e : EvalError) (m : Machine N W) :
    FailsHere (throw e : EvalM N W α) m := by
  intro r m' h
  cases h
  exact ⟨⟨e, rfl⟩, rfl⟩

omit [Number N] in
theorem FailsHere.bind {α β : Type} {x : EvalM N W α} {m : Machine N W} (h : FailsHere x m)
    (g : α → EvalM N W β) : FailsHere (x >>= g) m := by
  intro r m' hrun
  rw [run_evalBind] at hrun
  obtain ⟨⟨y, m₁⟩, hx, hrest⟩ := Option.bind_eq_some_iff.mp hrun
  obtain ⟨⟨e, rfl⟩, rfl⟩ := h _ _ hx
  cases hrest
  exact ⟨⟨e, rfl⟩, rfl⟩

section Args

variable {ctx : Ctx N W} {depth : ℕ} {m : Machine N W} {x : Value N}

/-- The arguments before the one that fails change nothing. -/
theorem failsHere_evalEach {before : List (Value N)} (hbefore : ∀ v ∈ before, NeverChanges W v)
    (after : List (Value N)) (hx : FailsHere (eval depth ctx x) m) :
    FailsHere (evalEach (eval depth) ctx (before ++ x :: after)) m := by
  induction before with
  | nil => exact hx.bind _
  | cons v before ih =>
    intro r m' hrun
    have hrest : FailsHere (evalEach (eval depth) ctx (before ++ x :: after)) m :=
      ih fun w hw => hbefore w (List.mem_cons_of_mem v hw)
    rw [List.cons_append, evalEach, run_evalBind] at hrun
    obtain ⟨⟨y, m₁⟩, hv, hrun⟩ := Option.bind_eq_some_iff.mp hrun
    obtain rfl := hbefore v List.mem_cons_self _ _ _ _ _ hv
    cases y with
    | error e =>
      cases hrun
      exact ⟨⟨e, rfl⟩, rfl⟩
    | ok a => exact hrest.bind _ _ _ hrun

theorem failsHere_evalArgs {before : List (Value N)} (hbefore : ∀ v ∈ before, NeverChanges W v)
    (after : List (Value N)) (hx : FailsHere (eval depth ctx x) m) :
    FailsHere (evalArgs (eval depth) ctx (before ++ x :: after)) m := by
  unfold evalArgs
  split_ifs
  · exact failsHere_throw _ m
  · exact failsHere_evalEach hbefore after hx

theorem evalList_eager {f : Bytes} {form : Form} (hform : findForm f = some form)
    (heager : form.eager = true) (args : List (Value N)) :
    evalList (eval depth) ctx (.symbol f :: args) =
      evalArgs (eval depth) ctx args >>= fun args =>
        afresh ctx fun ctx => callForm ctx form args := by
  unfold evalList
  dsimp only
  rw [show findForm (Value.symbol f : Value N).text = some form from hform]
  cases form with
  | doForm | ifForm | when | and | or | thread | transition | onSilence | dropout => cases heager
  | _ => rfl

theorem failsHere_evalList_first {f : Bytes} {form : Form} (hform : findForm f = some form)
    (hfirst : form.firstFirst = true) (after : List (Value N))
    (hx : FailsHere (eval depth ctx x) m) :
    FailsHere (evalList (eval depth) ctx (.symbol f :: x :: after)) m := by
  unfold evalList
  dsimp only
  rw [show findForm (Value.symbol f : Value N).text = some form from hform]
  cases form with
  | doForm => exact hx.bind _
  | ifForm =>
    match after with
    | [] => exact failsHere_throw _ m
    | [_] => exact hx.bind _
    | [_, _] => exact hx.bind _
    | _ :: _ :: _ :: _ => exact failsHere_throw _ m
  | when => exact hx.bind _
  | and => exact hx.bind _
  | or => exact hx.bind _
  | thread => exact hx.bind _
  | transition =>
    match after with
    | [] => exact failsHere_throw _ m
    | [_] => exact failsHere_throw _ m
    | [_, _] => exact hx.bind _
    | _ :: _ :: _ :: _ => exact failsHere_throw _ m
  | _ => cases hfirst

end Args

/-- Where a symbol has no value, an expression that needs it fails and changes
nothing. -/
theorem Needs.failsHere {name : Bytes} {v : Value N} (h : Needs W name v) {ctx : Ctx N W}
    {m : Machine N W} (hsymbol : FailsHere (afresh ctx fun ctx => evalSymbol ctx name) m)
    (depth : ℕ) : FailsHere (eval depth ctx v) m := by
  induction h generalizing depth ctx with
  | symbol =>
    cases depth with
    | zero => exact fun _ _ h => (by cases h)
    | succ depth => exact hsymbol
  | @arg f form before after x hform heager hbefore _ ih =>
    cases depth with
    | zero => exact fun _ _ h => (by cases h)
    | succ depth =>
      change FailsHere (evalList (eval depth) ⟨m.reread ctx.toBindings, ctx.publish⟩
        (.symbol f :: (before ++ x :: after))) m
      rw [evalList_eager hform heager]
      have hx := @ih ⟨m.reread ctx.toBindings, ctx.publish⟩ hsymbol depth
      exact (failsHere_evalArgs hbefore _ hx).bind _
  | @first f form after x hform hfirst _ ih =>
    cases depth with
    | zero => exact fun _ _ h => (by cases h)
    | succ depth =>
      change FailsHere (evalList (eval depth) ⟨m.reread ctx.toBindings, ctx.publish⟩
        (.symbol f :: x :: after)) m
      have hx := @ih ⟨m.reread ctx.toBindings, ctx.publish⟩ hsymbol depth
      exact failsHere_evalList_first hform hfirst _ hx

theorem run_evalSymbol (ctx : Ctx N W) (name : Bytes) (m : Machine N W) :
    ∃ r, (evalSymbol ctx name).run m = some (r, m) := by
  unfold evalSymbol
  split_ifs
  · exact ⟨_, rfl⟩
  · exact ⟨_, rfl⟩
  · exact ⟨_, rfl⟩
  · split
    · exact ⟨_, rfl⟩
    · split_ifs
      · exact ⟨_, rfl⟩
      · exact ⟨_, rfl⟩
  · exact ⟨_, rfl⟩

/-- Values stand for themselves, and symbols for what they are bound to. -/
theorem neverChanges_of_atom {v : Value N} (hlist : ∀ items, v ≠ .list items)
    (hvector : ∀ items, v ≠ .vector items) : NeverChanges W v := by
  intro depth ctx m m' r hrun
  cases depth with
  | zero => cases hrun
  | succ depth =>
    change (evalStep (eval depth) ⟨m.reread ctx.toBindings, ctx.publish⟩ v).run m = _ at hrun
    cases v with
    | list items => exact absurd rfl (hlist items)
    | vector items => exact absurd rfl (hvector items)
    | symbol name =>
      obtain ⟨r', hr'⟩ := run_evalSymbol ⟨m.reread ctx.toBindings, ctx.publish⟩ name m
      have hsame := hr'.symm.trans hrun
      cases hsame
      rfl
    | _ =>
      cases hrun
      rfl

/-! ## The two symbols -/

section Symbols

variable {numeric : Bytes → Prop} {ctx : Ctx N W} {m : Machine N W}

/-- An evaluation that ends in an error. -/
def Fails {α : Type} (x : EvalM N W α) (m : Machine N W) : Prop :=
  ∃ e m', x.run m = some (.error e, m')

theorem evalSymbol_payloadFloat (ctx : Ctx N W) :
    evalSymbol ctx (lit "payload-float") =
      match (parseNumber ctx.payload : Option N) with
      | none => throw .type
      | some n => pure (.number n) := by
  unfold evalSymbol
  rw [if_neg (by decide), if_neg (by decide), if_neg (by decide), if_pos (.inl rfl)]
  change (match (parseNumber ctx.payload : Option N) with | none => _ | some n => _) = _
  cases (parseNumber ctx.payload : Option N) with
  | none => rfl
  | some n => exact if_neg fun h => absurd h.1 (by decide)

theorem evalSymbol_payloadInt (ctx : Ctx N W) :
    evalSymbol ctx (lit "payload-int") =
      match (parseNumber ctx.payload : Option N) with
      | none => throw .type
      | some n => if feq (ffloor n) n = false then throw .type else pure (.number n) := by
  unfold evalSymbol
  rw [if_neg (by decide), if_neg (by decide), if_neg (by decide), if_pos (.inr rfl)]
  change (match (parseNumber ctx.payload : Option N) with | none => _ | some n => _) = _
  cases (parseNumber ctx.payload : Option N) with
  | none => rfl
  | some n =>
    dsimp only
    by_cases hwhole : feq (ffloor n) n = false
    · rw [if_pos hwhole]
      exact if_pos ⟨rfl, hwhole⟩
    · rw [if_neg hwhole]
      exact if_neg fun h => hwhole h.2

/-- What `payload-int` is rejected for. -/
def RejectedInt (N : Type) [Number N] (numeric : Bytes → Prop) (payload : Bytes) : Prop :=
  Rejected N numeric payload ∨
    feq (ffloor (strtod payload : N × ℕ × Bool).1) (strtod payload : N × ℕ × Bool).1 = false

theorem fails_payloadFloat_iff (h : StrtodSpec N numeric) (hne : ctx.payload ≠ []) :
    Fails (evalSymbol ctx (lit "payload-float")) m ↔ Rejected N numeric ctx.payload := by
  obtain ⟨hrejected, haccepted⟩ := parseNumber_iff h hne
  rw [evalSymbol_payloadFloat]
  constructor
  · rintro ⟨e, m', hrun⟩
    by_contra hnot
    rw [haccepted hnot] at hrun
    cases hrun
  · intro hrej
    rw [hrejected hrej]
    exact ⟨_, m, rfl⟩

theorem fails_payloadInt_iff (h : StrtodSpec N numeric) (hne : ctx.payload ≠ []) :
    Fails (evalSymbol ctx (lit "payload-int")) m ↔ RejectedInt N numeric ctx.payload := by
  obtain ⟨hrejected, haccepted⟩ := parseNumber_iff h hne
  rw [evalSymbol_payloadInt]
  constructor
  · rintro ⟨e, m', hrun⟩
    by_contra hnot
    obtain ⟨hnot, hwhole⟩ := not_or.mp hnot
    rw [haccepted hnot] at hrun
    dsimp only at hrun
    rw [if_neg hwhole] at hrun
    cases hrun
  · intro hrej
    by_cases hfloat : Rejected N numeric ctx.payload
    · rw [hrejected hfloat]
      exact ⟨_, m, rfl⟩
    · rw [haccepted hfloat]
      dsimp only
      rw [if_pos (hrej.resolve_left hfloat)]
      exact ⟨_, m, rfl⟩

theorem failsHere_of_fails {name : Bytes} (h : Fails (evalSymbol ctx name) m) :
    FailsHere (evalSymbol ctx name) m := by
  obtain ⟨e, m', hfail⟩ := h
  obtain ⟨r, hr⟩ := run_evalSymbol ctx name m
  have hsame := hr.symm.trans hfail
  cases hsame
  intro r' m'' hrun
  have hagain := hr.symm.trans hrun
  cases hagain
  exact ⟨⟨e, rfl⟩, rfl⟩

end Symbols

/-! ## Rules -/

theorem evalRule_unchanged {env : Env N W} {t : Moment}
    {again : Slice → Slice → MachineM N W Bool} {subject payload : Slice} {i : ℕ} {rule : Rule N}
    {m m' : Machine N W} {ok : Bool} (hrule : m.program.rules[i]? = some rule)
    (hfails : FailsHere
      (eval env.fuel (ruleCtx env t again i rule.reentrant subject payload) rule.body) m)
    (hrun : evalRuleForPublish env t again subject payload i m = some (ok, m')) : m' = m := by
  rw [evalRuleForPublish_some hrule] at hrun
  split_ifs at hrun
  · unfold succeeds at hrun
    change ((eval env.fuel (ruleCtx env t again i rule.reentrant subject payload) rule.body).run
      m).bind _ = _ at hrun
    obtain ⟨⟨r, m₁⟩, heval, hrest⟩ := Option.bind_eq_some_iff.mp hrun
    obtain ⟨⟨e, rfl⟩, rfl⟩ := hfails _ _ heval
    cases hrest
    rfl
  · cases hrun
    rfl

/-- A call with a symbol among its arguments, behind values and other symbols. -/
theorem needs_call {f name : Bytes} {form : Form} (hform : findForm f = some form)
    (heager : form.eager = true) {before : List (Value N)}
    (hbefore : ∀ v ∈ before, ∀ items, v ≠ .list items ∧ v ≠ .vector items)
    (after : List (Value N)) : Needs W name (.list (.symbol f :: (before ++ .symbol name :: after))) :=
  .arg hform heager
    (fun v hv => neverChanges_of_atom (fun items => (hbefore v hv items).1)
      fun items => (hbefore v hv items).2) .symbol

/-- For payloads that are not empty: the numeric symbols have no value exactly
where the payload that is read is rejected, and a rule that needs the value leaves the machine
as it is, its slots included, when the payload is rejected. -/
theorem numeric_payloads {numeric : Bytes → Prop} (h : StrtodSpec N numeric) :
    (∀ (ctx : Ctx N W) (m : Machine N W) (depth : ℕ) (payload : Bytes),
      m.read ctx.rewritten ctx.payloadAt = payload → payload ≠ [] →
        (Fails (eval (depth + 1) ctx (.symbol (lit "payload-float"))) m ↔
          Rejected N numeric payload) ∧
        (Fails (eval (depth + 1) ctx (.symbol (lit "payload-int"))) m ↔
          RejectedInt N numeric payload)) ∧
      ∀ (env : Env N W) (t : Moment) (again : Slice → Slice → MachineM N W Bool)
        (subject payloadAt : Slice) (payload : Bytes) (i : ℕ) (rule : Rule N)
        (m m' : Machine N W) (ok : Bool),
        m.program.rules[i]? = some rule → m.read env.rewritten payloadAt = payload →
        payload ≠ [] →
        Needs W (lit "payload-float") rule.body ∧ Rejected N numeric payload ∨
          Needs W (lit "payload-int") rule.body ∧ RejectedInt N numeric payload →
        evalRuleForPublish env t again subject payloadAt i m = some (ok, m') → m' = m := by
  constructor
  · rintro ctx m depth _ rfl hne
    exact ⟨@fails_payloadFloat_iff _ _ _ _ ⟨m.reread ctx.toBindings, ctx.publish⟩ m h hne,
      @fails_payloadInt_iff _ _ _ _ ⟨m.reread ctx.toBindings, ctx.publish⟩ m h hne⟩
  · rintro env t again subject payloadAt _ i rule m m' ok hrule rfl hne hneeds hrun
    apply evalRule_unchanged hrule _ hrun
    let b := m.reread (ruleCtx env t again i rule.reentrant subject payloadAt).toBindings
    have hbound : b.payload = m.read env.rewritten payloadAt := rfl
    rw [← hbound] at hne hneeds
    rcases hneeds with ⟨hneeds, hrej⟩ | ⟨hneeds, hrej⟩
    · apply hneeds.failsHere
      exact failsHere_of_fails ((@fails_payloadFloat_iff _ _ _ _
        ⟨b, publishCb env again i rule.reentrant⟩ m h hne).mpr hrej)
    · apply hneeds.failsHere
      exact failsHere_of_fails ((@fails_payloadInt_iff _ _ _ _
        ⟨b, publishCb env again i rule.reentrant⟩ m h hne).mpr hrej)

/-! ## Decimal texts -/

/-- The texts that the integers read: digits behind a sign or none. -/
def wholeNumeric (t : Bytes) : Prop :=
  let digits := if t.head? == some 0x2d then t.tail else t
  digits ≠ [] ∧ ∀ b ∈ digits, isDigit b = true

theorem prefix_digits {p t : Bytes} (hp : p <+: t) (h : ∀ b ∈ p, isDigit b = true) :
    p <+: t.takeWhile isDigit := by
  obtain ⟨q, rfl⟩ := hp
  rw [List.takeWhile_append_of_pos h]
  exact List.prefix_append _ _

theorem all_takeWhile (t : Bytes) : ∀ b ∈ t.takeWhile isDigit, isDigit b = true :=
  fun _ hb => List.mem_takeWhile_imp hb

theorem wholeNumeric_cons {b : UInt8} {t : Bytes} :
    wholeNumeric (b :: t) ↔
      if b = 0x2d then t ≠ [] ∧ ∀ c ∈ t, isDigit c = true else ∀ c ∈ b :: t, isDigit c = true := by
  unfold wholeNumeric
  by_cases hb : b = 0x2d
  · rw [hb]
    exact Iff.rfl
  · rw [if_neg hb]
    have hhead : ((b :: t).head? == some 0x2d) = false := by
      simpa using hb
    rw [hhead]
    exact ⟨fun h => h.2, fun h => ⟨List.cons_ne_nil _ _, h⟩⟩

/-- The bytes that are read after a sign and without one. -/
theorem wholeStrtod_minus (t : Bytes) :
    (wholeStrtod (0x2d :: t)).2.1 =
      if t.takeWhile isDigit = [] then 0 else (t.takeWhile isDigit).length + 1 := by
  unfold wholeStrtod
  dsimp only [List.head?_cons, List.tail_cons]
  rw [beq_self_eq_true, if_pos rfl]
  by_cases hnil : t.takeWhile isDigit = []
  · rw [hnil]
    rfl
  · rw [if_neg hnil, if_neg (by simpa using hnil), if_pos rfl]

theorem wholeStrtod_digits {b : UInt8} (hb : b ≠ 0x2d) (t : Bytes) :
    (wholeStrtod (b :: t)).2.1 = ((b :: t).takeWhile isDigit).length := by
  unfold wholeStrtod
  have hhead : ((b :: t).head? == some 0x2d) = false := by
    simpa using hb
  dsimp only
  rw [hhead, if_neg Bool.false_ne_true]
  by_cases hnil : (b :: t).takeWhile isDigit = []
  · rw [hnil]
    rfl
  · rw [if_neg (by simpa using hnil), if_neg Bool.false_ne_true]

theorem strtodSpec_whole : StrtodSpec ℤ wholeNumeric where
  nonempty h := h.1 rfl
  noNul {t} h := by
    cases t with
    | nil => exact fun b hb => absurd hb List.not_mem_nil
    | cons b t =>
      rw [wholeNumeric_cons] at h
      have hdigit : ∀ c, isDigit c = true → c ≠ 0 := by
        rintro c hc rfl
        exact absurd hc (by decide)
      intro c hc
      split_ifs at h with hb
      · rcases List.mem_cons.mp hc with rfl | hc
        · rw [hb]
          decide
        · exact hdigit c (h.2 c hc)
      · exact hdigit c (h c hc)
  longest {p t} hp hnum := by
    change wholeNumeric (t.take (wholeStrtod t).2.1) ∧ p.length ≤ (wholeStrtod t).2.1 ∧
      (wholeStrtod t).2.1 ≤ t.length
    cases p with
    | nil => exact absurd rfl hnum.1
    | cons b p =>
      cases t with
      | nil => exact absurd (List.prefix_nil.mp hp) (List.cons_ne_nil _ _)
      | cons c t =>
        obtain ⟨rfl, hp'⟩ := List.cons_prefix_cons.mp hp
        rw [wholeNumeric_cons] at hnum
        by_cases hb : b = 0x2d
        · rw [if_pos hb] at hnum
          obtain ⟨hne, hdigits⟩ := hnum
          have hpre := prefix_digits hp' hdigits
          have htake := List.takeWhile_prefix (l := t) isDigit
          have hsome : t.takeWhile isDigit ≠ [] := by
            intro hnil
            rw [hnil] at hpre
            exact hne (List.prefix_nil.mp hpre)
          rw [hb, wholeStrtod_minus, if_neg hsome, List.take_succ_cons,
            ← List.prefix_iff_eq_take.mp htake, wholeNumeric_cons, if_pos rfl]
          refine ⟨⟨hsome, all_takeWhile t⟩, ?_, ?_⟩
          · rw [List.length_cons]
            exact Nat.succ_le_succ hpre.length_le
          · rw [List.length_cons]
            exact Nat.succ_le_succ htake.length_le
        · rw [if_neg hb] at hnum
          have hpre := prefix_digits hp hnum
          have htake := List.takeWhile_prefix (l := b :: t) isDigit
          have hfirst : (b :: t).takeWhile isDigit = b :: t.takeWhile isDigit :=
            List.takeWhile_cons_of_pos (hnum b List.mem_cons_self)
          rw [wholeStrtod_digits hb, ← List.prefix_iff_eq_take.mp htake]
          refine ⟨?_, hpre.length_le, htake.length_le⟩
          rw [hfirst, wholeNumeric_cons, if_neg hb, ← hfirst]
          exact all_takeWhile _
  nothing {t} hnone := by
    change (wholeStrtod t).2.1 = 0
    cases t with
    | nil => rfl
    | cons b t =>
      by_cases hb : b = 0x2d
      · rw [hb, wholeStrtod_minus]
        by_cases hnil : t.takeWhile isDigit = []
        · rw [if_pos hnil]
        · exfalso
          apply hnone (b :: t.takeWhile isDigit)
          · exact List.cons_prefix_cons.mpr ⟨rfl, List.takeWhile_prefix _⟩
          · rw [wholeNumeric_cons, if_pos hb]
            exact ⟨hnil, all_takeWhile t⟩
      · rw [wholeStrtod_digits hb]
        by_contra hne
        have hfirst : (b :: t).takeWhile isDigit ≠ [] := by
          intro hnil
          rw [hnil] at hne
          exact hne rfl
        apply hnone _ (List.takeWhile_prefix isDigit)
        have hhead : isDigit b = true := by
          by_contra hdigit
          exact hfirst (List.takeWhile_cons_of_neg hdigit)
        rw [List.takeWhile_cons_of_pos hhead, wholeNumeric_cons, if_neg hb,
          ← List.takeWhile_cons_of_pos hhead]
        exact all_takeWhile _

/-- A machine with one rule, a sum over payloads. -/
def sumRule : Machine ℤ Unit where
  program := loadProgram
    [⟨lit "a", .list [.symbol (lit "moving-sum"), .number 3, .symbol (lit "payload-float")], false⟩]
    false
  world := ()

/-- Surroundings with memory and a router that accepts everything. -/
def acceptAll : Env ℤ Unit where
  alloc := fun _ => true
  readJson := fun _ => none
  rewritten := fun _ now => now
  drawn := payloadDrawn
  route := fun w _ _ => (w, true)
  fuel := 9

/-- The payload `1x` is no sample. -/
theorem numeric_payloads_text :
    ∃ ok, evalRuleForPublish acceptAll ⟨0, 0, false⟩ (fun _ _ => pure true) (.held (lit "a"))
      (.held (lit "1x")) 0 sumRule = some (ok, sumRule) := by
  have hrun : (evalRuleForPublish acceptAll ⟨0, 0, false⟩ (fun _ _ => pure true)
      (.held (lit "a")) (.held (lit "1x")) 0 sumRule).isSome = true := by
    decide +kernel
  obtain ⟨⟨ok, m'⟩, hsome⟩ := Option.isSome_iff_exists.mp hrun
  have hneeds : Needs Unit (lit "payload-float")
      (.list [.symbol (lit "moving-sum"), .number 3, .symbol (lit "payload-float")] : Value ℤ) := by
    apply @needs_call _ _ _ _ _ .movingSum (by decide +kernel) rfl [.number 3]
    intro v hv items
    rw [List.mem_singleton.mp hv]
    constructor
    all_goals
      intro h
      cases h
  have hrejected : ¬wholeNumeric (lit "1x") := by
    unfold wholeNumeric
    decide +kernel
  have hsame := (numeric_payloads strtodSpec_whole).2 _ _ _ _ _ (lit "1x") _ _ _ _ _ rfl rfl
    (by decide) (.inl ⟨hneeds, .inl hrejected⟩) hsome
  rw [hsame] at hsome
  exact ⟨ok, hsome⟩

/-- The integers with a range: more than 19 digits set `errno`. -/
abbrev rangeTexts : Number ℤ :=
  { (inferInstance : Number ℤ) with
    strtod := fun t => ((wholeStrtod t).1, (wholeStrtod t).2.1, decide (19 < (wholeStrtod t).2.1)) }

theorem strtodSpec_range : @StrtodSpec ℤ rangeTexts wholeNumeric :=
  @StrtodSpec.mk ℤ rangeTexts wholeNumeric strtodSpec_whole.nonempty strtodSpec_whole.noNul
    strtodSpec_whole.longest strtodSpec_whole.nothing

def payloadCtx (payload : Bytes) : Ctx ℤ Unit where
  alloc := fun _ => true
  readJson := fun _ => none
  rewritten := fun _ now => now
  drawn := payloadDrawn 0
  subjectAt := .held (lit "a")
  payloadAt := .held payload
  ruleId := 0
  nowMs := 0
  wallMs := 0
  replaying := false
  subject := lit "a"
  payload := payload
  publish := fun _ _ => pure true

theorem wholeNumeric_ones {n : ℕ} (hn : n ≠ 0) : wholeNumeric (List.replicate n 0x31) := by
  obtain ⟨n, rfl⟩ := Nat.exists_eq_succ_of_ne_zero hn
  rw [List.replicate_succ, wholeNumeric_cons, if_neg (by decide), ← List.replicate_succ]
  intro b hb
  rw [List.eq_of_mem_replicate hb]
  decide

/-- A number of 128 digits is a numeric text and an error, and so is one that is
out of range. -/
theorem overlong_number_is_an_error :
    (¬∀ (numeric : Bytes → Prop), StrtodSpec ℤ numeric → ∀ (ctx : Ctx ℤ Unit) (m : Machine ℤ Unit)
      (depth : ℕ),
        Fails (eval (depth + 1) ctx (.symbol (lit "payload-float"))) m ↔
          ¬numeric (m.read ctx.rewritten ctx.payloadAt)) ∧
      ¬∀ (numeric : Bytes → Prop), @StrtodSpec ℤ rangeTexts numeric →
        ∀ (ctx : Ctx ℤ Unit) (m : Machine ℤ Unit) (depth : ℕ),
          Fails (@eval ℤ Unit rangeTexts (depth + 1) ctx (.symbol (lit "payload-float"))) m ↔
            ¬numeric (m.read ctx.rewritten ctx.payloadAt) := by
  have hfails : ∀ (texts : Number ℤ) (payload : Bytes), @parseNumber ℤ texts payload = none →
      Fails (@eval ℤ Unit texts 1 (payloadCtx payload) (.symbol (lit "payload-float"))) sumRule := by
    intro texts payload hparse
    refine ⟨.type, sumRule, ?_⟩
    change (@evalSymbol ℤ Unit texts (payloadCtx payload) (lit "payload-float")).run sumRule = _
    have hnone : @parseNumber ℤ texts (payloadCtx payload).payload = none := hparse
    rw [@evalSymbol_payloadFloat ℤ Unit texts, hnone]
    rfl
  constructor
  · intro h
    have hlong := hfails inferInstance (List.replicate 128 0x31)
      (if_pos (le_of_eq List.length_replicate.symm))
    exact (h wholeNumeric strtodSpec_whole _ sumRule 0).mp hlong (wholeNumeric_ones (by decide))
  · intro h
    have hrange := hfails rangeTexts (List.replicate 20 0x31) (by decide +kernel)
    exact (h wholeNumeric strtodSpec_range _ sumRule 0).mp hrange (wholeNumeric_ones (by decide))

end Monoblok.Patchbay
