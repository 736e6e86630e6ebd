import Monoblok.Patchbay.Admitted
import Monoblok.Patchbay.Calls
import Monoblok.Patchbay.Whole

/-!
# Stored forms and the program text

The thread form puts calls together from a step and the value so far. Unless such
a step is itself an `on-silence` or a `dropout`, what the slots store are parts of
the rules as they were written.
-/

namespace Monoblok.Patchbay

open Number

variable {N W : Type}

/-! ## Parts of an expression -/

/-- The first expression is a part of the second, or the second itself. -/
inductive PartOf : Value N → Value N → Prop
  | self (v : Value N) : PartOf v v
  | list {w v : Value N} {items : List (Value N)} (hv : v ∈ items) (h : PartOf w v) :
      PartOf w (.list items)
  | vector {w v : Value N} {items : List (Value N)} (hv : v ∈ items) (h : PartOf w v) :
      PartOf w (.vector items)

theorem PartOf.trans {u v w : Value N} (h : PartOf u v) (h' : PartOf v w) : PartOf u w := by
  induction h' with
  | self => exact h
  | list hv _ ih => exact .list hv ih
  | vector hv _ ih => exact .vector hv ih

/-- A part of the body of one of the rules. -/
def InText (rules : List (RuleSource N)) (v : Value N) : Prop := ∃ r ∈ rules, PartOf v r.body

variable {rules : List (RuleSource N)}

theorem InText.item {items : List (Value N)} (h : InText rules (.list items)) {v : Value N}
    (hv : v ∈ items) : InText rules v := by
  obtain ⟨r, hr, hpart⟩ := h
  exact ⟨r, hr, (PartOf.list hv (.self v)).trans hpart⟩

theorem InText.entry {items : List (Value N)} (h : InText rules (.vector items)) {v : Value N}
    (hv : v ∈ items) : InText rules v := by
  obtain ⟨r, hr, hpart⟩ := h
  exact ⟨r, hr, (PartOf.vector hv (.self v)).trans hpart⟩

/-- The body of an `on-silence` in the text. -/
def SilenceBody (rules : List (RuleSource N)) (body : List (Value N)) : Prop :=
  ∃ head k m, findForm head.text = some .onSilence ∧ InText rules (.list (head :: k :: m :: body))

/-- The two forms of a `dropout` in the text. -/
def DropoutForms (rules : List (RuleSource N)) (lost found : Value N) : Prop :=
  ∃ head k m kl kf, findForm head.text = some .dropout ∧
    InText rules (.list [head, k, m, kl, lost, kf, found])

def StoredText (rules : List (RuleSource N)) (l : List (Value N)) : Prop :=
  SilenceBody rules l ∨ ∃ lost found, l = [lost, found] ∧ DropoutForms rules lost found

theorem inText_of_stored {l : List (Value N)} (h : StoredText rules l) {v : Value N} (hv : v ∈ l) :
    InText rules v := by
  rcases h with ⟨head, k, m, -, htext⟩ | ⟨lost, found, rfl, head, k, m, kl, kf, -, htext⟩
  · exact htext.item (by simp [hv])
  · apply htext.item
    simp only [List.mem_cons, List.not_mem_nil, or_false] at hv ⊢
    rcases hv with rfl | rfl <;> simp

/-! ## Threaded calls -/

/-- A call that stores some of its arguments as they are. -/
def storesArgs (head : Value N) (args : List (Value N)) : Bool :=
  match findForm head.text, args with
  | some .onSilence, k :: _ :: _ :: _ => k.keywordEq "ms"
  | some .dropout, [k, _, kl, _, kf, _] =>
    k.keywordEq "ms" && kl.keywordEq "lost" && kf.keywordEq "found"
  | _, _ => false

theorem storesArgs_onSilence {head k m b : Value N} (body : List (Value N))
    (h : findForm head.text = some .onSilence) :
    storesArgs head (k :: m :: b :: body) = k.keywordEq "ms" := by
  simp only [storesArgs, h]

theorem storesArgs_dropout {head k m kl lost kf found : Value N}
    (h : findForm head.text = some .dropout) :
    storesArgs head [k, m, kl, lost, kf, found] =
      (k.keywordEq "ms" && kl.keywordEq "lost" && kf.keywordEq "found") := by
  simp only [storesArgs, h]

/-- No step of a thread in the text becomes a call that stores its arguments. -/
def NoStoringSteps (rules : List (RuleSource N)) : Prop :=
  ∀ head v fs, InText rules (.list (head :: v :: fs)) → findForm head.text = some .thread →
    ∀ name args, .list (.symbol name :: args) ∈ fs →
      ∀ x, storesArgs (.symbol name) (args ++ [x]) = false

/-- A call that the thread form puts together from a step in the text. -/
def ThreadedCall (rules : List (RuleSource N)) (v : Value N) : Prop :=
  ∃ name args x, v = .list (.symbol name :: (args ++ [x])) ∧ x.Evaluated ∧
    (args = [] ∨ InText rules (.list (.symbol name :: args))) ∧
      storesArgs (.symbol name) (args ++ [x]) = false

/-- What is evaluated while a program runs. -/
def FromText (rules : List (RuleSource N)) (v : Value N) : Prop :=
  InText rules v ∨ v.Evaluated ∨ ThreadedCall rules v

theorem not_evaluated_list {items : List (Value N)} : ¬(Value.list items).Evaluated := by
  cases items with
  | nil => simp [Value.Evaluated, Value.weight]
  | cons v vs => simp [Value.Evaluated, Value.weight]

theorem discipline_text (hsteps : NoStoringSteps rules) :
    Discipline (StoredText rules) (FromText rules) where
  deferred h v hv := .inl (inText_of_stored h hv)
  evaluated h := .inr (.inl h)
  items := by
    rintro vs (h | h | ⟨name, args, x, h, -⟩) v hv
    · exact .inl (h.entry hv)
    · exact .inr (.inl (evaluated_of_mem_vector hv h))
    · cases h
  args := by
    rintro head args (h | h | ⟨name, args', x, h, hx, hargs, -⟩) v hv
    · exact .inl (h.item (List.mem_cons_of_mem _ hv))
    · exact absurd h not_evaluated_list
    · cases h
      rcases List.mem_append.mp hv with hv | hv
      · rcases hargs with rfl | hargs
        · cases hv
        · exact .inl (hargs.item (List.mem_cons_of_mem _ hv))
      · obtain rfl := List.mem_singleton.mp hv
        exact .inr (.inl hx)
  onSilence := by
    rintro head k m b body (h | h | ⟨name, args, x, h, -, -, hstores⟩) hform hk
    · exact .inl ⟨head, k, m, hform, h⟩
    · exact absurd h not_evaluated_list
    · injection h with h
      injection h with hhead hargs
      subst hhead
      rw [← hargs, storesArgs_onSilence body hform, hk] at hstores
      cases hstores
  dropout := by
    rintro head k m kl lost kf found (h | h | ⟨name, args, x, h, -, -, hstores⟩) hform hk
    · exact .inr ⟨lost, found, rfl, head, k, m, kl, kf, hform, h⟩
    · exact absurd h not_evaluated_list
    · injection h with h
      injection h with hhead hargs
      subst hhead
      rw [← hargs, storesArgs_dropout hform, hk] at hstores
      cases hstores
  symbolStep := by
    intro head v fs _ _ name _ x hx
    refine .inr (.inr ⟨name, [], x, rfl, hx, .inl rfl, ?_⟩)
    unfold storesArgs
    split <;> simp_all
  listStep := by
    rintro head v fs (h | h | ⟨name', args', x', h, hx', hargs', -⟩) hform name args hmem x hx
    · have htext := h.item (List.mem_cons_of_mem _ (List.mem_cons_of_mem _ hmem))
      exact .inr (.inr ⟨name, args, x, rfl, hx, .inr htext, hsteps _ _ _ h hform _ _ hmem x⟩)
    · exact absurd h not_evaluated_list
    · -- a thread that is itself a step of a thread
      injection h with h
      injection h with hhead h
      subst hhead
      rcases hargs' with rfl | hargs'
      · cases h
        cases hmem
      · cases args' with
        | nil =>
          cases h
          cases hmem
        | cons a as =>
          cases h
          have hstep : .list (.symbol name :: args) ∈ as := by
            rcases List.mem_append.mp hmem with hmem | hmem
            · exact hmem
            · obtain rfl := List.mem_singleton.mp hmem
              exact absurd hx' not_evaluated_list
          have htext := hargs'.item (List.mem_cons_of_mem _ (List.mem_cons_of_mem _ hstep))
          exact .inr (.inr ⟨name, args, x, rfl, hx, .inr htext,
            hsteps _ _ _ hargs' hform _ _ hstep x⟩)

/-! ## What slots have stored -/

section Runs

variable [Number N] {usesClock : Bool} {m : Machine N W}

theorem tickClock_body {A : EvalAlloc → Bool} {now : UInt64} {e : StateEntry N} {payload : Bytes}
    {forms : List (Value N)} (h : (tickClock A now e).result = .ok (.body payload forms)) :
    payload = e.bytes := by
  unfold tickClock at h
  split at h
  · cases h
  · split at h
    · cases h
      rfl
    · cases h
    · cases h
    · cases h
    · unfold tickAggregate at h
      split at h
      · cases h
      · split at h
        · cases h
        · split at h
          · cases h
          · cases h
    · cases h

/-- In every reachable state the stored forms are those of calls in the text, and a tick
evaluates no others; a body sees the payload that the slot has saved. -/
theorem stored_forms_are_text (hsteps : NoStoringSteps rules) (h : Reached rules usesClock m)
    (j : ℕ) (e : StateEntry N) (he : e ∈ (m.ruleState j).items) :
    (e.clockKind = .onSilence → StoredText rules e.clockBody ∧ ∀ f ∈ e.clockBody, InText rules f) ∧
      (e.clockKind = .dropout → InText rules e.lostForm ∧ InText rules e.foundForm) ∧
      (∀ A now payload forms, (tickClock A now e).result = .ok (.body payload forms) →
        payload = e.bytes ∧ StoredText rules forms) ∧
      ∀ A now f, (tickClock A now e).result = .ok (.form f) → InText rules f := by
  have hbodies : ∀ r ∈ rules, FromText rules r.body := fun r hr => .inl ⟨r, hr, .self r.body⟩
  have hdeferred := (h.keeping (discipline_text hsteps) hbodies).slots j e he
  refine ⟨?_, ?_, ?_, ?_⟩
  · intro hkind
    have hbody := hdeferred.onSilence hkind
    exact ⟨hbody, fun f hf => inText_of_stored hbody hf⟩
  · intro hkind
    have hforms := hdeferred.dropout hkind
    exact ⟨inText_of_stored hforms (by simp), inText_of_stored hforms (by simp)⟩
  · intro A now payload forms hresult
    exact ⟨tickClock_body hresult, within_tickClock now hdeferred hresult⟩
  · intro A now f hresult
    obtain ⟨l, hl, hf⟩ := within_tickClock now hdeferred hresult
    exact inText_of_stored hl hf

end Runs

/-! ## Two rules -/

/-- What follows the silence is the value that comes down the thread. -/
def threadedSilence : RuleSource ℤ :=
  ⟨lit "*", .list [.symbol (lit "->"), .symbol (lit "payload"),
    .list [.symbol (lit "on-silence"), .keyword (lit "ms"), .number 10]], false⟩

/-- What follows the silence is a form, with a thread in it. -/
def plainSilence : RuleSource ℤ :=
  ⟨lit "*", .list [.symbol (lit "on-silence"), .keyword (lit "ms"), .number 10,
    .list [.symbol (lit "->"), .symbol (lit "payload"),
      .list [.symbol (lit "publish!"), .string (lit "b")]]], false⟩

/-- The machine after one message, and the kinds and texts of what is stored. -/
def armed (r : RuleSource ℤ) : Option (Machine ℤ Journal) :=
  (evalPublish (journalEnv (fun _ => none) writtenOver payloadDrawn 9) ⟨5000, 0, false⟩ (lit "a") (lit "1")
    ⟨loadProgram [r] true, []⟩).map Prod.snd

def storedTexts (m : Machine ℤ Journal) : List (Bool × List Bytes) :=
  (m.ruleState 0).items.map fun e => (e.clockKind == .onSilence, e.clockBody.map Value.text)

theorem reached_armed {r : RuleSource ℤ} {m : Machine ℤ Journal} (h : armed r = some m) :
    Reached [r] true m := by
  obtain ⟨⟨ok, m'⟩, hrun, rfl⟩ := Option.map_eq_some_iff.mp h
  exact .publish _ _ _ _ (.load []) hrun

theorem text_threadedSilence {v : Value ℤ} (h : InText [threadedSilence] v) :
    v.text ≠ lit "1" := by
  obtain ⟨r, hr, h⟩ := h
  obtain rfl := List.mem_singleton.mp hr
  rcases h with _ | ⟨hv, h⟩
  · decide
  · simp only [List.mem_cons, List.not_mem_nil, or_false] at hv
    rcases hv with rfl | rfl | rfl
    · cases h
      decide
    · cases h
      decide
    · rcases h with _ | ⟨hv, h⟩
      · decide
      · simp only [List.mem_cons, List.not_mem_nil, or_false] at hv
        rcases hv with rfl | rfl | rfl <;> cases h <;> decide

/-- The payload of the message that armed the slot is what it has stored. -/
theorem threaded_silence_stores_payload :
    ¬∀ (rules : List (RuleSource ℤ)) (usesClock : Bool) (m : Machine ℤ Journal),
      Reached rules usesClock m → ∀ j, ∀ e ∈ (m.ruleState j).items,
        (e.clockKind = .onSilence → ∀ f ∈ e.clockBody, InText rules f) ∧
          (e.clockKind = .dropout → InText rules e.lostForm ∧ InText rules e.foundForm) := by
  intro hclaim
  have hsome : (armed threadedSilence).isSome = true := by decide +kernel
  have hstored : (armed threadedSilence).map storedTexts = some [(true, [lit "1"])] := by
    decide +kernel
  obtain ⟨m, hm⟩ := Option.isSome_iff_exists.mp hsome
  rw [hm] at hstored
  have hitems := Option.some.inj hstored
  obtain ⟨e, rest, he, hfirst, -⟩ := List.map_eq_cons_iff.mp hitems
  obtain ⟨hkind, htexts⟩ := Prod.mk.inj hfirst
  obtain ⟨f, tail, hf, htext, -⟩ := List.map_eq_cons_iff.mp htexts
  have hin := (hclaim [threadedSilence] true m (reached_armed hm) 0 e (by simp [he])).1
    (by simpa using hkind) f (by simp [hf])
  exact text_threadedSilence hin htext

theorem noStoringSteps_plainSilence : NoStoringSteps [plainSilence] := by
  rintro head v fs ⟨r, hr, h⟩ hform name args hmem x
  obtain rfl := List.mem_singleton.mp hr
  rcases h with _ | ⟨hv, h⟩
  · exact absurd hform (by decide)
  simp only [List.mem_cons, List.not_mem_nil, or_false] at hv
  rcases hv with rfl | rfl | rfl | rfl
  · cases h
  · cases h
  · cases h
  rcases h with _ | ⟨hv, h⟩
  · -- the thread: its one step publishes
    obtain ⟨rfl, rfl⟩ : name = lit "publish!" ∧ args = [.string (lit "b")] := by
      simpa using hmem
    rfl
  simp only [List.mem_cons, List.not_mem_nil, or_false] at hv
  rcases hv with rfl | rfl | rfl
  · cases h
  · cases h
  rcases h with _ | ⟨hv, h⟩
  · exact absurd hform (by decide)
  · simp only [List.mem_cons, List.not_mem_nil, or_false] at hv
    rcases hv with rfl | rfl <;> cases h

/-- A slot that has stored the body of the rule's own call. -/
theorem plain_silence_stores_text : ∃ m e, armed plainSilence = some m ∧
    e ∈ (m.ruleState 0).items ∧ e.clockKind = .onSilence ∧
      StoredText [plainSilence] e.clockBody := by
  have hsome : (armed plainSilence).isSome = true := by decide +kernel
  have hstored : (armed plainSilence).map storedTexts = some [(true, [[]])] := by
    decide +kernel
  obtain ⟨m, hm⟩ := Option.isSome_iff_exists.mp hsome
  rw [hm] at hstored
  obtain ⟨e, rest, he, hfirst, -⟩ := List.map_eq_cons_iff.mp (Option.some.inj hstored)
  have hmem : e ∈ (m.ruleState 0).items := by simp [he]
  have hkind : e.clockKind = .onSilence := by simpa using (Prod.mk.inj hfirst).1
  exact ⟨m, e, hm, hmem, hkind,
    ((stored_forms_are_text noStoringSteps_plainSilence (reached_armed hm) 0 e hmem).1 hkind).1⟩

end Monoblok.Patchbay
