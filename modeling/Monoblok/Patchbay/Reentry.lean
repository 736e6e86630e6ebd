import Monoblok.Patchbay.Linked
import Monoblok.Patchbay.RuleIndex

/-!
# Re-entry

The evaluation of a message, marked in a log beside the world: where it begins and
ends, which rule it comes to and what is read of the message then, and what the router
has accepted from which rule. The log changes nothing about the evaluation. It is a
tree: each message accepted from a reentrant rule below the cap is followed at once by
one evaluation of it, every other one by none. That evaluation comes to the rules in
source order and runs each that matches the message; for a message that lies in the
buffer of a slot this is so as long as the rules still find it there.
-/

namespace Monoblok.Patchbay

open Relational Filter

variable {N W : Type}

/-! ## Marks -/

inductive Mark where
  | enter (depth : ℕ) (subject payload : Bytes)
  | rule (depth ruleIdx : ℕ) (subject payload : Bytes)
  | emit (depth ruleIdx : ℕ) (subject payload : Bytes)
  | leave (depth : ℕ)
  deriving DecidableEq

/-- The router beside a log that it does not see. -/
def Env.logged (env : Env N W) : Env N (W × List Mark) where
  alloc := env.alloc
  readJson := env.readJson
  rewritten := env.rewritten
  drawn := env.drawn
  route w subject payload :=
    (((env.route w.1 subject payload).1, w.2), (env.route w.1 subject payload).2)
  fuel := env.fuel

/-- The router of a rule, with a mark for each message it accepts. -/
def Env.marking (env : Env N W) (depth ruleIdx : ℕ) : Env N (W × List Mark) where
  alloc := env.alloc
  readJson := env.readJson
  rewritten := env.rewritten
  drawn := env.drawn
  route w subject payload :=
    let (w', ok) := env.route w.1 subject payload
    ((w', if ok then w.2 ++ [.emit depth ruleIdx subject payload] else w.2), ok)
  fuel := env.fuel

def mark (x : Mark) : MachineM N (W × List Mark) Unit :=
  modify fun m => { m with world := (m.world.1, m.world.2 ++ [x]) }

section Marked

variable [Number N] (env : Env N W) (t : Moment)

/-- `evalRuleForPublish` with its marks, the first with what is read of the message. -/
def markedRule (again : Slice → Slice → MachineM N (W × List Mark) Bool) (depth : ℕ)
    (subject payload : Slice) (i : ℕ) : MachineM N (W × List Mark) Bool := do
  let m ← get
  mark (.rule depth i (m.read env.rewritten subject) (m.read env.rewritten payload))
  evalRuleForPublish (env.marking depth i) t again subject payload i

def markedRules (again : Slice → Slice → MachineM N (W × List Mark) Bool) (depth : ℕ)
    (subject payload : Slice) : List ℕ → MachineM N (W × List Mark) Bool
  | [] => pure true
  | i :: is => do
    let a ← markedRule env t again depth subject payload i
    let b ← markedRules again depth subject payload is
    pure (a && b)

def markedRulesFor (again : Slice → Slice → MachineM N (W × List Mark) Bool) (depth : ℕ)
    (subject payload : Slice) : MachineM N (W × List Mark) Bool := do
  let m ← get
  mark (.enter depth (m.read env.rewritten subject) (m.read env.rewritten payload))
  let ok ← markedRules env t again depth subject payload
    (ruleOrder m.program (m.read env.rewritten subject))
  mark (.leave depth)
  pure ok

/-- `evalPublishSlices` with its marks. -/
def markedSlices : ℕ → Slice → Slice → MachineM N (W × List Mark) Bool
  | 0 => markedRulesFor env t (fun _ _ => pure true) maxReentryDepth
  | left + 1 => markedRulesFor env t (markedSlices left) (maxReentryDepth - (left + 1))

/-- What a published message comes to, with its marks. -/
def markedReentry : ℕ → Slice → Slice → MachineM N (W × List Mark) Bool
  | 0 => fun _ _ => pure true
  | left + 1 => markedSlices env t left

theorem markedSlices_eq (left : ℕ) :
    markedSlices env t left = markedRulesFor env t (markedReentry env t left)
      (maxReentryDepth - left) := by
  cases left <;> rfl

end Marked

/-! ## The marks of an evaluation -/

/-- What a rule logs that is evaluated at a depth: messages accepted by the router, each
with the evaluation it sets off. -/
inductive Emissions (reentrant : Bool) (evaluation : Bytes → Bytes → List Mark → Prop)
    (depth i : ℕ) : List Mark → Prop
  | none : Emissions reentrant evaluation depth i []
  | delivered {subject payload : Bytes} {rest : List Mark}
      (ends : reentrant = false ∨ depth = maxReentryDepth)
      (more : Emissions reentrant evaluation depth i rest) :
      Emissions reentrant evaluation depth i (.emit depth i subject payload :: rest)
  | evaluated {subject payload : Bytes} {body rest : List Mark} (reenters : reentrant = true)
      (below : depth < maxReentryDepth) (inner : evaluation subject payload body)
      (more : Emissions reentrant evaluation depth i rest) :
      Emissions reentrant evaluation depth i (.emit depth i subject payload ::
        .enter (depth + 1) subject payload :: (body ++ .leave (depth + 1) :: rest))

/-- The rules that a loop comes to, each with what is read of the message then. -/
abbrev Visits := List (ℕ × Bytes × Bytes)

/-- What a loop over the rules logs: each rule that it comes to, and what that rule logs
if it takes what is read. -/
inductive RuleRuns (takes : Bytes → ℕ → Bool) (logs : ℕ → List Mark → Prop) (depth : ℕ) :
    Visits → List Mark → Prop
  | none : RuleRuns takes logs depth [] []
  | skipped {i : ℕ} {subject payload : Bytes} {xs : Visits} {rest : List Mark}
      (skips : takes subject i = false) (more : RuleRuns takes logs depth xs rest) :
      RuleRuns takes logs depth ((i, subject, payload) :: xs) (.rule depth i subject payload :: rest)
  | evaluated {i : ℕ} {subject payload : Bytes} {xs : Visits} {body rest : List Mark}
      (matched : takes subject i = true) (inner : logs i body)
      (more : RuleRuns takes logs depth xs rest) :
      RuleRuns takes logs depth ((i, subject, payload) :: xs)
        (.rule depth i subject payload :: (body ++ rest))

/-- Which rules of a program are reentrant. -/
def Program.reentrant (p : Program N) (i : ℕ) : Bool := (p.rules[i]?.map Rule.reentrant).getD false

/-- The rules that match a message, in source order, each with the message. -/
def Program.rulesFor (p : Program N) (subject payload : Bytes) : List (ℕ × Bytes × Bytes) :=
  ((ruleOrder p subject).filter (p.ruleMatches subject)).map fun i => (i, subject, payload)

/-- What a rule of a program logs with so many levels of re-entry below it, where `Q` is
so of each message that is evaluated and of the rules that its evaluation comes to. -/
def Program.ruleLogs (p : Program N) (Q : Bytes → Bytes → Visits → Prop) :
    ℕ → ℕ → List Mark → Prop
  | 0, i => Emissions (p.reentrant i) (fun _ _ _ => False) maxReentryDepth i
  | left + 1, i =>
    Emissions (p.reentrant i)
      (fun subject payload body => ∃ xs : Visits, xs.map Prod.fst = ruleOrder p subject ∧
        Q subject payload xs ∧
          RuleRuns p.ruleMatches (ruleLogs p Q left) (maxReentryDepth - left) xs body)
      (maxReentryDepth - (left + 1)) i

/-- What the evaluation of a message logs. -/
def Program.Logs (p : Program N) (Q : Bytes → Bytes → Visits → Prop) (left : ℕ)
    (subject payload : Bytes) (body : List Mark) : Prop :=
  ∃ xs : Visits, xs.map Prod.fst = ruleOrder p subject ∧ Q subject payload xs ∧
    RuleRuns p.ruleMatches (p.ruleLogs Q left) (maxReentryDepth - left) xs body

/-- The rules that are evaluated are those that match the message, each with it. -/
def Program.Meets (p : Program N) (subject payload : Bytes) (xs : Visits) : Prop :=
  xs.filter (fun x => p.ruleMatches x.2.1 x.1) = p.rulesFor subject payload

/-- Each rule takes what is read as it takes the message, and finds the message if it
matches. -/
def Program.Finds (p : Program N) (subject payload : Bytes) (xs : Visits) : Prop :=
  ∀ x ∈ xs, p.ruleMatches x.2.1 x.1 = p.ruleMatches subject x.1 ∧
    (p.ruleMatches subject x.1 = true → x.2 = (subject, payload))

/-- A message, and each message that its evaluation sets off, is evaluated against all
rules that match it, each once and with this message. -/
def Program.Evaluates (p : Program N) : ℕ → Bytes → Bytes → List Mark → Prop := p.Logs p.Meets

/-- Whenever one of these evaluations comes to a rule, its message is still there. -/
def Program.Undisturbed (p : Program N) : ℕ → Bytes → Bytes → List Mark → Prop := p.Logs p.Finds

/-- The rule of a mark at a depth. -/
def Mark.ruleAt (depth : ℕ) : Mark → Option (ℕ × Bytes × Bytes)
  | .rule d i subject payload => if d = depth then some (i, subject, payload) else none
  | _ => Option.none

/-- A mark from deeper than a depth, and no deeper than the cap. -/
def Mark.Within (depth : ℕ) : Mark → Prop
  | .enter d _ _ => d ≤ maxReentryDepth
  | .rule d _ _ _ => depth < d
  | _ => True

section Trees

variable {reentrant : Bool} {evaluation : Bytes → Bytes → List Mark → Prop} {depth i : ℕ}
  {l l' : List Mark}

theorem Emissions.append (h : Emissions reentrant evaluation depth i l)
    (h' : Emissions reentrant evaluation depth i l') :
    Emissions reentrant evaluation depth i (l ++ l') := by
  induction h with
  | none => exact h'
  | delivered ends more ih => exact .delivered ends ih
  | evaluated reenters below inner more ih =>
    rw [List.cons_append, List.cons_append, List.append_assoc]
    exact .evaluated reenters below inner ih

/-- The marks that a rule leaves above an evaluation: what it emits, and the evaluations
that follow. -/
theorem Emissions.mem {P : Mark → Prop} (h : Emissions reentrant evaluation depth i l)
    (hemit : ∀ s pl, P (.emit depth i s pl))
    (henter : depth < maxReentryDepth → ∀ s pl, P (.enter (depth + 1) s pl))
    (hleave : P (.leave (depth + 1)))
    (hinner : depth < maxReentryDepth → ∀ s pl body, evaluation s pl body → ∀ x ∈ body, P x) :
    ∀ x ∈ l, P x := by
  induction h with
  | none => simp
  | delivered ends more ih =>
    intro x hx
    rcases List.mem_cons.mp hx with rfl | hx
    · exact hemit _ _
    · exact ih x hx
  | evaluated reenters below inner more ih =>
    intro x hx
    rcases List.mem_cons.mp hx with rfl | hx
    · exact hemit _ _
    rcases List.mem_cons.mp hx with rfl | hx
    · exact henter below _ _
    rcases List.mem_append.mp hx with hx | hx
    · exact hinner below _ _ _ inner x hx
    rcases List.mem_cons.mp hx with rfl | hx
    · exact hleave
    · exact ih x hx

variable {logs : ℕ → List Mark → Prop} {takes : Bytes → ℕ → Bool} {xs : Visits}

theorem RuleRuns.mem {P : Mark → Prop} (h : RuleRuns takes logs depth xs l)
    (hrule : ∀ i s pl, P (.rule depth i s pl)) (hinner : ∀ i body, logs i body → ∀ x ∈ body, P x) :
    ∀ x ∈ l, P x := by
  induction h with
  | none => simp
  | skipped skips more ih =>
    intro x hx
    rcases List.mem_cons.mp hx with rfl | hx
    · exact hrule _ _ _
    · exact ih x hx
  | evaluated matched inner more ih =>
    intro x hx
    rcases List.mem_cons.mp hx with rfl | hx
    · exact hrule _ _ _
    rcases List.mem_append.mp hx with hx | hx
    · exact hinner _ _ inner x hx
    · exact ih x hx

/-- The log of a loop shows which rules it came to. -/
theorem RuleRuns.rules (h : RuleRuns takes logs depth xs l)
    (hlogs : ∀ i body, logs i body → ∀ x ∈ body, x.ruleAt depth = Option.none) :
    l.filterMap (Mark.ruleAt depth) = xs := by
  induction h with
  | none => rfl
  | skipped skips more ih => simp [Mark.ruleAt, ih]
  | evaluated matched inner more ih =>
    have hbody := List.filterMap_eq_nil_iff.mpr (hlogs _ _ inner)
    simp [Mark.ruleAt, hbody, ih]

variable {Q Q' : Bytes → Bytes → Visits → Prop}

theorem Program.ruleLogs_iff (p : Program N) (left i : ℕ) (l : List Mark) :
    p.ruleLogs Q left i l ↔
      Emissions (p.reentrant i) (fun s pl body => ∃ left', left = left' + 1 ∧
        p.Logs Q left' s pl body) (maxReentryDepth - left) i l := by
  cases left with
  | zero =>
    have hnone : (fun (s pl : Bytes) (body : List Mark) => ∃ left', 0 = left' + 1 ∧
        p.Logs Q left' s pl body) = fun _ _ _ => False := by
      funext s pl body
      simp
    rw [hnone]
    rfl
  | succ left =>
    have hsome : (fun (s pl : Bytes) (body : List Mark) => ∃ left', left + 1 = left' + 1 ∧
        p.Logs Q left' s pl body) = p.Logs Q left := by
      funext s pl body
      simp
    rw [hsome]
    rfl

/-- What the rules of an evaluation log is deeper, and no deeper than the cap. -/
theorem Program.ruleLogs_within (p : Program N) {left : ℕ} (hleft : left ≤ maxReentryDepth) {i : ℕ}
    (h : p.ruleLogs Q left i l) : ∀ x ∈ l, x.Within (maxReentryDepth - left) := by
  induction left generalizing i l with
  | zero =>
    exact Emissions.mem h (fun _ _ => trivial) (fun hbelow => absurd hbelow (lt_irrefl _)) trivial
      fun hbelow => absurd hbelow (lt_irrefl _)
  | succ left ih =>
    refine Emissions.mem h (fun _ _ => trivial) (fun hbelow _ _ => hbelow) trivial
      fun _ s pl body hbody => ?_
    obtain ⟨xs, -, -, hruns⟩ := hbody
    refine RuleRuns.mem hruns (fun j s pl => ?_) fun j body hinner x hx => ?_
    · change maxReentryDepth - (left + 1) < maxReentryDepth - left
      omega
    · have hwithin := ih (by omega) hinner x hx
      cases x with
      | enter d s pl => exact hwithin
      | rule d j s pl => exact lt_of_le_of_lt (by omega) hwithin
      | emit | leave => trivial

/-- No evaluation goes deeper than the cap. -/
theorem Program.Logs.enter_le {p : Program N} {left : ℕ} (hleft : left ≤ maxReentryDepth)
    {subject payload : Bytes} (h : p.Logs Q left subject payload l) {d : ℕ} {s pl : Bytes}
    (hmem : Mark.enter d s pl ∈ l) : d ≤ maxReentryDepth := by
  obtain ⟨xs, -, -, hruns⟩ := h
  have hall : ∀ x ∈ l, ∀ d s pl, x = Mark.enter d s pl → d ≤ maxReentryDepth := by
    refine hruns.mem (fun i s pl d s' pl' heq => by cases heq) fun i body hbody x hx d s pl heq => ?_
    have hwithin := p.ruleLogs_within hleft hbody x hx
    rw [heq] at hwithin
    exact hwithin
  exact hall _ hmem d s pl rfl

/-- The rules that the loop came to are those that are marked at its depth. -/
theorem Program.ruleRuns_rules (p : Program N) {left : ℕ} (hleft : left ≤ maxReentryDepth)
    (h : RuleRuns takes (p.ruleLogs Q left) (maxReentryDepth - left) xs l) :
    l.filterMap (Mark.ruleAt (maxReentryDepth - left)) = xs := by
  refine h.rules fun i body hbody x hx => ?_
  have hwithin := p.ruleLogs_within hleft hbody x hx
  cases x with
  | rule d j s pl => exact if_neg (Nat.ne_of_gt hwithin)
  | enter | emit | leave => rfl

/-- What is so of the rules that are come to may be put in other words. -/
theorem Program.logs_congr {p : Program N}
    (h : ∀ (s pl : Bytes) (xs : Visits), xs.map Prod.fst = ruleOrder p s → (Q s pl xs ↔ Q' s pl xs))
    (left : ℕ) : p.Logs Q left = p.Logs Q' left := by
  have hlogs : ∀ {left}, p.ruleLogs Q left = p.ruleLogs Q' left → p.Logs Q left = p.Logs Q' left := by
    intro left hrule
    funext s pl body
    unfold Program.Logs
    rw [hrule]
    exact propext (exists_congr fun xs => and_congr_right fun hxs =>
      and_congr_left fun _ => h s pl xs hxs)
  have hrules : ∀ left, p.ruleLogs Q left = p.ruleLogs Q' left := by
    intro left
    induction left with
    | zero => rfl
    | succ left ih =>
      funext i l
      have hsame := hlogs ih
      exact congrArg (fun evaluation => Emissions (p.reentrant i) evaluation
        (maxReentryDepth - (left + 1)) i l) hsame
  exact hlogs (hrules left)

/-- The rules that are evaluated are the matching ones exactly when every rule finds the
message. -/
theorem Program.meets_iff_finds (p : Program N) {s pl : Bytes} {xs : Visits}
    (horder : xs.map Prod.fst = ruleOrder p s) (hnodup : (xs.map Prod.fst).Nodup) :
    p.Meets s pl xs ↔ p.Finds s pl xs := by
  rw [Program.Meets, Program.rulesFor, ← horder]
  clear horder
  induction xs with
  | nil => simp [Program.Finds]
  | cons x xs ih =>
    obtain ⟨i, read⟩ := x
    rw [List.map_cons, List.nodup_cons] at hnodup
    have hfilter : ((((i, read) :: xs).map Prod.fst).filter (p.ruleMatches s)).map
        (fun j => (j, s, pl)) =
        if p.ruleMatches s i then
          (i, s, pl) :: ((xs.map Prod.fst).filter (p.ruleMatches s)).map fun j => (j, s, pl)
        else ((xs.map Prod.fst).filter (p.ruleMatches s)).map fun j => (j, s, pl) := by
      rw [List.map_cons, List.filter_cons]
      split_ifs <;> rfl
    rw [hfilter, List.filter_cons, ite_cons_eq_iff, ih hnodup.2, Program.Finds, Program.Finds,
      List.forall_mem_cons]
    · refine and_congr_left fun _ => and_congr_right fun _ => forall_congr' fun _ => ?_
      simp
    · intro hmem
      obtain ⟨j, hj, heq⟩ := List.mem_map.mp hmem
      obtain rfl : j = i := congrArg Prod.fst heq
      exact hnodup.1 (List.mem_of_mem_filter hj)
    · intro hmem
      exact hnodup.1 (List.mem_map.mpr ⟨_, List.mem_of_mem_filter hmem, rfl⟩)

end Trees

/-- So it is in all evaluations of a program at once. -/
theorem evaluates_iff_undisturbed (rules : List (RuleSource N)) (usesClock : Bool) (left : ℕ)
    (s pl : Bytes) (body : List Mark) :
    (loadProgram rules usesClock).Evaluates left s pl body ↔
      (loadProgram rules usesClock).Undisturbed left s pl body := by
  have hsame : ∀ (s pl : Bytes) (xs : Visits),
      xs.map Prod.fst = ruleOrder (loadProgram rules usesClock) s →
        ((loadProgram rules usesClock).Meets s pl xs ↔ (loadProgram rules usesClock).Finds s pl xs) := by
    intro s pl xs horder
    apply Program.meets_iff_finds _ horder
    rw [horder]
    exact nodup_ruleOrder rules usesClock s
  rw [Program.Evaluates, Program.Undisturbed, Program.logs_congr hsame]

/-! ## Evaluations log what they do -/

theorem SameSource.reentrant_eq {p q : Program N} (h : SameSource p q) (i : ℕ) :
    p.reentrant i = q.reentrant i := by
  have hrule := h.getElem? i
  unfold Program.reentrant
  generalize p.rules[i]? = x at hrule ⊢
  generalize q.rules[i]? = y at hrule ⊢
  cases hrule with
  | none => rfl
  | some hfilter hbody hreentrant => exact hreentrant

/-- A machine that runs the program and has logged, behind what it had logged before,
what a rule logs. -/
def Logged (p : Program N) (Q : Bytes → Bytes → Visits → Prop) (before : List Mark) (left i : ℕ)
    (m : Machine N (W × List Mark)) : Prop :=
  SameSource m.program p ∧ ∃ l, m.world.2 = before ++ l ∧ p.ruleLogs Q left i l

/-- Slices that evaluations hand on to one another, and what is so of the rules that the
evaluation of such a message comes to. -/
structure Keeps (env : Env N W) (Q : Bytes → Bytes → Visits → Prop) (S : Slice → Prop) : Prop where
  hands : ∀ {b : Bindings N} {s : Slice}, b.Hands s → S b.subjectAt → S b.payloadAt → S s
  visits : ∀ {subject payload : Slice}, S subject → S payload →
    ∀ (m : Machine N (W × List Mark)) {xs : Visits},
      (∀ x ∈ xs, ∃ m' : Machine N (W × List Mark),
        x.2 = (m'.read env.rewritten subject, m'.read env.rewritten payload)) →
      Q (m.read env.rewritten subject) (m.read env.rewritten payload) xs

theorem keeps_all (env : Env N W) : Keeps env (fun _ _ _ => True) fun _ => True :=
  ⟨fun _ _ _ => trivial, fun _ _ _ _ _ => trivial⟩

/-- An evaluation of texts of its own hands on no others, and finds them wherever it
looks for them. -/
theorem keeps_held (env : Env N W) (p : Program N) :
    Keeps env p.Finds fun s => ∃ text, s = .held text where
  hands h := by
    rintro ⟨subject, hsubject⟩ ⟨payload, hpayload⟩
    exact h.held hsubject hpayload
  visits := by
    rintro _ _ ⟨s, rfl⟩ ⟨pl, rfl⟩ m xs hxs ⟨i, read⟩ hx
    obtain ⟨m', rfl⟩ := hxs _ hx
    exact ⟨rfl, fun _ => rfl⟩

section Logs

variable {env : Env N W} {p : Program N} {Q : Bytes → Bytes → Visits → Prop} {S : Slice → Prop}
  {before : List Mark} {left i : ℕ}

/-- Whoever evaluates a message logs one evaluation of it. -/
def LogsEvaluation (env : Env N W) (p : Program N) (Q : Bytes → Bytes → Visits → Prop)
    (S : Slice → Prop) (left : ℕ) (again : Slice → Slice → MachineM N (W × List Mark) Bool) : Prop :=
  ∀ subject payload, S subject → S payload → ∀ m, SameSource m.program p →
    ∀ ok m', again subject payload m = some (ok, m') →
      SameSource m'.program p ∧ ∃ body,
        p.Logs Q left (m.read env.rewritten subject) (m.read env.rewritten payload) body ∧
        m'.world.2 = m.world.2 ++
          .enter (maxReentryDepth - left) (m.read env.rewritten subject)
            (m.read env.rewritten payload) :: (body ++ [.leave (maxReentryDepth - left)])

/-- What a published message comes to with so many levels left. -/
def LogsReentry (env : Env N W) (p : Program N) (Q : Bytes → Bytes → Visits → Prop)
    (S : Slice → Prop) (left : ℕ) (again : Slice → Slice → MachineM N (W × List Mark) Bool) : Prop :=
  (left = 0 → again = fun _ _ => pure true) ∧
    ∀ left', left = left' + 1 → LogsEvaluation env p Q S left' again

theorem ruleLogs_none (p : Program N) (left i : ℕ) : p.ruleLogs Q left i [] :=
  (p.ruleLogs_iff left i []).mpr .none

/-- The router and the counters write over no slot. -/
theorem read_published (env : Env N W) (i : ℕ) (subject payload s : Slice) (m : Machine N W)
    (rewritten : Bytes → Bytes → Bytes) :
    (countEmitted i (routed env subject payload m)).read rewritten s = m.read rewritten s := by
  have hstate : ∀ j, (countEmitted i (routed env subject payload m)).ruleState j = m.ruleState j :=
    fun j => ruleState_modifyRule (routed env subject payload m) i j fun _ => rfl
  rw [Machine.read, Machine.read, lender_of_states hstate]

/-- A message that is published logs its mark, and its evaluation behind it. -/
theorem logged_publishCb {again : Slice → Slice → MachineM N (W × List Mark) Bool}
    (hleft : left ≤ maxReentryDepth) (hagain : LogsReentry env p Q S left again)
    {subject payload : Slice} (hsubject : S subject) (hpayload : S payload) :
    Respects (fun m m' => m = m' ∧ Logged p Q before left i m)
      (publishCb (env.marking (maxReentryDepth - left) i) again i (p.reentrant i) subject payload) := by
  apply Respects.of_invariant
  rintro m ⟨hsource, l, hlog, hl⟩ ok m' hrun
  rw [Program.ruleLogs_iff] at hl
  have hmore : ∀ {l'}, Emissions (p.reentrant i) (fun s pl body => ∃ left', left = left' + 1 ∧
      p.Logs Q left' s pl body) (maxReentryDepth - left) i l' → p.ruleLogs Q left i (l ++ l') :=
    fun h => (p.ruleLogs_iff left i _).mpr (hl.append h)
  have hreads := fun s => read_published (env.marking (maxReentryDepth - left) i) i subject payload s
    m env.rewritten
  generalize hpublished : countEmitted i (routed (env.marking (maxReentryDepth - left) i) subject
    payload m) = published at hreads
  have hsource' : SameSource published.program p := by
    subst hpublished
    exact hsource.modifyRule i fun _ => ⟨rfl, rfl, rfl⟩
  have hmarked : routerTakes (env.marking (maxReentryDepth - left) i) subject payload m = true →
      published.world.2 = before ++ (l ++ [.emit (maxReentryDepth - left) i
        (m.read env.rewritten subject) (m.read env.rewritten payload)]) := by
    intro haccepted
    subst hpublished
    rw [← List.append_assoc, ← hlog]
    exact if_pos haccepted
  rw [run_publishCb, hpublished] at hrun
  split_ifs at hrun with hvalid hrefused hreentrant
  · cases hrun
    exact ⟨hsource, l, hlog, (p.ruleLogs_iff left i l).mpr hl⟩
  · cases hrun
    have hsame : (routed (env.marking (maxReentryDepth - left) i) subject payload m).world.2 =
        m.world.2 :=
      if_neg (ne_true_of_eq_false hrefused)
    exact ⟨hsource, l, hsame.trans hlog, (p.ruleLogs_iff left i l).mpr hl⟩
  · have hmark := hmarked (Bool.eq_true_of_not_eq_false hrefused)
    obtain ⟨⟨ok', m''⟩, hinner, heq⟩ := Option.bind_eq_some_iff.mp hrun
    cases heq
    cases left with
    | zero =>
      rw [hagain.1 rfl] at hinner
      cases hinner
      exact ⟨hsource', _, hmark, hmore (.delivered (.inr rfl) .none)⟩
    | succ left =>
      have hdepth : maxReentryDepth - (left + 1) + 1 = maxReentryDepth - left := by omega
      obtain ⟨hsource'', body, hbody, hlog'⟩ :=
        hagain.2 left rfl subject payload hsubject hpayload _ hsource' ok' m'' hinner
      rw [hreads, hreads] at hbody hlog'
      refine ⟨hsource'', l ++ .emit (maxReentryDepth - (left + 1)) i (m.read env.rewritten subject)
          (m.read env.rewritten payload) ::
        .enter (maxReentryDepth - (left + 1) + 1) (m.read env.rewritten subject)
          (m.read env.rewritten payload) ::
          (body ++ [.leave (maxReentryDepth - (left + 1) + 1)]), ?_, ?_⟩
      · rw [hlog', hmark, hdepth]
        simp
      · exact hmore (.evaluated hreentrant (by omega) ⟨left, rfl, hbody⟩ .none)
  · have hmark := hmarked (Bool.eq_true_of_not_eq_false hrefused)
    cases hrun
    refine ⟨hsource', _, hmark, hmore (.delivered (.inl ?_) .none)⟩
    simpa using hreentrant

variable [Number N]

/-- Forms do nothing to the source of the program and to the log. -/
theorem evalCompatible_of_kept {I : Machine N (W × List Mark) → Prop}
    (hkept : ∀ {m m' : Machine N (W × List Mark)}, I m → m'.program.source = m.program.source →
      m'.world.2 = m.world.2 → I m') :
    EvalCompatible env.logged (fun _ _ _ => True) fun m m' => m = m' ∧ I m := by
  refine ⟨?_, ?_, ?_, ?_⟩
  · intro α ctx op f _ _ _
    apply Respects.of_invariant
    intro m hm r m' hrun
    obtain ⟨x, hx, hsteps⟩ := run_onSlot_spec ctx op f m
    rw [hx, Option.some.injEq] at hrun
    subst hrun
    exact hkept hm hsteps.source (congrArg Prod.snd hsteps.world)
  · intro ruleId
    apply Respects.of_invariant
    rintro m hm r m' hrun
    cases hrun
    exact hkept hm (source_modifyRule m ruleId fun _ => ⟨rfl, rfl, rfl⟩) rfl
  · rintro ruleId m _ ⟨rfl, hm⟩
    exact ⟨rfl, hkept hm (source_modifyRule m ruleId fun _ => ⟨rfl, rfl, rfl⟩) rfl⟩
  · rintro subject payload m _ ⟨rfl, hm⟩
    exact ⟨rfl, rfl, hkept hm rfl rfl⟩

theorem evalCompatible_logged :
    EvalCompatible env.logged (fun _ _ _ => True)
      (fun m m' => m = m' ∧ Logged p Q before left i m) := by
  apply evalCompatible_of_kept
  rintro m m' ⟨hsource, l, hlog, hl⟩ hprogram hworld
  exact ⟨sameSource_iff.mpr (hprogram.trans (sameSource_iff.mp hsource)), l, hworld.trans hlog, hl⟩

/-- The router behind the log leaves it alone. -/
theorem log_evalPublishSlices {t : Moment} {subject payload : Slice} {ok : Bool}
    {m m' : Machine N (W × List Mark)}
    (h : evalPublishSlices env.logged t left subject payload m = some (ok, m')) :
    m'.world.2 = m.world.2 := by
  have hcompatible : EvalCompatible env.logged (fun _ _ _ => True)
      fun m₁ m₂ : Machine N (W × List Mark) => m₁ = m₂ ∧ m₁.world.2 = m.world.2 :=
    evalCompatible_of_kept fun hm _ hworld => hworld.trans hm
  have hrespects : Respects (fun m₁ m₂ => m₁ = m₂ ∧ m₁.world.2 = m.world.2)
      (evalPublishSlices env.logged t left subject payload) :=
    respects_evalPublishSlices hcompatible t (fun h => h.1 ▸ ⟨rfl, rfl, rfl, rfl⟩)
      (fun _ _ => trivial) left subject payload (fun h => h.1 ▸ rfl) fun h => h.1 ▸ rfl
  exact Respects.invariant (I := fun m₁ => m₁.world.2 = m.world.2) hrespects rfl h

/-- What the evaluation of a rule logs. -/
theorem logged_evalRule {t : Moment} {again : Slice → Slice → MachineM N (W × List Mark) Bool}
    (hkeeps : Keeps env Q S) (hleft : left ≤ maxReentryDepth)
    (hagain : LogsReentry env p Q S left again) {subject payload : Slice} (hsubject : S subject)
    (hpayload : S payload) :
    Respects (fun m m' => m = m' ∧ Logged p Q before left i m)
      (evalRuleForPublish (env.marking (maxReentryDepth - left) i) t again subject payload i) := by
  apply Respects.get_bind
  rintro m _ ⟨rfl, hm⟩
  cases hrule : m.program.rules[i]? with
  | none => exact .some true ⟨rfl, hm⟩
  | some rule =>
    have hreentrant : rule.reentrant = p.reentrant i := by
      rw [← hm.1.reentrant_eq i, Program.reentrant, hrule]
      rfl
    have hctx : CtxsOk env.logged (fun _ _ _ => True)
        (fun m m' => m = m' ∧ Logged p Q before left i m)
        (ruleCtx (env.marking (maxReentryDepth - left) i) t again i rule.reentrant subject
          payload).toBindings
        (publishCb (env.marking (maxReentryDepth - left) i) again i rule.reentrant)
        (publishCb (env.marking (maxReentryDepth - left) i) again i rule.reentrant) := by
      refine ⟨⟨rfl, rfl, trivial, fun _ => trivial, fun h => h.1 ▸ rfl, fun h => h.1 ▸ rfl⟩, ?_⟩
      rw [hreentrant]
      intro s pl hs hpl
      exact logged_publishCb hleft hagain (hkeeps.hands hs hsubject hpayload)
        (hkeeps.hands hpl hsubject hpayload)
    have hbody : Respects (fun m m' => m = m' ∧ Logged p Q before left i m)
        (succeeds (eval env.fuel (ruleCtx (env.marking (maxReentryDepth - left) i) t again i
          rule.reentrant subject payload) rule.body)) :=
      respects_succeeds (relates_eval evalCompatible_logged env.fuel _ _ _ hctx rule.body)
    dsimp only
    split
    · exact .some true ⟨rfl, hm⟩
    · exact hbody m m ⟨rfl, hm⟩

end Logs

/-! ## Marks change nothing -/

/-- Machines that differ in the log at most. -/
def SameButLog (m m' : Machine N (W × List Mark)) : Prop :=
  m.program = m'.program ∧ m.world.1 = m'.world.1

/-- Hooks that do the same to machines that differ in the log at most. -/
def LogErased (again again' : Slice → Slice → MachineM N (W × List Mark) Bool) : Prop :=
  ∀ subject payload, Relates SameButLog (again subject payload) (again' subject payload)

theorem SameButLog.lender {m m' : Machine N (W × List Mark)} (h : SameButLog m m') (s : Slice) :
    m.lender s = m'.lender s :=
  lender_of_states (fun j => by rw [Machine.ruleState, Machine.ruleState, h.1]) s

theorem SameButLog.read {m m' : Machine N (W × List Mark)} (h : SameButLog m m')
    (rewritten : Bytes → Bytes → Bytes) (s : Slice) : m.read rewritten s = m'.read rewritten s := by
  rw [Machine.read, Machine.read, h.lender]

section Erasure

variable [Number N] {env : Env N W}

/-- A form does the same to machines with the same program. -/
theorem respects_onSlot_sameButLog {α : Type} (ctx : Ctx N (W × List Mark)) (op : Bytes)
    (f : StateEntry N → SlotStep N α) : Respects SameButLog (onSlot ctx op f).run := by
  rintro ⟨p, w⟩ ⟨_, w'⟩ ⟨rfl, hworld⟩
  have hsame : (⟨p, w'⟩ : Machine N (W × List Mark)).ruleState ctx.ruleId =
      (⟨p, w⟩ : Machine N (W × List Mark)).ruleState ctx.ruleId := rfl
  rw [run_onSlot, run_onSlot, hsame]
  generalize stateSlotIn ctx.alloc ((⟨p, w⟩ : Machine N (W × List Mark)).ruleState ctx.ruleId)
    ⟨ctx.ruleId, op, ctx.subject⟩ = x
  obtain ⟨st, o⟩ := x
  cases o with
  | none => exact .some _ ⟨rfl, hworld⟩
  | some i =>
    dsimp only
    have hstate : ((⟨p, w'⟩ : Machine N (W × List Mark)).setState ctx.ruleId st).ruleState ctx.ruleId =
        ((⟨p, w⟩ : Machine N (W × List Mark)).setState ctx.ruleId st).ruleState ctx.ruleId := rfl
    rw [run_atSlot, run_atSlot, hstate]
    apply Agree.some
    unfold Machine.stepped
    split_ifs
    · exact ⟨rfl, hworld⟩
    · exact ⟨rfl, hworld⟩

theorem evalCompatible_sameButLog :
    EvalCompatible env.logged (fun _ _ _ => True) (SameButLog (N := N) (W := W)) where
  onSlot := fun {_ ctx op f} _ _ _ => respects_onSlot_sameButLog ctx op f
  suppressed ruleId := by
    rintro ⟨p, w⟩ ⟨_, w'⟩ ⟨rfl, hworld⟩
    exact .some _ ⟨rfl, hworld⟩
  emitted ruleId := by
    rintro ⟨p, w⟩ ⟨_, w'⟩ ⟨rfl, hworld⟩
    exact ⟨rfl, hworld⟩
  route subject payload := by
    rintro ⟨p, w, l⟩ ⟨_, w', l'⟩ ⟨rfl, hworld⟩
    obtain rfl : w = w' := hworld
    exact ⟨rfl, rfl, rfl⟩

omit [Number N] in
theorem relates_publishCb_marking {again again' : Slice → Slice → MachineM N (W × List Mark) Bool}
    (hagain : LogErased again again') (depth i : ℕ) (reentrant : Bool) (subject payload : Slice) :
    Relates SameButLog (publishCb env.logged again i reentrant subject payload)
      (publishCb (env.marking depth i) again' i reentrant subject payload) := by
  intro m m' hm
  have hreads := fun s => (hm.read env.rewritten s).symm
  have hvalid : publishSubjectValid (m'.read (env.marking depth i).rewritten subject) =
      publishSubjectValid (m.read env.logged.rewritten subject) :=
    congrArg publishSubjectValid (hreads subject)
  have hanswer : env.route m'.world.1 (m'.read env.rewritten subject) (m'.read env.rewritten payload) =
      env.route m.world.1 (m.read env.rewritten subject) (m.read env.rewritten payload) := by
    rw [hreads, hreads, hm.2]
  have hworld := congrArg Prod.fst hanswer
  have hok := congrArg Prod.snd hanswer
  have haccepted : routerTakes (env.marking depth i) subject payload m' =
      routerTakes env.logged subject payload m := hok
  have hrouted : SameButLog (routed env.logged subject payload m)
      (routed (env.marking depth i) subject payload m') :=
    ⟨hm.1, hworld.symm⟩
  have hcounted : SameButLog (countEmitted i (routed env.logged subject payload m))
      (countEmitted i (routed (env.marking depth i) subject payload m')) :=
    ⟨by simp only [countEmitted, Machine.modifyRule, hrouted.1], hrouted.2⟩
  rw [run_publishCb, run_publishCb, haccepted, hvalid]
  split_ifs with hinvalid hrefused hreentrant
  · exact .some false hm
  · exact .some false hrouted
  · have hrun := hagain subject payload _ _ hcounted
    generalize again subject payload _ = x at hrun ⊢
    generalize again' subject payload _ = y at hrun ⊢
    cases hrun with
    | none => exact .none
    | some ok h => exact .some true h
  · exact .some true hcounted

variable {t : Moment} {again again' : Slice → Slice → MachineM N (W × List Mark) Bool}

/-- A rule is marked before it is evaluated. -/
theorem run_markedRule (depth : ℕ) (subject payload : Slice) (i : ℕ)
    (m : Machine N (W × List Mark)) :
    markedRule env t again depth subject payload i m =
      evalRuleForPublish (env.marking depth i) t again subject payload i
        { m with
          world := (m.world.1, m.world.2 ++
            [.rule depth i (m.read env.rewritten subject) (m.read env.rewritten payload)]) } := rfl

/-- An evaluation with its marks, from the loop over the rules. -/
theorem run_markedRulesFor (depth : ℕ) (subject payload : Slice) (m : Machine N (W × List Mark)) :
    markedRulesFor env t again' depth subject payload m =
      (markedRules env t again' depth subject payload
        (ruleOrder m.program (m.read env.rewritten subject))
        { m with
          world := (m.world.1, m.world.2 ++
            [.enter depth (m.read env.rewritten subject) (m.read env.rewritten payload)]) }).bind
        fun x => some (x.1, { x.2 with world := (x.2.world.1, x.2.world.2 ++ [.leave depth]) }) := rfl

variable (hagain : LogErased again again')

include hagain

theorem relates_evalRule_marking (depth : ℕ) (subject payload : Slice) (i : ℕ) :
    Relates SameButLog (evalRuleForPublish env.logged t again subject payload i)
      (evalRuleForPublish (env.marking depth i) t again' subject payload i) := by
  intro m m' hm
  have hrules : m'.program.rules = m.program.rules := by rw [hm.1]
  cases hrule : m.program.rules[i]? with
  | none =>
    rw [evalRuleForPublish_none hrule, evalRuleForPublish_none (hrules ▸ hrule)]
    exact .some true hm
  | some rule =>
    have hctx : CtxsOk env.logged (fun _ _ _ => True) SameButLog
        (ruleCtx env.logged t again i rule.reentrant subject payload).toBindings
        (publishCb env.logged again i rule.reentrant)
        (publishCb (env.marking depth i) again' i rule.reentrant) :=
      ⟨⟨rfl, rfl, trivial, fun _ => trivial, fun h => h.lender _, fun h => h.lender _⟩,
        fun s pl _ _ => relates_publishCb_marking hagain depth i rule.reentrant s pl⟩
    have hbody : Relates SameButLog
        (succeeds (eval env.fuel
          (ruleCtx env.logged t again i rule.reentrant subject payload) rule.body))
        (succeeds (eval env.fuel
          (ruleCtx (env.marking depth i) t again' i rule.reentrant subject payload) rule.body)) := by
      apply Relates.bind (relates_eval evalCompatible_sameButLog env.fuel _ _ _ hctx rule.body)
      intro r
      cases r with
      | ok a => exact .pure true
      | error e => exact .pure false
    rw [evalRuleForPublish_some hrule, evalRuleForPublish_some (hrules ▸ hrule)]
    have hread : m'.read (env.marking depth i).rewritten subject =
        m.read env.logged.rewritten subject := (hm.read env.rewritten subject).symm
    rw [hread]
    split_ifs
    · exact hbody _ _ hm
    · exact .some true hm

theorem relates_markedRule (depth : ℕ) (subject payload : Slice) (i : ℕ) :
    Relates SameButLog (evalRuleForPublish env.logged t again subject payload i)
      (markedRule env t again' depth subject payload i) := by
  intro m m' hm
  rw [run_markedRule]
  exact @relates_evalRule_marking _ _ _ env t _ _ hagain depth subject payload i m _ hm

theorem relates_markedRules (depth : ℕ) (subject payload : Slice) (is : List ℕ) :
    Relates SameButLog (evalRules env.logged t again subject payload is)
      (markedRules env t again' depth subject payload is) := by
  induction is with
  | nil => exact .pure true
  | cons i is ih =>
    apply Relates.bind (relates_markedRule hagain depth subject payload i)
    intro a
    exact .bind ih fun _ => .pure _

theorem relates_markedRulesFor (depth : ℕ) (subject payload : Slice) :
    Relates SameButLog (evalRulesFor env.logged t again subject payload)
      (markedRulesFor env t again' depth subject payload) := by
  intro m m' hm
  have hrules := @relates_markedRules _ _ _ env t _ _ hagain depth subject payload
    (ruleOrder m.program (m.read env.rewritten subject)) m
    { m' with
      world := (m'.world.1, m'.world.2 ++
        [.enter depth (m'.read env.rewritten subject) (m'.read env.rewritten payload)]) } hm
  have hunfold : evalRulesFor env.logged t again subject payload m =
      evalRules env.logged t again subject payload
        (ruleOrder m.program (m.read env.rewritten subject)) m := rfl
  have horder : ruleOrder m'.program (m'.read env.rewritten subject) =
      ruleOrder m.program (m.read env.rewritten subject) := by
    rw [hm.1, hm.read]
  rw [run_markedRulesFor, hunfold, horder]
  generalize evalRules env.logged t again subject payload _ _ = x at hrules ⊢
  generalize markedRules env t again' depth subject payload _ _ = y at hrules ⊢
  cases hrules with
  | none => exact .none
  | some ok h => exact .some ok ⟨h.1, h.2⟩

end Erasure

theorem relates_markedSlices [Number N] {env : Env N W} {t : Moment} (left : ℕ)
    (subject payload : Slice) :
    Relates SameButLog (evalPublishSlices env.logged t left subject payload)
      (markedSlices env t left subject payload) := by
  induction left generalizing subject payload with
  | zero => exact relates_markedRulesFor (fun _ _ => .pure true) maxReentryDepth subject payload
  | succ left ih => exact relates_markedRulesFor ih _ subject payload

/-! ## The evaluation of a message -/

section Lockstep

variable [Number N] {env : Env N W} {t : Moment} {left : ℕ} {p : Program N}
  {Q : Bytes → Bytes → Visits → Prop} {S : Slice → Prop}

/-- The loop over the rules logs each rule with what the message reads then, and what
the rule logs. -/
theorem logged_markedRules {again : Slice → Slice → MachineM N (W × List Mark) Bool}
    (hkeeps : Keeps env Q S) (hleft : left ≤ maxReentryDepth)
    (hagain : LogsReentry env p Q S left again) {subject payload : Slice} (hsubject : S subject)
    (hpayload : S payload) {is : List ℕ} {m m' : Machine N (W × List Mark)}
    (hsource : SameSource m.program p) {ok : Bool}
    (hrun : markedRules env t again (maxReentryDepth - left) subject payload is m = some (ok, m')) :
    SameSource m'.program p ∧ ∃ xs : Visits, ∃ body, xs.map Prod.fst = is ∧
      (∀ x ∈ xs, ∃ m₁ : Machine N (W × List Mark),
        x.2 = (m₁.read env.rewritten subject, m₁.read env.rewritten payload)) ∧
      RuleRuns p.ruleMatches (p.ruleLogs Q left) (maxReentryDepth - left) xs body ∧
      m'.world.2 = m.world.2 ++ body := by
  induction is generalizing m ok with
  | nil =>
    cases hrun
    exact ⟨hsource, [], [], rfl, fun _ h => (List.not_mem_nil h).elim, .none, (List.append_nil _).symm⟩
  | cons i is ih =>
    have hunfold : markedRules env t again (maxReentryDepth - left) subject payload (i :: is) m =
        (markedRule env t again (maxReentryDepth - left) subject payload i m).bind fun x =>
          (markedRules env t again (maxReentryDepth - left) subject payload is x.2).bind fun y =>
            some (x.1 && y.1, y.2) := rfl
    rw [hunfold] at hrun
    obtain ⟨⟨a, m₁⟩, hrule, hrest⟩ := Option.bind_eq_some_iff.mp hrun
    obtain ⟨⟨b, m₂⟩, hloop, heq⟩ := Option.bind_eq_some_iff.mp hrest
    cases heq
    rw [run_markedRule] at hrule
    generalize hmarked : ({ m with
      world := (m.world.1, m.world.2 ++ [.rule (maxReentryDepth - left) i
        (m.read env.rewritten subject) (m.read env.rewritten payload)]) } :
          Machine N (W × List Mark)) = marked at hrule
    have hread : marked.read env.rewritten subject = m.read env.rewritten subject := by
      subst hmarked
      rfl
    have hstart : Logged p Q (m.world.2 ++ [.rule (maxReentryDepth - left) i
        (m.read env.rewritten subject) (m.read env.rewritten payload)]) left i marked := by
      subst hmarked
      exact ⟨hsource, [], (List.append_nil _).symm, ruleLogs_none p left i⟩
    have hreads : ∀ {xs : Visits}, (∀ x ∈ xs, ∃ m₁ : Machine N (W × List Mark),
        x.2 = (m₁.read env.rewritten subject, m₁.read env.rewritten payload)) →
        ∀ x ∈ (i, m.read env.rewritten subject, m.read env.rewritten payload) :: xs,
          ∃ m₁ : Machine N (W × List Mark),
            x.2 = (m₁.read env.rewritten subject, m₁.read env.rewritten payload) :=
      fun h => List.forall_mem_cons.mpr ⟨⟨m, rfl⟩, h⟩
    cases hmatch : p.ruleMatches (m.read env.rewritten subject) i with
    | true =>
      obtain ⟨hsource₁, l, hlog, hl⟩ :=
        (logged_evalRule hkeeps hleft hagain hsubject hpayload).invariant hstart hrule
      obtain ⟨hsource', xs, body, hxs, hread', hbody, hlog'⟩ := ih hsource₁ hloop
      refine ⟨hsource', (i, m.read env.rewritten subject, m.read env.rewritten payload) :: xs, _,
        congrArg (List.cons i) hxs, hreads hread', .evaluated hmatch hl hbody, ?_⟩
      rw [hlog', hlog]
      simp
    | false =>
      have hskip : ¬marked.program.ruleMatches (marked.read env.rewritten subject) i = true := by
        rw [hread, hstart.1.ruleMatches_eq, hmatch]
        decide
      rw [show evalRuleForPublish (env.marking (maxReentryDepth - left) i) t again subject payload i
        marked = some (true, marked) from evalRuleForPublish_of_not_matches hskip] at hrule
      cases hrule
      obtain ⟨hsource', xs, body, hxs, hread', hbody, hlog'⟩ := ih hstart.1 hloop
      refine ⟨hsource', (i, m.read env.rewritten subject, m.read env.rewritten payload) :: xs, _,
        congrArg (List.cons i) hxs, hreads hread', .skipped hmatch hbody, ?_⟩
      rw [hlog', ← hmarked]
      simp

/-- The log of an evaluation. -/
theorem logsEvaluation_markedSlices (hkeeps : Keeps env Q S) (hleft : left ≤ maxReentryDepth)
    (hagain : LogsReentry env p Q S left (markedReentry env t left)) :
    LogsEvaluation env p Q S left (markedSlices env t left) := by
  intro subject payload hsubject hpayload m hsource ok m' hrun
  rw [markedSlices_eq, run_markedRulesFor] at hrun
  obtain ⟨⟨ok', m₁⟩, hloop, heq⟩ := Option.bind_eq_some_iff.mp hrun
  cases heq
  obtain ⟨hsource₁, xs, body, hxs, hreads, hbody, hlog⟩ :=
    logged_markedRules hkeeps hleft hagain hsubject hpayload (m := { m with
      world := (m.world.1, m.world.2 ++ [.enter (maxReentryDepth - left)
        (m.read env.rewritten subject) (m.read env.rewritten payload)]) }) hsource hloop
  refine ⟨hsource₁, body, ⟨xs, hxs.trans (hsource.ruleOrder _),
    hkeeps.visits hsubject hpayload m hreads, hbody⟩, ?_⟩
  change m₁.world.2 ++ [.leave _] = _
  rw [hlog]
  simp

/-- Every published message sets off one evaluation of it. -/
theorem logsReentry_markedReentry (hkeeps : Keeps env Q S) (hleft : left ≤ maxReentryDepth) :
    LogsReentry env p Q S left (markedReentry env t left) := by
  induction left with
  | zero => exact ⟨fun _ => rfl, fun left' h => by omega⟩
  | succ left ih =>
    refine ⟨fun h => by omega, ?_⟩
    rintro _ ⟨rfl⟩
    exact logsEvaluation_markedSlices hkeeps (by omega) (ih (by omega))

end Lockstep

end Monoblok.Patchbay
