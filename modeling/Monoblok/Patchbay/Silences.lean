import Monoblok.Patchbay.Admitted
import Monoblok.Patchbay.Exact
import Monoblok.Snapshot.Restored

/-!
# Silences

A slot of `dropout` or `on-silence` is armed by each match and fires at the first tick
from its deadline on. Its log has the matches that armed it and what was evaluated
because of it, in the order in which the slot was worked on. A form that is evaluated may
publish, and so match the same rule again, before it is done; its own line in the log
comes before, since the slot is updated before the form is evaluated.
-/

namespace Monoblok.Patchbay

open Number

variable {N : Type} [Number N]

/-! ## Runs -/

/-- A line in the log of a slot. -/
inductive Silence where
  | matched (now ms : UInt64)
  | lost (now : UInt64)
  | found (now : UInt64)
  | body (now : UInt64)
  deriving DecidableEq, Repr

def Silence.now : Silence → UInt64
  | .matched now _ | .lost now | .found now | .body now => now

/-- What is done to a slot: `dropout` and `on-silence` with the number of milliseconds,
and a tick. -/
inductive SilenceOp (N : Type) where
  | dropout (ms now : UInt64) (lost found : Value N)
  | onSilence (A : EvalAlloc → Bool) (ms now : UInt64) (payload : Bytes) (forms : List (Value N))
  | tick (A : EvalAlloc → Bool) (now : UInt64)

namespace SilenceOp

def entry : SilenceOp N → StateEntry N → StateEntry N
  | .dropout ms now lost found, e => (dropoutArm ms now lost found e).entry
  | .onSilence A ms now payload forms, e => (onSilenceArm A ms now payload forms e).entry
  | .tick A now, e => (tickEntry A now e).entry

/-- The lines it adds to the log, the latest first. A slot of another form is left alone. -/
def lines : SilenceOp N → StateEntry N → List Silence
  | .dropout ms now lost found, e =>
    match (dropoutArm ms now lost found e).result with
    | .ok (some _) => [.found now, .matched now ms]
    | .ok none => [.matched now ms]
    | .error _ => []
  | .onSilence A ms now payload forms, e =>
    match (onSilenceArm A ms now payload forms e).result with
    | .error .type => []
    | _ => [.matched now ms]
  | .tick A now, e =>
    match (tickEntry A now e).result with
    | .ok (.inl (.form _)) => [.lost now]
    | .ok (.inl (.body _ _)) => [.body now]
    | _ => []

end SilenceOp

/-- A slot that has come from one that is no clock, with its log, the latest line first. -/
inductive SilenceRun : StateEntry N → List Silence → Prop
  | idle {e : StateEntry N} (hkind : e.kind ≠ .clock) (hlost : e.dropoutLost = false) :
      SilenceRun e []
  | step {e : StateEntry N} {log : List Silence} (h : SilenceRun e log) (op : SilenceOp N) :
      SilenceRun (op.entry e) (op.lines e ++ log)

/-! ## What a log says -/

/-- Whether LOST or FOUND was evaluated, the first evaluation first. -/
def turns (log : List Silence) : List Bool :=
  log.reverse.filterMap fun
    | .lost _ => some true
    | .found _ => some false
    | _ => none

/-- LOST and FOUND take turns, and LOST is first. -/
def Alternates (log : List Silence) : Prop :=
  ∀ i lost, (turns log)[i]? = some lost → lost = (i % 2 == 0)

/-- Nothing has fired since a match. -/
def LastMatch (m ms : UInt64) (log : List Silence) : Prop :=
  ∃ rest, log = .matched m ms :: rest ∨ log = .found m :: .matched m ms :: rest

/-- The deadline of a match is a point in time. -/
def Reaches (m ms : UInt64) : Prop := m.toNat + ms.toNat < 2 ^ 64

instance (m ms : UInt64) : Decidable (Reaches m ms) :=
  inferInstanceAs (Decidable (m.toNat + ms.toNat < 2 ^ 64))

/-- From a match on nothing has matched for a number of milliseconds, and more. -/
def Silent (m ms now : UInt64) (log : List Silence) : Prop :=
  m.toNat + ms.toNat ≤ now.toNat ∧ ∀ m' ms', .matched m' ms' ∈ log → m' ≤ m

/-- What the slot makes sure of when it adds a line to its log. -/
def Cause (log : List Silence) : Silence → Prop
  | .matched _ _ => True
  | .lost now => ∃ m ms, LastMatch m ms log ∧ (Reaches m ms → m.toNat + ms.toNat ≤ now.toNat)
  | .found now => ∃ ms l rest, log = .matched now ms :: .lost l :: rest
  | .body now =>
    ∃ m ms rest, log = .matched m ms :: rest ∧ (Reaches m ms → m.toNat + ms.toNat ≤ now.toNat)

/-- LOST and a body have a silence just before them that began with the last match, and
FOUND has the match just before it that ended one. -/
def Justified (log : List Silence) : Silence → Prop
  | .matched _ _ => True
  | .lost now => ∃ m ms, LastMatch m ms log ∧ Silent m ms now log
  | .found now => ∃ ms l rest, log = .matched now ms :: .lost l :: rest
  | .body now => ∃ m ms rest, log = .matched m ms :: rest ∧ Silent m ms now log

theorem turns_matched (now ms : UInt64) (log : List Silence) :
    turns (.matched now ms :: log) = turns log := by simp [turns]

theorem turns_body (now : UInt64) (log : List Silence) : turns (.body now :: log) = turns log := by
  simp [turns]

theorem turns_lost (now : UInt64) (log : List Silence) :
    turns (.lost now :: log) = turns log ++ [true] := by simp [turns]

theorem turns_found (now : UInt64) (log : List Silence) :
    turns (.found now :: log) = turns log ++ [false] := by simp [turns]

theorem alternates_of_turns {log log' : List Silence} (h : turns log' = turns log)
    (halt : Alternates log) : Alternates log' := by
  intro i lost hi
  apply halt i lost
  rwa [h] at hi

theorem alternates_concat {log log' : List Silence} {lost : Bool}
    (h : turns log' = turns log ++ [lost]) (halt : Alternates log)
    (hlost : lost = ((turns log).length % 2 == 0)) : Alternates log' := by
  intro i l hi
  simp only [h, List.getElem?_append, List.getElem?_singleton] at hi
  split_ifs at hi with hlt heq
  · exact halt i l hi
  · have hi' : i = (turns log).length := by omega
    rw [hi', ← hlost]
    exact (Option.some.inj hi).symm

/-! ## One step -/

/-- What a slot and its log have to do with each other. -/
structure HoldsSilence (e : StateEntry N) (log : List Silence) : Prop where
  kind : e.kind = .clock → e.clockKind = .dropout ∨ e.clockKind = .onSilence
  lost : e.dropoutLost = ((turns log).length % 2 == 1)
  quiet : e.dropoutLost = true → e.kind = .clock ∧ e.clockKind = .dropout ∧
    e.clockArmed = false ∧ ∃ l rest, log = .lost l :: rest
  armed : e.kind = .clock → e.clockArmed = true → ∃ m ms rest, e.clockDeadlineMs = m + ms ∧
    (log = .matched m ms :: rest ∨
      e.clockKind = .dropout ∧ log = .found m :: .matched m ms :: rest)
  alternates : Alternates log
  causes : ∀ later line log', log = later ++ line :: log' → Cause log' line

omit [Number N] in
theorem causes_cons {log : List Silence} {line : Silence}
    (h : ∀ later line log', log = later ++ line :: log' → Cause log' line)
    (hline : Cause log line) :
    ∀ later line' log', line :: log = later ++ line' :: log' → Cause log' line' := by
  intro later line' log' heq
  cases later with
  | nil =>
    cases heq
    exact hline
  | cons first later =>
    obtain ⟨-, hrest⟩ := List.cons.inj heq
    exact h later line' log' hrest

omit [Number N] in
theorem holdsSilence_idle {e : StateEntry N} (hkind : e.kind ≠ .clock)
    (hlost : e.dropoutLost = false) : HoldsSilence e [] where
  kind h := absurd h hkind
  lost := hlost
  quiet h := by simp [hlost] at h
  armed h := absurd h hkind
  alternates := by simp [Alternates, turns]
  causes later line log' h := by simp at h

omit [Number N] in
/-- A match leaves the slot of another form alone, or arms the slot and tells whether it
was lost. -/
theorem dropoutArm_cases (ms now : UInt64) (lost found : Value N) (e : StateEntry N) :
    dropoutArm ms now lost found e = .fail e .type ∨
      ((∃ form, (dropoutArm ms now lost found e).result =
          .ok (if e.dropoutLost then some form else none)) ∧
        (dropoutArm ms now lost found e).entry.kind = .clock ∧
        (dropoutArm ms now lost found e).entry.clockKind = .dropout ∧
        (dropoutArm ms now lost found e).entry.clockDeadlineMs = now + ms ∧
        (dropoutArm ms now lost found e).entry.dropoutLost = false) := by
  by_cases hother : e.kind ≠ .empty ∧ (e.kind ≠ .clock ∨ e.clockKind ≠ .dropout)
  · left
    simp only [dropoutArm, if_pos hother]
  right
  by_cases hempty : e.kind = .empty
  · simp only [dropoutArm, if_neg hother, if_pos hempty]
    cases e.dropoutLost with
    | false => exact ⟨⟨found, rfl⟩, rfl, rfl, rfl, rfl⟩
    | true => exact ⟨⟨found, rfl⟩, rfl, rfl, rfl, rfl⟩
  · have hslot : e.kind = .clock ∧ e.clockKind = .dropout := by tauto
    simp only [dropoutArm, if_neg hother, if_neg hempty]
    cases e.dropoutLost with
    | false => exact ⟨⟨e.foundForm, rfl⟩, hslot.1, hslot.2, rfl, rfl⟩
    | true => exact ⟨⟨e.foundForm, rfl⟩, hslot.1, hslot.2, rfl, rfl⟩

theorem lines_dropout {ms now : UInt64} {lost found : Value N} {e : StateEntry N}
    {form : Option (Value N)} (h : (dropoutArm ms now lost found e).result = .ok form) :
    (SilenceOp.dropout ms now lost found).lines e =
      if form.isSome then [.found now, .matched now ms] else [.matched now ms] := by
  simp only [SilenceOp.lines, h]
  cases form <;> rfl

theorem holdsSilence_dropout {e : StateEntry N} {log : List Silence} (h : HoldsSilence e log)
    (ms now : UInt64) (lost found : Value N) :
    HoldsSilence ((SilenceOp.dropout ms now lost found).entry e)
      ((SilenceOp.dropout ms now lost found).lines e ++ log) := by
  rcases dropoutArm_cases ms now lost found e with
    hfail | ⟨⟨form, hresult⟩, -, hclock, hdeadline, hfresh⟩
  · simpa [SilenceOp.entry, SilenceOp.lines, hfail, SlotStep.fail] using h
  rw [lines_dropout hresult]
  change HoldsSilence (dropoutArm ms now lost found e).entry _
  generalize (dropoutArm ms now lost found e).entry = e' at hclock hdeadline hfresh ⊢
  cases hlost : e.dropoutLost with
  | false =>
    change HoldsSilence e' (.matched now ms :: log)
    constructor
    · exact fun _ => .inl hclock
    · rw [turns_matched, hfresh, ← h.lost, hlost]
    · simp [hfresh]
    · exact fun _ _ => ⟨now, ms, log, hdeadline, .inl rfl⟩
    · exact alternates_of_turns (turns_matched now ms log) h.alternates
    · exact causes_cons h.causes trivial
  | true =>
    -- the slot is lost, so LOST is the last line
    obtain ⟨-, -, -, l, rest, hlast⟩ := h.quiet hlost
    have hodd : (turns log).length % 2 = 1 := by simpa [hlost] using h.lost
    change HoldsSilence e' (.found now :: .matched now ms :: log)
    constructor
    · exact fun _ => .inl hclock
    · have heven : ((turns log).length + 1) % 2 = 0 := by omega
      simp [turns_matched, turns_found, hfresh, heven]
    · simp [hfresh]
    · exact fun _ _ => ⟨now, ms, log, hdeadline, .inr ⟨hclock, rfl⟩⟩
    · have hturns : turns (.found now :: .matched now ms :: log) = turns log ++ [false] := by
        rw [turns_found, turns_matched]
      apply alternates_concat hturns h.alternates
      simp [hodd]
    · have hmatch : Cause log (.matched now ms) := trivial
      apply causes_cons (causes_cons h.causes hmatch)
      exact ⟨ms, l, rest, by rw [hlast]⟩

omit [Number N] in
/-- A match arms the slot, unless the slot is one of another form. -/
theorem onSilenceArm_cases (A : EvalAlloc → Bool) (ms now : UInt64) (payload : Bytes)
    (forms : List (Value N)) (e : StateEntry N) :
    onSilenceArm A ms now payload forms e = .fail e .type ∨
      ((onSilenceArm A ms now payload forms e).result ≠ .error .type ∧
        (e.kind = .empty ∨ e.kind = .clock ∧ e.clockKind = .onSilence) ∧
        (onSilenceArm A ms now payload forms e).entry.clockKind = .onSilence ∧
        (onSilenceArm A ms now payload forms e).entry.clockDeadlineMs = now + ms ∧
        (onSilenceArm A ms now payload forms e).entry.dropoutLost = e.dropoutLost) := by
  unfold onSilenceArm StateEntry.setBytes
  split_ifs with hother hempty hmemory hmemory
  · left
    rfl
  · right
    exact ⟨by simp [SlotStep.done], .inl hempty, rfl, rfl, rfl⟩
  · right
    exact ⟨by simp [SlotStep.fail], .inl hempty, rfl, rfl, rfl⟩
  · right
    have hslot : e.kind = .clock ∧ e.clockKind = .onSilence := by tauto
    exact ⟨by simp [SlotStep.done], .inr hslot, hslot.2, rfl, rfl⟩
  · right
    have hslot : e.kind = .clock ∧ e.clockKind = .onSilence := by tauto
    exact ⟨by simp [SlotStep.fail], .inr hslot, hslot.2, rfl, rfl⟩

theorem holdsSilence_onSilence {e : StateEntry N} {log : List Silence} (h : HoldsSilence e log)
    (A : EvalAlloc → Bool) (ms now : UInt64) (payload : Bytes) (forms : List (Value N)) :
    HoldsSilence ((SilenceOp.onSilence A ms now payload forms).entry e)
      ((SilenceOp.onSilence A ms now payload forms).lines e ++ log) := by
  rcases onSilenceArm_cases A ms now payload forms e with
    hfail | ⟨hresult, hslot, hclock, hdeadline, hlost⟩
  · simpa [SilenceOp.entry, SilenceOp.lines, hfail, SlotStep.fail] using h
  have hlines : (SilenceOp.onSilence A ms now payload forms).lines e = [.matched now ms] := by
    unfold SilenceOp.lines
    dsimp only
    split
    · rename_i heq
      exact absurd heq hresult
    · rfl
  -- a slot that is lost is one of `dropout`
  have hnot : e.dropoutLost = false := by
    cases hcase : e.dropoutLost with
    | false => rfl
    | true =>
      obtain ⟨hkind, hdropout, -⟩ := h.quiet hcase
      simp [hkind, hdropout] at hslot
  rw [hlines]
  constructor
  · exact fun _ => .inr hclock
  · rw [List.singleton_append, turns_matched, ← h.lost]
    exact hlost
  · intro hyes
    rw [SilenceOp.entry, hlost, hnot] at hyes
    cases hyes
  · exact fun _ _ => ⟨now, ms, log, hdeadline, .inl rfl⟩
  · exact alternates_of_turns (turns_matched now ms log) h.alternates
  · exact causes_cons h.causes trivial

/-- A clock of silences fires once after it has been armed, and then from its deadline on. -/
theorem tickEntry_silence (A : EvalAlloc → Bool) (now : UInt64) {e : StateEntry N}
    (hkind : e.kind = .clock) (hclock : e.clockKind = .dropout ∨ e.clockKind = .onSilence) :
    tickEntry A now e =
      if e.clockArmed = false ∨ now < e.clockDeadlineMs then ⟨e, false, .ok (.inl .nothing)⟩
      else if e.clockKind = .dropout then
        ⟨{ e with dropoutLost := true, clockArmed := false }, false, .ok (.inl (.form e.lostForm))⟩
      else ⟨{ e with clockArmed := false }, false, .ok (.inl (.body e.bytes e.clockBody))⟩ := by
  rw [tickEntry, if_pos hkind, tickClock]
  by_cases hwait : e.clockArmed = false ∨ now < e.clockDeadlineMs
  · rw [if_pos hwait, if_pos (by simpa using hwait)]
    rfl
  · rw [if_neg hwait, if_neg (by simpa using hwait)]
    rcases hclock with hclock | hclock
    · simp only [hclock, if_true]
      rfl
    · simp only [hclock]
      rfl

theorem held_tickWindow (now : UInt64) (e : StateEntry N) :
    (tickWindow now e).entry.held = e.held := by
  unfold tickWindow
  dsimp only [SlotStep.done]
  rw [StateEntry.held_barTimeTick]
  split_ifs
  · exact StateEntry.held_ringEvictTime e _
  · rfl

theorem tickWindow_clock (now : UInt64) {e : StateEntry N} (hclock : e.kind = .clock) :
    tickWindow now e = .done e none := by
  rw [tickWindow, if_neg (by simp [hclock]), StateEntry.barTimeTick, if_pos (by simp [hclock])]

/-- The tick of a slot that is no clock fires nothing. -/
theorem tickEntry_other (A : EvalAlloc → Bool) (now : UInt64) {e : StateEntry N}
    (hkind : e.kind ≠ .clock) :
    (tickEntry A now e).entry.kind = e.kind ∧
      (tickEntry A now e).entry.dropoutLost = e.dropoutLost ∧
      (SilenceOp.tick A now).lines e = [] := by
  have htick : tickEntry A now e = ⟨(tickWindow now e).entry, (tickWindow now e).suppressed,
      (tickWindow now e).result.map .inr⟩ := by
    rw [tickEntry, if_neg hkind]
  refine ⟨?_, ?_, ?_⟩
  · rw [htick]
    exact (tickWindow_entry now e).1
  · rw [htick]
    exact congrArg Prod.snd (held_tickWindow now e)
  · simp only [SilenceOp.lines, htick]
    cases (tickWindow now e).result <;> rfl

/-- When a clock fires, its deadline has come. -/
theorem reaches_of_deadline {m ms now deadline : UInt64} (hdeadline : deadline = m + ms)
    (hdue : ¬now < deadline) (hreaches : Reaches m ms) : m.toNat + ms.toNat ≤ now.toNat := by
  have hle : (m + ms).toNat ≤ now.toNat := by
    rw [← hdeadline]
    exact UInt64.le_iff_toNat_le.mp (UInt64.not_lt.mp hdue)
  rwa [UInt64.toNat_add, Nat.mod_eq_of_lt hreaches] at hle

theorem holdsSilence_tick {e : StateEntry N} {log : List Silence} (h : HoldsSilence e log)
    (A : EvalAlloc → Bool) (now : UInt64) :
    HoldsSilence ((SilenceOp.tick A now).entry e) ((SilenceOp.tick A now).lines e ++ log) := by
  by_cases hkind : e.kind = .clock
  swap
  · obtain ⟨hkind', hlost', hlines⟩ := tickEntry_other A now hkind
    have hnot : (tickEntry A now e).entry.kind ≠ .clock := by rwa [hkind']
    rw [hlines]
    constructor
    · exact fun hyes => absurd hyes hnot
    · exact hlost'.trans h.lost
    · intro hlost
      exact absurd (h.quiet (hlost'.symm.trans hlost)).1 hkind
    · exact fun hyes => absurd hyes hnot
    · exact h.alternates
    · exact h.causes
  have htick := tickEntry_silence A now hkind (h.kind hkind)
  by_cases hwait : e.clockArmed = false ∨ now < e.clockDeadlineMs
  · rw [if_pos hwait] at htick
    simpa [SilenceOp.entry, SilenceOp.lines, htick] using h
  rw [if_neg hwait] at htick
  obtain ⟨harmed, hdue⟩ := not_or.mp hwait
  obtain ⟨m, ms, rest, hdeadline, hlast⟩ := h.armed hkind (by simpa using harmed)
  -- an armed slot is not lost, since LOST disarms it
  have hnot : e.dropoutLost = false := by
    cases hlost : e.dropoutLost with
    | false => rfl
    | true => exact absurd (h.quiet hlost).2.2.1 harmed
  have heven : (turns log).length % 2 = 0 := by
    have hlost := h.lost
    rw [hnot] at hlost
    have : ¬(turns log).length % 2 = 1 := by simpa using hlost.symm
    omega
  by_cases hdropout : e.clockKind = .dropout
  · rw [if_pos hdropout] at htick
    have hlines : (SilenceOp.tick A now).lines e = [.lost now] := by simp [SilenceOp.lines, htick]
    rw [hlines]
    change HoldsSilence (tickEntry A now e).entry (.lost now :: log)
    rw [htick]
    constructor
    · exact fun _ => .inl hdropout
    · have hodd : ((turns log).length + 1) % 2 = 1 := by omega
      simp [turns_lost, hodd]
    · exact fun _ => ⟨hkind, hdropout, rfl, now, log, rfl⟩
    · exact fun _ hyes => by cases hyes
    · apply alternates_concat (turns_lost now log) h.alternates
      simp [heven]
    · apply causes_cons h.causes
      refine ⟨m, ms, ⟨rest, ?_⟩, reaches_of_deadline hdeadline hdue⟩
      exact hlast.imp_right And.right
  · rw [if_neg hdropout] at htick
    have hlines : (SilenceOp.tick A now).lines e = [.body now] := by simp [SilenceOp.lines, htick]
    have hmatched : log = .matched m ms :: rest :=
      hlast.resolve_right fun hfound => hdropout hfound.1
    rw [hlines]
    change HoldsSilence (tickEntry A now e).entry (.body now :: log)
    rw [htick]
    constructor
    · exact fun _ => h.kind hkind
    · rw [turns_body]
      exact h.lost
    · intro hyes
      exact absurd (hyes.symm.trans hnot) (by decide)
    · exact fun _ hyes => by cases hyes
    · exact alternates_of_turns (turns_body now log) h.alternates
    · apply causes_cons h.causes
      exact ⟨m, ms, rest, hmatched, reaches_of_deadline hdeadline hdue⟩

theorem SilenceRun.holds {e : StateEntry N} {log : List Silence} (h : SilenceRun e log) :
    HoldsSilence e log := by
  induction h with
  | idle hkind hlost => exact holdsSilence_idle hkind hlost
  | step _ op ih =>
    cases op with
    | dropout ms now lost found => exact holdsSilence_dropout ih ms now lost found
    | onSilence A ms now payload forms => exact holdsSilence_onSilence ih A ms now payload forms
    | tick A now => exact holdsSilence_tick ih A now

/-! ## Every line is justified -/

omit [Number N] in
/-- With times that do not go back, the last match is the latest. -/
theorem LastMatch.latest {m ms : UInt64} {log : List Silence} (h : LastMatch m ms log)
    (htimes : (log.map Silence.now).Pairwise (· ≥ ·)) :
    ∀ m' ms', .matched m' ms' ∈ log → m' ≤ m := by
  intro m' ms' hmem
  have hall : ∀ line ∈ log, line.now ≤ m := by
    obtain ⟨rest, rfl | rfl⟩ := h
    · simp only [List.map_cons, List.pairwise_cons, List.mem_map] at htimes
      intro line hline
      rcases List.mem_cons.mp hline with rfl | hline
      · exact UInt64.le_refl m
      · exact htimes.1 _ ⟨line, hline, rfl⟩
    · simp only [List.map_cons, List.pairwise_cons, List.mem_cons, List.mem_map] at htimes
      intro line hline
      rcases List.mem_cons.mp hline with rfl | hline
      · exact UInt64.le_refl m
      · rcases List.mem_cons.mp hline with rfl | hline
        · exact UInt64.le_refl m
        · exact htimes.2.1 _ ⟨line, hline, rfl⟩
  exact hall _ hmem

omit [Number N] in
theorem Cause.justified {log : List Silence} {line : Silence} (h : Cause log line)
    (htimes : (log.map Silence.now).Pairwise (· ≥ ·))
    (hreaches : ∀ m ms, .matched m ms ∈ log → Reaches m ms) : Justified log line := by
  cases line with
  | matched now ms => trivial
  | lost now =>
    obtain ⟨m, ms, hlast, hdue⟩ := h
    have hmem : .matched m ms ∈ log := by
      obtain ⟨rest, rfl | rfl⟩ := hlast
      · simp
      · simp
    exact ⟨m, ms, hlast, hdue (hreaches m ms hmem), hlast.latest htimes⟩
  | found now => exact h
  | body now =>
    obtain ⟨m, ms, rest, hlast, hdue⟩ := h
    have hmem : .matched m ms ∈ log := by simp [hlast]
    have hmatch : LastMatch m ms log := ⟨rest, .inl hlast⟩
    exact ⟨m, ms, rest, hlast, hdue (hreaches m ms hmem), hmatch.latest htimes⟩

/-- Where the deadlines of the matches are points in time, each of LOST, FOUND and the body
of `on-silence` is evaluated just where it should be. -/
theorem SilenceRun.justified {e : StateEntry N} {log : List Silence} (h : SilenceRun e log)
    (htimes : (log.map Silence.now).Pairwise (· ≥ ·))
    (hreaches : ∀ m ms, .matched m ms ∈ log → Reaches m ms) (later : List Silence) (line : Silence)
    (earlier : List Silence) (hlog : log = later ++ line :: earlier) : Justified earlier line := by
  have hsub : ∀ line' ∈ earlier, line' ∈ log := by
    intro line' hline
    simp [hlog, hline]
  apply (h.holds.causes later line earlier hlog).justified
  · rw [hlog, List.map_append, List.map_cons] at htimes
    exact (List.pairwise_cons.mp (List.pairwise_append.mp htimes).2.1).2
  · exact fun m ms hmem => hreaches m ms (hsub _ hmem)

/-! ## The slots of a program -/

theorem windowOp_not_silence {op : String}
    (h : op ∈ windowCalcOps ++ (["median", "percentile"] ++ ["rate", "throttle"])) (w : Window) :
    windowOp op w ∉ [lit "dropout", lit "on-silence"] := by
  have hnot := windowOp_not_timed h w
  intro hmem
  apply hnot
  simp only [List.mem_cons, List.not_mem_nil, or_false] at hmem
  rcases hmem with hmem | hmem
  all_goals
    rw [hmem]
    decide

/-- The operations of the slots that wait for silence. -/
def silenceOps : List Bytes := [lit "dropout", lit "on-silence"]

/-- A slot that waits for silence has come from one that is no clock. -/
structure ComesFromIdle (e : StateEntry N) : Prop where
  run : ∃ log, SilenceRun e log
  idle : e.kind ≠ .clock →
    e.dropoutLost = false ∧ (e.clockKind = .none ∨ e.clockKind = .onSilence)

theorem comesFromIdle_of_idle {e : StateEntry N} (hkind : e.kind ≠ .clock)
    (hlost : e.dropoutLost = false) (hclock : e.clockKind = .none ∨ e.clockKind = .onSilence) :
    ComesFromIdle e :=
  ⟨⟨[], .idle hkind hlost⟩, fun _ => ⟨hlost, hclock⟩⟩

theorem comesFromIdle_dropout {e : StateEntry N} (h : ComesFromIdle e) (ms now : UInt64)
    (lost found : Value N) : ComesFromIdle (dropoutArm ms now lost found e).entry := by
  obtain ⟨log, hrun⟩ := h.run
  refine ⟨⟨_, hrun.step (.dropout ms now lost found)⟩, ?_⟩
  rcases dropoutArm_cases ms now lost found e with hfail | ⟨-, hkind, -⟩
  · rw [hfail]
    exact h.idle
  · exact fun hnot => absurd hkind hnot

theorem comesFromIdle_onSilence {e : StateEntry N} (h : ComesFromIdle e) (A : EvalAlloc → Bool)
    (ms now : UInt64) (payload : Bytes) (forms : List (Value N)) :
    ComesFromIdle (onSilenceArm A ms now payload forms e).entry := by
  obtain ⟨log, hrun⟩ := h.run
  refine ⟨⟨_, hrun.step (.onSilence A ms now payload forms)⟩, ?_⟩
  rcases onSilenceArm_cases A ms now payload forms e with hfail | ⟨-, hslot, hclock, -, hlost⟩
  · rw [hfail]
    exact h.idle
  · intro hkind
    refine ⟨?_, .inr hclock⟩
    rw [hlost]
    rcases hslot with hempty | ⟨hwas, honSilence⟩
    · exact (h.idle (by rw [hempty]; decide)).1
    · cases hcase : e.dropoutLost with
      | false => rfl
      | true =>
        have hdropout := (hrun.holds.quiet hcase).2.1
        rw [honSilence] at hdropout
        cases hdropout

theorem comesFromIdle_tickClock {e : StateEntry N} (h : ComesFromIdle e) (A : EvalAlloc → Bool)
    (now : UInt64) : ComesFromIdle (tickClock A now e).entry := by
  by_cases hkind : e.kind = .clock
  · obtain ⟨log, hrun⟩ := h.run
    have hentry : (SilenceOp.tick A now).entry e = (tickClock A now e).entry := by
      simp only [SilenceOp.entry, tickEntry, if_pos hkind]
    refine ⟨⟨_, hentry ▸ hrun.step (.tick A now)⟩, ?_⟩
    intro hnot
    have hstill : (tickEntry A now e).entry.kind = .clock := by
      rw [tickEntry_silence A now hkind (hrun.holds.kind hkind)]
      split_ifs <;> exact hkind
    rw [← hentry] at hnot
    exact absurd hstill hnot
  · -- the tick of a program looks at the kind first, so this case does not come up there
    obtain ⟨hlost, hclock⟩ := h.idle hkind
    have hstill : (tickClock A now e).entry = e ∨
        (tickClock A now e).entry = { e with clockArmed := false } := by
      unfold tickClock
      split_ifs
      · exact .inl rfl
      · rcases hclock with hclock | hclock
        · simp only [hclock]
          exact .inl rfl
        · simp only [hclock]
          exact .inr rfl
    rcases hstill with hentry | hentry
    · rw [hentry]
      exact h
    · rw [hentry]
      exact comesFromIdle_of_idle hkind hlost hclock

theorem comesFromIdle_tickWindow {e : StateEntry N} (h : ComesFromIdle e) (now : UInt64) :
    ComesFromIdle (tickWindow now e).entry := by
  by_cases hkind : e.kind = .clock
  · rw [tickWindow_clock now hkind]
    exact h
  · obtain ⟨hlost, hclock⟩ := h.idle hkind
    obtain ⟨hkind', htimers⟩ := tickWindow_entry now e
    have hclock' : (tickWindow now e).entry.clockKind = e.clockKind := by
      rcases htimers with htimers | htimers
      · exact congrArg Timers.clockKind htimers
      · exact congrArg Timers.clockKind htimers
    apply comesFromIdle_of_idle
    · rwa [hkind']
    · exact (congrArg Prod.snd (held_tickWindow now e)).trans hlost
    · rwa [hclock']

/-- The forms of other operations have other slots. -/
theorem slotInvariant_silences (A : EvalAlloc → Bool) :
    Snapshot.SlotInvariant A fun e : StateEntry N => e.op ∈ silenceOps → ComesFromIdle e := by
  constructor
  · intro k _
    exact comesFromIdle_of_idle (by simp [freshEntry]) rfl (.inl rfl)
  · intro now α op f hform e he hsilence hmem
    have hkey : (f e).entry.op = op := (congrArg StateKey.op (hform.key e)).trans he
    rw [hkey] at hmem
    have hidle := hsilence (by rwa [he])
    cases hform with
    | dropout hms lost found => exact comesFromIdle_dropout hidle _ _ lost found
    | onSilence hms payload body => exact comesFromIdle_onSilence hidle A _ _ payload body
    | windowCalc hop hw x what =>
      exact absurd hmem (windowOp_not_silence (List.mem_append_left _ hop) _)
    | percentile hop hw x p =>
      have hop' := List.mem_append_left ["rate", "throttle"] hop
      exact absurd hmem (windowOp_not_silence (List.mem_append_right windowCalcOps hop') _)
    | rate hms => exact absurd hmem (windowOp_not_silence (by decide) _)
    | throttle hw max v => exact absurd hmem (windowOp_not_silence (by decide) _)
    | @bar args timeWindow count windowMs input h x =>
      have hnot : lit (if timeWindow then "bar/m" else "bar/t") ∉ silenceOps := by
        split_ifs
        · decide
        · decide
      exact absurd hmem hnot
    | _ => exact absurd hmem (by decide)
  · intro now e hsilence hmem
    have hop : (tickClock A now e).entry.op = e.op :=
      congrArg StateKey.op (key_tickClock A now e)
    exact comesFromIdle_tickClock (hsilence (hop ▸ hmem)) A now
  · intro now e hsilence hmem
    have hop : (tickWindow now e).entry.op = e.op :=
      congrArg StateKey.op (key_tickWindow now e)
    exact comesFromIdle_tickWindow (hsilence (hop ▸ hmem)) now

/-- Whatever a program comes to, each of its slots that waits for silence has come from
one that is no clock by matches and ticks. -/
theorem Reached.silences {W : Type} {rules : List (RuleSource N)} {usesClock : Bool}
    {m : Machine N W} (h : Reached rules usesClock m) (j : ℕ) {e : StateEntry N}
    (he : e ∈ (m.ruleState j).items) (hop : e.op ∈ silenceOps) : ∃ log, SilenceRun e log := by
  have hall := h.allSlots (fun A => slotInvariant_silences A) ?_ j e he hop
  · exact hall.run
  · intro k s _ _
    apply comesFromIdle_of_idle
    · exact Snapshot.restore_ne_clock k s
    · cases s <;> rfl
    · cases s <;> exact .inl rfl

/-! ## Turns -/

end Monoblok.Patchbay
