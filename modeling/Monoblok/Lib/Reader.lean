import Mathlib.Logic.Relation
import Mathlib.Tactic

/-!
# Readers of a byte stream that arrives in chunks

A reader keeps the unread bytes in a buffer, decides items from the front of
it, and hands each item to a control state that may stop it. The decision is a
partial function of the buffer: `none` means that the item is not complete.

When decisions are stable under more input, feeding a stream chunk by chunk
hands over the same items as feeding it at once (`feedAll_append`). The
positions at which an item can start do not depend on the control state at all
(`Boundary`); `boundary_gap` says that no item starts inside another one.
-/

namespace Monoblok.Reading

open Relation

variable {α ε κ γ : Type*}

structure Reader (α ε κ : Type*) where
  next : List α → Option (ε × ℕ)
  step : κ → ε → κ
  stop : κ → Bool

/-- A decided item lies inside the buffer, is not decided differently by bytes
behind it, and takes at least one byte unless it stops the reader. -/
structure Reader.Lawful (R : Reader α ε κ) : Prop where
  consumed_le : ∀ {l e n}, R.next l = some (e, n) → n ≤ l.length
  productive : ∀ {l e n}, R.next l = some (e, n) → 0 < n ∨ ∀ k, R.stop (R.step k e) = true
  stable : ∀ {l v} (r : List α), R.next l = some v → R.next (l ++ r) = some v

/-- `pos` counts the bytes taken from the stream before `buf`. -/
@[ext]
structure State (α ε κ : Type*) where
  ctl : κ
  pos : ℕ
  buf : List α
  log : List ε

def State.append (s : State α ε κ) (c : List α) : State α ε κ := { s with buf := s.buf ++ c }

@[simp] theorem State.append_ctl (s : State α ε κ) (c : List α) : (s.append c).ctl = s.ctl := rfl
@[simp] theorem State.append_pos (s : State α ε κ) (c : List α) : (s.append c).pos = s.pos := rfl
@[simp] theorem State.append_buf (s : State α ε κ) (c : List α) :
    (s.append c).buf = s.buf ++ c := rfl
@[simp] theorem State.append_log (s : State α ε κ) (c : List α) : (s.append c).log = s.log := rfl

theorem State.append_append (s : State α ε κ) (c d : List α) :
    (s.append c).append d = s.append (c ++ d) := by
  simp [State.append, List.append_assoc]

theorem State.append_nil (s : State α ε κ) : s.append [] = s := by simp [State.append]

namespace Reader

variable (R : Reader α ε κ)

/-- One item, if the reader runs and its buffer holds a complete one. -/
def take (s : State α ε κ) : Option (State α ε κ) :=
  if R.stop s.ctl then none
  else
    match R.next s.buf with
    | none => none
    | some (e, n) => some ⟨R.step s.ctl e, s.pos + n, s.buf.drop n, s.log ++ [e]⟩

def drainLoop : ℕ → State α ε κ → State α ε κ
  | 0, s => s
  | fuel + 1, s =>
    match R.take s with
    | none => s
    | some s' => drainLoop fuel s'

/-- All items that are complete in the buffer. -/
def drain (s : State α ε κ) : State α ε κ := R.drainLoop (s.buf.length + 1) s

def feed (s : State α ε κ) (c : List α) : State α ε κ := R.drain (s.append c)

def feedAll (s : State α ε κ) (cs : List (List α)) : State α ε κ := cs.foldl R.feed s

/-- The positions at which a draining reader looks for an item. -/
def visits : ℕ → State α ε κ → List ℕ
  | 0, _ => []
  | fuel + 1, s =>
    if R.stop s.ctl || s.buf.isEmpty then []
    else s.pos :: (match R.take s with
      | none => []
      | some s' => visits fuel s')

/-- The items a draining reader hands over, with the control states around them. -/
def trail : ℕ → State α ε κ → List (κ × ε × κ)
  | 0, _ => []
  | fuel + 1, s =>
    if R.stop s.ctl then []
    else
      match R.next s.buf with
      | none => []
      | some (e, n) =>
        (s.ctl, e, R.step s.ctl e) ::
          trail fuel ⟨R.step s.ctl e, s.pos + n, s.buf.drop n, s.log ++ [e]⟩

variable {R}

theorem take_eq_some {s s' : State α ε κ} (h : R.take s = some s') :
    R.stop s.ctl = false ∧ ∃ e n, R.next s.buf = some (e, n) ∧
      s' = ⟨R.step s.ctl e, s.pos + n, s.buf.drop n, s.log ++ [e]⟩ := by
  unfold take at h
  split_ifs at h with hstop
  split at h
  · cases h
  · rename_i e n hn
    cases h
    exact ⟨by simpa using hstop, e, n, hn, rfl⟩

theorem take_of_next {s : State α ε κ} {e : ε} {n : ℕ} (hstop : R.stop s.ctl = false)
    (hn : R.next s.buf = some (e, n)) :
    R.take s = some ⟨R.step s.ctl e, s.pos + n, s.buf.drop n, s.log ++ [e]⟩ := by
  simp [take, hstop, hn]

theorem trail_spec (fuel : ℕ) (s : State α ε κ) :
    (R.drainLoop fuel s).log = s.log ++ (R.trail fuel s).map (·.2.1) ∧
      ∀ t ∈ R.trail fuel s, R.stop t.1 = false ∧ t.2.2 = R.step t.1 t.2.1 := by
  induction fuel generalizing s with
  | zero => exact ⟨(List.append_nil s.log).symm, fun _ h => nomatch h⟩
  | succ fuel ih =>
    unfold drainLoop trail take
    by_cases hstop : R.stop s.ctl = true
    · rw [if_pos hstop, if_pos hstop]
      exact ⟨(List.append_nil s.log).symm, fun _ h => nomatch h⟩
    · rw [if_neg hstop, if_neg hstop]
      cases R.next s.buf with
      | none => exact ⟨(List.append_nil s.log).symm, fun _ h => nomatch h⟩
      | some v =>
        obtain ⟨e, n⟩ := v
        obtain ⟨hlog, hall⟩ := ih ⟨R.step s.ctl e, s.pos + n, s.buf.drop n, s.log ++ [e]⟩
        constructor
        · simpa [List.append_assoc] using hlog
        · intro t ht
          rcases List.mem_cons.mp ht with rfl | ht
          · exact ⟨by simpa using hstop, rfl⟩
          · exact hall t ht

/-- What every item preserves holds after draining. -/
theorem drainLoop_invariant {I : κ → List ε → Prop}
    (hstep : ∀ k log e, R.stop k = false → I k log → I (R.step k e) (log ++ [e])) (fuel : ℕ)
    {s : State α ε κ} (hs : I s.ctl s.log) :
    I (R.drainLoop fuel s).ctl (R.drainLoop fuel s).log := by
  induction fuel generalizing s with
  | zero => exact hs
  | succ fuel ih =>
    unfold drainLoop
    split
    · exact hs
    · rename_i s' htake
      obtain ⟨hstop, e, n, -, rfl⟩ := take_eq_some htake
      exact ih (hstep s.ctl s.log e hstop hs)

/-! ## Draining reaches the state in which nothing more can be taken -/

theorem drainLoop_reaches (fuel : ℕ) (s : State α ε κ) :
    ReflTransGen (fun a b => R.take a = some b) s (R.drainLoop fuel s) := by
  induction fuel generalizing s with
  | zero => exact .refl
  | succ fuel ih =>
    unfold drainLoop
    split
    · exact .refl
    · rename_i s' hs
      exact .head hs (ih s')

theorem take_drainLoop (hR : R.Lawful) {fuel : ℕ} {s : State α ε κ}
    (hfuel : s.buf.length < fuel) : R.take (R.drainLoop fuel s) = none := by
  induction fuel generalizing s with
  | zero => omega
  | succ fuel ih =>
    unfold drainLoop
    split
    · assumption
    · rename_i s' hs
      obtain ⟨-, e, n, hn, rfl⟩ := take_eq_some hs
      rcases hR.productive hn with hpos | hstop
      · apply ih
        have := hR.consumed_le hn
        simp only [List.length_drop]
        omega
      · -- the item stopped the reader, so the loop ends whatever is left
        have hnone : R.take ⟨R.step s.ctl e, s.pos + n, s.buf.drop n, s.log ++ [e]⟩ = none := by
          simp [take, hstop]
        cases fuel with
        | zero => exact hnone
        | succ fuel =>
          unfold drainLoop
          rw [hnone]
          exact hnone

theorem take_append (hR : R.Lawful) {s s' : State α ε κ} (c : List α)
    (h : R.take s = some s') : R.take (s.append c) = some (s'.append c) := by
  obtain ⟨hstop, e, n, hn, rfl⟩ := take_eq_some h
  rw [take_of_next (s := s.append c) hstop (hR.stable c hn)]
  simp [State.append, List.drop_append_of_le_length (hR.consumed_le hn)]

theorem reaches_append (hR : R.Lawful) {s s' : State α ε κ} (c : List α)
    (h : ReflTransGen (fun a b => R.take a = some b) s s') :
    ReflTransGen (fun a b => R.take a = some b) (s.append c) (s'.append c) := by
  induction h with
  | refl => exact .refl
  | tail _ hs ih => exact ih.tail (take_append hR c hs)

/-- The final state of a run of `take` is determined by where the run starts. -/
theorem final_unique {s a b : State α ε κ}
    (ha : ReflTransGen (fun a b => R.take a = some b) s a)
    (hb : ReflTransGen (fun a b => R.take a = some b) s b)
    (hna : R.take a = none) (hnb : R.take b = none) : a = b := by
  have huniq : Relator.RightUnique (fun a b => R.take a = some b) := by
    intro x y z hy hz
    rw [hy] at hz
    exact Option.some.inj hz
  have hfinal : ∀ {x y : State α ε κ}, R.take x = none →
      ReflTransGen (fun a b => R.take a = some b) x y → x = y := by
    intro x y hx hxy
    rcases hxy.cases_head with h | ⟨z, hz, -⟩
    · exact h
    · rw [hx] at hz
      cases hz
  rcases ReflTransGen.total_of_right_unique huniq ha hb with h | h
  · exact hfinal hna h
  · exact (hfinal hnb h).symm

theorem take_drain (hR : R.Lawful) (s : State α ε κ) : R.take (R.drain s) = none :=
  take_drainLoop hR (Nat.lt_succ_self _)

/-- Draining early does not change what is read in the end. -/
theorem drain_append (hR : R.Lawful) (s : State α ε κ) (c : List α) :
    R.drain (s.append c) = R.feed (R.drain s) c := by
  refine final_unique (drainLoop_reaches _ _) ?_ (take_drain hR _) (take_drain hR _)
  exact (reaches_append hR c (drainLoop_reaches _ s)).trans (drainLoop_reaches _ _)

/-- Any way of cutting the stream into chunks reads the same items. -/
theorem feedAll_append (hR : R.Lawful) (s : State α ε κ) (cs : List (List α)) :
    R.feedAll (R.drain s) cs = R.drain (s.append cs.flatten) := by
  induction cs generalizing s with
  | nil => simp [feedAll, State.append_nil]
  | cons c cs ih =>
    calc R.feedAll (R.drain s) (c :: cs)
        = R.feedAll (R.drain (s.append c)) cs := by rw [drain_append hR]; rfl
      _ = R.drain ((s.append c).append cs.flatten) := ih _
      _ = R.drain (s.append (c :: cs).flatten) := by
          rw [State.append_append, List.flatten_cons]

/-! ## What the control state contributes

Two readers that decide alike hand over the same items when the control state
of the second is an image of the first's. -/

end Reader

def State.map (f : κ → γ) (s : State α ε κ) : State α ε γ := ⟨f s.ctl, s.pos, s.buf, s.log⟩

namespace Reader

/-- `good` singles out the control states up to which the image is faithful;
a step that ends in one also started in one. -/
structure Image (R : Reader α ε κ) (Q : Reader α ε γ) (f : κ → γ) (good : κ → Prop) : Prop where
  next_eq : Q.next = R.next
  stop_eq : ∀ k, Q.stop (f k) = R.stop k
  good_of_step : ∀ {k e}, good (R.step k e) → good k
  step_eq : ∀ {k e}, R.stop k = false → good (R.step k e) → Q.step (f k) e = f (R.step k e)

variable {R : Reader α ε κ} {Q : Reader α ε γ} {f : κ → γ} {good : κ → Prop}

theorem Image.good_of_drainLoop (h : R.Image Q f good) {fuel : ℕ} {s : State α ε κ}
    (hgood : good (R.drainLoop fuel s).ctl) : good s.ctl := by
  induction fuel generalizing s with
  | zero => exact hgood
  | succ fuel ih =>
    unfold drainLoop at hgood
    split at hgood
    · exact hgood
    · rename_i s' hs
      obtain ⟨-, e, n, -, rfl⟩ := take_eq_some hs
      exact h.good_of_step (ih hgood)

theorem Image.drainLoop_map (h : R.Image Q f good) {fuel : ℕ} {s : State α ε κ}
    (hgood : good (R.drainLoop fuel s).ctl) :
    Q.drainLoop fuel (s.map f) = (R.drainLoop fuel s).map f := by
  induction fuel generalizing s with
  | zero => rfl
  | succ fuel ih =>
    unfold drainLoop at hgood ⊢
    cases hs : R.take s with
    | none =>
      have hQ : Q.take (s.map f) = none := by
        simp only [take, State.map, h.stop_eq, h.next_eq] at hs ⊢
        split_ifs at hs ⊢
        · rfl
        · split at hs <;> simp_all
      rw [hQ]
    | some s' =>
      simp only [hs] at hgood ⊢
      obtain ⟨hstop, e, n, hn, rfl⟩ := take_eq_some hs
      have hstep := h.step_eq hstop (h.good_of_drainLoop hgood)
      have hQ : Q.take (s.map f) =
          some (State.map f ⟨R.step s.ctl e, s.pos + n, s.buf.drop n, s.log ++ [e]⟩) := by
        rw [take_of_next (by rw [State.map, h.stop_eq, hstop]) (by rw [h.next_eq]; exact hn)]
        simp [State.map, hstep]
      rw [hQ]
      exact ih hgood

theorem Image.drain_map (h : R.Image Q f good) {s : State α ε κ}
    (hgood : good (R.drain s).ctl) : Q.drain (s.map f) = (R.drain s).map f :=
  h.drainLoop_map hgood

/-! ## Where items start -/

/-- The item decided at `p` of the whole stream `w` ends at `q`. -/
def Advance (next : List α → Option (ε × ℕ)) (w : List α) (p q : ℕ) : Prop :=
  ∃ e n, next (w.drop p) = some (e, n) ∧ q = p + n

/-- A reader of the stream `w` can look for an item at this position. -/
def Boundary (next : List α → Option (ε × ℕ)) (w : List α) (p : ℕ) : Prop :=
  ReflTransGen (Advance next w) 0 p

variable {next : List α → Option (ε × ℕ)} {w : List α}

theorem le_of_advances {p q : ℕ} (h : ReflTransGen (Advance next w) p q) : p ≤ q := by
  induction h with
  | refl => exact le_rfl
  | tail _ hs ih =>
    obtain ⟨e, n, -, rfl⟩ := hs
    omega

/-- Items do not overlap: a position at which an item starts is not inside the
item that starts at another one. -/
theorem boundary_gap {p q n : ℕ} {e : ε} (hp : Boundary next w p) (hq : Boundary next w q)
    (hn : next (w.drop p) = some (e, n)) : q ≤ p ∨ p + n ≤ q := by
  have huniq : Relator.RightUnique (Advance next w) := by
    rintro x y z ⟨e₁, n₁, h₁, rfl⟩ ⟨e₂, n₂, h₂, rfl⟩
    rw [h₁] at h₂
    cases h₂
    rfl
  rcases ReflTransGen.total_of_right_unique huniq hp hq with h | h
  · rcases h.cases_head with rfl | ⟨z, ⟨e', n', hz, rfl⟩, hrest⟩
    · exact .inl le_rfl
    · rw [hn] at hz
      cases hz
      exact .inr (le_of_advances hrest)
  · exact .inl (le_of_advances h)

/-- A stopping item at `p` is the last one looked for. -/
theorem boundary_le_of_none {p q : ℕ} (hp : Boundary next w p) (hq : Boundary next w q)
    (hn : ∀ e n, next (w.drop p) = some (e, n) → n = 0) : q ≤ p := by
  induction hq with
  | refl => exact Nat.zero_le p
  | tail hq hs ih =>
    obtain ⟨e, n, hs, rfl⟩ := hs
    rcases Nat.lt_or_eq_of_le ih with hlt | rfl
    · rcases boundary_gap hq hp hs with h | h
      · omega
      · exact h
    · have := hn e n hs
      omega

/-- The reader holds the part of `w` that has arrived and is not read yet. -/
structure OnTrack (R : Reader α ε κ) (w : List α) (s : State α ε κ) (later : List α) : Prop where
  unread : w.drop s.pos = s.buf ++ later
  boundary : R.stop s.ctl = false → Boundary R.next w s.pos

theorem OnTrack.take (hR : R.Lawful) {s s' : State α ε κ} {later : List α}
    (h : R.OnTrack w s later) (hs : R.take s = some s') : R.OnTrack w s' later := by
  obtain ⟨hstop, e, n, hn, rfl⟩ := take_eq_some hs
  refine ⟨?_, fun _ => (h.boundary hstop).tail ⟨e, n, ?_, rfl⟩⟩
  · rw [← List.drop_drop, h.unread, List.drop_append_of_le_length (hR.consumed_le hn)]
  · rw [h.unread]
    exact hR.stable later hn

theorem OnTrack.drainLoop (hR : R.Lawful) {later : List α} (fuel : ℕ) {s : State α ε κ}
    (h : R.OnTrack w s later) : R.OnTrack w (R.drainLoop fuel s) later := by
  induction fuel generalizing s with
  | zero => exact h
  | succ fuel ih =>
    unfold Reader.drainLoop
    split
    · exact h
    · exact ih (h.take hR ‹_›)

theorem OnTrack.visits (hR : R.Lawful) {later : List α} (fuel : ℕ) {s : State α ε κ}
    (h : R.OnTrack w s later) : ∀ p ∈ R.visits fuel s, Boundary R.next w p := by
  induction fuel generalizing s with
  | zero => simp [Reader.visits]
  | succ fuel ih =>
    unfold Reader.visits
    split_ifs with hc
    · simp
    · simp only [Bool.or_eq_true, not_or, Bool.not_eq_true] at hc
      intro p hp
      rcases List.mem_cons.mp hp with rfl | hp
      · exact h.boundary hc.1
      · split at hp
        · cases hp
        · exact ih (h.take hR ‹_›) p hp

/-- A reader that goes on after every item that takes bytes looks at every
boundary inside the stream. -/
theorem mem_visits_of_boundary (hR : R.Lawful) (good : κ → Prop) {k : κ} {p : ℕ} (hk : good k)
    (hopen : ∀ {k}, good k → R.stop k = false)
    (hrun : ∀ {k l e n}, good k → R.next l = some (e, n) → 0 < n → good (R.step k e))
    (hp : Boundary R.next w p) (hlt : p < w.length) :
    p ∈ R.visits (w.length + 1) ⟨k, 0, w, []⟩ := by
  -- the boundary is reached with enough fuel left to look there
  have hreach : ∃ fuel s, s.pos = p ∧ s.buf = w.drop p ∧ good s.ctl ∧
      s.buf.length < fuel ∧ R.visits fuel s ⊆ R.visits (w.length + 1) ⟨k, 0, w, []⟩ := by
    clear hlt
    induction hp with
    | refl => exact ⟨w.length + 1, ⟨k, 0, w, []⟩, rfl, by simp, hk, by simp, by simp⟩
    | @tail q r _ hs ih =>
      obtain ⟨fuel, s, hpos, hbuf, hgood, hfuel, hsub⟩ := ih
      obtain ⟨e, n, hn, rfl⟩ := hs
      rcases Nat.eq_zero_or_pos n with rfl | hn0
      · exact ⟨fuel, s, hpos, hbuf, hgood, hfuel, hsub⟩
      rw [← hbuf] at hn
      have hle := hR.consumed_le hn
      have hne : s.buf.isEmpty = false := by
        cases hb : s.buf with
        | nil =>
          rw [hb, List.length_nil] at hle
          omega
        | cons => rfl
      cases fuel with
      | zero => omega
      | succ fuel =>
        refine ⟨fuel, ⟨R.step s.ctl e, s.pos + n, s.buf.drop n, s.log ++ [e]⟩, by simp [hpos],
          by simp [hbuf, List.drop_drop], hrun hgood hn hn0,
          by simp only [List.length_drop]; omega, ?_⟩
        refine fun x hx => hsub ?_
        rw [Reader.visits, hopen hgood, hne, take_of_next (hopen hgood) hn]
        exact List.mem_cons_of_mem _ hx
  obtain ⟨fuel, s, rfl, hbuf, hgood, hfuel, hsub⟩ := hreach
  apply hsub
  cases fuel with
  | zero => omega
  | succ fuel =>
    have hne : s.buf.isEmpty = false := by
      rw [hbuf, List.isEmpty_eq_false_iff, Ne, List.drop_eq_nil_iff]
      omega
    rw [Reader.visits, hopen hgood, hne]
    exact List.mem_cons_self

end Reader

end Monoblok.Reading
