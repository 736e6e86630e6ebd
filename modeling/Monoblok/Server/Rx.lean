import Monoblok.Server.Conn

/-!
# Reading a client stream in chunks

The receive loop, seen as a reader of the whole byte stream, hands over the
same operations and errors however the stream is cut into reads, and the unread
rest stays below the cap on it.
-/

namespace Monoblok

open Tokens Reading

section Receiving

variable {σ : Type*} {S : ConnOps σ}

/-! ## `process_rx` as a whole -/

/-- The longest input that can be left over: a control line, its newline, a
payload and the first byte of the trailer. -/
def maxResidual : ℕ := maxControlLine + 1 + maxPayload + 1

theorem residual_of_next_none {buf : Bytes} (h : rxNext buf = none) :
    buf.length ≤ maxResidual := by
  apply parseClientOp_needMore
  unfold rxNext at h
  split at h
  all_goals first | assumption | cases h

theorem maxResidual_le_maxRx : maxResidual ≤ maxRx := by decide

theorem processLoop_residual {c c' : Conn σ} {cursor : ℕ} (hopen : c.closing = false)
    (h : processLoop S (c.rx.length + 1) c 0 = (c', some cursor)) :
    (c'.consume cursor).rx.length ≤ maxResidual := by
  have hspec := processLoop_spec (S := S) (c.rx.length + 1) c 0 hopen
  rw [h] at hspec
  obtain ⟨hopen', hview⟩ := hspec.view cursor rfl
  have htake : (rxReader S).take (c'.view cursor) = none := by
    rw [hview]
    exact Reader.take_drainLoop (rxReader_lawful S) (by simp [Conn.view])
  apply residual_of_next_none
  cases hn : rxNext (c'.rx.drop cursor) with
  | none => exact hn
  | some v =>
    obtain ⟨e, n⟩ := v
    rw [Reader.take_of_next hopen' hn] at htake
    cases htake

theorem capRx_of_residual {c : Conn σ} (h : c.rx.length ≤ maxResidual) : c.capRx S = c := by
  have := maxResidual_le_maxRx
  rw [Conn.capRx, if_neg (by omega)]

structure RxSpec (S : ConnOps σ) (c r : Conn σ) : Prop where
  session : r.toSession = ((rxReader S).drain (c.view 0)).ctl
  log : r.log = ((rxReader S).drain (c.view 0)).log
  calls : r.calls = c.calls ++ (rxReader S).visits (c.rx.length + 1) (c.view 0)
  view : r.closing = false → r.view 0 = (rxReader S).drain (c.view 0)

theorem processRx_spec {c : Conn σ} (hopen : c.closing = false) : RxSpec S c (processRx S c) := by
  have hspec := processLoop_spec (S := S) (c.rx.length + 1) c 0 hopen
  have hdrain : (rxReader S).drain (c.view 0) =
      (rxReader S).drainLoop (c.rx.length + 1) (c.view 0) := by
    simp [Reader.drain, Conn.view]
  unfold processRx
  cases hloop : processLoop S (c.rx.length + 1) c 0 with
  | mk c' cur =>
    rw [hloop] at hspec
    cases cur with
    | none =>
      refine ⟨hdrain ▸ hspec.session, hdrain ▸ hspec.log, hspec.calls, ?_⟩
      intro hc
      rw [hspec.closing rfl] at hc
      cases hc
    | some cursor =>
      simp only [capRx_of_residual (processLoop_residual hopen hloop)]
      refine ⟨hdrain ▸ hspec.session, hdrain ▸ hspec.log, hspec.calls, ?_⟩
      intro _
      rw [hdrain, ← (hspec.view cursor rfl).2]
      simp [Conn.view, Conn.consume]

/-! ## Chunk independence -/

/-- The part of the session that decides which operations are still handled. -/
structure Gate where
  authorized : Bool
  closing : Bool
  deriving DecidableEq, Repr

def Session.gate (k : Session σ) : Gate := ⟨k.authorized, k.closing⟩

def gateStep (S : ConnOps σ) (g : Gate) : RxEvent → Gate
  | .op op =>
    if g.authorized then g
    else if authorizes S op then { g with authorized := true } else { g with closing := true }
  | .rejected _ => g
  | .violation => { g with closing := true }

def gateReader (S : ConnOps σ) : Reader UInt8 RxEvent Gate := ⟨rxNext, gateStep S, Gate.closing⟩

theorem gateReader_lawful (S : ConnOps σ) : (gateReader S).Lawful where
  consumed_le h := (rxReader_lawful S).consumed_le h
  stable r h := (rxReader_lawful S).stable r h
  productive {l e n} h := by
    cases e with
    | violation => exact .inr fun k => rfl
    | rejected msg =>
      obtain ⟨rfl, -⟩ := rxNext_of_rejected h
      exact .inl (Nat.succ_pos _)
    | op op =>
      simp only [gateReader, rxNext] at h
      split at h
      all_goals cases h
      have := (parseClientOp_ok ‹_›).1
      exact .inl (by omega)

@[simp] theorem beginClose_evicted (k : Session σ) : (beginClose S k).evicted = k.evicted := by
  unfold beginClose
  split_ifs <;> rfl

@[simp] theorem beginClose_authorized (k : Session σ) :
    (beginClose S k).authorized = k.authorized := by
  unfold beginClose
  split_ifs <;> rfl

@[simp] theorem evict_evicted (k : Session σ) : (evict S k).evicted = true := rfl

theorem writeErrOrClose_gate {k : Session σ} {msg : Bytes}
    (h : (writeErrOrClose S k msg).evicted = false) :
    k.evicted = false ∧ (writeErrOrClose S k msg).gate = k.gate := by
  unfold writeErrOrClose at h ⊢
  dsimp only at h ⊢
  split_ifs at h ⊢
  · exact ⟨h, rfl⟩
  · simp at h

theorem authViolation_gate {k : Session σ} (h : (authViolation S k).evicted = false) :
    k.evicted = false ∧ (authViolation S k).gate = { k.gate with closing := true } := by
  unfold authViolation at h ⊢
  rw [beginClose_evicted] at h
  obtain ⟨hk, hgate⟩ := writeErrOrClose_gate h
  refine ⟨hk, ?_⟩
  simp only [Session.gate, beginClose_closing, beginClose_authorized, Gate.mk.injEq] at hgate ⊢
  exact ⟨hgate.1, trivial⟩

theorem handlePub_gate {k : Session σ} {subject replyTo payload : Bytes}
    (h : (handlePub S k subject replyTo payload).evicted = false) :
    k.evicted = false ∧ (handlePub S k subject replyTo payload).gate = k.gate := by
  unfold handlePub at h ⊢
  dsimp only at h ⊢
  by_cases hc : (S.clientPublish k.server subject payload replyTo).2.2
  · exfalso
    rw [if_pos hc] at h
    split at h
    · simp at h
    · exact absurd (writeErrOrClose_gate h).1 (by simp)
  · rw [if_neg hc] at h ⊢
    split at h
    · exact ⟨h, rfl⟩
    · obtain ⟨hk, hgate⟩ := writeErrOrClose_gate h
      exact ⟨hk, hgate⟩

theorem handleOp_gate {k : Session σ} {op : Op} (h : (handleOp S k op).evicted = false) :
    k.evicted = false ∧ (handleOp S k op).gate = gateStep S k.gate (.op op) := by
  unfold handleOp at h ⊢
  by_cases ha : k.authorized = true
  · have hgate : gateStep S k.gate (.op op) = k.gate := by simp [gateStep, Session.gate, ha]
    rw [hgate]
    rw [if_neg (by simp [ha])] at h ⊢
    split_ifs at h ⊢
    · exact writeErrOrClose_gate h
    · cases op with
      | connect json => exact ⟨h, rfl⟩
      | ping =>
        dsimp only at h ⊢
        split_ifs at h ⊢
        · exact ⟨h, rfl⟩
        · simp at h
      | sub subject queue sid =>
        dsimp only at h ⊢
        split_ifs at h ⊢
        · exact writeErrOrClose_gate h
        · exact ⟨h, rfl⟩
        · exact writeErrOrClose_gate h
      | unsub sid maxMsgs => exact ⟨h, rfl⟩
      | pub subject replyTo payload => exact handlePub_gate h
  · rw [if_pos (by simpa using ha)] at h ⊢
    simp only [Bool.not_eq_true] at ha
    cases hop : authorizes S op with
    | false =>
      simp only [hop, Bool.not_false, if_true] at h ⊢
      simpa [gateStep, Session.gate, ha, hop] using authViolation_gate h
    | true =>
      simp only [hop, Bool.not_true, Bool.false_eq_true, if_false] at h ⊢
      exact ⟨h, by simp [gateStep, Session.gate, ha, hop]⟩

theorem rxStep_gate {k : Session σ} {e : RxEvent} (h : (rxStep S k e).evicted = false) :
    k.evicted = false ∧ (rxStep S k e).gate = gateStep S k.gate e := by
  cases e with
  | op op => exact handleOp_gate h
  | rejected msg => exact writeErrOrClose_gate h
  | violation =>
    simp only [rxStep, beginClose_evicted] at h ⊢
    obtain ⟨hk, hgate⟩ := writeErrOrClose_gate h
    refine ⟨hk, ?_⟩
    simp only [Session.gate, gateStep, beginClose_closing, beginClose_authorized,
      Gate.mk.injEq] at hgate ⊢
    exact ⟨hgate.1, trivial⟩

theorem rx_image (S : ConnOps σ) :
    (rxReader S).Image (gateReader S) Session.gate (fun k => k.evicted = false) where
  next_eq := rfl
  stop_eq _ := rfl
  good_of_step h := (rxStep_gate h).1
  step_eq _ h := (rxStep_gate h).2.symm

/-- The connection has handled what the gate reader has handled. -/
structure Tracks (c : Conn σ) (g : State UInt8 RxEvent Gate) : Prop where
  log : c.log = g.log
  gate : c.gate = g.ctl
  view : c.closing = false → (c.view 0).map Session.gate = g

theorem Tracks.processRx {c : Conn σ} {g : State UInt8 RxEvent Gate} (hopen : c.closing = false)
    (hview : (c.view 0).map Session.gate = g) (hgood : (processRx S c).evicted = false) :
    Tracks (processRx S c) ((gateReader S).drain g) := by
  have hspec := processRx_spec (S := S) hopen
  have hctl : ((rxReader S).drain (c.view 0)).ctl.evicted = false := by
    rw [← hspec.session]
    exact hgood
  have hmap := (rx_image S).drain_map hctl
  rw [hview] at hmap
  rw [hmap]
  refine ⟨hspec.log, congrArg Session.gate hspec.session, fun hc => ?_⟩
  rw [hspec.view hc]

/-- A closed reader keeps what it has handled, whatever arrives. -/
theorem feed_closed {g : State UInt8 RxEvent Gate} (hc : g.ctl.closing = true) (chunk : Bytes) :
    (gateReader S).feed g chunk = g.append chunk := by
  have htake : (gateReader S).take (g.append chunk) = none := by
    simp [Reader.take, gateReader, hc]
  rw [Reader.feed, Reader.drain, Reader.drainLoop, htake]

theorem evicted_of_read {c : Conn σ} {a : Arrival σ} (h : (read S c a).evicted = false) :
    c.evicted = false := by
  unfold read at h
  dsimp only at h
  split_ifs at h with hc henv
  · exact h
  · simp at h
  · have hspec := processRx_spec (S := S)
      (c := { c with server := (a.env c.server).1, rx := c.rx ++ a.chunk }) (by simpa using hc)
    rw [hspec.session] at h
    exact (rx_image S).good_of_drainLoop h

theorem evicted_of_readAll {c : Conn σ} {as : List (Arrival σ)}
    (h : (readAll S c as).evicted = false) : c.evicted = false := by
  induction as generalizing c with
  | nil => exact h
  | cons a as ih => exact evicted_of_read (ih h)

theorem Tracks.read {c : Conn σ} {g : State UInt8 RxEvent Gate} {a : Arrival σ} (h : Tracks c g)
    (hgood : (read S c a).evicted = false) :
    Tracks (read S c a) ((gateReader S).feed g a.chunk) := by
  unfold Monoblok.read at hgood ⊢
  dsimp only at hgood ⊢
  split_ifs at hgood ⊢ with hc henv
  · have hg : g.ctl.closing = true := by
      rw [← h.gate]
      exact hc
    rw [feed_closed hg]
    exact ⟨h.log, h.gate, fun ho => absurd hc (by simp [ho])⟩
  · simp at hgood
  · have hopen : c.closing = false := by simpa using hc
    refine Tracks.processRx hopen ?_ hgood
    rw [← h.view hopen]
    simp [Conn.view, State.map, State.append, Session.gate]

theorem Tracks.readAll {c : Conn σ} {g : State UInt8 RxEvent Gate} {as : List (Arrival σ)}
    (h : Tracks c g) (hgood : (readAll S c as).evicted = false) :
    Tracks (readAll S c as) ((gateReader S).feedAll g (as.map Arrival.chunk)) := by
  induction as generalizing c g with
  | nil => exact h
  | cons a as ih => exact ih (h.read (evicted_of_readAll hgood)) hgood

theorem tracks_fresh (server : σ) (authorized : Bool) :
    Tracks (Conn.fresh server authorized) ⟨⟨authorized, false⟩, 0, [], []⟩ :=
  ⟨rfl, rfl, fun _ => rfl⟩

/-- What a fresh connection handles depends on the bytes only. -/
theorem tracks_fresh_readAll {server : σ} {authorized : Bool} {as : List (Arrival σ)}
    (hgood : (readAll S (Conn.fresh server authorized) as).evicted = false) :
    Tracks (readAll S (Conn.fresh server authorized) as)
      ((gateReader S).drain ⟨⟨authorized, false⟩, 0, (as.map Arrival.chunk).flatten, []⟩) := by
  have h := (tracks_fresh server authorized).readAll hgood
  have hstart : (⟨⟨authorized, false⟩, 0, [], []⟩ : State UInt8 RxEvent Gate) =
      (gateReader S).drain ⟨⟨authorized, false⟩, 0, [], []⟩ := by
    simp [Reader.drain, Reader.drainLoop, Reader.take, gateReader, rxNext_nil]
  rw [hstart, Reader.feedAll_append (gateReader_lawful S)] at h
  simpa [State.append] using h

/-- Two ways of cutting one byte stream into reads handle the same operations
and errors, whatever else the server does in between; a decided parse does not
change when more bytes arrive; and unread input stays so short that the cap on
it never closes a connection. -/
theorem processRx_chunk_independent (S : ConnOps σ) :
    (∀ (server₁ server₂ : σ) (authorized : Bool) (as bs : List (Arrival σ)),
      (as.map Arrival.chunk).flatten = (bs.map Arrival.chunk).flatten →
      (readAll S (Conn.fresh server₁ authorized) as).evicted = false →
      (readAll S (Conn.fresh server₂ authorized) bs).evicted = false →
      let c₁ := readAll S (Conn.fresh server₁ authorized) as
      let c₂ := readAll S (Conn.fresh server₂ authorized) bs
      c₁.log = c₂.log ∧ c₁.closing = c₂.closing ∧ (c₁.closing = false → c₁.rx = c₂.rx)) ∧
    (∀ buf more : Bytes, parseClientOp buf ≠ .needMore →
      parseClientOp (buf ++ more) = parseClientOp buf) ∧
    (∀ c : Conn σ, c.closing = false → (processRx S c).closing = false →
      (processRx S c).rx.length ≤ maxControlLine + 1 + maxPayload + 1) ∧
    (∀ (c c' : Conn σ) (cursor : ℕ), c.closing = false →
      processLoop S (c.rx.length + 1) c 0 = (c', some cursor) →
      ¬ maxRx < (c'.consume cursor).rx.length) := by
  refine ⟨?_, fun buf more h => parseClientOp_append more h, ?_, ?_⟩
  · intro server₁ server₂ authorized as bs hstream h₁ h₂
    have t₁ := tracks_fresh_readAll h₁
    have t₂ := tracks_fresh_readAll h₂
    rw [← hstream] at t₂
    have hclosing := congrArg Gate.closing (t₁.gate.trans t₂.gate.symm)
    refine ⟨t₁.log.trans t₂.log.symm, hclosing, fun hopen => ?_⟩
    have hrx := congrArg State.buf ((t₁.view hopen).trans (t₂.view (hclosing.symm.trans hopen)).symm)
    simpa [Conn.view, State.map] using hrx
  · intro c hopen hc
    have hspec := processRx_spec (S := S) hopen
    have htake : (rxReader S).take ((processRx S c).view 0) = none := by
      rw [hspec.view hc]
      exact Reader.take_drain (rxReader_lawful S) _
    have hview : ((processRx S c).view 0).buf = (processRx S c).rx := by simp [Conn.view]
    rw [← hview]
    apply residual_of_next_none
    cases hn : rxNext ((processRx S c).view 0).buf with
    | none => rfl
    | some v =>
      rw [Reader.take_of_next (e := v.1) (n := v.2) hc hn] at htake
      cases htake
  · intro c c' cursor hopen hloop
    have h := processLoop_residual hopen hloop
    have := maxResidual_le_maxRx
    omega

/-- A server without subscribers whose state is the output of the connection. -/
def replyOps : ConnOps Bytes where
  connectAuthMatches _ := true
  serverClosing _ := false
  lvcEnabled _ := false
  writeErr out msg := (out ++ lit "-ERR '" ++ msg ++ lit "'\r\n", true)
  writePong out := (out ++ lit "PONG\r\n", true)
  subscribeQueue out _ _ _ := (out, true)
  unsubscribe out _ _ := out
  clientPublish out _ _ _ := (out, .ok, false)
  removeAllFor out := out

/-- A `PUB` cut inside its line and inside its trailer, and the same bytes at once. -/
theorem processRx_chunk_independent_cut :
    (readAll replyOps (Conn.fresh [] true)
        [⟨fun s => (s, false), lit "PIN"⟩, ⟨fun s => (s, false), lit "G\r\nPUB a 2\r\nhi\r"⟩,
          ⟨fun s => (s, false), lit "\nBAD\r\n"⟩]).log =
      (readAll replyOps (Conn.fresh [] true)
        [⟨fun s => (s, false), lit "PING\r\nPUB a 2\r\nhi\r\nBAD\r\n"⟩]).log ∧
    parseClientOp (lit "PING\r\n" ++ lit "SUB") = parseClientOp (lit "PING\r\n") ∧
    (processRx replyOps { Conn.fresh [] true with rx := lit "PUB a 2\r\nhi\r" }).rx.length ≤
      maxControlLine + 1 + maxPayload + 1 ∧
    ¬ maxRx < (Conn.consume
      (processLoop replyOps 7 { Conn.fresh [] true with rx := lit "PING\r\n" } 0).1 6).rx.length := by
  obtain ⟨hchunks, hstable, hresidual, hcap⟩ := processRx_chunk_independent replyOps
  refine ⟨(hchunks [] [] true _ _ (by decide) (by decide) (by decide)).1,
    hstable _ _ (by decide), hresidual _ rfl (by decide), ?_⟩
  exact hcap { Conn.fresh [] true with rx := lit "PING\r\n" } _ 6 rfl rfl

end Receiving

end Monoblok
