import Monoblok.Proto.Codec
import Monoblok.Server.Rx

/-!
# Payload bytes and operations

A `PUB` line announces how many payload bytes follow. The receive loop skips
them when the operation is accepted, and closes the connection when the line is
too long. When the subject or the reply is invalid it answers with an error and
goes on behind the line, so the payload is read as protocol.
-/

namespace Monoblok

open Tokens Reading Reader

/-- A control line, without its newline, that publishes `n` payload bytes. -/
structure PubLine (line subject replyTo : Bytes) (n : ℕ) : Prop where
  noNewline : lf ∉ line
  parsed : ∃ verb args bytesStr, nextToken (trimLine line) = some (verb, args) ∧
    eqUpper verb "PUB" = true ∧ splitArgs args = some (subject, replyTo, bytesStr) ∧
    parseUsize bytesStr = some n
  bounded : n ≤ maxPayload

/-- The stream around a publish. -/
def pubStream (pre line payload post : Bytes) : Bytes :=
  pre ++ (line ++ [lf] ++ payload ++ [cr, lf] ++ post)

/-- On no connection and for no way of cutting the stream into reads does the
receive loop look for an operation at one of the payload bytes. -/
def PayloadNotParsed (pre line payload post : Bytes) : Prop :=
  ∀ (σ : Type) (S : ConnOps σ) (server : σ) (authorized : Bool) (as : List (Arrival σ)),
    (as.map Arrival.chunk).flatten <+: pubStream pre line payload post →
    ∀ p ∈ (readAll S (Conn.fresh server authorized) as).calls,
      ¬ (pre.length + line.length + 1 ≤ p ∧ p < pre.length + line.length + 1 + payload.length)

theorem eqUpper_pub {verb : Bytes} (h : eqUpper verb "PUB" = true) :
    eqUpper verb "PING" = false ∧ eqUpper verb "CONNECT" = false ∧
      eqUpper verb "SUB" = false ∧ eqUpper verb "UNSUB" = false := by
  simp only [eqUpper, beq_iff_eq] at h
  simp only [eqUpper, h]
  decide

/-- A publish line leads to the argument checks of `parse_pub`. -/
theorem parseLine_of_pubLine {buf line subject replyTo : Bytes} {n lineEnd : ℕ}
    (h : PubLine line subject replyTo n) :
    parseLine buf line lineEnd =
      if subjectValid subject false = true ∧ (replyTo = [] ∨ subjectValid replyTo false = true) then
        parsePubPayload buf subject replyTo lineEnd n
      else .invalidArgs := by
  obtain ⟨verb, args, bytesStr, htok, hverb, hargs, hn⟩ := h.parsed
  obtain ⟨hping, hconnect, hsub, hunsub⟩ := eqUpper_pub hverb
  have hne : (trimLine line).isEmpty = false := by
    cases hl : trimLine line with
    | nil =>
      rw [hl] at htok
      cases htok
    | cons => rfl
  have hbound : ¬ maxPayload < n := by
    have := h.bounded
    omega
  rw [parseLine, hne, htok]
  simp only [hping, hconnect, hsub, hunsub, hverb, Bool.false_eq_true, if_false, if_true, parsePub,
    hargs, hn, if_neg hbound]
  cases hs : subjectValid subject false with
  | false => simp
  | true =>
    cases hr : subjectValid replyTo false with
    | true => simp
    | false => cases replyTo <;> simp

/-- What the receive loop decides at a publish line. -/
theorem rxNext_pubLine {line subject replyTo payload : Bytes} {n : ℕ} (post : Bytes)
    (h : PubLine line subject replyTo n) (hpay : payload.length = n) :
    rxNext (line ++ [lf] ++ payload ++ [cr, lf] ++ post) =
      if maxControlLine < line.length then some (.violation, 0)
      else if subjectValid subject false = true ∧
          (replyTo = [] ∨ subjectValid replyTo false = true) then
        some (.op (.pub subject replyTo payload), line.length + 1 + n + 2)
      else some (.rejected (lit "Invalid Operation"), line.length + 1) := by
  have hfirst : first lf (line ++ [lf] ++ payload ++ [cr, lf] ++ post) = line := by
    simpa using first_append_of_not_mem (r := payload ++ [cr, lf] ++ post) h.noNewline
  have hparse : parseClientOp (line ++ [lf] ++ payload ++ [cr, lf] ++ post) =
      if maxControlLine < line.length then .controlLineTooLong
      else parseLine (line ++ [lf] ++ payload ++ [cr, lf] ++ post) line (line.length + 1) := by
    rw [parseClientOp, hfirst, if_neg (by simp)]
  unfold rxNext
  rw [hparse]
  by_cases hlong : maxControlLine < line.length
  · simp only [if_pos hlong]
  · rw [if_neg hlong, if_neg hlong, parseLine_of_pubLine h]
    split_ifs with hvalid
    · rw [← hpay, parsePubPayload_complete (by omega) (by have := h.bounded; omega)]
    · simp only [hfirst]

/-- The receive loop only looks for operations at boundaries of the stream. -/
theorem calls_boundary {σ : Type*} {S : ConnOps σ} {w : Bytes} (as : List (Arrival σ))
    (later : Bytes) {c : Conn σ} (hcalls : ∀ p ∈ c.calls, Boundary rxNext w p)
    (htrack : c.closing = false → (rxReader S).OnTrack w (c.view 0)
      ((as.map Arrival.chunk).flatten ++ later)) :
    ∀ p ∈ (readAll S c as).calls, Boundary rxNext w p := by
  induction as generalizing c with
  | nil => exact hcalls
  | cons a as ih =>
    -- the read keeps both the recorded calls and the position on the stream
    have hstep : (∀ p ∈ (read S c a).calls, Boundary rxNext w p) ∧
        ((read S c a).closing = false → (rxReader S).OnTrack w ((read S c a).view 0)
          ((as.map Arrival.chunk).flatten ++ later)) := by
      unfold read
      dsimp only
      split_ifs with hc henv
      · exact ⟨hcalls, fun ho => absurd hc (by simp [ho])⟩
      · refine ⟨hcalls, fun ho => ?_⟩
        rw [show (evict S _).closing = true from beginClose_closing S _] at ho
        cases ho
      · have hopen : c.closing = false := by simpa using hc
        obtain ⟨hunread, hbound⟩ := htrack hopen
        have hstart : (rxReader S).OnTrack w
            (Conn.view { c with server := (a.env c.server).1, rx := c.rx ++ a.chunk } 0)
            ((as.map Arrival.chunk).flatten ++ later) := by
          refine ⟨?_, fun _ => hbound hopen⟩
          simpa [Conn.view, List.append_assoc] using hunread
        have hspec := processRx_spec (S := S)
          (c := { c with server := (a.env c.server).1, rx := c.rx ++ a.chunk }) hopen
        refine ⟨fun p hp => ?_, fun ho => ?_⟩
        · rw [hspec.calls, List.mem_append] at hp
          rcases hp with hp | hp
          · exact hcalls p hp
          · exact hstart.visits (rxReader_lawful S) _ p hp
        · rw [hspec.view ho]
          exact hstart.drainLoop (rxReader_lawful S) _
    exact ih hstep.1 hstep.2

theorem replyOps_runs {k : Session Bytes} {l : Bytes} {e : RxEvent} {n : ℕ}
    (hk : k.authorized = true ∧ k.closing = false)
    (hnext : (rxReader replyOps).next l = some (e, n)) (hn : 0 < n) :
    (rxStep replyOps k e).authorized = true ∧ (rxStep replyOps k e).closing = false := by
  obtain ⟨hauth, hopen⟩ := hk
  cases e with
  | rejected msg => exact ⟨hauth, hopen⟩
  | violation =>
    simp only [rxReader, rxNext] at hnext
    split at hnext
    all_goals cases hnext
    all_goals omega
  | op op =>
    cases op <;>
      simp [rxStep, handleOp, handlePub, writeErrOrClose, publishError, replyOps, hauth, hopen]
    split_ifs <;> simp

/-- A publish hides its payload from the parser exactly when there is no
payload, when subject and reply are valid, or when the line is too long. -/
theorem payload_not_parsed_iff {pre line subject replyTo payload post : Bytes} {n : ℕ}
    (h : PubLine line subject replyTo n) (hpay : payload.length = n)
    (hpos : Boundary rxNext (pubStream pre line payload post) pre.length) :
    PayloadNotParsed pre line payload post ↔
      n = 0 ∨ (subjectValid subject false = true ∧
        (replyTo = [] ∨ subjectValid replyTo false = true)) ∨ maxControlLine < line.length := by
  have hdrop : (pubStream pre line payload post).drop pre.length =
      line ++ [lf] ++ payload ++ [cr, lf] ++ post := List.drop_left
  have hnext := rxNext_pubLine post h hpay
  rw [← hdrop] at hnext
  constructor
  · intro hsafe
    by_contra hbad
    simp only [not_or] at hbad
    obtain ⟨hn, hvalid, hlong⟩ := hbad
    rw [if_neg hlong, if_neg hvalid] at hnext
    -- the loop resynchronises at the newline, which is where the payload starts
    have hinside : Boundary rxNext (pubStream pre line payload post)
        (pre.length + (line.length + 1)) := hpos.tail ⟨_, _, hnext, rfl⟩
    have hlt : pre.length + (line.length + 1) < (pubStream pre line payload post).length := by
      simp only [pubStream, List.length_append, List.length_cons, List.length_nil]
      omega
    have hvisit := mem_visits_of_boundary (rxReader_lawful replyOps)
      (fun k => k.authorized = true ∧ k.closing = false) (k := (Conn.fresh [] true).toSession)
      ⟨rfl, rfl⟩ (fun hk => hk.2) replyOps_runs hinside hlt
    have hspec := processRx_spec (S := replyOps)
      (c := { Conn.fresh [] true with rx := pubStream pre line payload post }) rfl
    have hcall : pre.length + (line.length + 1) ∈ (processRx replyOps
        { Conn.fresh [] true with rx := pubStream pre line payload post }).calls := by
      rw [hspec.calls]
      exact List.mem_append_right _ hvisit
    refine hsafe Bytes replyOps [] true
      [⟨fun s => (s, false), pubStream pre line payload post⟩] (by simp) _ hcall ?_
    omega
  · intro hok σ S server authorized as hprefix p hp hin
    obtain ⟨later, hlater⟩ := hprefix
    have hp := calls_boundary (S := S) (w := pubStream pre line payload post) as
      later (c := Conn.fresh server authorized) (by simp [Conn.fresh])
      (fun _ => ⟨by simp [Conn.view, Conn.fresh, hlater], fun _ => .refl⟩) p hp
    rcases hok with hn | hvalid | hlong
    · omega
    · by_cases hlong : maxControlLine < line.length
      · rw [if_pos hlong] at hnext
        have := boundary_le_of_none hpos hp fun e n he => by
          rw [hnext] at he
          cases he
          rfl
        omega
      · rw [if_neg hlong, if_pos hvalid] at hnext
        have := boundary_gap hpos hp hnext
        omega
    · rw [if_pos hlong] at hnext
      have := boundary_le_of_none hpos hp fun e n he => by
        rw [hnext] at he
        cases he
        rfl
      omega

/-- A valid publish, read behind a `PING`, whose payload is a `PING` itself. -/
theorem payload_not_parsed_iff_ping :
    PayloadNotParsed (lit "PING\r\n") (lit "PUB a 6\r") (lit "PING\r\n") [] := by
  have hline : PubLine (lit "PUB a 6\r") (lit "a") [] 6 :=
    ⟨by decide, ⟨lit "PUB", lit " a 6", lit "6", by decide, by decide, by decide, by decide⟩,
      by decide⟩
  refine (payload_not_parsed_iff hline (by decide) ?_).mpr (.inr (.inl ⟨by decide, .inl rfl⟩))
  exact .single ⟨.op .ping, 6, by decide, rfl⟩

/-- The subject `a..b` is invalid, so the `PING` in the payload is executed. -/
theorem payload_parsed_invalid_subject :
    PubLine (lit "PUB a..b 6\r") (lit "a..b") [] 6 ∧
    Boundary rxNext (pubStream [] (lit "PUB a..b 6\r") (lit "PING\r\n") []) 0 ∧
    (readAll replyOps (Conn.fresh [] true) [⟨fun s => (s, false),
      pubStream [] (lit "PUB a..b 6\r") (lit "PING\r\n") []⟩]).log.take 2 =
        [.rejected (lit "Invalid Operation"), .op .ping] ∧
    ¬ PayloadNotParsed [] (lit "PUB a..b 6\r") (lit "PING\r\n") [] := by
  refine ⟨⟨by decide, ⟨lit "PUB", lit " a..b 6", lit "6", by decide, by decide, by decide,
    by decide⟩, by decide⟩, .refl, by decide, fun h => ?_⟩
  exact h Bytes replyOps [] true [⟨fun s => (s, false),
    pubStream [] (lit "PUB a..b 6\r") (lit "PING\r\n") []⟩] (by simp) 12 (by decide) (by decide)

end Monoblok
