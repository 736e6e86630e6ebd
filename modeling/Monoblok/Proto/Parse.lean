import Monoblok.Proto.Subject

/-!
# The client operation parser

`mb_parse_client_op` of `proto.c` and its helpers. The parser always restarts
at the first byte of an operation; it looks at the control line and, for `PUB`,
at the payload and its trailer. `parseClientOp_append` says that a decided
result does not change when more bytes arrive, and `parseClientOp_needMore`
bounds the bytes of an undecided operation.
-/

namespace Monoblok

open Tokens

def maxControlLine : ℕ := 4096
def maxPayload : ℕ := 1024 * 1024

inductive Op where
  | connect (json : Bytes)
  | ping
  | sub (subject queue sid : Bytes)
  | unsub (sid : Bytes) (maxMsgs : Option ℕ)
  | pub (subject replyTo payload : Bytes)
  deriving DecidableEq, Repr

inductive ParseResult where
  | ok (op : Op) (consumed : ℕ)
  | needMore
  | malformed
  | unknown
  | invalidArgs
  | payloadTooLarge
  | controlLineTooLong
  deriving DecidableEq, Repr

/-- `toupper` of the C locale. -/
def toUpper (c : UInt8) : UInt8 := if 0x61 ≤ c ∧ c ≤ 0x7a then c - 0x20 else c

def eqUpper (s : Bytes) (word : String) : Bool := s.map toUpper == lit word

def isBlank (c : UInt8) : Bool := c == space || c == tab

def trimSpaces (s : Bytes) : Bytes := (s.dropWhile isBlank).rdropWhile isBlank

/-- The next blank-separated token and what follows it. -/
def nextToken (s : Bytes) : Option (Bytes × Bytes) :=
  let s := trimSpaces s
  if s.isEmpty then none
  else some (s.takeWhile fun c => !isBlank c, s.dropWhile fun c => !isBlank c)

def parseUsizeLoop : ℕ → Bytes → Option ℕ
  | v, [] => some v
  | v, c :: cs =>
    if c < 0x30 ∨ 0x39 < c then none
    else
      let digit := c.toNat - 0x30
      if (sizeMax - digit) / 10 < v then none
      else parseUsizeLoop (v * 10 + digit) cs

def parseUsize (s : Bytes) : Option ℕ :=
  if s.isEmpty then none else parseUsizeLoop 0 s

/-- The argument list shared by `SUB` and `PUB`: two tokens, or three with an
optional one (queue group, reply subject) in the middle. -/
def splitArgs (s : Bytes) : Option (Bytes × Bytes × Bytes) :=
  match nextToken s with
  | none => none
  | some (subject, s) =>
    match nextToken s with
    | none => none
    | some (second, s) =>
      match nextToken s with
      | none => some (subject, [], second)
      | some (third, s) =>
        match nextToken s with
        | none => some (subject, second, third)
        | some _ => none

def parseSub (args : Bytes) (consumed : ℕ) : ParseResult :=
  match splitArgs args with
  | none => .invalidArgs
  | some (subject, queue, sid) =>
    if !subjectValid subject true || !tokenValid sid ||
        (!queue.isEmpty && !tokenValid queue) then .invalidArgs
    else .ok (.sub subject queue sid) consumed

def parseUnsub (args : Bytes) (consumed : ℕ) : ParseResult :=
  match nextToken args with
  | none => .invalidArgs
  | some (sid, args) =>
    if !tokenValid sid then .invalidArgs
    else
      match nextToken args with
      | none => .ok (.unsub sid none) consumed
      | some (maxMsgs, args) =>
        match parseUsize maxMsgs with
        | none => .invalidArgs
        | some n =>
          match nextToken args with
          | none => .ok (.unsub sid (some n)) consumed
          | some _ => .invalidArgs

/-- A complete `PUB`, unless its length does not fit a `size_t`. -/
def pubResult (subject replyTo payload : Bytes) (lineEnd payloadLen trailerLen : ℕ) :
    ParseResult :=
  if sizeMax - lineEnd < payloadLen ∨ sizeMax - lineEnd - payloadLen < trailerLen then
    .payloadTooLarge
  else .ok (.pub subject replyTo payload) (lineEnd + payloadLen + trailerLen)

/-- The payload and trailer of a `PUB` whose control line ends at `lineEnd`. -/
def parsePubPayload (buf subject replyTo : Bytes) (lineEnd payloadLen : ℕ) : ParseResult :=
  if buf.length < lineEnd then .needMore
  else if buf.length - lineEnd ≤ payloadLen then .needMore
  else
    let payload := (buf.drop lineEnd).take payloadLen
    match buf.drop (lineEnd + payloadLen) with
    | [] => .needMore
    | c :: more =>
      if c = lf then pubResult subject replyTo payload lineEnd payloadLen 1
      else if c = cr then
        match more with
        | [] => .needMore
        | d :: _ =>
          if d = lf then pubResult subject replyTo payload lineEnd payloadLen 2 else .malformed
      else .malformed

def parsePub (buf args : Bytes) (lineEnd : ℕ) : ParseResult :=
  match splitArgs args with
  | none => .invalidArgs
  | some (subject, replyTo, bytesStr) =>
    match parseUsize bytesStr with
    | none => .invalidArgs
    | some payloadLen =>
      if !subjectValid subject false then .invalidArgs
      else if !replyTo.isEmpty && !subjectValid replyTo false then .invalidArgs
      else if maxPayload < payloadLen then .payloadTooLarge
      else parsePubPayload buf subject replyTo lineEnd payloadLen

/-- A control line without its newline: one `\r` before the newline and the
blanks at both ends do not belong to the operation. -/
def trimLine (line : Bytes) : Bytes :=
  trimSpaces (if line.getLast? = some cr then line.dropLast else line)

/-- The operation on a complete control line; `buf` is only read by `PUB`. -/
def parseLine (buf line : Bytes) (lineEnd : ℕ) : ParseResult :=
  if (trimLine line).isEmpty then .malformed
  else
    match nextToken (trimLine line) with
    | none => .malformed
    | some (verb, args) =>
      if eqUpper verb "PING" then
        if (trimSpaces args).isEmpty then .ok .ping lineEnd else .invalidArgs
      else if eqUpper verb "CONNECT" then .ok (.connect (trimSpaces args)) lineEnd
      else if eqUpper verb "SUB" then parseSub args lineEnd
      else if eqUpper verb "UNSUB" then parseUnsub args lineEnd
      else if eqUpper verb "PUB" then parsePub buf args lineEnd
      else .unknown

def parseClientOp (buf : Bytes) : ParseResult :=
  let line := first lf buf
  if line.length = buf.length then
    if maxControlLine < buf.length then .controlLineTooLong else .needMore
  else if maxControlLine < line.length then .controlLineTooLong
  else parseLine buf line (line.length + 1)

/-! ## A decided result is stable under more input -/

theorem parsePubPayload_append {buf subject replyTo : Bytes} {lineEnd n : ℕ} (more : Bytes)
    (h : parsePubPayload buf subject replyTo lineEnd n ≠ .needMore) :
    parsePubPayload (buf ++ more) subject replyTo lineEnd n =
      parsePubPayload buf subject replyTo lineEnd n := by
  unfold parsePubPayload at h ⊢
  by_cases h1 : buf.length < lineEnd
  · simp [h1] at h
  by_cases h2 : buf.length - lineEnd ≤ n
  · simp [h1, h2] at h
  rw [if_neg h1, if_neg h2] at h ⊢
  rw [if_neg (by rw [List.length_append]; omega), if_neg (by rw [List.length_append]; omega)]
  have hpay : ((buf ++ more).drop lineEnd).take n = (buf.drop lineEnd).take n := by
    rw [List.drop_append_of_le_length (by omega), List.take_append_of_le_length]
    rw [List.length_drop]
    omega
  have htail : (buf ++ more).drop (lineEnd + n) = buf.drop (lineEnd + n) ++ more :=
    List.drop_append_of_le_length (by omega)
  simp only [hpay, htail] at h ⊢
  cases ht : buf.drop (lineEnd + n) with
  | nil => simp [ht] at h
  | cons c tail =>
    cases tail with
    | nil =>
      simp only [ht, List.cons_append, List.nil_append] at h ⊢
      by_cases hc : c = lf
      · simp [hc]
      · by_cases hr : c = cr
        · simp [hr, lf, cr] at h
        · simp [hc, hr]
    | cons d tail => rfl

theorem parsePub_append {buf args : Bytes} {lineEnd : ℕ} (more : Bytes)
    (h : parsePub buf args lineEnd ≠ .needMore) :
    parsePub (buf ++ more) args lineEnd = parsePub buf args lineEnd := by
  unfold parsePub at h ⊢
  split at h
  · rfl
  · split at h
    · rfl
    · split_ifs at h ⊢
      · rfl
      · rfl
      · rfl
      · exact parsePubPayload_append more h

theorem parseLine_append {buf line : Bytes} {lineEnd : ℕ} (more : Bytes)
    (h : parseLine buf line lineEnd ≠ .needMore) :
    parseLine (buf ++ more) line lineEnd = parseLine buf line lineEnd := by
  unfold parseLine at h ⊢
  split_ifs at h ⊢
  · rfl
  · split at h
    · rfl
    · split_ifs at h ⊢
      all_goals first | rfl | exact parsePub_append more h

/-- Any result other than `needMore` is unchanged, its consumed length
included, by bytes that arrive later. -/
theorem parseClientOp_append {buf : Bytes} (more : Bytes)
    (h : parseClientOp buf ≠ .needMore) :
    parseClientOp (buf ++ more) = parseClientOp buf := by
  unfold parseClientOp at h ⊢
  by_cases hnl : (first lf buf).length = buf.length
  · -- no newline yet: decided only because the line is already too long
    have hlong : maxControlLine < buf.length := by
      by_contra hlong
      simp [hnl, hlong] at h
    have hline : maxControlLine < (first lf (buf ++ more)).length := by
      have hb : first lf buf = buf := by
        have := List.takeWhile_prefix (l := buf) (· != lf)
        exact this.eq_of_length hnl
      have hall : ∀ c ∈ buf, (c != lf) = true := by
        intro c hc
        rw [← hb] at hc
        exact List.mem_takeWhile_imp (p := (· != lf)) hc
      rw [first, List.takeWhile_append_of_pos hall, List.length_append]
      omega
    simp only [hnl, hlong, if_true]
    split_ifs with h1 h2
    · rfl
    · rw [List.length_append] at h2
      omega
    · rfl
  · have hf : first lf (buf ++ more) = first lf buf := first_append hnl
    have hle : (first lf buf).length ≤ buf.length := (List.takeWhile_prefix _).length_le
    simp only [hf, hnl, if_false] at h ⊢
    rw [if_neg (by rw [List.length_append]; omega)]
    split_ifs at h ⊢
    · rfl
    · exact parseLine_append more h

/-! ## How much an undecided operation can hold -/

theorem pubResult_ne_needMore (subject replyTo payload : Bytes) (lineEnd n trailer : ℕ) :
    pubResult subject replyTo payload lineEnd n trailer ≠ .needMore := by
  unfold pubResult
  split_ifs <;> simp

theorem parsePubPayload_needMore {buf subject replyTo : Bytes} {lineEnd n : ℕ}
    (h : parsePubPayload buf subject replyTo lineEnd n = .needMore) :
    buf.length ≤ lineEnd + n + 1 := by
  unfold parsePubPayload at h
  by_cases h1 : buf.length < lineEnd
  · omega
  by_cases h2 : buf.length - lineEnd ≤ n
  · omega
  rw [if_neg h1, if_neg h2] at h
  have hlen : (buf.drop (lineEnd + n)).length = buf.length - (lineEnd + n) := List.length_drop
  cases ht : buf.drop (lineEnd + n) with
  | nil =>
    rw [ht, List.length_nil] at hlen
    omega
  | cons c tail =>
    cases tail with
    | nil =>
      rw [ht, List.length_singleton] at hlen
      omega
    | cons d tail =>
      simp only [ht] at h
      split_ifs at h
      all_goals exact absurd h (pubResult_ne_needMore _ _ _ _ _ _)

theorem parsePub_needMore {buf args : Bytes} {lineEnd : ℕ}
    (h : parsePub buf args lineEnd = .needMore) : buf.length ≤ lineEnd + maxPayload + 1 := by
  unfold parsePub at h
  split at h
  · cases h
  · split at h
    · cases h
    · split_ifs at h with h1 h2 h3
      have := parsePubPayload_needMore h
      omega

theorem parseSub_ne_needMore (args : Bytes) (consumed : ℕ) :
    parseSub args consumed ≠ .needMore := by
  unfold parseSub
  split
  · simp
  · split_ifs <;> simp

theorem parseUnsub_ne_needMore (args : Bytes) (consumed : ℕ) :
    parseUnsub args consumed ≠ .needMore := by
  unfold parseUnsub
  repeat' split
  all_goals simp

theorem parseLine_needMore {buf line : Bytes} {lineEnd : ℕ}
    (h : parseLine buf line lineEnd = .needMore) : buf.length ≤ lineEnd + maxPayload + 1 := by
  unfold parseLine at h
  split_ifs at h
  split at h
  · cases h
  · split_ifs at h
    · exact absurd h (parseSub_ne_needMore _ _)
    · exact absurd h (parseUnsub_ne_needMore _ _)
    · exact parsePub_needMore h

theorem parseClientOp_needMore {buf : Bytes} (h : parseClientOp buf = .needMore) :
    buf.length ≤ maxControlLine + 1 + maxPayload + 1 := by
  unfold parseClientOp at h
  simp only at h
  split_ifs at h with h1 h2 h3
  · omega
  · have := parseLine_needMore h
    omega

/-! ## What a complete operation consumes -/

theorem pubResult_ok {subject replyTo payload : Bytes} {lineEnd n trailer consumed : ℕ} {op : Op}
    (h : pubResult subject replyTo payload lineEnd n trailer = .ok op consumed) :
    consumed = lineEnd + n + trailer := by
  unfold pubResult at h
  split_ifs at h
  cases h
  rfl

theorem parsePubPayload_ok {buf subject replyTo : Bytes} {lineEnd n consumed : ℕ} {op : Op}
    (h : parsePubPayload buf subject replyTo lineEnd n = .ok op consumed) :
    lineEnd ≤ consumed ∧ consumed ≤ buf.length := by
  unfold parsePubPayload at h
  split_ifs at h with h1 h2
  have hlen : (buf.drop (lineEnd + n)).length = buf.length - (lineEnd + n) := List.length_drop
  split at h
  · cases h
  · rename_i c more ht
    rw [ht, List.length_cons] at hlen
    split_ifs at h with h3 h4
    · have := pubResult_ok h
      omega
    · split at h
      · cases h
      · rename_i d tail
        rw [List.length_cons] at hlen
        split_ifs at h
        have := pubResult_ok h
        omega

theorem parsePub_ok {buf args : Bytes} {lineEnd consumed : ℕ} {op : Op}
    (h : parsePub buf args lineEnd = .ok op consumed) :
    lineEnd ≤ consumed ∧ consumed ≤ buf.length := by
  unfold parsePub at h
  split at h
  · cases h
  · split at h
    · cases h
    · split_ifs at h
      exact parsePubPayload_ok h

theorem parseSub_ok {args : Bytes} {lineEnd consumed : ℕ} {op : Op}
    (h : parseSub args lineEnd = .ok op consumed) : consumed = lineEnd := by
  unfold parseSub at h
  split at h
  · cases h
  · split_ifs at h
    cases h
    rfl

theorem parseUnsub_ok {args : Bytes} {lineEnd consumed : ℕ} {op : Op}
    (h : parseUnsub args lineEnd = .ok op consumed) : consumed = lineEnd := by
  unfold parseUnsub at h
  repeat' split at h
  all_goals cases h
  all_goals rfl

theorem parseLine_ok {buf line : Bytes} {lineEnd consumed : ℕ} {op : Op}
    (hle : lineEnd ≤ buf.length) (h : parseLine buf line lineEnd = .ok op consumed) :
    lineEnd ≤ consumed ∧ consumed ≤ buf.length := by
  unfold parseLine at h
  split_ifs at h
  split at h
  · cases h
  · split_ifs at h
    · cases h
      exact ⟨le_rfl, hle⟩
    · cases h
      exact ⟨le_rfl, hle⟩
    · exact ⟨(parseSub_ok h).ge, (parseSub_ok h).trans_le hle⟩
    · exact ⟨(parseUnsub_ok h).ge, (parseUnsub_ok h).trans_le hle⟩
    · exact parsePub_ok h

/-- Every result but `needMore` and `controlLineTooLong` was read from a
complete control line. -/
theorem parseClientOp_line {b : Bytes} (hmore : parseClientOp b ≠ .needMore)
    (hlong : parseClientOp b ≠ .controlLineTooLong) :
    (first lf b).length < b.length ∧ (first lf b).length ≤ maxControlLine ∧
      parseClientOp b = parseLine b (first lf b) ((first lf b).length + 1) := by
  unfold parseClientOp at hmore hlong ⊢
  have hle : (first lf b).length ≤ b.length := (List.takeWhile_prefix _).length_le
  simp only at hmore hlong ⊢
  split_ifs at hmore hlong ⊢
  · exact absurd rfl hlong
  · exact absurd rfl hmore
  · exact absurd rfl hlong
  · exact ⟨by omega, by omega, rfl⟩

theorem parseClientOp_ok {buf : Bytes} {op : Op} {consumed : ℕ}
    (h : parseClientOp buf = .ok op consumed) :
    (first lf buf).length + 1 ≤ consumed ∧ consumed ≤ buf.length := by
  obtain ⟨hlt, -, heq⟩ := parseClientOp_line (b := buf) (by simp [h]) (by simp [h])
  exact parseLine_ok hlt (heq.symm.trans h)

end Monoblok
