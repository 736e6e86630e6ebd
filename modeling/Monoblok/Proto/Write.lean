import Monoblok.Proto.Parse

/-!
# Writing protocol messages

The writers of `proto.c` append to an output buffer. A buffer is modelled by
its contents and allocation by success, so an append fails only where the
length would not fit a `size_t`; a failed writer returns `none`.

The second half is the round trip between the `MSG` writer and a reference
decoder, and between the text of a `PUB` and the operation parser.
-/

namespace Monoblok

open Tokens

def bufReserve (buf : Bytes) (additional : ℕ) : Option Unit :=
  if sizeMax - buf.length < additional then none else some ()

def bufAppend (buf src : Bytes) : Option Bytes := do
  bufReserve buf src.length
  return buf ++ src

/-- The digits of `append_decimal`, written backwards from the end of its
32-byte scratch buffer. -/
def decimalLoop : ℕ → ℕ → Bytes → Bytes
  | 0, _, acc => acc
  | fuel + 1, n, acc =>
    if n = 0 then acc else decimalLoop fuel (n / 10) (UInt8.ofNat (0x30 + n % 10) :: acc)

def decimal (n : ℕ) : Bytes := if n = 0 then [0x30] else decimalLoop 32 n []

def appendDecimal (out : Bytes) (n : ℕ) : Option Bytes := bufAppend out (decimal n)

def decimalLenLoop : ℕ → ℕ → ℕ → ℕ
  | 0, _, len => len
  | fuel + 1, n, len => if 10 ≤ n then decimalLenLoop fuel (n / 10) (len + 1) else len

/-- The number of digits; a `size_t` has at most 20 of them. -/
def decimalLen (n : ℕ) : ℕ := decimalLenLoop 32 n 1

def addSize (total add : ℕ) : Option ℕ := if sizeMax - total < add then none else some (total + add)

def writePong (out : Bytes) : Option Bytes := bufAppend out (lit "PONG\r\n")

def writeErr (out msg : Bytes) : Option Bytes := do
  let out ← bufAppend out (lit "-ERR '")
  let out ← bufAppend out msg
  bufAppend out (lit "'\r\n")

def msgFrameLenPrefixedWithReply (prefixLen : ℕ) (subject sid replyTo payload : Bytes) :
    Option ℕ := do
  let n ← addSize 0 4
  let n ← addSize n prefixLen
  let n ← addSize n subject.length
  let n ← addSize n 1
  let n ← addSize n sid.length
  let n ← addSize n 1
  let n ← if replyTo.length ≠ 0 then do
      let n ← addSize n replyTo.length
      addSize n 1
    else some n
  let n ← addSize n (decimalLen payload.length)
  let n ← addSize n 2
  let n ← addSize n payload.length
  addSize n 2

def writeMsgPrefixedWithReply (out pre subject sid replyTo payload : Bytes) : Option Bytes := do
  let frameLen ← msgFrameLenPrefixedWithReply pre.length subject sid replyTo payload
  bufReserve out frameLen
  let out ← bufAppend out (lit "MSG ")
  let out ← bufAppend out pre
  let out ← bufAppend out subject
  let out ← bufAppend out [space]
  let out ← bufAppend out sid
  let out ← bufAppend out [space]
  let out ← if replyTo.length ≠ 0 then do
      let out ← bufAppend out replyTo
      bufAppend out [space]
    else some out
  let out ← appendDecimal out payload.length
  let out ← bufAppend out (lit "\r\n")
  let out ← bufAppend out payload
  bufAppend out (lit "\r\n")

/-! ## Decimal numbers -/

theorem decimalLoop_append (fuel n : ℕ) (acc : Bytes) :
    decimalLoop fuel n acc = decimalLoop fuel n [] ++ acc := by
  induction fuel generalizing n acc with
  | zero => rfl
  | succ fuel ih =>
    unfold decimalLoop
    split_ifs
    · rfl
    · rw [ih, ih (n / 10) [_], List.append_assoc, List.singleton_append]

theorem decimalLoop_succ {n : ℕ} (fuel : ℕ) (hn : n ≠ 0) :
    decimalLoop (fuel + 1) n [] =
      decimalLoop fuel (n / 10) [] ++ [UInt8.ofNat (0x30 + n % 10)] := by
  rw [decimalLoop, if_neg hn, decimalLoop_append]

theorem digit_toNat (n : ℕ) : (UInt8.ofNat (0x30 + n % 10)).toNat = 0x30 + n % 10 := by
  rw [UInt8.toNat_ofNat_of_lt' (by
    have := Nat.mod_lt n (show 0 < 10 by decide)
    simp only [UInt8.size]
    omega)]

theorem parseUsizeLoop_append (v : ℕ) (l r : Bytes) :
    parseUsizeLoop v (l ++ r) = (parseUsizeLoop v l).bind (parseUsizeLoop · r) := by
  induction l generalizing v with
  | nil => rfl
  | cons c cs ih =>
    simp only [List.cons_append, parseUsizeLoop]
    split_ifs
    · rfl
    · rfl
    · exact ih _

theorem parseUsizeLoop_digit {v : ℕ} (n : ℕ) (h : v * 10 + n % 10 ≤ sizeMax) :
    parseUsizeLoop v [UInt8.ofNat (0x30 + n % 10)] = some (v * 10 + n % 10) := by
  have hd := digit_toNat n
  have hmod := Nat.mod_lt n (show 0 < 10 by decide)
  have hrange : ¬ (UInt8.ofNat (0x30 + n % 10) < 0x30 ∨ 0x39 < UInt8.ofNat (0x30 + n % 10)) := by
    rw [UInt8.lt_iff_toNat_lt, UInt8.lt_iff_toNat_lt, hd]
    have h30 : (0x30 : UInt8).toNat = 0x30 := rfl
    have h39 : (0x39 : UInt8).toNat = 0x39 := rfl
    omega
  have hfit : ¬ (sizeMax - (0x30 + n % 10 - 0x30)) / 10 < v := by omega
  rw [parseUsizeLoop, if_neg hrange]
  simp only [hd, if_neg hfit, parseUsizeLoop]
  congr 1
  omega

theorem parseUsizeLoop_decimalLoop {fuel n : ℕ} (hfuel : n < 10 ^ fuel) (hn : n ≤ sizeMax) :
    parseUsizeLoop 0 (decimalLoop fuel n []) = some n := by
  induction fuel generalizing n with
  | zero =>
    have : n = 0 := by simpa using hfuel
    rw [this]
    rfl
  | succ fuel ih =>
    by_cases h0 : n = 0
    · rw [h0, decimalLoop, if_pos rfl]
      rfl
    · have hlt : n / 10 < 10 ^ fuel := by
        rw [Nat.div_lt_iff_lt_mul (by decide), ← Nat.pow_succ]
        exact hfuel
      rw [decimalLoop_succ fuel h0, parseUsizeLoop_append, ih hlt (by omega), Option.bind_some,
        parseUsizeLoop_digit n (by omega)]
      congr 1
      omega

theorem length_decimalLoop {f n : ℕ} (hfuel : n < 10 ^ f) (hn : 0 < n) (len : ℕ) :
    len + (decimalLoop f n []).length = decimalLenLoop f n (len + 1) := by
  induction f generalizing n len with
  | zero =>
    have : n = 0 := by simpa using hfuel
    omega
  | succ f ih =>
    have hlt : n / 10 < 10 ^ f := by
      rw [Nat.div_lt_iff_lt_mul (by decide), ← Nat.pow_succ]
      exact hfuel
    rw [decimalLoop_succ f hn.ne', List.length_append, List.length_singleton, decimalLenLoop]
    split_ifs with h10
    · rw [← ih hlt (by omega)]
      omega
    · have h0 : n / 10 = 0 := by omega
      rw [h0]
      cases f with
      | zero => rfl
      | succ f => simp [decimalLoop]

theorem sizeMax_lt : sizeMax < 10 ^ 32 := by decide

theorem length_decimal {n : ℕ} (hn : n ≤ sizeMax) : (decimal n).length = decimalLen n := by
  have hlt := sizeMax_lt
  unfold decimal decimalLen
  split_ifs with h0
  · rw [h0]
    rfl
  · have h := length_decimalLoop (f := 32) (n := n) (by omega) (by omega) 0
    rwa [Nat.zero_add] at h

theorem decimalLoop_ne_nil {fuel n : ℕ} (hn : 0 < n) : decimalLoop (fuel + 1) n [] ≠ [] := by
  rw [decimalLoop_succ fuel hn.ne']
  simp

theorem decimal_ne_nil (n : ℕ) : decimal n ≠ [] := by
  unfold decimal
  split_ifs with h0
  · simp
  · exact decimalLoop_ne_nil (by omega)

/-- The parser reads back every length the writer prints. -/
theorem parseUsize_decimal {n : ℕ} (hn : n ≤ sizeMax) : parseUsize (decimal n) = some n := by
  have hlt := sizeMax_lt
  have hne : (decimal n).isEmpty = false := by simpa using decimal_ne_nil n
  rw [parseUsize, hne, if_neg (by simp)]
  unfold decimal
  split_ifs with h0
  · rw [h0]
    rfl
  · exact parseUsizeLoop_decimalLoop (by omega) hn

theorem mem_decimalLoop {fuel n : ℕ} {c : UInt8} (h : c ∈ decimalLoop fuel n []) :
    0x30 ≤ c.toNat ∧ c.toNat ≤ 0x39 := by
  induction fuel generalizing n with
  | zero => cases h
  | succ fuel ih =>
    by_cases h0 : n = 0
    · rw [h0, decimalLoop, if_pos rfl] at h
      cases h
    · rw [decimalLoop_succ fuel h0, List.mem_append, List.mem_singleton] at h
      rcases h with h | rfl
      · exact ih h
      · rw [digit_toNat]
        have := Nat.mod_lt n (show 0 < 10 by decide)
        omega

theorem mem_decimal {n : ℕ} {c : UInt8} (h : c ∈ decimal n) : 0x30 ≤ c.toNat ∧ c.toNat ≤ 0x39 := by
  unfold decimal at h
  split_ifs at h
  · rw [List.mem_singleton.mp h]
    decide
  · exact mem_decimalLoop h

/-! ## One frame

`msgFrame` is the text of one message; the writer appends exactly that. -/

def msgFrame (pre subject sid replyTo payload : Bytes) : Bytes :=
  lit "MSG " ++ pre ++ subject ++ [space] ++ sid ++ [space] ++
    (if replyTo = [] then [] else replyTo ++ [space]) ++
    decimal payload.length ++ lit "\r\n" ++ payload ++ lit "\r\n"

/-- The pieces of a message in the order they are written. -/
def msgPieces (pre subject sid replyTo payload : Bytes) : List Bytes :=
  [lit "MSG ", pre, subject, [space], sid, [space]] ++
    (if replyTo = [] then [] else [replyTo, [space]]) ++
    [decimal payload.length, lit "\r\n", payload, lit "\r\n"]

theorem flatten_msgPieces (pre subject sid replyTo payload : Bytes) :
    (msgPieces pre subject sid replyTo payload).flatten =
      msgFrame pre subject sid replyTo payload := by
  by_cases h : replyTo = [] <;> simp [msgPieces, msgFrame, h]

theorem foldlM_addSize {total : ℕ} (sizes : List ℕ) (htotal : total ≤ sizeMax) :
    sizes.foldlM addSize total =
      if total + sizes.sum ≤ sizeMax then some (total + sizes.sum) else none := by
  induction sizes generalizing total with
  | nil => simp [htotal]
  | cons n sizes ih =>
    rw [List.foldlM_cons, List.sum_cons]
    unfold addSize
    by_cases h : sizeMax - total < n
    · rw [if_pos h, if_neg (by omega)]
      rfl
    · rw [if_neg h]
      change sizes.foldlM addSize (total + n) = _
      rw [ih (by omega), Nat.add_assoc]

theorem foldlM_bufAppend {buf : Bytes} (pieces : List Bytes)
    (h : buf.length + pieces.flatten.length ≤ sizeMax) :
    pieces.foldlM bufAppend buf = some (buf ++ pieces.flatten) := by
  induction pieces generalizing buf with
  | nil => simp
  | cons src pieces ih =>
    rw [List.flatten_cons, List.length_append] at h
    have hsrc : bufAppend buf src = some (buf ++ src) := by
      simp [bufAppend, bufReserve, show ¬ sizeMax - buf.length < src.length by omega]
    rw [List.foldlM_cons, hsrc]
    change pieces.foldlM bufAppend (buf ++ src) = _
    rw [ih (by rw [List.length_append]; omega), List.flatten_cons, List.append_assoc]

/-- The announced length is the length of the frame. -/
theorem msgFrameLen_eq (pre subject sid replyTo payload : Bytes) :
    msgFrameLenPrefixedWithReply pre.length subject sid replyTo payload =
      if (msgFrame pre subject sid replyTo payload).length ≤ sizeMax then
        some (msgFrame pre subject sid replyTo payload).length
      else none := by
  have hfold : msgFrameLenPrefixedWithReply pre.length subject sid replyTo payload =
      ([4, pre.length, subject.length, 1, sid.length, 1] ++
        (if replyTo = [] then [] else [replyTo.length, 1]) ++
        [decimalLen payload.length, 2, payload.length, 2]).foldlM addSize 0 := by
    by_cases h : replyTo = []
    · simp [msgFrameLenPrefixedWithReply, h]
    · simp [msgFrameLenPrefixedWithReply, h]
  rw [hfold, foldlM_addSize _ (Nat.zero_le _), Nat.zero_add]
  by_cases hp : payload.length ≤ sizeMax
  · have hsum : ([4, pre.length, subject.length, 1, sid.length, 1] ++
        (if replyTo = [] then [] else [replyTo.length, 1]) ++
        [decimalLen payload.length, 2, payload.length, 2]).sum =
        (msgFrame pre subject sid replyTo payload).length := by
      rw [← length_decimal hp]
      by_cases h : replyTo = []
      · simp [msgFrame, h, lit]
        omega
      · simp [msgFrame, h, lit]
        omega
    rw [hsum]
  · -- a payload beyond `SIZE_MAX` overflows both sums
    have h₁ : payload.length ≤ (msgFrame pre subject sid replyTo payload).length := by
      simp only [msgFrame, List.length_append]
      omega
    have h₂ : payload.length ≤ ([4, pre.length, subject.length, 1, sid.length, 1] ++
        (if replyTo = [] then [] else [replyTo.length, 1]) ++
        [decimalLen payload.length, 2, payload.length, 2]).sum := by
      simp only [List.sum_append, List.sum_cons]
      omega
    rw [if_neg (by omega), if_neg (by omega)]

/-- The writer appends the frame, or fails because the buffer would outgrow
`SIZE_MAX`. -/
theorem writeMsg_eq {out : Bytes} (hout : out.length ≤ sizeMax)
    (pre subject sid replyTo payload : Bytes) :
    writeMsgPrefixedWithReply out pre subject sid replyTo payload =
      if out.length + (msgFrame pre subject sid replyTo payload).length ≤ sizeMax then
        some (out ++ msgFrame pre subject sid replyTo payload)
      else none := by
  by_cases h : out.length + (msgFrame pre subject sid replyTo payload).length ≤ sizeMax
  · have hlen : msgFrameLenPrefixedWithReply pre.length subject sid replyTo payload =
        some (msgFrame pre subject sid replyTo payload).length := by
      rw [msgFrameLen_eq, if_pos (by omega)]
    have hres : bufReserve out (msgFrame pre subject sid replyTo payload).length = some () := by
      rw [bufReserve, if_neg (by omega)]
    have hfold := foldlM_bufAppend (msgPieces pre subject sid replyTo payload)
      (by rw [flatten_msgPieces]; exact h)
    rw [flatten_msgPieces] at hfold
    rw [if_pos h, ← hfold]
    unfold writeMsgPrefixedWithReply
    rw [hlen]
    by_cases hr : replyTo = []
    · subst hr
      simp [msgPieces, hres, appendDecimal]
    · simp [msgPieces, hres, hr, appendDecimal]
  · rw [if_neg h]
    unfold writeMsgPrefixedWithReply
    rw [msgFrameLen_eq]
    by_cases hlen : (msgFrame pre subject sid replyTo payload).length ≤ sizeMax
    · have hres : bufReserve out (msgFrame pre subject sid replyTo payload).length = none := by
        rw [bufReserve, if_pos (by omega)]
      simp [hlen, hres]
    · simp [hlen]

end Monoblok
