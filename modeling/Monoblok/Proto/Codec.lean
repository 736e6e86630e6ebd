import Monoblok.Proto.Write

/-!
# Round trips

A `PUB` written out by a client parses back to its subject, reply and payload
whatever the payload bytes are, and a sequence of `MSG` frames decodes back to
the messages that were written.
-/

namespace Monoblok

open Tokens

/-! ## Blank-separated words -/

/-- Words with one blank in front of each. -/
def blankJoin (ws : List Bytes) : Bytes := ws.flatMap (space :: ·)

def Word (w : Bytes) : Prop := w ≠ [] ∧ ∀ c ∈ w, isBlank c = false

theorem isBlank_space : isBlank space = true := rfl

theorem word_of_tokenValid {t : Bytes} (h : tokenValid t = true) : Word t := by
  simp only [tokenValid, Bool.and_eq_true, Bool.not_eq_true', List.isEmpty_eq_false_iff,
    List.all_eq_true, Bool.or_eq_false_iff, decide_eq_false_iff_not] at h
  refine ⟨h.1, fun c hc => ?_⟩
  have hlt := (h.2 c hc).1
  simp only [isBlank, Bool.or_eq_false_iff, beq_eq_false_iff_ne, Ne]
  constructor
  · rintro rfl
    exact hlt (by decide)
  · rintro rfl
    exact hlt (by decide)

theorem not_mem_of_tokenValid {t : Bytes} {c : UInt8} (h : tokenValid t = true) (hc : c ≤ 0x20) :
    c ∉ t := by
  intro hm
  simp only [tokenValid, Bool.and_eq_true, Bool.not_eq_true', List.all_eq_true,
    Bool.or_eq_false_iff, decide_eq_false_iff_not] at h
  exact (h.2 c hm).1 hc

theorem word_decimal (n : ℕ) : Word (decimal n) := by
  refine ⟨decimal_ne_nil n, fun c hc => ?_⟩
  have h := (mem_decimal hc).1
  simp only [isBlank, Bool.or_eq_false_iff, beq_eq_false_iff_ne, Ne]
  constructor
  · rintro rfl
    exact absurd h (by decide)
  · rintro rfl
    exact absurd h (by decide)

theorem not_mem_decimal {n : ℕ} {c : UInt8} (hc : c.toNat < 0x30) : c ∉ decimal n := by
  intro hm
  have := (mem_decimal hm).1
  omega

theorem getLast_blankJoin {w : Bytes} {ws : List Bytes} (hw : Word w) (hws : ∀ v ∈ ws, Word v)
    (hne : w ++ blankJoin ws ≠ []) : isBlank ((w ++ blankJoin ws).getLast hne) = false := by
  rcases List.eq_nil_or_concat ws with rfl | ⟨init, v, rfl⟩
  · simpa [blankJoin] using hw.2 _ (List.getLast_mem hw.1)
  · have hv : Word v := hws v (by simp)
    have hlast : (w ++ blankJoin (init ++ [v])) = (w ++ blankJoin init ++ [space]) ++ v := by
      simp [blankJoin]
    simp only [List.concat_eq_append, hlast]
    rw [List.getLast_append_of_ne_nil _ hv.1]
    exact hv.2 _ (List.getLast_mem _)

theorem trimSpaces_words {w : Bytes} {ws : List Bytes} (hw : Word w) (hws : ∀ v ∈ ws, Word v) :
    trimSpaces (w ++ blankJoin ws) = w ++ blankJoin ws := by
  have hdrop : (w ++ blankJoin ws).dropWhile isBlank = w ++ blankJoin ws := by
    obtain ⟨c, cs, rfl⟩ := List.exists_cons_of_ne_nil hw.1
    have hc := hw.2 c (by simp)
    simp [hc]
  rw [trimSpaces, hdrop, List.rdropWhile_eq_self_iff]
  intro hne
  simp [getLast_blankJoin hw hws hne]

theorem trimSpaces_blankJoin {w : Bytes} {ws : List Bytes} (hw : Word w)
    (hws : ∀ v ∈ ws, Word v) : trimSpaces (blankJoin (w :: ws)) = w ++ blankJoin ws := by
  have h := trimSpaces_words hw hws
  rw [← h]
  simp [trimSpaces, blankJoin, List.dropWhile_cons, isBlank_space]

theorem nextToken_of_trimSpaces {s w : Bytes} {ws : List Bytes} (hw : Word w)
    (h : trimSpaces s = w ++ blankJoin ws) : nextToken s = some (w, blankJoin ws) := by
  have hall : ∀ c ∈ w, (!isBlank c) = true := fun c hc => by simp [hw.2 c hc]
  have hne : (w ++ blankJoin ws).isEmpty = false := by simp [hw.1]
  rw [nextToken, h]
  simp only [hne, Bool.false_eq_true, if_false, Option.some.injEq, Prod.mk.injEq]
  rw [List.takeWhile_append_of_pos hall, List.dropWhile_append_of_pos hall]
  cases ws with
  | nil => simp [blankJoin]
  | cons v vs => simp [blankJoin, isBlank_space]

theorem nextToken_blankJoin {w : Bytes} {l : List Bytes} (hw : Word w) (hl : ∀ v ∈ l, Word v) :
    nextToken (blankJoin (w :: l)) = some (w, blankJoin l) :=
  nextToken_of_trimSpaces hw (trimSpaces_blankJoin hw hl)

theorem splitArgs_two {a b : Bytes} (ha : Word a) (hb : Word b) :
    splitArgs (blankJoin [a, b]) = some (a, [], b) := by
  rw [splitArgs, nextToken_blankJoin ha (by simpa using hb)]
  have hlast := nextToken_blankJoin (w := b) (l := []) hb (by simp)
  simp only [hlast]
  rfl

theorem splitArgs_three {a b c : Bytes} (ha : Word a) (hb : Word b) (hc : Word c) :
    splitArgs (blankJoin [a, b, c]) = some (a, b, c) := by
  rw [splitArgs, nextToken_blankJoin ha (by simpa using ⟨hb, hc⟩)]
  have hmid := nextToken_blankJoin (w := b) (l := [c]) hb (by simpa using hc)
  have hlast := nextToken_blankJoin (w := c) (l := []) hc (by simp)
  simp only [hmid, hlast]
  rfl

/-! ## Publishing -/

/-- The control line of a `PUB`; an empty reply is left out. -/
def pubLine (subject replyTo : Bytes) (payloadLen : ℕ) : Bytes :=
  lit "PUB" ++ blankJoin (subject :: ((if replyTo = [] then [] else [replyTo]) ++
    [decimal payloadLen]))

def pubFrame (subject replyTo payload : Bytes) : Bytes :=
  pubLine subject replyTo payload.length ++ lit "\r\n" ++ payload ++ lit "\r\n"

theorem word_pub : Word (lit "PUB") := by
  refine ⟨by simp [lit], ?_⟩
  decide +kernel

theorem parseLine_pub {buf subject replyTo : Bytes} {n lineEnd : ℕ}
    (hs : subjectValid subject false = true)
    (hr : replyTo = [] ∨ subjectValid replyTo false = true) (hn : n ≤ maxPayload) :
    parseLine buf (pubLine subject replyTo n ++ [cr]) lineEnd =
      parsePubPayload buf subject replyTo lineEnd n := by
  have hws : Word subject := word_of_tokenValid (subjectValid_iff.mp hs).1
  have hwr : replyTo ≠ [] → Word replyTo := fun h =>
    word_of_tokenValid (subjectValid_iff.mp (hr.resolve_left h)).1
  have hwords : ∀ v ∈ subject :: ((if replyTo = [] then [] else [replyTo]) ++ [decimal n]),
      Word v := by
    intro v hv
    by_cases h : replyTo = []
    · simp only [h, if_true, List.nil_append, List.mem_cons, List.not_mem_nil, or_false] at hv
      rcases hv with rfl | rfl
      · exact hws
      · exact word_decimal n
    · simp only [h, if_false, List.singleton_append, List.mem_cons, List.not_mem_nil,
        or_false] at hv
      rcases hv with rfl | rfl | rfl
      · exact hws
      · exact hwr h
      · exact word_decimal n
  have htrim : trimLine (pubLine subject replyTo n ++ [cr]) = pubLine subject replyTo n := by
    rw [trimLine, List.getLast?_append, List.getLast?_singleton]
    simp only [Option.some_or, if_true, List.dropLast_concat]
    exact trimSpaces_words word_pub hwords
  have hne : (pubLine subject replyTo n).isEmpty = false := by simp [pubLine, lit]
  have hargs : splitArgs (blankJoin (subject ::
      ((if replyTo = [] then [] else [replyTo]) ++ [decimal n]))) =
      some (subject, replyTo, decimal n) := by
    by_cases h : replyTo = []
    · simpa [h] using splitArgs_two hws (word_decimal n)
    · simpa [h] using splitArgs_three hws (hwr h) (word_decimal n)
  have hle : n ≤ sizeMax := hn.trans (by decide)
  have hreply : (!replyTo.isEmpty && !subjectValid replyTo false) = false := by
    rcases hr with rfl | h
    · rfl
    · simp [h]
  have hverb : nextToken (pubLine subject replyTo n) = some (lit "PUB", blankJoin (subject ::
      ((if replyTo = [] then [] else [replyTo]) ++ [decimal n]))) :=
    nextToken_of_trimSpaces word_pub (trimSpaces_words word_pub hwords)
  rw [parseLine, htrim, hne, hverb]
  have hping : eqUpper (lit "PUB") "PING" = false := by decide
  have hconnect : eqUpper (lit "PUB") "CONNECT" = false := by decide
  have hsub : eqUpper (lit "PUB") "SUB" = false := by decide
  have hunsub : eqUpper (lit "PUB") "UNSUB" = false := by decide
  have hpub : eqUpper (lit "PUB") "PUB" = true := by decide
  simp only [hping, hconnect, hsub, hunsub, hpub, Bool.false_eq_true, if_false, if_true]
  rw [parsePub, hargs]
  simp only [parseUsize_decimal hle, hs, hreply, Bool.not_true, Bool.false_eq_true, if_false]
  rw [if_neg (by omega)]

theorem parsePubPayload_complete {line subject replyTo payload rest : Bytes}
    (hline : line.length ≤ maxControlLine) (hp : payload.length ≤ maxPayload) :
    parsePubPayload (line ++ [lf] ++ payload ++ [cr, lf] ++ rest) subject replyTo
        (line.length + 1) payload.length =
      .ok (.pub subject replyTo payload) (line.length + 1 + payload.length + 2) := by
  have hdrop : (line ++ [lf] ++ payload ++ [cr, lf] ++ rest).drop (line.length + 1) =
      payload ++ ([cr, lf] ++ rest) := by
    rw [show line.length + 1 = (line ++ [lf]).length by simp, List.append_assoc, List.append_assoc,
      List.drop_left]
  have htail : (line ++ [lf] ++ payload ++ [cr, lf] ++ rest).drop
      (line.length + 1 + payload.length) = cr :: lf :: rest := by
    rw [← List.drop_drop, hdrop, List.drop_left]
    rfl
  have hlen : (line ++ [lf] ++ payload ++ [cr, lf] ++ rest).length =
      line.length + 1 + payload.length + 2 + rest.length := by
    simp only [List.length_append, List.length_cons, List.length_nil]
  unfold parsePubPayload
  rw [if_neg (by omega), if_neg (by omega)]
  simp only [htail, hdrop, List.take_left]
  have hmax : maxControlLine + 1 + maxPayload + 2 ≤ sizeMax := by decide
  rw [if_neg (by decide), if_pos trivial, if_pos trivial, pubResult, if_neg (by omega)]

theorem parseClientOp_pubFrame {subject replyTo payload : Bytes} (rest : Bytes)
    (hs : subjectValid subject false = true)
    (hr : replyTo = [] ∨ subjectValid replyTo false = true) (hp : payload.length ≤ maxPayload)
    (hline : (pubLine subject replyTo payload.length ++ [cr]).length ≤ maxControlLine) :
    parseClientOp (pubFrame subject replyTo payload ++ rest) =
      .ok (.pub subject replyTo payload) (pubFrame subject replyTo payload).length := by
  have hlf : lf ∉ pubLine subject replyTo payload.length ++ [cr] := by
    have h1 : lf ∉ subject := not_mem_of_tokenValid (subjectValid_iff.mp hs).1 (by decide)
    have h2 : lf ∉ replyTo := by
      rcases hr with rfl | hr
      · simp
      · exact not_mem_of_tokenValid (subjectValid_iff.mp hr).1 (by decide)
    have h3 : lf ∉ decimal payload.length := not_mem_decimal (by decide)
    have h4 : lf ∉ lit "PUB" := by decide
    by_cases h : replyTo = []
    · simp [pubLine, blankJoin, h, h1, h3, h4, show lf ≠ space by decide, show lf ≠ cr by decide]
    · simp [pubLine, blankJoin, h, h1, h2, h3, h4, show lf ≠ space by decide,
        show lf ≠ cr by decide]
  have hframe : pubFrame subject replyTo payload ++ rest =
      (pubLine subject replyTo payload.length ++ [cr]) ++ [lf] ++ payload ++ [cr, lf] ++ rest := by
    simp [pubFrame, lit, cr, lf]
  have hlen : (pubFrame subject replyTo payload).length =
      (pubLine subject replyTo payload.length ++ [cr]).length + 1 + payload.length + 2 := by
    simp [pubFrame, lit]
    omega
  rw [hframe, hlen]
  generalize hL : pubLine subject replyTo payload.length ++ [cr] = line at *
  have hfirst : first lf (line ++ [lf] ++ payload ++ [cr, lf] ++ rest) = line := by
    simpa using first_append_of_not_mem (r := payload ++ [cr, lf] ++ rest) hlf
  rw [parseClientOp, hfirst, if_neg (by simp), if_neg (by omega), ← hL, parseLine_pub hs hr hp, hL]
  exact parsePubPayload_complete hline hp

/-! ## A reference decoder for messages -/

/-- A message as it stands on the wire. -/
structure Msg where
  subject : Bytes
  sid : Bytes
  replyTo : Bytes
  payload : Bytes
  deriving DecidableEq, Repr

/-- The words of a header line; the last one is the payload length. -/
def readHeader (line : Bytes) : Option (Bytes × Bytes × Bytes × ℕ) :=
  match line.splitOn space with
  | [verb, subject, sid, len] =>
    if verb = lit "MSG" then (parseUsize len).map (subject, sid, [], ·) else none
  | [verb, subject, sid, replyTo, len] =>
    if verb = lit "MSG" then (parseUsize len).map (subject, sid, replyTo, ·) else none
  | _ => none

def readMsgFrame (buf : Bytes) : Option (Msg × Bytes) :=
  let line := first cr buf
  match readHeader line with
  | none => none
  | some (subject, sid, replyTo, len) =>
    let body := buf.drop (line.length + 2)
    if (buf.drop line.length).take 2 = lit "\r\n" ∧ len ≤ body.length ∧
        (body.drop len).take 2 = lit "\r\n" then
      some (⟨subject, sid, replyTo, body.take len⟩, body.drop (len + 2))
    else none

def readMsgFrames : ℕ → Bytes → Option (List Msg)
  | _, [] => some []
  | 0, _ => none
  | fuel + 1, buf =>
    match readMsgFrame buf with
    | none => none
    | some (m, rest) => (readMsgFrames fuel rest).map (m :: ·)

def decodeMsgs (buf : Bytes) : Option (List Msg) := readMsgFrames buf.length buf

/-- The arguments of one call of the writer. -/
structure OutMsg where
  pre : Bytes
  subject : Bytes
  sid : Bytes
  replyTo : Bytes
  payload : Bytes
  deriving DecidableEq, Repr

namespace OutMsg

def wire (m : OutMsg) : Msg := ⟨m.pre ++ m.subject, m.sid, m.replyTo, m.payload⟩

def frame (m : OutMsg) : Bytes := msgFrame m.pre m.subject m.sid m.replyTo m.payload

def write (out : Bytes) (m : OutMsg) : Option Bytes :=
  writeMsgPrefixedWithReply out m.pre m.subject m.sid m.replyTo m.payload

def frameLen (m : OutMsg) : Option ℕ :=
  msgFrameLenPrefixedWithReply m.pre.length m.subject m.sid m.replyTo m.payload

/-- What the router hands to the writer. -/
structure Valid (m : OutMsg) : Prop where
  pre : m.pre = [] ∨ tokenValid m.pre = true
  subject : subjectValid m.subject false = true
  sid : tokenValid m.sid = true
  replyTo : m.replyTo = [] ∨ subjectValid m.replyTo false = true

/-- The header words behind `MSG`. -/
def words (m : OutMsg) : List Bytes :=
  [m.pre ++ m.subject, m.sid] ++ (if m.replyTo = [] then [] else [m.replyTo]) ++
    [decimal m.payload.length]

end OutMsg

/-- The prefix goes back in front when the subject on the wire starts with it. -/
def Msg.unprefix (pre : Bytes) (m : Msg) : OutMsg :=
  if sliceHasPrefix m.subject pre then
    ⟨pre, m.subject.drop pre.length, m.sid, m.replyTo, m.payload⟩
  else ⟨[], m.subject, m.sid, m.replyTo, m.payload⟩

theorem splitOn_words {w : Bytes} {ws : List Bytes} (hw : space ∉ w) (hws : ∀ v ∈ ws, space ∉ v) :
    (w ++ blankJoin ws).splitOn space = w :: ws := by
  induction ws generalizing w with
  | nil => simpa [blankJoin] using List.splitOn_eq_singleton hw
  | cons v vs ih =>
    have hsplit : w ++ blankJoin (v :: vs) = w ++ space :: (v ++ blankJoin vs) := by
      simp [blankJoin]
    rw [hsplit, List.splitOn_append_cons_self_of_not_mem hw,
      ih (hws v (by simp)) fun u hu => hws u (by simp [hu])]

namespace OutMsg

theorem Valid.not_mem_words {m : OutMsg} (hm : m.Valid) {c : UInt8} (hc : c ≤ 0x20) :
    ∀ w ∈ m.words, c ∉ w := by
  have hs := not_mem_of_tokenValid (subjectValid_iff.mp hm.subject).1 hc
  have hsid := not_mem_of_tokenValid hm.sid hc
  have hpre : c ∉ m.pre := by
    rcases hm.pre with h | h
    · simp [h]
    · exact not_mem_of_tokenValid h hc
  have hreply : c ∉ m.replyTo := by
    rcases hm.replyTo with h | h
    · simp [h]
    · exact not_mem_of_tokenValid (subjectValid_iff.mp h).1 hc
  have hdec : c ∉ decimal m.payload.length := by
    refine not_mem_decimal ?_
    rw [UInt8.le_iff_toNat_le] at hc
    exact lt_of_le_of_lt hc (by decide)
  intro w hw
  simp only [words, List.mem_append, List.mem_cons, List.not_mem_nil, or_false] at hw
  rcases hw with ((rfl | rfl) | hw) | rfl
  · simp [hpre, hs]
  · exact hsid
  · split_ifs at hw
    · cases hw
    · rw [List.mem_singleton.mp hw]
      exact hreply
  · exact hdec

theorem frame_eq (m : OutMsg) :
    m.frame = (lit "MSG" ++ blankJoin m.words) ++ cr :: lf :: (m.payload ++ [cr, lf]) := by
  by_cases h : m.replyTo = [] <;>
    simp [frame, msgFrame, words, blankJoin, h, lit, cr, lf, space]

theorem readHeader_words {m : OutMsg} (hm : m.Valid) (hlen : m.payload.length ≤ sizeMax) :
    readHeader (lit "MSG" ++ blankJoin m.words) =
      some (m.pre ++ m.subject, m.sid, m.replyTo, m.payload.length) := by
  have hsplit := splitOn_words (w := lit "MSG") (by decide) (hm.not_mem_words (c := space) (by decide))
  have hparse := parseUsize_decimal hlen
  rw [readHeader, hsplit]
  by_cases h : m.replyTo = []
  · simp [words, h, hparse]
  · simp [words, h, hparse]

theorem readMsgFrame_frame {m : OutMsg} (hm : m.Valid) (hlen : m.payload.length ≤ sizeMax)
    (rest : Bytes) : readMsgFrame (m.frame ++ rest) = some (m.wire, rest) := by
  have hline : cr ∉ lit "MSG" ++ blankJoin m.words := by
    have hw := hm.not_mem_words (c := cr) (by decide)
    have hspace : cr ≠ space := by decide
    simp only [List.mem_append, blankJoin, List.mem_flatMap, List.mem_cons, not_or, not_exists,
      not_and]
    exact ⟨by decide, fun w hmem => ⟨hspace, hw w hmem⟩⟩
  have hheader := readHeader_words hm hlen
  rw [frame_eq, List.append_assoc, List.cons_append, List.cons_append]
  generalize lit "MSG" ++ blankJoin m.words = line at hline hheader ⊢
  have hfirst := first_append_of_not_mem (r := lf :: (m.payload ++ [cr, lf] ++ rest)) hline
  have hbody : (line ++ cr :: lf :: (m.payload ++ [cr, lf] ++ rest)).drop (line.length + 2) =
      m.payload ++ ([cr, lf] ++ rest) := by
    rw [← List.drop_drop, List.drop_left]
    simp
  have hcrlf : (line ++ cr :: lf :: (m.payload ++ [cr, lf] ++ rest)).drop line.length =
      cr :: lf :: (m.payload ++ [cr, lf] ++ rest) := List.drop_left
  unfold readMsgFrame
  simp only [hfirst, hheader, hbody, hcrlf, List.drop_left, List.take_left]
  rw [if_pos (by simp [lit, cr, lf])]
  simp only [← List.drop_drop, List.drop_left, wire]
  rfl

theorem readMsgFrames_flatMap (ms : List OutMsg) (hms : ∀ m ∈ ms, m.Valid)
    (hlen : ∀ m ∈ ms, m.payload.length ≤ sizeMax) {fuel : ℕ} (hfuel : ms.length ≤ fuel) :
    readMsgFrames fuel (ms.flatMap frame) = some (ms.map wire) := by
  induction ms generalizing fuel with
  | nil => cases fuel <;> rfl
  | cons m ms ih =>
    cases fuel with
    | zero => simp at hfuel
    | succ fuel =>
      have hm := readMsgFrame_frame (hms m (by simp)) (hlen m (by simp)) (ms.flatMap frame)
      have hrest := ih (fun n hn => hms n (by simp [hn])) (fun n hn => hlen n (by simp [hn]))
        (Nat.le_of_succ_le_succ hfuel)
      have hcons : ∃ c cs, m.frame ++ ms.flatMap frame = c :: cs := by
        rw [frame_eq]
        exact ⟨_, _, rfl⟩
      obtain ⟨c, cs, hcs⟩ := hcons
      rw [List.flatMap_cons, List.map_cons]
      rw [hcs] at hm ⊢
      rw [readMsgFrames, hm]
      · simp [hrest]
      · simp

theorem length_le_frames (ms : List OutMsg) : ms.length ≤ (ms.flatMap frame).length := by
  induction ms with
  | nil => simp
  | cons m ms ih =>
    have : 0 < m.frame.length := by
      rw [frame_eq]
      simp
    rw [List.flatMap_cons, List.length_append, List.length_cons]
    omega

theorem payload_le_frames {m : OutMsg} {ms : List OutMsg} (h : m ∈ ms) :
    m.payload.length ≤ (ms.flatMap frame).length := by
  have hframe : m.payload.length ≤ m.frame.length := by
    rw [frame_eq]
    simp only [List.length_append, List.length_cons]
    omega
  refine hframe.trans ?_
  obtain ⟨before, after, rfl⟩ := List.append_of_mem h
  simp only [List.flatMap_append, List.flatMap_cons, List.length_append]
  omega

/-- One call appends one frame, of the announced length. -/
theorem write_eq_some {out out' : Bytes} {m : OutMsg} (hout : out.length ≤ sizeMax)
    (h : m.write out = some out') :
    out' = out ++ m.frame ∧ m.frameLen = some m.frame.length ∧ out'.length ≤ sizeMax := by
  rw [write, writeMsg_eq hout] at h
  split_ifs at h with hfit
  cases h
  refine ⟨rfl, ?_, by rw [List.length_append]; exact hfit⟩
  rw [frameLen, msgFrameLen_eq, if_pos (by omega)]
  rfl

theorem foldlM_write (out : Bytes) (ms : List OutMsg)
    (h : out.length + (ms.flatMap frame).length ≤ sizeMax) :
    ms.foldlM (fun out m => m.write out) out = some (out ++ ms.flatMap frame) := by
  induction ms generalizing out with
  | nil => simp
  | cons m ms ih =>
    rw [List.flatMap_cons, List.length_append] at h
    have hwrite : m.write out = some (out ++ m.frame) := by
      rw [write, writeMsg_eq (by omega), if_pos (by unfold frame at h; omega)]
      rfl
    rw [List.foldlM_cons, hwrite]
    change ms.foldlM (fun out m => m.write out) (out ++ m.frame) = _
    rw [ih _ (by rw [List.length_append]; omega), List.flatMap_cons, List.append_assoc]

theorem unprefix_wire {pre : Bytes} {m : OutMsg} (hpre : m.pre = [] ∨ m.pre = pre)
    (hsub : sliceHasPrefix m.subject pre = false) : m.wire.unprefix pre = m := by
  rcases m with ⟨p, subject, sid, replyTo, payload⟩
  simp only at hpre hsub
  rcases hpre with rfl | rfl
  · simp [wire, Msg.unprefix, hsub]
  · have : sliceHasPrefix (p ++ subject) p = true := sliceHasPrefix_iff.mpr (List.prefix_append _ _)
    simp [wire, Msg.unprefix, this]

end OutMsg

/-- Published operations parse back to their parts whatever the payload bytes
are and whatever follows; written messages decode back to what was written,
with the prefix told apart wherever the subject does not start with it itself;
and every call appends exactly the announced number of bytes. -/
theorem codec_round_trip :
    (∀ subject replyTo payload rest : Bytes, subjectValid subject false = true →
      (replyTo = [] ∨ subjectValid replyTo false = true) → payload.length ≤ maxPayload →
      (pubLine subject replyTo payload.length ++ [cr]).length ≤ maxControlLine →
      parseClientOp (pubFrame subject replyTo payload ++ rest) =
        .ok (.pub subject replyTo payload) (pubFrame subject replyTo payload).length) ∧
    (∀ ms : List OutMsg, (∀ m ∈ ms, m.Valid) → (ms.flatMap OutMsg.frame).length ≤ sizeMax →
      ∃ buf, ms.foldlM (fun out m => m.write out) [] = some buf ∧
        decodeMsgs buf = some (ms.map OutMsg.wire) ∧
        ∀ pre, (∀ m ∈ ms, (m.pre = [] ∨ m.pre = pre) ∧ sliceHasPrefix m.subject pre = false) →
          (decodeMsgs buf).map (List.map (Msg.unprefix pre)) = some ms) ∧
    (∀ (out out' : Bytes) (m : OutMsg), out.length ≤ sizeMax → m.write out = some out' →
      ∃ n, m.frameLen = some n ∧ out'.take out.length = out ∧ out'.length = out.length + n) := by
  refine ⟨fun subject replyTo payload rest hs hr hp hl =>
    parseClientOp_pubFrame rest hs hr hp hl, ?_, ?_⟩
  · intro ms hms hlen
    have hdecode : decodeMsgs (ms.flatMap OutMsg.frame) = some (ms.map OutMsg.wire) :=
      OutMsg.readMsgFrames_flatMap ms hms
        (fun m hm => (OutMsg.payload_le_frames hm).trans hlen) (OutMsg.length_le_frames ms)
    refine ⟨ms.flatMap OutMsg.frame, OutMsg.foldlM_write [] ms (by simpa using hlen),
      hdecode, fun pre hpre => ?_⟩
    rw [hdecode, Option.map_some, List.map_map]
    congr 1
    refine (List.map_congr_left fun m hm => ?_).trans (List.map_id ms)
    exact OutMsg.unprefix_wire (hpre m hm).1 (hpre m hm).2
  · intro out out' m hout h
    obtain ⟨rfl, hlen, -⟩ := OutMsg.write_eq_some hout h
    exact ⟨m.frame.length, hlen, List.take_left, List.length_append⟩

/-- The statement at a payload that itself looks like a publish. -/
theorem codec_round_trip_nested :
    parseClientOp (pubFrame (lit "a.b") [] (lit "PUB x 0\r\n\r\n") ++ lit "PING\r\n") =
        .ok (.pub (lit "a.b") [] (lit "PUB x 0\r\n\r\n")) 25 ∧
      ∃ buf, [OutMsg.mk (lit "$LVC.") (lit "a.b") (lit "7") (lit "r.1") (lit "hi"),
          OutMsg.mk [] (lit "c") (lit "1") [] (lit "MSG c 1 0\r\n\r\n")].foldlM
          (fun out m => m.write out) [] = some buf ∧
        (decodeMsgs buf).map (List.map (Msg.unprefix (lit "$LVC."))) =
          some [OutMsg.mk (lit "$LVC.") (lit "a.b") (lit "7") (lit "r.1") (lit "hi"),
            OutMsg.mk [] (lit "c") (lit "1") [] (lit "MSG c 1 0\r\n\r\n")] := by
  obtain ⟨hpub, hmsgs, -⟩ := codec_round_trip
  refine ⟨hpub (lit "a.b") [] (lit "PUB x 0\r\n\r\n") (lit "PING\r\n") (by decide) (.inl rfl)
    (by decide) (by decide), ?_⟩
  obtain ⟨buf, hwrite, -, hexact⟩ := hmsgs
    [OutMsg.mk (lit "$LVC.") (lit "a.b") (lit "7") (lit "r.1") (lit "hi"),
      OutMsg.mk [] (lit "c") (lit "1") [] (lit "MSG c 1 0\r\n\r\n")]
    (by
      intro m hm
      simp only [List.mem_cons, List.not_mem_nil, or_false] at hm
      rcases hm with rfl | rfl
      · exact ⟨.inr (by decide), by decide, by decide, .inr (by decide)⟩
      · exact ⟨.inl rfl, by decide, by decide, .inl rfl⟩) (by decide)
  refine ⟨buf, hwrite, hexact (lit "$LVC.") fun m hm => ?_⟩
  simp only [List.mem_cons, List.not_mem_nil, or_false] at hm
  rcases hm with rfl | rfl
  · exact ⟨.inr rfl, by decide⟩
  · exact ⟨.inl rfl, by decide⟩

end Monoblok
