import Monoblok.Lib.EventStream
import Monoblok.Lib.JsonText
import Monoblok.Server.HttpPaths
import Monoblok.Server.HttpSteps

/-!
# Events of a stream

The two escaping loops of the event writer agree byte by byte, and what they put out
stands within one line, so that a client reads back the messages that were written.
-/

namespace Monoblok.Http

open EventStream (OneLine events)
open JsonText (readString readObject)

/-! ## One byte -/

/-- The escape of a byte in one piece. -/
def jsonEscape (c : UInt8) : Bytes := (jsonPieces c).flatten

theorem unit_of_control : ∀ n < 0x20, JsonText.unitValue 0x30 0x30
    (hexDigit (UInt8.ofNat n >>> 4)) (hexDigit (UInt8.ofNat n &&& 0xf)) = some n := by
  decide

instance (text : List UInt8) : Decidable (OneLine text) := inferInstanceAs (Decidable (_ ∧ _))

theorem writes_jsonEscape (c : UInt8) : JsonText.Writes (jsonEscape c) c := by
  unfold jsonEscape jsonPieces
  split_ifs with hself hlf hcr htab hback hfeed hlow
  · apply JsonText.writes_escape
    rcases Bool.or_eq_true_iff.mp hself with h | h <;>
      simp [beq_iff_eq.mp h, JsonText.escapeValue]
  · obtain rfl := beq_iff_eq.mp hlf
    exact @JsonText.writes_escape 0x6e _ (by decide)
  · obtain rfl := beq_iff_eq.mp hcr
    exact @JsonText.writes_escape 0x72 _ (by decide)
  · obtain rfl := beq_iff_eq.mp htab
    exact @JsonText.writes_escape 0x74 _ (by decide)
  · obtain rfl := beq_iff_eq.mp hback
    exact @JsonText.writes_escape 0x62 _ (by decide)
  · obtain rfl := beq_iff_eq.mp hfeed
    exact @JsonText.writes_escape 0x66 _ (by decide)
  · have hn : c.toNat < 0x20 := hlow
    have hunit := unit_of_control c.toNat hn
    rw [UInt8.ofNat_toNat] at hunit
    have hwrites := JsonText.writes_unit hunit (by omega)
    rw [UInt8.ofNat_toNat] at hwrites
    exact hwrites
  · simp only [Bool.or_eq_true, beq_iff_eq, not_or] at hself
    exact JsonText.writes_plain (UInt8.not_lt.mp hlow) hself.1 hself.2

/-- No escape goes beyond its line. -/
theorem oneLine_jsonEscape (c : UInt8) : OneLine (jsonEscape c) := by
  unfold jsonEscape jsonPieces OneLine
  split_ifs with hself hlf hcr htab hback hfeed hlow
  · rcases Bool.or_eq_true_iff.mp hself with h | h <;> simp [beq_iff_eq.mp h]
  · decide
  · decide
  · decide
  · decide
  · decide
  · have hdigits : ∀ n < 0x20, OneLine
        (lit "\\u00" ++ [hexDigit (UInt8.ofNat n >>> 4), hexDigit (UInt8.ofNat n &&& 0xf)]) := by
      decide
    have h := hdigits c.toNat hlow
    rw [UInt8.ofNat_toNat] at h
    simpa [OneLine] using h
  · have hlf' : (0x0a : UInt8) ≠ c := fun heq => hlf (by rw [← heq]; decide)
    have hcr' : (0x0d : UInt8) ≠ c := fun heq => hcr (by rw [← heq]; decide)
    simp [hlf', hcr']

theorem length_jsonEscape (c : UInt8) : (jsonEscape c).length =
    if c == 0x22 || c == 0x5c || c == lf || c == cr || c == tab || c == 0x08 || c == 0x0c then 2
    else if c < 0x20 then 6
    else 1 := by
  unfold jsonEscape jsonPieces
  split_ifs <;> simp_all [lit]

/-- Measuring a string is adding up its escapes. -/
theorem jsonStringLen_eq (total : ℕ) (s : Bytes) (htotal : total ≤ sizeMax) :
    jsonStringLen total s =
      if total + (s.flatMap jsonEscape).length ≤ sizeMax then
        some (total + (s.flatMap jsonEscape).length)
      else none := by
  induction s generalizing total with
  | nil => simp [jsonStringLen, htotal]
  | cons c s ih =>
    have hstep : jsonStringLen total (c :: s) =
        (addSize total (jsonEscape c).length).bind fun total => jsonStringLen total s := by
      rw [length_jsonEscape]
      conv => lhs; unfold jsonStringLen
      split_ifs <;> rfl
    rw [hstep, addSize, List.flatMap_cons, List.length_append]
    by_cases hover : sizeMax - total < (jsonEscape c).length
    · rw [if_pos hover, if_neg (by omega)]
      rfl
    · rw [if_neg hover, Option.bind_some, ih _ (by omega), Nat.add_assoc]

/-! ## Messages -/

/-- A message as it is handed to the writer. -/
structure EventMsg where
  pre : Bytes
  subject : Bytes
  payload : Bytes

namespace EventMsg

/-- The prefix needs no escapes, and the payload is not binary. -/
def Clean (m : EventMsg) : Prop := (∀ c ∈ m.pre, JsonText.Plain c) ∧ 0 ∉ m.payload

def event (m : EventMsg) : Bytes := sseEvent m.pre m.subject m.payload

/-- The object in the data of an event. -/
def data (m : EventMsg) : Bytes :=
  lit "\x7b\"subject\":\"" ++ m.pre ++ m.subject.flatMap jsonEscape ++ eventMiddle ++
    m.payload.flatMap jsonEscape ++ lit "\"\x7d"

theorem event_eq (m : EventMsg) :
    m.event = lit "event: " ++ lit "msg" ++ lf :: (lit "data: " ++ m.data ++ lf :: lf :: []) := by
  have hpieces : ∀ s : Bytes, (s.flatMap jsonPieces).flatten = s.flatMap jsonEscape := by
    intro s
    induction s with
    | nil => rfl
    | cons c s ih => simp [jsonEscape, ih]
  simp [event, sseEvent, eventPieces, data, hpieces, eventHead, eventTail, lit, lf]

/-- The data stands within one line. -/
theorem oneLine_data {m : EventMsg} (h : m.Clean) : OneLine m.data := by
  have hescaped : ∀ s : Bytes, OneLine (s.flatMap jsonEscape) := by
    intro s
    constructor
    · intro hmem
      obtain ⟨c, -, hc⟩ := List.mem_flatMap.mp hmem
      exact (oneLine_jsonEscape c).1 hc
    · intro hmem
      obtain ⟨c, -, hc⟩ := List.mem_flatMap.mp hmem
      exact (oneLine_jsonEscape c).2 hc
  have hpre : OneLine m.pre := by
    constructor
    · intro hmem
      exact absurd (h.1 _ hmem).1 (by decide)
    · intro hmem
      exact absurd (h.1 _ hmem).1 (by decide)
  have hhead : OneLine (lit "\x7b\"subject\":\"") := by decide
  have hmiddle : OneLine eventMiddle := by decide
  have htail : OneLine (lit "\"\x7d") := by decide
  obtain ⟨hs, hp⟩ := hescaped m.subject, hescaped m.payload
  simp only [OneLine, data, List.mem_append, not_or] at *
  tauto

theorem readObject_data {m : EventMsg} (h : m.Clean) :
    readObject m.data =
      some [(lit "subject", m.pre ++ m.subject), (lit "payload", m.payload)] := by
  have hescaped : ∀ s cs : Bytes,
      readString (s.flatMap jsonEscape ++ 0x22 :: cs) = some (s, cs) := by
    intro s cs
    rw [JsonText.readString_pieces fun c _ => writes_jsonEscape c]
    simp [readString]
  have hname : ∀ name : Bytes, (∀ c ∈ name, JsonText.Plain c) → ∀ cs,
      readString (name ++ 0x22 :: cs) = some (name, cs) := by
    intro name hplain cs
    rw [JsonText.readString_plain hplain]
    simp [readString]
  have hpayload : readString (m.payload.flatMap jsonEscape ++ 0x22 :: [0x7d]) =
      some (m.payload, [0x7d]) := hescaped _ _
  have hsubject : ∀ cs, readString (m.pre ++ (m.subject.flatMap jsonEscape ++ 0x22 :: cs)) =
      some (m.pre ++ m.subject, cs) := by
    intro cs
    rw [JsonText.readString_plain h.1, hescaped]
    rfl
  have htext : m.data = 0x7b :: 0x22 :: (lit "subject" ++ 0x22 :: 0x3a :: 0x22 ::
      (m.pre ++ (m.subject.flatMap jsonEscape ++ 0x22 :: 0x2c :: 0x22 ::
        (lit "payload" ++ 0x22 :: 0x3a :: 0x22 ::
          (m.payload.flatMap jsonEscape ++ 0x22 :: [0x7d]))))) := by
    simp [data, eventMiddle, lit]
  have hlast := hname (lit "payload") (by decide +kernel) (0x3a :: 0x22 ::
    (m.payload.flatMap jsonEscape ++ 0x22 :: [0x7d]))
  have hfirst := hname (lit "subject") (by decide +kernel) (0x3a :: 0x22 ::
    (m.pre ++ (m.subject.flatMap jsonEscape ++ 0x22 :: 0x2c :: 0x22 ::
      (lit "payload" ++ 0x22 :: 0x3a :: 0x22 ::
        (m.payload.flatMap jsonEscape ++ 0x22 :: [0x7d])))))
  rw [htext, JsonText.readObject_brace, List.length_cons,
    JsonText.readMembers_more hfirst (hsubject _), List.length_append, List.length_cons,
    ← Nat.add_assoc, JsonText.readMembers_last hlast hpayload]
  rfl

/-- The prefixes of the router need no escapes. -/
theorem plain_subPrefix (sub : Subscription) : ∀ c ∈ subPrefix sub, JsonText.Plain c := by
  have hlvc : ∀ c ∈ lvcPrefix, JsonText.Plain c := by decide +kernel
  unfold subPrefix
  split_ifs
  · exact hlvc
  · simp

/-- What a client makes of an event. -/
def read (e : EventStream.Event) : Option (Bytes × Bytes) :=
  if e.type = lit "msg" then
    match readObject e.data with
    | some [(s, subject), (p, payload)] =>
      if s = lit "subject" ∧ p = lit "payload" then some (subject, payload) else none
    | _ => none
  else none

theorem read_event {m : EventMsg} (h : m.Clean) :
    read (EventStream.Event.mk (lit "msg") m.data) = some (m.pre ++ m.subject, m.payload) := by
  simp [read, readObject_data h]

theorem events_append {m : EventMsg} (h : m.Clean) (stream : Bytes) :
    events (m.event ++ stream) = ⟨lit "msg", m.data⟩ :: events stream := by
  have hstream := @EventStream.events_event (lit "msg") m.data stream (by decide) (by decide)
    (oneLine_data h)
  rw [← hstream, event_eq]
  simp [lit, lf]

/-- A stream reads back as the messages written to it. -/
theorem events_flatMap {ms : List EventMsg} (h : ∀ m ∈ ms, m.Clean) :
    (events (ms.flatMap event)).map read =
      ms.map fun m => some (m.pre ++ m.subject, m.payload) := by
  induction ms with
  | nil => rfl
  | cons m ms ih =>
    obtain ⟨hm, hms⟩ := List.forall_mem_cons.mp h
    rw [List.flatMap_cons, events_append hm, List.map_cons, read_event hm, ih hms, List.map_cons]

/-- The line ends of an event end its two lines and itself. -/
theorem splitOn_event {m : EventMsg} (h : m.Clean) :
    m.event.splitOn lf = [lit "event: msg", lit "data: " ++ m.data, [], []] ∧ cr ∉ m.event := by
  have hdata := oneLine_data h
  have hfirst : OneLine (lit "event: " ++ lit "msg") := by decide
  have hsecond : OneLine (lit "data: " ++ m.data) := by
    have hname : OneLine (lit "data: ") := by decide
    simp only [OneLine, List.mem_append, not_or] at *
    tauto
  have hends : cr ∉ ([lf] : Bytes) := by decide
  rw [event_eq]
  constructor
  · have htype : lf ∉ lit "event: " ++ lit "msg" := hfirst.1
    have hline : lf ∉ lit "data: " ++ m.data := hsecond.1
    rw [List.splitOn_append_cons_self_of_not_mem htype,
      List.splitOn_append_cons_self_of_not_mem hline, splitOn_cons_self, List.splitOn_nil]
    rfl
  · simp only [List.mem_append, List.mem_cons, not_or] at hends ⊢
    exact ⟨not_or.mp (fun hmem => hfirst.2 (List.mem_append.mpr hmem)), hends.1,
      not_or.mp (fun hmem => hsecond.2 (List.mem_append.mpr hmem)), hends.1, hends.1,
      List.not_mem_nil⟩

end EventMsg

/-- Measuring an event is taking the length of what is written. -/
theorem sseMsgLen_eq (m : EventMsg) (sid replyTo : Bytes) (h : 0 ∉ m.payload) :
    sseMsgLen m.pre m.subject sid replyTo m.payload =
      if m.event.length ≤ sizeMax then some m.event.length else none := by
  have hnul : sliceHasNul m.payload = false := by simpa [sliceHasNul] using h
  have hlen : m.event.length = eventHead.length + eventMiddle.length + eventTail.length +
      m.pre.length + (m.subject.flatMap jsonEscape).length +
        (m.payload.flatMap jsonEscape).length := by
    rw [EventMsg.event_eq]
    simp [EventMsg.data, eventHead, eventMiddle, eventTail, lit]
    omega
  have hfixed : eventHead.length + eventMiddle.length + eventTail.length ≤ sizeMax := by decide
  unfold sseMsgLen
  rw [hnul, hlen]
  simp only [Bool.false_eq_true, if_false, addSize, Option.bind_eq_bind]
  by_cases hpre : sizeMax - (eventHead.length + eventMiddle.length + eventTail.length) <
      m.pre.length
  · rw [if_pos hpre, if_neg (by omega)]
    rfl
  · rw [if_neg hpre, Option.bind_some, jsonStringLen_eq _ _ (by omega)]
    by_cases hsubject : eventHead.length + eventMiddle.length + eventTail.length + m.pre.length +
        (m.subject.flatMap jsonEscape).length ≤ sizeMax
    · rw [if_pos hsubject, Option.bind_some, jsonStringLen_eq _ _ hsubject]
    · rw [if_neg hsubject, if_neg (by omega)]
      rfl

theorem appendAll_fits {i : ℕ} {out : Bytes} {pieces : List Bytes}
    (h : out.length + pieces.flatten.length ≤ sizeMax) :
    appendAll (fun _ => true) i out pieces = (out ++ pieces.flatten, true) := by
  induction pieces generalizing i out with
  | nil => simp [appendAll]
  | cons piece pieces ih =>
    rw [List.flatten_cons, List.length_append] at h
    unfold appendAll
    by_cases hempty : piece.isEmpty = true
    · rw [if_pos hempty, ih (by omega), List.isEmpty_iff.mp hempty]
      rfl
    · have happend : bufAppend out piece = some (out ++ piece) := by
        unfold bufAppend bufReserve
        rw [if_neg (by omega)]
        rfl
      have hfit : (out ++ piece).length + pieces.flatten.length ≤ sizeMax := by
        rw [List.length_append]
        omega
      simp only [hempty, happend, ih hfit, Bool.false_eq_true, if_false, Bool.not_true,
        List.flatten_cons, List.append_assoc]

theorem sseWriteMsg_succeeds {m : EventMsg} {out sid replyTo : Bytes} (h : 0 ∉ m.payload)
    (hfit : out.length + m.event.length ≤ sizeMax) :
    sseWriteMsg (fun _ => true) out m.pre m.subject sid replyTo m.payload =
      (out ++ m.event, true) := by
  have hnul : sliceHasNul m.payload = false := by simpa [sliceHasNul] using h
  unfold sseWriteMsg
  rw [hnul]
  exact appendAll_fits hfit

/-- Of a message without NUL bytes in its payload the bytes that are measured are written. With
a prefix that needs no escapes they are two lines and a blank one, with the message in the data,
and a stream of such messages reads back as these. -/
theorem events_not_forged :
    (∀ (m : EventMsg) (sid replyTo : Bytes), 0 ∉ m.payload →
      sseMsgLen m.pre m.subject sid replyTo m.payload =
        (if m.event.length ≤ sizeMax then some m.event.length else none) ∧
      (∀ ok out, (sseWriteMsg ok out m.pre m.subject sid replyTo m.payload).2 = true →
        (sseWriteMsg ok out m.pre m.subject sid replyTo m.payload).1 = out ++ m.event) ∧
      (∀ out, out.length + m.event.length ≤ sizeMax →
        sseWriteMsg (fun _ => true) out m.pre m.subject sid replyTo m.payload =
          (out ++ m.event, true))) ∧
    (∀ m : EventMsg, m.Clean →
      (m.event.splitOn lf = [lit "event: msg", lit "data: " ++ m.data, [], []] ∧ cr ∉ m.event) ∧
      readObject m.data =
        some [(lit "subject", m.pre ++ m.subject), (lit "payload", m.payload)]) ∧
    ∀ ms : List EventMsg, (∀ m ∈ ms, m.Clean) →
      (events (ms.flatMap EventMsg.event)).map EventMsg.read =
        ms.map fun m => some (m.pre ++ m.subject, m.payload) := by
  refine ⟨?_, ?_, ?_⟩
  · intro m sid replyTo hm
    refine ⟨sseMsgLen_eq m sid replyTo hm, ?_, ?_⟩
    · intro ok out hwrote
      obtain ⟨y, hy, -, hall⟩ := sseWriteMsg_eq ok out m.pre m.subject sid replyTo m.payload
      have hnul : sliceHasNul m.payload = false := by simpa [sliceHasNul] using hm
      rw [hy, hall hwrote, hnul]
      rfl
    · intro out hfit
      exact sseWriteMsg_succeeds hm hfit
  · intro m hm
    exact ⟨EventMsg.splitOn_event hm, EventMsg.readObject_data hm⟩
  · intro ms hms
    exact EventMsg.events_flatMap hms

/-- A payload that imitates the end of an event stays within it. -/
theorem events_not_forged_imitation :
    EventMsg.Clean ⟨lit "$LVC.", lit "a", lit "b\"\x7d\n\n"⟩ ∧
      (sseWriteMsg (fun _ => true) [] (lit "$LVC.") (lit "a") [] [] (lit "b\"\x7d\n\n") =
        (EventMsg.event ⟨lit "$LVC.", lit "a", lit "b\"\x7d\n\n"⟩, true) ∧
      (events ([⟨lit "$LVC.", lit "a", lit "b\"\x7d\n\n"⟩].flatMap EventMsg.event)).map
        EventMsg.read = [some (lit "$LVC.a", lit "b\"\x7d\n\n")]) := by
  have hclean : EventMsg.Clean ⟨lit "$LVC.", lit "a", lit "b\"\x7d\n\n"⟩ := by
    constructor <;> decide +kernel
  obtain ⟨hmsg, -, hstream⟩ := events_not_forged
  obtain ⟨-, -, hwrite⟩ := hmsg ⟨lit "$LVC.", lit "a", lit "b\"\x7d\n\n"⟩ [] [] hclean.2
  refine ⟨hclean, hwrite [] (by decide +kernel), ?_⟩
  exact hstream [⟨lit "$LVC.", lit "a", lit "b\"\x7d\n\n"⟩] (by simpa using hclean)

/-- A line end in the prefix is written as it stands. -/
theorem prefix_breaks_line :
    0 ∉ lit "b" ∧ subjectValid (lit "a") false = true ∧
      (sseWriteMsg (fun _ => true) [] [lf] (lit "a") [] [] (lit "b")).2 = true ∧
      ∀ line, (sseWriteMsg (fun _ => true) [] [lf] (lit "a") [] [] (lit "b")).1.splitOn lf ≠
        [lit "event: msg", line, [], []] := by
  have hlines : ((sseWriteMsg (fun _ => true) [] [lf] (lit "a") [] [] (lit "b")).1.splitOn
      lf).length = 5 := by decide +kernel
  refine ⟨by decide +kernel, by decide +kernel, by decide +kernel, ?_⟩
  intro line heq
  rw [heq] at hlines
  cases hlines

end Monoblok.Http
