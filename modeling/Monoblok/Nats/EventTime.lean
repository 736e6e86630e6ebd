import Monoblok.Lib.Runs
import Monoblok.Nats.JetStream

/-!
# Event times of a stream

The messages of a stream are processed one after another, in the batches of the
catch-up and one at a time from then on. The time a message is handed over with
is its own or the last one recorded, whichever is later; times and positions are
recorded for processed messages only.
-/

namespace Monoblok.Nats

/-! ## The stream -/

/-- What moves a stream: a message, with the answers of handler and server, and
what the server tells of the consumer. -/
inductive StreamEvent where
  | message (answers : Answers) (m : MsgRef)
  | consumerInfo (numPending ackFloor : UInt64)

namespace JsStream

/-- `js_stream_pending_zero` with the answer of the server. -/
def pendingZero (numPending ackFloor : UInt64) (st : JsStream) : Bool × JsStream :=
  (numPending == 0,
    if numPending = 0 ∧ st.lastStreamSeq < ackFloor then { st with lastStreamSeq := ackFloor }
    else st)

/-- A stream as it is allocated. -/
def zeroed : JsStream := ⟨none, false, false, false, false, false, 0, 0, 0, 0, 0, 0, 0, 0, 0⟩

def onEvent (st : JsStream) : StreamEvent → List HandoffEvent × JsStream
  | .message answers m => ((st.processMsg answers m).1, (st.processMsg answers m).2.2)
  | .consumerInfo numPending ackFloor => ([], (st.pendingZero numPending ackFloor).2)

end JsStream

/-- What was done with the messages of a stream, and the stream after them. -/
def processed (es : List StreamEvent) : List HandoffEvent × JsStream :=
  es.foldl (fun x e => (x.1 ++ (x.2.onEvent e).1, (x.2.onEvent e).2)) ([], JsStream.zeroed)

def HandoffEvent.eventNowMs : HandoffEvent → Option UInt64
  | .handled _ _ _ nowMs _ _ => some nowMs
  | _ => none

/-- The times the handler was called with. -/
def eventTimes (es : List StreamEvent) : List UInt64 := (processed es).1.filterMap (·.eventNowMs)

/-- The position in the stream after each event. -/
def ProgressKept (es : List StreamEvent) : Prop :=
  ∀ pre e post, es = pre ++ e :: post →
    (processed pre).2.lastStreamSeq ≤ (processed (pre ++ [e])).2.lastStreamSeq

/-! ## Conditions on the messages -/

/-- The metadata of a message that gets as far as the handler. -/
def NatsMsg.handedOver (msg : NatsMsg) : Option MsgMetaData :=
  match msg.metaData, msg.subject with
  | .inr info, some subject =>
    if info.timestamp ≤ 0 ∨ msg.dataLen < 0 ∨ (msg.payload = none ∧ msg.dataLen ≠ 0) ∨
        maxPayload < msg.dataLen.toNat ∨ JsStream.subjectAllowed subject = false then none
    else some info
  | _, _ => none

/-- Its own time, in milliseconds. -/
def MsgMetaData.stampMs (info : MsgMetaData) : ℤ := info.timestamp.tdiv 1000000

def Answers.complete (answers : Answers) : Bool := answers.handlerOk && answers.ackStatus == 0

namespace StreamEvent

def handedOver : StreamEvent → Option MsgMetaData
  | message _ m => m.msg.handedOver
  | consumerInfo _ _ => none

def completes : StreamEvent → Bool
  | message answers _ => answers.complete
  | consumerInfo _ _ => false

def isMessage : StreamEvent → Bool
  | message _ _ => true
  | consumerInfo _ _ => false

/-- The time of a message that was handed over and processed. -/
def doneStamp (e : StreamEvent) : ℤ :=
  if e.completes then (e.handedOver.map MsgMetaData.stampMs).getD 0 else 0

/-- The time of a message that was handed over and failed. -/
def failedStamp (e : StreamEvent) : ℤ :=
  if e.completes then 0 else (e.handedOver.map MsgMetaData.stampMs).getD 0

/-- The position a processed message or the server names. -/
def position : StreamEvent → Option UInt64
  | message answers m => if answers.complete then m.msg.handedOver.map MsgMetaData.streamSeq else none
  | consumerInfo numPending ackFloor => if numPending = 0 then some ackFloor else none

end StreamEvent

def latest (stamp : StreamEvent → ℤ) (es : List StreamEvent) : ℤ :=
  es.foldl (fun t e => max t (stamp e)) 0

/-- A failed message is not later than one handed over after it, unless one as late
was processed before that. -/
def NoLateFailure (es : List StreamEvent) : Prop :=
  ∀ pre e post, es = pre ++ e :: post → ∀ info, e.handedOver = some info →
    latest StreamEvent.failedStamp pre ≤ max info.stampMs (latest StreamEvent.doneStamp pre)

/-- Messages are processed in the order of the stream. -/
def InSequence (es : List StreamEvent) : Prop :=
  ∀ pre e post, es = pre ++ e :: post → e.isMessage = true → ∀ q, e.position = some q →
    ∀ e' ∈ pre, ∀ q', e'.position = some q' → q' ≤ q

/-- Time stamps are 64-bit integers. -/
def Stamped (es : List StreamEvent) : Prop :=
  ∀ e ∈ es, ∀ info, e.handedOver = some info → info.timestamp < 2 ^ 63

/-! ## One event -/

theorem handedOver_spec {msg : NatsMsg} {info : MsgMetaData} (h : msg.handedOver = some info) :
    ∃ subject, msg.metaData = .inr info ∧ msg.subject = some subject ∧ 0 < info.timestamp ∧
      ¬ (msg.dataLen < 0 ∨ (msg.payload = none ∧ msg.dataLen ≠ 0) ∨
        maxPayload < msg.dataLen.toNat) ∧ JsStream.subjectAllowed subject = true := by
  unfold NatsMsg.handedOver at h
  split at h
  · rename_i info' subject hmeta hsubject
    split at h
    · cases h
    · rename_i hok
      cases h
      simp only [not_or, not_le, Bool.not_eq_false] at hok ⊢
      obtain ⟨hstamp, hlen, hpayload, hmax, hallowed⟩ := hok
      exact ⟨subject, hmeta, hsubject, hstamp, ⟨hlen, hpayload, hmax⟩, hallowed⟩
  · cases h

theorem stampMs_nonneg {info : MsgMetaData} (h : 0 < info.timestamp) : 0 ≤ info.stampMs :=
  Int.tdiv_nonneg h.le (by decide)

/-- The time of a message is its own or the last one recorded. -/
theorem eventTimeFromMsg_handedOver {msg : NatsMsg} {info : MsgMetaData} {st : JsStream}
    (hst : 0 ≤ st.lastEventWallMs) (hmeta : msg.metaData = .inr info) (hstamp : 0 < info.timestamp) :
    st.eventTimeFromMsg msg = (some (info, max info.stampMs st.lastEventWallMs), st) := by
  have hnonneg := stampMs_nonneg hstamp
  have hclamp : (if st.lastEventWallMs ≠ 0 ∧ info.stampMs < st.lastEventWallMs then
      st.lastEventWallMs else info.stampMs) = max info.stampMs st.lastEventWallMs := by
    split <;> omega
  unfold JsStream.eventTimeFromMsg
  rw [hmeta]
  dsimp only
  rw [if_neg (not_le.mpr hstamp)]
  change (if (if st.lastEventWallMs ≠ 0 ∧ info.stampMs < st.lastEventWallMs then
      st.lastEventWallMs else info.stampMs) < 0 then (none, st)
    else (some (info, if st.lastEventWallMs ≠ 0 ∧ info.stampMs < st.lastEventWallMs then
      st.lastEventWallMs else info.stampMs), st)) = _
  rw [hclamp, if_neg (by omega)]

/-- The position a stream at `q` moves to. -/
def StreamEvent.moves (q : UInt64) : StreamEvent → UInt64
  | e@(.message _ _) => e.position.getD q
  | .consumerInfo numPending ackFloor => if numPending = 0 ∧ q < ackFloor then ackFloor else q

/-- What an event hands over and records. -/
structure Recorded (st : JsStream) (e : StreamEvent) : Prop where
  times : (st.onEvent e).1.filterMap (·.eventNowMs) =
    (e.handedOver.map fun info => UInt64.ofInt (max info.stampMs st.lastEventWallMs)).toList
  wall : (st.onEvent e).2.lastEventWallMs = max st.lastEventWallMs e.doneStamp
  seq : (st.onEvent e).2.lastStreamSeq = e.moves st.lastStreamSeq

/-- Reading the time of a message leaves what is recorded alone. -/
theorem eventTimeFromMsg_keeps (msg : NatsMsg) (st : JsStream) :
    (st.eventTimeFromMsg msg).2.lastEventWallMs = st.lastEventWallMs ∧
      (st.eventTimeFromMsg msg).2.lastStreamSeq = st.lastStreamSeq := by
  unfold JsStream.eventTimeFromMsg
  split
  · exact ⟨rfl, rfl⟩
  · dsimp only
    split_ifs <;> exact ⟨rfl, rfl⟩

/-- A message that does not get as far as the handler. -/
theorem processMsg_refused {answers : Answers} {m : MsgRef} (h : m.msg.handedOver = none)
    (st : JsStream) :
    (st.processMsg answers m).1 = [] ∧
      (st.processMsg answers m).2.2.lastEventWallMs = st.lastEventWallMs ∧
      (st.processMsg answers m).2.2.lastStreamSeq = st.lastStreamSeq := by
  have hkeeps := eventTimeFromMsg_keeps m.msg { st with received := st.received + 1 }
  unfold JsStream.processMsg
  dsimp only
  generalize htime : JsStream.eventTimeFromMsg m.msg { st with received := st.received + 1 } = r at hkeeps ⊢
  obtain ⟨time, st'⟩ := r
  cases time with
  | none => exact ⟨rfl, hkeeps⟩
  | some time =>
    obtain ⟨info, wallMs⟩ := time
    dsimp only
    cases hsubject : m.msg.subject with
    | none => exact ⟨rfl, hkeeps⟩
    | some subject =>
      dsimp only
      split_ifs with hframe hallowed
      · exact ⟨rfl, hkeeps⟩
      · exact ⟨rfl, hkeeps⟩
      · -- such a message is handed over
        exfalso
        unfold JsStream.eventTimeFromMsg at htime
        cases hmeta : m.msg.metaData with
        | inl status =>
          rw [hmeta] at htime
          cases htime
        | inr info' =>
          rw [hmeta] at htime
          dsimp only at htime
          by_cases hstamp : info'.timestamp ≤ 0
          · rw [if_pos hstamp] at htime
            cases htime
          · unfold NatsMsg.handedOver at h
            rw [hmeta, hsubject] at h
            dsimp only at h
            rw [if_neg] at h
            · cases h
            · simp only [not_or, Bool.not_eq_true, Bool.not_eq_false'] at hframe hallowed ⊢
              exact ⟨hstamp, hframe.1, hframe.2.1, hframe.2.2, by simpa using hallowed⟩

/-- A message that is handed over. -/
theorem processMsg_handedOver {answers : Answers} {m : MsgRef} {info : MsgMetaData}
    (h : m.msg.handedOver = some info) {st : JsStream} (hst : 0 ≤ st.lastEventWallMs) :
    (st.processMsg answers m).1.filterMap (·.eventNowMs) =
        [UInt64.ofInt (max info.stampMs st.lastEventWallMs)] ∧
      (st.processMsg answers m).2.2.lastEventWallMs =
        (if answers.complete then max info.stampMs st.lastEventWallMs else st.lastEventWallMs) ∧
      (st.processMsg answers m).2.2.lastStreamSeq =
        if answers.complete then info.streamSeq else st.lastStreamSeq := by
  obtain ⟨subject, hmeta, hsubject, hstamp, hframe, hallowed⟩ := handedOver_spec h
  have htime := @eventTimeFromMsg_handedOver _ _ { st with received := st.received + 1 } hst hmeta
    hstamp
  unfold JsStream.processMsg
  dsimp only
  rw [htime, hsubject]
  dsimp only
  rw [if_neg hframe, hallowed, Bool.not_true, if_neg Bool.false_ne_true]
  unfold JsStream.deliver JsStream.setStatus Answers.complete
  dsimp only
  cases answers.handlerOk with
  | false =>
    simp only [Bool.false_and, Bool.not_false, if_true, Bool.false_eq_true, if_false]
    split_ifs <;> exact ⟨rfl, rfl, rfl⟩
  | true =>
    by_cases hack : answers.ackStatus = 0
    · simp only [hack, Bool.true_and, Bool.not_true, if_true, Bool.false_eq_true, if_false, beq_self_eq_true]
      exact ⟨rfl, trivial, trivial⟩
    · have hne : (answers.ackStatus == 0) = false := by simpa using hack
      simp only [hack, hne, Bool.true_and, Bool.not_true, Bool.not_false, if_true, Bool.false_eq_true, if_false]
      split_ifs <;> exact ⟨rfl, rfl, rfl⟩

theorem moves_onEvent {st : JsStream} (hst : 0 ≤ st.lastEventWallMs) (e : StreamEvent) :
    Recorded st e := by
  cases e with
  | consumerInfo numPending ackFloor =>
    have hkeeps : (st.onEvent (.consumerInfo numPending ackFloor)).2.lastEventWallMs =
        st.lastEventWallMs := by
      change (if _ then _ else _ : JsStream).lastEventWallMs = _
      split_ifs <;> rfl
    refine ⟨rfl, hkeeps.trans (max_eq_left hst).symm, ?_⟩
    change (if numPending = 0 ∧ st.lastStreamSeq < ackFloor then
        { st with lastStreamSeq := ackFloor } else st).lastStreamSeq =
      if numPending = 0 ∧ st.lastStreamSeq < ackFloor then ackFloor else st.lastStreamSeq
    split_ifs <;> rfl
  | message answers m =>
    cases hmsg : m.msg.handedOver with
    | none =>
      obtain ⟨hevents, hwall, hseq⟩ := @processMsg_refused answers _ hmsg st
      have hhanded : (StreamEvent.message answers m).handedOver = none := hmsg
      constructor
      · rw [hhanded]
        exact congrArg (List.filterMap _) hevents
      · unfold StreamEvent.doneStamp
        rw [hhanded, Option.map_none, Option.getD_none, ite_self, max_eq_left hst]
        exact hwall
      · unfold StreamEvent.moves StreamEvent.position
        dsimp only
        rw [hmsg, Option.map_none, ite_self, Option.getD_none]
        exact hseq
    | some info =>
      obtain ⟨hevents, hwall, hseq⟩ := @processMsg_handedOver answers _ _ hmsg _ hst
      have hhanded : (StreamEvent.message answers m).handedOver = some info := hmsg
      constructor
      · rw [hhanded]
        exact hevents
      · unfold StreamEvent.doneStamp
        rw [hhanded]
        refine hwall.trans ?_
        change _ = max st.lastEventWallMs (if answers.complete then info.stampMs else 0)
        split_ifs
        · exact max_comm _ _
        · exact (max_eq_left hst).symm
      · unfold StreamEvent.moves StreamEvent.position
        dsimp only
        rw [hmsg]
        refine hseq.trans ?_
        split_ifs <;> rfl

/-! ## Runs -/

theorem processed_snoc (es : List StreamEvent) (e : StreamEvent) :
    processed (es ++ [e]) =
      ((processed es).1 ++ ((processed es).2.onEvent e).1, ((processed es).2.onEvent e).2) := by
  unfold processed
  rw [List.foldl_append]
  rfl

theorem latest_snoc (stamp : StreamEvent → ℤ) (es : List StreamEvent) (e : StreamEvent) :
    latest stamp (es ++ [e]) = max (latest stamp es) (stamp e) := by
  unfold latest
  rw [List.foldl_append]
  rfl

theorem latest_nonneg (stamp : StreamEvent → ℤ) (es : List StreamEvent) : 0 ≤ latest stamp es := by
  induction es using List.reverseRecOn with
  | nil => exact le_rfl
  | append_singleton es e ih =>
    rw [latest_snoc]
    exact le_max_of_le_left ih

/-- The time recorded is that of the latest message processed. -/
theorem lastEventWallMs_processed (es : List StreamEvent) :
    (processed es).2.lastEventWallMs = latest StreamEvent.doneStamp es := by
  induction es using List.reverseRecOn with
  | nil => rfl
  | append_singleton es e ih =>
    have hst : 0 ≤ (processed es).2.lastEventWallMs := ih ▸ latest_nonneg _ es
    rw [processed_snoc, latest_snoc, ← ih]
    exact (moves_onEvent hst e).wall

theorem moves_processed (es : List StreamEvent) (e : StreamEvent) : Recorded (processed es).2 e :=
  moves_onEvent (lastEventWallMs_processed es ▸ latest_nonneg _ es) e

theorem eventTimes_snoc (es : List StreamEvent) (e : StreamEvent) :
    eventTimes (es ++ [e]) = eventTimes es ++
      (e.handedOver.map fun info =>
        UInt64.ofInt (max info.stampMs (latest StreamEvent.doneStamp es))).toList := by
  unfold eventTimes
  rw [processed_snoc, List.filterMap_append, (moves_processed es e).times, lastEventWallMs_processed]

theorem lastStreamSeq_snoc (es : List StreamEvent) (e : StreamEvent) :
    (processed (es ++ [e])).2.lastStreamSeq = e.moves (processed es).2.lastStreamSeq := by
  rw [processed_snoc]
  exact (moves_processed es e).seq

/-! ## Event times -/

/-- The latest time any message was handed over with. -/
def latestHanded (es : List StreamEvent) : ℤ :=
  max (latest StreamEvent.doneStamp es) (latest StreamEvent.failedStamp es)

theorem stamps_of_handedOver {e : StreamEvent} {info : MsgMetaData} (h : e.handedOver = some info) :
    e.doneStamp = (if e.completes then info.stampMs else 0) ∧
      e.failedStamp = if e.completes then 0 else info.stampMs := by
  unfold StreamEvent.doneStamp StreamEvent.failedStamp
  rw [h]
  exact ⟨rfl, rfl⟩

theorem stamps_of_not_handedOver {e : StreamEvent} (h : e.handedOver = none) :
    e.doneStamp = 0 ∧ e.failedStamp = 0 := by
  unfold StreamEvent.doneStamp StreamEvent.failedStamp
  rw [h]
  exact ⟨ite_self _, ite_self _⟩

theorem latestHanded_snoc_none {es : List StreamEvent} {e : StreamEvent} (h : e.handedOver = none) :
    latestHanded (es ++ [e]) = latestHanded es := by
  have hdone := latest_nonneg StreamEvent.doneStamp es
  have hfailed := latest_nonneg StreamEvent.failedStamp es
  obtain ⟨hdone', hfailed'⟩ := stamps_of_not_handedOver h
  unfold latestHanded
  rw [latest_snoc, latest_snoc, hdone', hfailed', max_eq_left hdone, max_eq_left hfailed]

theorem latestHanded_snoc {es : List StreamEvent} {e : StreamEvent} {info : MsgMetaData}
    (h : e.handedOver = some info) :
    latestHanded (es ++ [e]) =
      max (latestHanded es) (max info.stampMs (latest StreamEvent.doneStamp es)) := by
  have hdone := latest_nonneg StreamEvent.doneStamp es
  have hfailed := latest_nonneg StreamEvent.failedStamp es
  obtain ⟨hdone', hfailed'⟩ := stamps_of_handedOver h
  unfold latestHanded
  rw [latest_snoc, latest_snoc, hdone', hfailed']
  split_ifs <;> omega

theorem handedOver_stamp {e : StreamEvent} {info : MsgMetaData} (h : e.handedOver = some info) :
    0 < info.timestamp := by
  cases e with
  | consumerInfo _ _ => cases h
  | message _ m =>
    obtain ⟨_, _, _, hstamp, _⟩ := handedOver_spec h
    exact hstamp

theorem stampMs_lt {info : MsgMetaData} (h : 0 < info.timestamp) (hlt : info.timestamp < 2 ^ 63) :
    info.stampMs < 2 ^ 63 := by
  have hle : info.stampMs ≤ info.timestamp := by
    unfold MsgMetaData.stampMs
    rw [Int.tdiv_eq_ediv_of_nonneg h.le]
    exact Int.ediv_le_self _ h.le
  omega

theorem Stamped.of_append {es es' : List StreamEvent} (h : Stamped (es ++ es')) : Stamped es :=
  fun e he => h e (List.mem_append_left _ he)

theorem latest_done_lt {es : List StreamEvent} (h : Stamped es) :
    latest StreamEvent.doneStamp es < 2 ^ 63 := by
  induction es using List.reverseRecOn with
  | nil => decide
  | append_singleton es e ih =>
    rw [latest_snoc]
    apply max_lt (ih h.of_append)
    cases he : e.handedOver with
    | none =>
      rw [(stamps_of_not_handedOver he).1]
      decide
    | some info =>
      rw [(stamps_of_handedOver he).1]
      split_ifs
      · exact stampMs_lt (handedOver_stamp he) (h e (by simp) info he)
      · decide

theorem toNat_ofInt {t : ℤ} (h0 : 0 ≤ t) (ht : t < 2 ^ 63) : ((UInt64.ofInt t).toNat : ℤ) = t := by
  have hmod : t % 2 ^ 64 = t := Int.emod_eq_of_lt h0 (by omega)
  have hnat : (UInt64.ofInt t).toNat = t.toNat := by
    unfold UInt64.ofInt
    rw [hmod, UInt64.toNat_ofNat', Nat.mod_eq_of_lt (by omega)]
  rw [hnat, Int.toNat_of_nonneg h0]

/-- The times handed over are the latest one at most, and it is among them. -/
theorem eventTimes_latest {es : List StreamEvent} (h : Stamped es) :
    (∀ t ∈ eventTimes es, (t.toNat : ℤ) ≤ latestHanded es) ∧
      (latestHanded es = 0 ∨ ∃ t ∈ eventTimes es, (t.toNat : ℤ) = latestHanded es) := by
  induction es using List.reverseRecOn with
  | nil => exact ⟨fun _ ht => absurd ht List.not_mem_nil, .inl rfl⟩
  | append_singleton es e ih =>
    obtain ⟨hle, hmax⟩ := ih h.of_append
    rw [eventTimes_snoc]
    cases he : e.handedOver with
    | none =>
      rw [latestHanded_snoc_none he, Option.map_none, Option.toList_none, List.append_nil]
      exact ⟨hle, hmax⟩
    | some info =>
      rw [latestHanded_snoc he, Option.map_some, Option.toList_some]
      have hstamp := handedOver_stamp he
      have htime := toNat_ofInt
        (le_max_of_le_left (stampMs_nonneg hstamp) : 0 ≤ max info.stampMs (latest StreamEvent.doneStamp es))
        (max_lt (stampMs_lt hstamp (h e (by simp) info he)) (latest_done_lt h.of_append))
      generalize max info.stampMs (latest StreamEvent.doneStamp es) = time at htime ⊢
      constructor
      · intro t ht
        rcases List.mem_append.mp ht with ht | ht
        · exact le_max_of_le_left (hle t ht)
        · obtain rfl := List.mem_singleton.mp ht
          exact htime.le.trans (le_max_right _ _)
      · by_cases hlater : latestHanded es ≤ time
        · right
          refine ⟨_, List.mem_append_right _ (List.mem_singleton_self _), ?_⟩
          rw [htime, max_eq_right hlater]
        · have hpositive : latestHanded es ≠ 0 := by
            have := (UInt64.ofInt time).toNat.zero_le
            omega
          obtain ⟨t, ht, heq⟩ := hmax.resolve_left hpositive
          right
          refine ⟨t, List.mem_append_left _ ht, ?_⟩
          rw [heq, max_eq_left (not_le.mp hlater).le]

theorem eventTimes_sorted_iff {es : List StreamEvent} (h : Stamped es) :
    (eventTimes es).Pairwise (· ≤ ·) ↔ NoLateFailure es := by
  induction es using List.reverseRecOn with
  | nil => exact ⟨fun _ pre e post heq => by simp at heq, fun _ => .nil⟩
  | append_singleton es e ih =>
    have hplaces : NoLateFailure (es ++ [e]) ↔ NoLateFailure es ∧
        ∀ info, e.handedOver = some info →
          latest StreamEvent.failedStamp es ≤ max info.stampMs (latest StreamEvent.doneStamp es) :=
      Runs.forall_places_snoc (P := fun (pre : List StreamEvent) (e : StreamEvent) => ∀ info, e.handedOver = some info →
        latest StreamEvent.failedStamp pre ≤ max info.stampMs (latest StreamEvent.doneStamp pre))
    rw [hplaces, eventTimes_snoc, ← ih h.of_append]
    cases he : e.handedOver with
    | none => simp
    | some info =>
      obtain ⟨hle, hmax⟩ := eventTimes_latest h.of_append
      have hstamp := handedOver_stamp he
      have htime := toNat_ofInt
        (le_max_of_le_left (stampMs_nonneg hstamp) : 0 ≤ max info.stampMs (latest StreamEvent.doneStamp es))
        (max_lt (stampMs_lt hstamp (h e (by simp) info he)) (latest_done_lt h.of_append))
      have hlast : (∀ t ∈ eventTimes es,
            t ≤ UInt64.ofInt (max info.stampMs (latest StreamEvent.doneStamp es))) ↔
          latestHanded es ≤ max info.stampMs (latest StreamEvent.doneStamp es) := by
        constructor
        · intro hall
          rcases hmax with hzero | ⟨t, ht, heq⟩
          · rw [hzero]
            exact le_max_of_le_left (stampMs_nonneg hstamp)
          · have hle' := UInt64.le_iff_toNat_le.mp (hall t ht)
            omega
        · intro hlatest t ht
          apply UInt64.le_iff_toNat_le.mpr
          have := hle t ht
          omega
      rw [Option.map_some, Option.toList_some, List.pairwise_append]
      simp only [List.pairwise_singleton, List.mem_singleton, forall_eq, true_and, Option.some.injEq,
        forall_eq', hlast]
      apply and_congr_right
      intro _
      unfold latestHanded
      exact ⟨fun h => (le_max_right _ _).trans h, fun h => max_le (le_max_right _ _) h⟩

/-! ## Positions -/

theorem le_moves_consumerInfo (q numPending ackFloor : UInt64) :
    q ≤ (StreamEvent.consumerInfo numPending ackFloor).moves q := by
  unfold StreamEvent.moves
  dsimp only
  split_ifs with h
  · exact UInt64.le_of_lt h.2
  · exact UInt64.le_refl q

theorem position_le_moves {e : StreamEvent} {q q' : UInt64} (h : e.position = some q') :
    q' ≤ e.moves q := by
  cases e with
  | message answers m =>
    unfold StreamEvent.moves
    dsimp only
    rw [h]
    exact UInt64.le_refl q'
  | consumerInfo numPending ackFloor =>
    unfold StreamEvent.position at h
    unfold StreamEvent.moves
    dsimp only at h ⊢
    split_ifs at h with hnone
    cases h
    split_ifs with hlater
    · exact UInt64.le_refl q'
    · exact UInt64.not_lt.mp fun hlt => hlater ⟨hnone, hlt⟩

theorem moves_eq_or (e : StreamEvent) (q : UInt64) : e.moves q = q ∨ e.position = some (e.moves q) := by
  cases e with
  | message answers m =>
    cases h : (StreamEvent.message answers m).position with
    | none =>
      left
      unfold StreamEvent.moves
      dsimp only
      rw [h, Option.getD_none]
    | some q' =>
      right
      unfold StreamEvent.moves
      dsimp only
      rw [h, Option.getD_some]
  | consumerInfo numPending ackFloor =>
    unfold StreamEvent.moves StreamEvent.position
    dsimp only
    by_cases h : numPending = 0 ∧ q < ackFloor
    · rw [if_pos h, if_pos h.1]
      exact .inr rfl
    · rw [if_neg h]
      exact .inl rfl

/-- A stream is at the start or where one of its events has put it. -/
theorem lastStreamSeq_mem (es : List StreamEvent) :
    (processed es).2.lastStreamSeq = 0 ∨
      ∃ e ∈ es, e.position = some (processed es).2.lastStreamSeq := by
  induction es using List.reverseRecOn with
  | nil => exact .inl rfl
  | append_singleton es e ih =>
    rw [lastStreamSeq_snoc]
    rcases moves_eq_or e (processed es).2.lastStreamSeq with hsame | hmoved
    · rw [hsame]
      apply ih.imp_right
      rintro ⟨e', he', hposition⟩
      exact ⟨e', List.mem_append_left _ he', hposition⟩
    · exact .inr ⟨e, by simp, hmoved⟩

theorem progressKept_snoc {es : List StreamEvent} {e : StreamEvent} :
    ProgressKept (es ++ [e]) ↔ ProgressKept es ∧
      (processed es).2.lastStreamSeq ≤ e.moves (processed es).2.lastStreamSeq := by
  rw [← lastStreamSeq_snoc]
  exact Runs.forall_places_snoc (P := fun (pre : List StreamEvent) (e : StreamEvent) =>
    (processed pre).2.lastStreamSeq ≤ (processed (pre ++ [e])).2.lastStreamSeq)

theorem inSequence_snoc {es : List StreamEvent} {e : StreamEvent} :
    InSequence (es ++ [e]) ↔ InSequence es ∧ (e.isMessage = true → ∀ q, e.position = some q →
      ∀ e' ∈ es, ∀ q', e'.position = some q' → q' ≤ q) :=
  Runs.forall_places_snoc (P := fun (pre : List StreamEvent) (e : StreamEvent) =>
    e.isMessage = true → ∀ q, e.position = some q → ∀ e' ∈ pre, ∀ q', e'.position = some q' → q' ≤ q)

/-- As long as a stream does not go back, it is at the furthest position named. -/
theorem position_le_of_progressKept {es : List StreamEvent} (h : ProgressKept es) :
    ∀ e ∈ es, ∀ q, e.position = some q → q ≤ (processed es).2.lastStreamSeq := by
  induction es using List.reverseRecOn with
  | nil => exact fun _ he => absurd he List.not_mem_nil
  | append_singleton es e ih =>
    obtain ⟨hkept, hlast⟩ := progressKept_snoc.mp h
    intro e' he' q hposition
    rw [lastStreamSeq_snoc]
    rcases List.mem_append.mp he' with he' | he'
    · exact UInt64.le_trans (ih hkept e' he' q hposition) hlast
    · obtain rfl := List.mem_singleton.mp he'
      exact position_le_moves hposition

theorem progressKept_iff (es : List StreamEvent) : ProgressKept es ↔ InSequence es := by
  induction es using List.reverseRecOn with
  | nil =>
    constructor
    all_goals
      intro _ pre e post heq
      simp at heq
  | append_singleton es e ih =>
    rw [progressKept_snoc, inSequence_snoc, ← ih]
    apply and_congr_right
    intro hkept
    cases e with
    | consumerInfo numPending ackFloor =>
      exact ⟨fun _ h => (by cases h), fun _ => le_moves_consumerInfo _ _ _⟩
    | message answers m =>
      cases hposition : (StreamEvent.message answers m).position with
      | none =>
        have hmoves : (StreamEvent.message answers m).moves (processed es).2.lastStreamSeq =
            (processed es).2.lastStreamSeq := by
          rcases moves_eq_or (.message answers m) (processed es).2.lastStreamSeq with h | h
          · exact h
          · rw [hposition] at h
            cases h
        rw [hmoves]
        exact ⟨fun _ _ q hq => (by cases hq), fun _ => UInt64.le_refl _⟩
      | some q =>
        have hmoves : (StreamEvent.message answers m).moves (processed es).2.lastStreamSeq = q := by
          unfold StreamEvent.moves
          dsimp only
          rw [hposition, Option.getD_some]
        rw [hmoves]
        constructor
        · intro hle _ q₁ hq₁ e' he' q' hq'
          cases hq₁
          exact UInt64.le_trans (position_le_of_progressKept hkept e' he' q' hq') hle
        · intro hall
          rcases lastStreamSeq_mem es with hzero | ⟨e', he', hq'⟩
          · rw [hzero]
            exact UInt64.le_iff_toNat_le.mpr (Nat.zero_le _)
          · exact hall rfl q rfl e' he' _ hq'

/-- Event time and progress never go back exactly if no failed message is later
than one handed over after it, and messages are processed in order. -/
theorem event_time_monotone_iff (es : List StreamEvent) (h : Stamped es) :
    ((eventTimes es).Pairwise (· ≤ ·) ∧ ProgressKept es) ↔ NoLateFailure es ∧ InSequence es :=
  and_congr (eventTimes_sorted_iff h) (progressKept_iff es)

/-! ## A failed message before an earlier one -/

/-- A message at the given second. -/
def stampedMsg (second : ℤ) (seq : UInt64) : MsgRef :=
  ⟨seq.toNat, ⟨.inr ⟨second * 1000000000, seq, 1⟩, some (lit "a"), some [], 0,
    fun p hp => by cases hp; rfl⟩⟩

theorem stamped_of_all {es : List StreamEvent}
    (h : (es.all fun e => e.handedOver.all fun info => decide (info.timestamp < 2 ^ 63)) = true) :
    Stamped es := by
  intro e he info hinfo
  have hall := List.all_eq_true.mp h e he
  rw [hinfo, Option.all_some] at hall
  exact of_decide_eq_true hall

/-- The handler fails for a message, one from a second before it comes, and the
first is delivered again behind a later one. -/
def outOfOrder : List StreamEvent :=
  [.message ⟨false, 0⟩ (stampedMsg 2 5), .message ⟨true, 0⟩ (stampedMsg 1 4),
    .message ⟨true, 0⟩ (stampedMsg 3 6), .message ⟨true, 0⟩ (stampedMsg 2 5)]

theorem event_time_goes_back :
    ¬ ∀ es, Stamped es → (eventTimes es).Pairwise (· ≤ ·) ∧ ProgressKept es := by
  intro hall
  have hstamped : Stamped outOfOrder := stamped_of_all (by decide +kernel)
  have htimes : eventTimes outOfOrder = [2000, 1000, 3000, 3000] := by decide +kernel
  have hsorted := (hall outOfOrder hstamped).1
  rw [htimes] at hsorted
  exact absurd hsorted (by decide)

/-- Messages in order; the server does not get the answer to the second one at
first. -/
def inOrder : List StreamEvent :=
  [.message ⟨true, 0⟩ (stampedMsg 1 4), .message ⟨true, 1⟩ (stampedMsg 2 5),
    .message ⟨true, 0⟩ (stampedMsg 2 5), .consumerInfo 0 5]

theorem event_time_monotone_inOrder :
    Stamped inOrder ∧ eventTimes inOrder = [1000, 2000, 2000] ∧
      ((eventTimes inOrder).Pairwise (· ≤ ·) ∧ ProgressKept inOrder ↔
        NoLateFailure inOrder ∧ InSequence inOrder) := by
  have hstamped : Stamped inOrder := stamped_of_all (by decide +kernel)
  exact ⟨hstamped, by decide +kernel, event_time_monotone_iff inOrder hstamped⟩

end Monoblok.Nats
