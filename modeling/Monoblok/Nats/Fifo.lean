import Monoblok.Nats.Importer

/-!
# The import ring is a queue

The messages in the ring are those queued and not yet taken, in order; a taken
message is the one that was queued, byte for byte.
-/

namespace Monoblok.Nats

open Circular Trace

/-! ## Messages in memory -/

abbrev Message := Bytes × Bytes

/-- The message in a slot. -/
def ImportSlot.message (slot : ImportSlot) : Message :=
  (slot.bytes.take slot.subjectLen, (slot.bytes.drop slot.subjectLen).take slot.payloadLen)

/-- The messages in the ring, oldest first. -/
def Importer.waiting (m : Importer) : List Message :=
  window (fun i => (m.ring i).message) m.ringCap m.head m.len

/-- The message on its way to the handler. -/
def ImportState.inHand (s : ImportState) : List Message :=
  match s.point with
  | .copied subjectLen payloadLen =>
    [(s.importer.drainScratch.take subjectLen,
      (s.importer.drainScratch.drop subjectLen).take payloadLen)]
  | _ => []

theorem length_copyInto {mem src : Bytes} {off : ℕ} (h : off + src.length ≤ mem.length) :
    (copyInto mem off src).length = mem.length := by
  simp only [copyInto, List.length_append, List.length_take, List.length_drop]
  omega

/-- A copy of the beginning of another block. -/
theorem copyInto_front {mem src : Bytes} {a b : ℕ} (hsrc : a + b ≤ src.length) :
    (copyInto mem 0 (src.take (a + b))).take a = src.take a ∧
      ((copyInto mem 0 (src.take (a + b))).drop a).take b = (src.drop a).take b := by
  have hlen : (src.take (a + b)).length = a + b := by
    rw [List.length_take]
    omega
  have hcopy : copyInto mem 0 (src.take (a + b)) = src.take (a + b) ++ mem.drop (a + b) := by
    rw [copyInto, hlen]
    simp
  rw [hcopy]
  constructor
  · rw [List.take_append_of_le_length (by omega), List.take_take, Nat.min_eq_left (Nat.le_add_right a b)]
  · rw [List.drop_append_of_le_length (by omega), List.take_append_of_le_length]
    · rw [List.drop_take, List.take_take, Nat.add_sub_cancel_left, Nat.min_self]
    · rw [List.length_drop, hlen]
      omega

/-- A subject with a payload behind it. -/
theorem copyInto_both (mem subject payload : Bytes) :
    (copyInto (copyInto mem 0 subject) subject.length payload).take subject.length = subject ∧
      ((copyInto (copyInto mem 0 subject) subject.length payload).drop subject.length).take
        payload.length = payload := by
  have hfirst : copyInto mem 0 subject = subject ++ mem.drop subject.length := by
    simp [copyInto]
  have hsecond : copyInto (copyInto mem 0 subject) subject.length payload =
      subject ++ (payload ++ mem.drop (subject.length + payload.length)) := by
    rw [hfirst, copyInto, List.take_left, List.append_assoc]
    simp [List.drop_append]
  rw [hsecond]
  exact ⟨List.take_left, by rw [List.drop_left, List.take_left]⟩

/-! ## Slots in order -/

/-- The bytes of a slot are its memory, and its message lies within. -/
structure SlotFits (slot : ImportSlot) : Prop where
  memory : slot.bytes.length = slot.cap
  message : slot.total ≤ slot.cap

theorem slotFits_reserve {memory : Bool} {slot slot' : ImportSlot} {needed : ℕ} (h : SlotFits slot)
    (hreserve : slotReserve memory slot needed = some slot') :
    SlotFits slot' ∧ needed ≤ slot'.cap := by
  unfold slotReserve at hreserve
  split_ifs at hreserve with hcap hmemory
  · cases hreserve
    exact ⟨h, hcap⟩
  · cases hreserve
    refine ⟨⟨?_, ?_⟩, le_rfl⟩
    · simp only [List.length_append, List.length_replicate, h.memory]
      omega
    · exact le_trans h.message (Nat.le_of_not_le hcap)

theorem le_bufGrow {need fuel next : ℕ} : need ≤ bufGrow need fuel next := by
  induction fuel generalizing next with
  | zero => exact le_rfl
  | succ fuel ih =>
    unfold bufGrow
    split_ifs with hroom
    · exact hroom
    · exact le_rfl
    · exact ih

theorem scratchReserve_room {memory : Bool} {scratch scratch' : Bytes} {total : ℕ}
    (h : scratchReserve memory scratch total = some scratch') : total ≤ scratch'.length := by
  unfold scratchReserve at h
  split_ifs at h with _ hroom
  · cases h
    exact hroom
  · cases h
    have hgrow := @le_bufGrow total 64 1024
    rw [List.length_append, List.length_replicate]
    omega
  · cases h
    have hgrow := @le_bufGrow total 64 scratch.length
    rw [List.length_append, List.length_replicate]
    omega

/-- What holds of the ring at any time. -/
structure RingOk (m : Importer) : Prop where
  head : m.ringCap ≠ 0 → m.head < m.ringCap
  len : m.len ≤ m.ringCap
  slots : ∀ i, SlotFits (m.ring i)

theorem RingOk.advance {m : Importer} (h : RingOk m) : RingOk m.advance :=
  ⟨fun hcap => place_lt (Nat.pos_of_ne_zero hcap) 1, le_trans (Nat.sub_le _ _) h.len, h.slots⟩

/-- The first message leaves the ring. -/
theorem waiting_advance {m : Importer} (h : RingOk m) (hlen : m.len ≠ 0) :
    m.waiting = (m.ring m.head).message :: m.advance.waiting := by
  obtain ⟨n, hn⟩ := Nat.exists_eq_succ_of_ne_zero hlen
  have hcap : m.ringCap ≠ 0 := fun hzero => hlen (Nat.le_zero.mp (hzero ▸ h.len))
  have hadvance : m.advance.waiting =
      window (fun i => (m.ring i).message) m.ringCap (place m.ringCap m.head 1) n := by
    unfold Importer.waiting Importer.advance
    rw [hn, Nat.succ_sub_one]
  unfold Importer.waiting at hadvance ⊢
  rw [hadvance, hn, window_pop, place_zero (h.head hcap)]

/-! ## What becomes of messages -/

def ImportEvent.queued? : ImportEvent → Option Message
  | .queued subject payload => some (subject, payload)
  | _ => none

/-- What the handler is given for the next message, if it is given anything. -/
def ImportEvent.taken? : ImportEvent → Option (Option Message)
  | .handed subject payload _ => some (some (subject, payload))
  | .skipped => some none
  | _ => none

def queuedOf (c : List ImportEvent) : List Message := c.filterMap ImportEvent.queued?

def takenOf (c : List ImportEvent) : List (Option Message) := c.filterMap ImportEvent.taken?

theorem queuedOf_append (c d : List ImportEvent) : queuedOf (c ++ d) = queuedOf c ++ queuedOf d :=
  List.filterMap_append

theorem takenOf_append (c d : List ImportEvent) : takenOf (c ++ d) = takenOf c ++ takenOf d :=
  List.filterMap_append

/-! ## Steps of the worker -/

/-- What a step of the worker does to the importer. -/
structure WorkerStep (m m' : Importer) (e : ImportEvent) : Prop where
  head : m'.head = m.head
  ringCap : m'.ringCap = m.ringCap
  scratch : m'.drainScratch = m.drainScratch
  async : m'.asyncStarted = m.asyncStarted
  ring : RingOk m'
  len : m'.len = m.len + (queuedOf [e]).length
  kept : ∀ i, i < m.len → m'.ring (place m.ringCap m.head i) = m.ring (place m.ringCap m.head i)
  waiting : m'.waiting = m.waiting ++ queuedOf [e]
  event : e = .dropped ∨ ∃ subject payload, e = .queued subject payload
  stays : m.woken = true → m'.woken = true
  wakes : queuedOf [e] ≠ [] → m'.woken = true
  received : m'.received = m.received ∧ m'.pendingReceived = m.pendingReceived + 1
  dropped : m'.dropped = m.dropped ∧
    m'.pendingDropped = m.pendingDropped + if e = .dropped then 1 else 0
  done : m'.processed = m.processed ∧ m'.failed = m.failed

theorem workerStep_drop {m m' : Importer} (h : RingOk m)
    (heq : m' = m.recordDrop) : WorkerStep m m' .dropped := by
  subst heq
  unfold Importer.recordDrop Importer.wake
  split_ifs
  · exact ⟨rfl, rfl, rfl, rfl, ⟨h.head, h.len, h.slots⟩, rfl, fun _ _ => rfl, (List.append_nil _).symm,
      .inl rfl, fun _ => rfl, fun hne => absurd rfl hne, ⟨rfl, rfl⟩, ⟨rfl, rfl⟩, ⟨rfl, rfl⟩⟩
  · exact ⟨rfl, rfl, rfl, rfl, ⟨h.head, h.len, h.slots⟩, rfl, fun _ _ => rfl, (List.append_nil _).symm,
      .inl rfl, fun hwoken => hwoken, fun hne => absurd rfl hne, ⟨rfl, rfl⟩, ⟨rfl, rfl⟩, ⟨rfl, rfl⟩⟩

/-- The slot that takes a message. -/
theorem slotFits_message {slot : ImportSlot} (h : SlotFits slot) (subject payload : Bytes)
    (hroom : subject.length + payload.length ≤ slot.cap) :
    let bytes := copyInto slot.bytes 0 subject
    let bytes := if payload.length ≠ 0 then copyInto bytes subject.length payload else bytes
    let slot' : ImportSlot := { slot with
      bytes := bytes
      subjectLen := subject.length
      payloadLen := payload.length }
    SlotFits slot' ∧ slot'.message = (subject, payload) := by
  have hmem := h.memory
  have hfirst : (copyInto slot.bytes 0 subject).length = slot.bytes.length := by
    apply length_copyInto
    omega
  have hsecond : (copyInto (copyInto slot.bytes 0 subject) subject.length payload).length =
      slot.bytes.length := by
    rw [length_copyInto, hfirst]
    omega
  obtain ⟨hsubject, hpayload⟩ := copyInto_both slot.bytes subject payload
  by_cases hempty : payload.length = 0
  · obtain rfl : payload = [] := List.length_eq_zero_iff.mp hempty
    refine ⟨⟨hfirst.trans hmem, hroom⟩, ?_⟩
    simp [ImportSlot.message, copyInto]
  · simp only [if_pos hempty]
    exact ⟨⟨hsecond.trans hmem, hroom⟩, Prod.ext hsubject hpayload⟩

theorem workerStep_queue {m : Importer} (h : RingOk m) (hasync : m.asyncStarted = true)
    (memory : Bool) (subject payload : Bytes) :
    WorkerStep m (m.queue memory subject payload).2 (m.queue memory subject payload).1 := by
  unfold Importer.queue
  dsimp only
  by_cases hfull : m.closing = true ∨ m.ringCap ≤ m.len
  · rw [if_pos hfull]
    exact workerStep_drop h rfl
  rw [if_neg hfull]
  cases hreserve : slotReserve memory (m.ring (place m.ringCap m.head m.len))
      (subject.length + payload.length) with
  | none => exact workerStep_drop h rfl
  | some slot =>
    obtain ⟨hslot, hroom⟩ := slotFits_reserve (h.slots _) hreserve
    obtain ⟨hfits, hmessage⟩ := slotFits_message hslot subject payload hroom
    have hlt : m.len < m.ringCap := by
      simp only [not_or, not_le] at hfull
      exact hfull.2
    dsimp only at hfits hmessage ⊢
    generalize ({ slot with
      bytes := if payload.length ≠ 0 then
          copyInto (copyInto slot.bytes 0 subject) subject.length payload
        else copyInto slot.bytes 0 subject
      subjectLen := subject.length
      payloadLen := payload.length } : ImportSlot) = slot' at hfits hmessage ⊢
    simp only [hasync, if_true]
    refine ⟨rfl, rfl, rfl, hasync.symm, ⟨h.head, hlt, fun i => ?_⟩, rfl, fun i hi => ?_, ?_, .inr ⟨subject, payload, rfl⟩,
      fun _ => rfl, fun _ => rfl, ⟨rfl, rfl⟩, ⟨rfl, ?_⟩, ⟨rfl, rfl⟩⟩
    · by_cases hi : i = place m.ringCap m.head m.len
      · subst hi
        simpa using hfits
      · simpa [Function.update_of_ne hi] using h.slots i
    · -- the slot behind the window is none of those in it
      apply Function.update_of_ne
      intro hplace
      exact absurd (place_injective (hi.trans hlt) hlt hplace) hi.ne
    · have hpush := @window_push _ (ImportSlot.message ∘ m.ring) _ m.head _ slot'.message hlt
      rw [← Function.comp_update, hmessage] at hpush
      exact hpush
    · simp

theorem workerStep_queueMsg {m : Importer} (h : RingOk m) (hasync : m.asyncStarted = true)
    (memory : Bool) (msg : Incoming) :
    WorkerStep m (m.queueMsg memory msg).2 (m.queueMsg memory msg).1 := by
  unfold Importer.queueMsg
  split
  · exact workerStep_drop h rfl
  · split_ifs
    · exact workerStep_drop h rfl
    · exact workerStep_drop h rfl
    · exact workerStep_queue h hasync memory _ _

/-! ## The invariant -/

/-- What the loop has found out still holds. -/
def PointOk (s : ImportState) : Prop :=
  match s.point with
  | .idle => True
  | .looping => True
  | .measured total => s.importer.len ≠ 0 ∧ total = (s.importer.ring s.importer.head).total
  | .reserved =>
    s.importer.len ≠ 0 ∧
      (s.importer.ring s.importer.head).total ≤ s.importer.drainScratch.length
  | .short => s.importer.len ≠ 0
  | .copied subjectLen payloadLen => subjectLen + payloadLen ≤ s.importer.drainScratch.length

/-- What was taken against what was queued. -/
def Fate (taken : Option Message) (msg : Message) : Prop := taken = none ∨ taken = some msg

def ImportEvent.isProcessed : ImportEvent → Bool
  | .handed _ _ ok => ok
  | _ => false

def ImportEvent.isFailed : ImportEvent → Bool
  | .handed _ _ ok => !ok
  | .skipped => true
  | _ => false

def droppedOf (c : List ImportEvent) : ℕ := c.count .dropped

def processedOf (c : List ImportEvent) : ℕ := c.countP ImportEvent.isProcessed

def failedOf (c : List ImportEvent) : ℕ := c.countP ImportEvent.isFailed

theorem length_takenOf (c : List ImportEvent) :
    (takenOf c).length = processedOf c + failedOf c := by
  induction c with
  | nil => rfl
  | cons e c ih =>
    unfold takenOf processedOf failedOf at ih ⊢
    rw [List.filterMap_cons, List.countP_cons, List.countP_cons]
    cases e with
    | dropped => exact ih
    | queued subject payload => exact ih
    | skipped =>
      change _ + 1 = _ + 0 + (_ + 1)
      omega
    | handed subject payload ok =>
      cases ok with
      | false =>
        change _ + 1 = _ + 0 + (_ + 1)
        omega
      | true =>
        change _ + 1 = _ + 1 + (_ + 0)
        omega

/-- The counters against what became of the messages. -/
structure Counted (c : List ImportEvent) (m : Importer) : Prop where
  received : m.received + m.pendingReceived = .ofNat (droppedOf c + (queuedOf c).length)
  dropped : m.dropped + m.pendingDropped = .ofNat (droppedOf c)
  processed : m.processed = .ofNat (processedOf c)
  failed : m.failed = .ofNat (failedOf c)

structure QueueInv (cap : ℕ) (c : List ImportEvent) (s : ImportState) : Prop where
  ring : RingOk s.importer
  async : s.importer.asyncStarted = true
  cap : s.importer.ringCap = cap
  point : PointOk s
  awake : s.importer.len ≠ 0 → s.point ≠ .idle ∨ s.importer.woken = true
  order : ∃ done, queuedOf c = done ++ (s.inHand ++ s.importer.waiting) ∧
    List.Forall₂ Fate (takenOf c) done
  counted : Counted c s.importer

theorem queueInv_start (ringCap : ℕ) : QueueInv ringCap [] (.start ringCap) := by
  refine ⟨⟨fun hcap => Nat.pos_of_ne_zero hcap, Nat.zero_le _, fun _ => ⟨rfl, le_rfl⟩⟩, rfl, rfl, trivial,
    fun h => absurd rfl h, ⟨[], rfl, .nil⟩, ⟨rfl, rfl, rfl, rfl⟩⟩

theorem Counted.worker {c : List ImportEvent} {m m' : Importer} {e : ImportEvent} (hm : Counted c m)
    (h : WorkerStep m m' e) : Counted (c ++ [e]) m' := by
  obtain ⟨hreceived, hpending⟩ := h.received
  obtain ⟨hdropped, hpendingDropped⟩ := h.dropped
  obtain ⟨hprocessed, hfailed⟩ := h.done
  have harrival : droppedOf (c ++ [e]) + (queuedOf (c ++ [e])).length =
      droppedOf c + (queuedOf c).length + 1 := by
    unfold droppedOf
    rw [queuedOf_append, List.count_append, List.length_append]
    rcases h.event with rfl | ⟨subject, payload, rfl⟩
    · change _ + 1 + (_ + 0) = _
      omega
    · change _ + 0 + (_ + 1) = _
      omega
  have hcounts : processedOf (c ++ [e]) = processedOf c ∧ failedOf (c ++ [e]) = failedOf c := by
    unfold processedOf failedOf
    rw [List.countP_append, List.countP_append]
    rcases h.event with rfl | ⟨subject, payload, rfl⟩
    · exact ⟨rfl, rfl⟩
    · exact ⟨rfl, rfl⟩
  constructor
  · rw [harrival, hreceived, hpending, ← UInt64.add_assoc, hm.received, UInt64.ofNat_add _ 1]
    rfl
  · rw [hdropped, hpendingDropped, ← UInt64.add_assoc, hm.dropped]
    unfold droppedOf
    rw [List.count_append, UInt64.ofNat_add]
    rcases h.event with rfl | ⟨subject, payload, rfl⟩
    · rfl
    · rfl
  · rw [hprocessed, hcounts.1]
    exact hm.processed
  · rw [hfailed, hcounts.2]
    exact hm.failed

/-- The worker leaves alone what the loop has found out. -/
theorem pointOk_worker {m m' : Importer} {point : DrainPoint} {e : ImportEvent} (hring : RingOk m)
    (h : WorkerStep m m' e) (hp : PointOk ⟨m, point⟩) : PointOk ⟨m', point⟩ := by
  have hlen : m.len ≠ 0 → m'.len ≠ 0 := by
    have := h.len
    omega
  have hhead : m.len ≠ 0 → m'.ring m'.head = m.ring m.head := by
    intro hne
    have hcap : m.ringCap ≠ 0 := fun hzero => hne (Nat.le_zero.mp (hzero ▸ hring.len))
    have hkept := h.kept 0 (Nat.pos_of_ne_zero hne)
    rw [place_zero (hring.head hcap)] at hkept
    rw [h.head]
    exact hkept
  unfold PointOk at hp ⊢
  cases point with
  | idle => trivial
  | looping => trivial
  | measured total => exact ⟨hlen hp.1, by rw [hhead hp.1]; exact hp.2⟩
  | reserved =>
    refine ⟨hlen hp.1, ?_⟩
    dsimp only
    rw [hhead hp.1, h.scratch]
    exact hp.2
  | short => exact hlen hp
  | copied subjectLen payloadLen =>
    dsimp only
    rw [h.scratch]
    exact hp

theorem queueInv_worker {cap : ℕ} {c : List ImportEvent} {s : ImportState} {m' : Importer} {e : ImportEvent}
    (h : WorkerStep s.importer m' e) (hs : QueueInv cap c s) :
    QueueInv cap (c ++ [e]) { s with importer := m' } := by
  obtain ⟨done, hqueued, htaken⟩ := hs.order
  have hinHand : ({ s with importer := m' } : ImportState).inHand = s.inHand := by
    unfold ImportState.inHand
    dsimp only
    rw [h.scratch]
  have hnone : takenOf (c ++ [e]) = takenOf c := by
    rw [takenOf_append]
    rcases h.event with rfl | ⟨subject, payload, rfl⟩
    · exact List.append_nil _
    · exact List.append_nil _
  refine ⟨h.ring, h.async.trans hs.async, h.ringCap.trans hs.cap, pointOk_worker hs.ring h hs.point, fun hlen => ?_,
    ⟨done, ?_, hnone ▸ htaken⟩, ?_⟩
  · by_cases hwas : s.importer.len = 0
    · right
      apply h.wakes
      intro hnil
      have := h.len
      rw [hnil, hwas] at this
      exact hlen this
    · exact (hs.awake hwas).imp id h.stays
  · rw [queuedOf_append, hqueued, hinHand]
    change _ = done ++ (s.inHand ++ m'.waiting)
    rw [h.waiting]
    simp
  · exact hs.counted.worker h

/-! ## Steps of the loop -/

theorem Counted.flush {c : List ImportEvent} {m : Importer} (h : Counted c m) :
    Counted c m.flushPendingCounters := by
  refine ⟨?_, ?_, h.processed, h.failed⟩
  · change m.received + m.pendingReceived + 0 = _
    rw [h.received, UInt64.add_zero]
  · change m.dropped + m.pendingDropped + 0 = _
    rw [h.dropped, UInt64.add_zero]

/-- A message is taken from the ring, for the handler or not. -/
theorem Counted.taken {c : List ImportEvent} {m m' : Importer} {e : ImportEvent} (hm : Counted c m)
    (hqueued : queuedOf [e] = []) (hdropped : droppedOf [e] = 0)
    (hkept : m'.received = m.received ∧ m'.pendingReceived = m.pendingReceived ∧
      m'.dropped = m.dropped ∧ m'.pendingDropped = m.pendingDropped)
    (hprocessed : m'.processed = m.processed + .ofNat (processedOf [e]))
    (hfailed : m'.failed = m.failed + .ofNat (failedOf [e])) : Counted (c ++ [e]) m' := by
  obtain ⟨hreceived, hpending, hdrop, hpendingDropped⟩ := hkept
  have hcount : droppedOf (c ++ [e]) = droppedOf c := by
    unfold droppedOf at hdropped ⊢
    rw [List.count_append, hdropped, Nat.add_zero]
  constructor
  · rw [queuedOf_append, hqueued, List.append_nil, hcount, hreceived, hpending]
    exact hm.received
  · rw [hcount, hdrop, hpendingDropped]
    exact hm.dropped
  · unfold processedOf at hprocessed ⊢
    rw [hprocessed, hm.processed, List.countP_append, UInt64.ofNat_add]
    rfl
  · unfold failedOf at hfailed ⊢
    rw [hfailed, hm.failed, List.countP_append, UInt64.ofNat_add]
    rfl

section Loop

variable {cap : ℕ} {c : List ImportEvent} {m : Importer}

theorem queueInv_start_drain (hs : QueueInv cap c ⟨m, .idle⟩) :
    QueueInv cap c ⟨{ m with woken := false }, .looping⟩ := by
  refine ⟨⟨hs.ring.head, hs.ring.len, hs.ring.slots⟩, hs.async, hs.cap, trivial, fun _ => .inl (fun h => by cases h),
    hs.order, ⟨hs.counted.received, hs.counted.dropped, hs.counted.processed, hs.counted.failed⟩⟩

theorem queueInv_measure (hs : QueueInv cap c ⟨m, .looping⟩) :
    QueueInv cap c (ImportState.measure ⟨m, .looping⟩) := by
  unfold ImportState.measure
  dsimp only
  have hring : RingOk m.flushPendingCounters := ⟨hs.ring.head, hs.ring.len, hs.ring.slots⟩
  by_cases hlen : m.flushPendingCounters.len = 0
  · rw [if_pos hlen]
    exact ⟨hring, hs.async, hs.cap, trivial, fun h => absurd hlen h, hs.order, hs.counted.flush⟩
  · rw [if_neg hlen]
    exact ⟨hring, hs.async, hs.cap, ⟨hlen, rfl⟩, fun _ => .inl (fun h => by cases h), hs.order, hs.counted.flush⟩

theorem queueInv_reserve {total : ℕ} (memory : Bool) (hs : QueueInv cap c ⟨m, .measured total⟩) :
    QueueInv cap c (ImportState.reserve ⟨m, .measured total⟩ memory total) := by
  obtain ⟨hlen, htotal⟩ := hs.point
  unfold ImportState.reserve
  cases hreserve : scratchReserve memory m.drainScratch total with
  | none => exact ⟨hs.ring, hs.async, hs.cap, hlen, fun _ => .inl (fun h => by cases h), hs.order, hs.counted⟩
  | some scratch =>
    have hroom := scratchReserve_room hreserve
    exact ⟨⟨hs.ring.head, hs.ring.len, hs.ring.slots⟩, hs.async, hs.cap, ⟨hlen, htotal ▸ hroom⟩,
      fun _ => .inl (fun h => by cases h), hs.order,
      ⟨hs.counted.received, hs.counted.dropped, hs.counted.processed, hs.counted.failed⟩⟩

theorem queueInv_giveUp (hs : QueueInv cap c ⟨m, .short⟩) :
    QueueInv cap (c ++ (ImportState.giveUp ⟨m, .short⟩).1) (ImportState.giveUp ⟨m, .short⟩).2 := by
  have hlen : m.flushPendingCounters.len ≠ 0 := hs.point
  have hring : RingOk m.flushPendingCounters := ⟨hs.ring.head, hs.ring.len, hs.ring.slots⟩
  have hcounted := hs.counted.flush
  obtain ⟨done, hqueued, htaken⟩ := hs.order
  change queuedOf c = done ++ ([] ++ m.flushPendingCounters.waiting) at hqueued
  rw [waiting_advance hring hlen] at hqueued
  unfold ImportState.giveUp
  dsimp only
  rw [if_pos hlen]
  refine ⟨⟨hring.advance.head, hring.advance.len, hring.advance.slots⟩, hs.async, hs.cap, trivial,
    fun _ => .inl (fun h => by cases h),
    ⟨done ++ [(m.flushPendingCounters.ring m.flushPendingCounters.head).message], ?_, ?_⟩, ?_⟩
  · rw [queuedOf_append, hqueued]
    change _ ++ [] = _ ++ ([] ++ m.flushPendingCounters.advance.waiting)
    simp
  · rw [takenOf_append]
    exact List.rel_append htaken (.cons (.inl rfl) .nil)
  · exact hcounted.taken rfl rfl ⟨rfl, rfl, rfl, rfl⟩ (UInt64.add_zero _).symm rfl

theorem queueInv_copy (hs : QueueInv cap c ⟨m, .reserved⟩) :
    QueueInv cap c (ImportState.copy ⟨m, .reserved⟩) := by
  obtain ⟨hlen, hroom⟩ := hs.point
  have hlen : m.flushPendingCounters.len ≠ 0 := hlen
  have hring : RingOk m.flushPendingCounters := ⟨hs.ring.head, hs.ring.len, hs.ring.slots⟩
  obtain ⟨done, hqueued, htaken⟩ := hs.order
  change queuedOf c = done ++ ([] ++ m.flushPendingCounters.waiting) at hqueued
  rw [waiting_advance hring hlen] at hqueued
  unfold ImportState.copy
  dsimp only
  rw [if_neg hlen]
  -- what is copied is the message of the slot
  have hfits := hring.slots m.flushPendingCounters.head
  change (m.flushPendingCounters.ring m.flushPendingCounters.head).total ≤
    m.flushPendingCounters.drainScratch.length at hroom
  generalize hslot : m.flushPendingCounters.ring m.flushPendingCounters.head = slot at hfits hroom hqueued
  have hsrc : slot.subjectLen + slot.payloadLen ≤ slot.bytes.length := by
    rw [hfits.memory]
    exact hfits.message
  obtain ⟨hsubject, hpayload⟩ :=
    @copyInto_front m.flushPendingCounters.drainScratch slot.bytes slot.subjectLen slot.payloadLen hsrc
  have hcounted := hs.counted.flush
  refine ⟨⟨hring.advance.head, hring.advance.len, hring.advance.slots⟩, hs.async, hs.cap, ?_,
    fun _ => .inl (fun h => by cases h), ⟨done, ?_, htaken⟩,
    ⟨hcounted.received, hcounted.dropped, hcounted.processed, hcounted.failed⟩⟩
  · change slot.subjectLen + slot.payloadLen ≤ (copyInto _ 0 (slot.bytes.take slot.total)).length
    rw [length_copyInto]
    · exact hroom
    · rw [List.length_take]
      omega
  · have hmessage : slot.message =
        ((copyInto m.flushPendingCounters.drainScratch 0 (slot.bytes.take slot.total)).take
            slot.subjectLen,
          ((copyInto m.flushPendingCounters.drainScratch 0 (slot.bytes.take slot.total)).drop
            slot.subjectLen).take slot.payloadLen) := Prod.ext hsubject.symm hpayload.symm
    rw [hqueued, hmessage]
    rfl

theorem queueInv_handle {subjectLen payloadLen : ℕ} (ok : Bool)
    (hs : QueueInv cap c ⟨m, .copied subjectLen payloadLen⟩) :
    QueueInv cap
      (c ++ (ImportState.handle ⟨m, .copied subjectLen payloadLen⟩ ok subjectLen payloadLen).1)
      (ImportState.handle ⟨m, .copied subjectLen payloadLen⟩ ok subjectLen payloadLen).2 := by
  obtain ⟨done, hqueued, htaken⟩ := hs.order
  have hdone : ∀ m' : Importer, m'.waiting = m.waiting →
      ∃ done', queuedOf (c ++ [.handed (m.drainScratch.take subjectLen)
          ((m.drainScratch.drop subjectLen).take payloadLen) ok]) =
          done' ++ ([] ++ m'.waiting) ∧
        List.Forall₂ Fate (takenOf (c ++ [.handed (m.drainScratch.take subjectLen)
          ((m.drainScratch.drop subjectLen).take payloadLen) ok])) done' := by
    intro m' hwaiting
    refine ⟨done ++ [(m.drainScratch.take subjectLen,
      (m.drainScratch.drop subjectLen).take payloadLen)], ?_, ?_⟩
    · rw [queuedOf_append, hqueued, hwaiting]
      change _ ++ [] = _
      simp [ImportState.inHand]
    · rw [takenOf_append]
      exact List.rel_append htaken (.cons (.inr rfl) .nil)
  unfold ImportState.handle
  cases ok with
  | true =>
    exact ⟨⟨hs.ring.head, hs.ring.len, hs.ring.slots⟩, hs.async, hs.cap, trivial,
      fun _ => .inl (fun h => by cases h), hdone _ rfl,
      hs.counted.taken rfl rfl ⟨rfl, rfl, rfl, rfl⟩ rfl (UInt64.add_zero _).symm⟩
  | false =>
    exact ⟨⟨hs.ring.head, hs.ring.len, hs.ring.slots⟩, hs.async, hs.cap, trivial,
      fun _ => .inl (fun h => by cases h), hdone _ rfl,
      hs.counted.taken rfl rfl ⟨rfl, rfl, rfl, rfl⟩ (UInt64.add_zero _).symm rfl⟩

theorem queueInv_beginClose (hs : QueueInv cap c ⟨m, .idle⟩) :
    QueueInv cap c (ImportState.beginClose ⟨m, .idle⟩) := by
  have hcounted := hs.counted.flush
  exact ⟨⟨hs.ring.head, hs.ring.len, hs.ring.slots⟩, hs.async, hs.cap, trivial,
    fun hlen => .inr ((hs.awake hlen).resolve_left (fun h => h rfl)), hs.order,
    ⟨hcounted.received, hcounted.dropped, hcounted.processed, hcounted.failed⟩⟩

end Loop

theorem queueInv_step {cap : ℕ} {c d : List ImportEvent} {a : ImportAction} {s s' : ImportState}
    (hs : QueueInv cap c s) (hstep : ImportState.step a s = some (d, s')) :
    QueueInv cap (c ++ d) s' := by
  obtain ⟨m, point⟩ := s
  unfold ImportState.step at hstep
  split at hstep
  · cases hstep
    exact queueInv_worker (workerStep_drop hs.ring rfl) hs
  · cases hstep
    exact queueInv_worker (workerStep_queueMsg hs.ring hs.async _ _) hs
  · rename_i hpoint
    obtain rfl : point = _ := hpoint
    cases hstep
    rw [List.append_nil]
    exact queueInv_start_drain hs
  · rename_i hpoint
    obtain rfl : point = _ := hpoint
    cases hstep
    rw [List.append_nil]
    exact queueInv_measure hs
  · rename_i hpoint
    obtain rfl : point = _ := hpoint
    cases hstep
    rw [List.append_nil]
    exact queueInv_reserve _ hs
  · rename_i hpoint
    obtain rfl : point = _ := hpoint
    cases hstep
    rw [List.append_nil]
    exact queueInv_copy hs
  · rename_i hpoint
    obtain rfl : point = _ := hpoint
    have hgiven := queueInv_giveUp hs
    rw [Option.some.inj hstep] at hgiven
    exact hgiven
  · rename_i ok subjectLen payloadLen hpoint
    obtain rfl : point = _ := hpoint
    have hhandled := queueInv_handle ok hs
    rw [Option.some.inj hstep] at hhandled
    exact hhandled
  · rename_i hpoint
    obtain rfl : point = _ := hpoint
    cases hstep
    rw [List.append_nil]
    exact queueInv_beginClose hs
  · cases hstep

/-! ## The ring is a bounded queue -/

/-- A step leaves every slot of a message in the ring alone, unless it takes it. -/
theorem untouched_step {cap : ℕ} {c d : List ImportEvent} {a : ImportAction} {s s' : ImportState}
    (hs : QueueInv cap c s) (hstep : ImportState.step a s = some (d, s')) {i : ℕ}
    (hi : i < s.importer.len) :
    s'.importer.ring (place cap s.importer.head i) = s.importer.ring (place cap s.importer.head i) := by
  obtain ⟨m, point⟩ := s
  have hcap : m.ringCap = cap := hs.cap
  unfold ImportState.step at hstep
  split at hstep
  · cases hstep
    exact hcap ▸ (workerStep_drop hs.ring rfl).kept i hi
  · cases hstep
    exact hcap ▸ (workerStep_queueMsg hs.ring hs.async _ _).kept i hi
  · cases hstep
    rfl
  · cases hstep
    unfold ImportState.measure
    dsimp only
    split_ifs <;> rfl
  · cases hstep
    unfold ImportState.reserve
    split <;> rfl
  · cases hstep
    unfold ImportState.copy
    dsimp only
    split_ifs <;> rfl
  · unfold ImportState.giveUp at hstep
    dsimp only at hstep
    split_ifs at hstep
    · cases hstep
      rfl
    · cases hstep
      rfl
  · rename_i ok _ _ _
    cases hstep
    cases ok <;> rfl
  · cases hstep
    rfl
  · cases hstep

/-- What is promised of a run of the worker and the loop, in any order. -/
structure BoundedFifo (cap : ℕ) (events : List ImportEvent) (s : ImportState) : Prop where
  bounded : s.importer.ringCap = cap ∧ s.importer.len ≤ cap ∧ s.importer.waiting.length = s.importer.len
  order : ∃ done, queuedOf events = done ++ (s.inHand ++ s.importer.waiting) ∧
    List.Forall₂ Fate (takenOf events) done
  complete : s.point = .idle → s.importer.woken = false →
    List.Forall₂ Fate (takenOf events) (queuedOf events)
  copies : s.point = .reserved →
    (s.importer.ring s.importer.head).total ≤ s.importer.drainScratch.length ∧
      (s.importer.ring s.importer.head).total ≤ (s.importer.ring s.importer.head).bytes.length
  untouched : ∀ a d s', ImportState.step a s = some (d, s') → ∀ i, i < s.importer.len →
    s'.importer.ring (place cap s.importer.head i) = s.importer.ring (place cap s.importer.head i)
  failed : s.importer.failed = .ofNat (failedOf events)
  counters : s.importer.received + s.importer.pendingReceived =
    s.importer.dropped + s.importer.pendingDropped + s.importer.processed + s.importer.failed +
      .ofNat s.importer.len + .ofNat s.inHand.length

/-- The ring is a bounded queue: in every run, what is taken from it is what was
queued, in order and unchanged. -/
theorem import_ring_is_bounded_fifo (ringCap : ℕ) (actions : List ImportAction)
    (events : List ImportEvent) (s : ImportState)
    (hrun : collect ImportState.step actions (.start ringCap) = some (events, s)) :
    BoundedFifo ringCap events s := by
  have hinv : QueueInv ringCap events s := by
    have hall := collect_invariant (I := QueueInv ringCap)
      (fun _ _ _ _ _ hs hstep => queueInv_step hs hstep) (queueInv_start ringCap) hrun
    rwa [List.nil_append] at hall
  have hlength : s.importer.waiting.length = s.importer.len := length_window
  constructor
  · exact ⟨hinv.cap, hinv.cap ▸ hinv.ring.len, hlength⟩
  · exact hinv.order
  · intro hidle hwoken
    obtain ⟨done, hqueued, htaken⟩ := hinv.order
    have hempty : s.importer.len = 0 := by
      by_contra hne
      rcases hinv.awake hne with h | h
      · exact h hidle
      · rw [hwoken] at h
        cases h
    have hnone : s.inHand ++ s.importer.waiting = [] := by
      rw [List.length_eq_zero_iff.mp (hlength.trans hempty), List.append_nil, ImportState.inHand, hidle]
    rw [hqueued, hnone, List.append_nil]
    exact htaken
  · intro hreserved
    have hpoint := hinv.point
    unfold PointOk at hpoint
    rw [hreserved] at hpoint
    have hfits := hinv.ring.slots s.importer.head
    exact ⟨hpoint.2, hfits.memory ▸ hfits.message⟩
  · exact fun a d s' hstep i hi => untouched_step hinv hstep hi
  · exact hinv.counted.failed
  · obtain ⟨done, hqueued, htaken⟩ := hinv.order
    have htotal : (queuedOf events).length =
        processedOf events + failedOf events + s.importer.len + s.inHand.length := by
      rw [hqueued, List.length_append, List.length_append, hlength, ← htaken.length_eq, length_takenOf]
      omega
    rw [hinv.counted.received, hinv.counted.dropped, hinv.counted.processed, hinv.counted.failed,
      ← UInt64.ofNat_add, ← UInt64.ofNat_add, ← UInt64.ofNat_add, ← UInt64.ofNat_add, htotal]
    congr 1
    omega

/-- A message comes while the one before it is measured. -/
def twoMessages : List ImportAction :=
  [.message true ⟨some (lit "raw.one"), some (lit "1"), 1, fun _ h => by cases h; rfl⟩,
    .startDrain, .measure,
    .message true ⟨some (lit "raw.two"), some (lit "22"), 2, fun _ h => by cases h; rfl⟩,
    .reserve true, .copy, .handle true, .measure, .reserve true, .copy, .handle false, .measure]

theorem twoMessages_fifo : ∃ events s,
    collect ImportState.step twoMessages (.start 2) = some (events, s) ∧
      takenOf events = [some (lit "raw.one", lit "1"), some (lit "raw.two", lit "22")] ∧
        BoundedFifo 2 events s := by
  have hrun : (collect ImportState.step twoMessages (.start 2)).map (fun x => takenOf x.1) =
      some [some (lit "raw.one", lit "1"), some (lit "raw.two", lit "22")] := by
    decide +kernel
  obtain ⟨⟨events, s⟩, hrun, htaken⟩ := Option.map_eq_some_iff.mp hrun
  exact ⟨events, s, hrun, htaken, import_ring_is_bounded_fifo 2 twoMessages events s hrun⟩

end Monoblok.Nats
