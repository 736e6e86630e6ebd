import Monoblok.Server.Output

/-!
# Output arrives in order and once

The bytes appended to the output are, in order, those given to the socket, those
taken by `SSL_write`, the rest of the buffer `SSL_write` is fed from, and the
output itself. With TLS the socket was given the `INFO` line alone.
-/

namespace Monoblok.Output

/-! ## The log -/

/-- What a log comes to: the bytes that were appended, given to the socket as they
are, taken by `SSL_write`, drained and given to the socket as records, and the
writes started and completed. -/
structure Tally where
  appended : Bytes
  toSocket : Bytes
  encrypted : Bytes
  drained : Bytes
  records : Bytes
  started : ℕ
  completed : ℕ

def Tally.add (t : Tally) : OutputEvent → Tally
  | .appended bytes => { t with appended := t.appended ++ bytes }
  | .socket bytes => { t with toSocket := t.toSocket ++ bytes, started := t.started + 1 }
  | .encrypted bytes => { t with encrypted := t.encrypted ++ bytes }
  | .drained bytes => { t with drained := t.drained ++ bytes }
  | .records bytes => { t with records := t.records ++ bytes, started := t.started + 1 }
  | .completed => { t with completed := t.completed + 1 }
  | .closed => t

def tallyOf (log : List OutputEvent) : Tally := log.foldl Tally.add ⟨[], [], [], [], [], 0, 0⟩

def OutputState.tally (s : OutputState) : Tally := tallyOf s.log

theorem tally_record (s : OutputState) (e : OutputEvent) : (s.record e).tally = s.tally.add e :=
  List.foldl_append

/-! ## The invariant -/

/-- What TLS has come to. -/
def Stage (tls : Bool) (info : Bytes) (s : OutputState) (t : Tally) : Prop :=
  match s.tlsState with
  | .off => tls = false ∧ t.encrypted = [] ∧ s.tlsPlain = []
  | .info => tls = true ∧ t.toSocket = info ∧ t.encrypted = [] ∧ s.tlsPlain = [] ∧ s.writePending = true
  | .handshake => tls = true ∧ t.toSocket = info ∧ t.encrypted = [] ∧ s.tlsPlain = []
  | .ready => tls = true ∧ t.toSocket = info

/-- The buffers of an open connection against what has become of the bytes. -/
structure Accounts (tls : Bool) (info : Bytes) (s : OutputState) (t : Tally) : Prop where
  accounted : t.appended = t.toSocket ++ t.encrypted ++ s.tlsPlain.drop s.tlsPlainOff ++ s.out
  plainOff : s.tlsPlainOff ≤ s.tlsPlain.length
  idle : s.writePending = false → s.inFlight = []
  writes : t.started = t.completed + if s.writePending then 1 else 0
  records : t.drained = t.records ++ s.tlsOut
  stage : Stage tls info s t

def Core (tls : Bool) (info : Bytes) (s : OutputState) : Prop := Accounts tls info s s.tally

def Good (tls : Bool) (info : Bytes) (s : OutputState) : Prop := s.closing = true ∨ Core tls info s

variable {tls : Bool} {info : Bytes} {s : OutputState}

theorem core_record {e : OutputEvent} (h : Accounts tls info (s.record e) (s.tally.add e)) :
    Core tls info (s.record e) := by
  unfold Core
  rw [tally_record]
  exact h

theorem beginClose_closing (s : OutputState) : s.beginClose.closing = true := by
  unfold OutputState.beginClose
  split_ifs with h
  · exact h
  · rfl

theorem good_beginClose (s : OutputState) : Good tls info s.beginClose := .inl (beginClose_closing s)

theorem Core.append (h : Core tls info s) (bytes : Bytes) : Core tls info (s.append bytes) := by
  apply core_record
  refine ⟨?_, h.plainOff, h.idle, h.writes, h.records, h.stage⟩
  change s.tally.appended ++ bytes = _ ++ (s.out ++ bytes)
  rw [h.accounted, List.append_assoc]
  rfl

theorem Core.drainChunk (h : Core tls info s) (chunk : Bytes) :
    Core tls info (s.drainChunk chunk) := by
  apply core_record
  refine ⟨h.accounted, h.plainOff, h.idle, h.writes, ?_, h.stage⟩
  change s.tally.drained ++ chunk = s.tally.records ++ (s.tlsOut ++ chunk)
  rw [h.records, List.append_assoc]

/-- A function that has failed has closed the connection. -/
structure Leaves (tls : Bool) (info : Bytes) (r : Bool × OutputState) : Prop where
  kept : r.1 = true → Core tls info r.2
  failed : r.1 = false → r.2.closing = true

theorem leaves_true (h : Core tls info s) : Leaves tls info (true, s) :=
  ⟨fun _ => h, fun h => by cases h⟩

theorem leaves_false (h : s.closing = true) : Leaves tls info (false, s) :=
  ⟨fun h => (by cases h), fun _ => h⟩

theorem Leaves.good {r : Bool × OutputState} (h : Leaves tls info r) : Good tls info r.2 := by
  cases hr : r.1 with
  | true => exact .inr (h.kept hr)
  | false => exact .inl (h.failed hr)

/-! ## TLS records -/

theorem drainChunks (chunks : List Bytes) (h : Core tls info s) :
    Core tls info (chunks.foldl OutputState.drainChunk s) ∧
      (chunks.foldl OutputState.drainChunk s).tlsState = s.tlsState := by
  induction chunks generalizing s with
  | nil => exact ⟨h, rfl⟩
  | cons chunk chunks ih => exact ih (h.drainChunk chunk)

/-- Draining, with what the connection is like afterwards. -/
theorem leaves_tlsDrainWbio (d : Drain) (h : Core tls info s) :
    Leaves tls info (s.tlsDrainWbio d) ∧
      ((s.tlsDrainWbio d).1 = true → (s.tlsDrainWbio d).2.tlsState = s.tlsState) := by
  obtain ⟨hcore, hstate⟩ := drainChunks d.chunks h
  unfold OutputState.tlsDrainWbio
  dsimp only
  split_ifs
  · exact ⟨leaves_true hcore, fun _ => hstate⟩
  · exact ⟨leaves_false (beginClose_closing _), fun h => by cases h⟩

/-- Draining does not look at the offset. -/
theorem tlsDrainWbio_plainOff (s : OutputState) (d : Drain) (off : ℕ) :
    ({ s with tlsPlainOff := off } : OutputState).tlsDrainWbio d =
      ((s.tlsDrainWbio d).1, { (s.tlsDrainWbio d).2 with tlsPlainOff := off }) ∧
        (s.tlsDrainWbio d).2.tlsPlainOff = s.tlsPlainOff := by
  have hfold : ∀ (chunks : List Bytes) (s : OutputState),
      chunks.foldl OutputState.drainChunk { s with tlsPlainOff := off } =
        { chunks.foldl OutputState.drainChunk s with tlsPlainOff := off } ∧
          (chunks.foldl OutputState.drainChunk s).tlsPlainOff = s.tlsPlainOff := by
    intro chunks
    induction chunks with
    | nil => exact fun s => ⟨rfl, rfl⟩
    | cons chunk chunks ih => exact fun s => ih (s.drainChunk chunk)
  obtain ⟨hset, hoff⟩ := hfold d.chunks s
  unfold OutputState.tlsDrainWbio
  dsimp only
  rw [hset]
  generalize d.chunks.foldl OutputState.drainChunk s = s₁ at hoff ⊢
  split_ifs
  · exact ⟨rfl, hoff⟩
  · unfold OutputState.beginClose
    dsimp only
    split_ifs
    · exact ⟨rfl, hoff⟩
    · exact ⟨rfl, hoff⟩

theorem Core.refill (h : Core tls info s) (hready : s.tlsState = .ready) :
    Core tls info s.refill.2 ∧ s.refill.2.tlsState = .ready := by
  have hstage := h.stage
  unfold Stage at hstage
  rw [hready] at hstage
  unfold OutputState.refill
  dsimp only
  by_cases hend : s.tlsPlainOff = s.tlsPlain.length
  · -- all of the buffer has been encrypted
    have haccounted := h.accounted
    rw [hend, List.drop_length, List.append_nil] at haccounted
    rw [if_pos hend]
    split_ifs with hout
    · refine ⟨⟨?_, le_rfl, h.idle, h.writes, h.records, ?_⟩, hready⟩
      · change s.tally.appended = s.tally.toSocket ++ s.tally.encrypted ++ [] ++ s.out
        rw [List.append_nil]
        exact haccounted
      · unfold Stage
        dsimp only
        rw [hready]
        exact hstage
    · refine ⟨⟨?_, Nat.zero_le _, h.idle, h.writes, h.records, ?_⟩, hready⟩
      · change s.tally.appended = s.tally.toSocket ++ s.tally.encrypted ++ s.out ++ []
        rw [List.append_nil]
        exact haccounted
      · unfold Stage
        dsimp only
        rw [hready]
        exact hstage
  · rw [if_neg hend]
    exact ⟨h, hready⟩

/-- What `SSL_write` has taken is accounted for once the offset has moved. -/
theorem Core.sslWrite (h : Core tls info s) (hready : s.tlsState = .ready) (n : ℕ) :
    Core tls info { (s.sslWrite n).2 with tlsPlainOff := s.tlsPlainOff + (s.sslWrite n).1 } := by
  have hle : s.tlsPlainOff + (s.sslWrite n).1 ≤ s.tlsPlain.length := by
    have hoff := h.plainOff
    unfold OutputState.sslWrite
    dsimp only
    omega
  unfold OutputState.sslWrite at hle ⊢
  dsimp only at hle ⊢
  generalize min (n + 1) (min (s.tlsPlain.length - s.tlsPlainOff) OutputState.intMax) = k at hle ⊢
  have htally := tally_record s (.encrypted ((s.tlsPlain.drop s.tlsPlainOff).take k))
  change Accounts tls info _ (s.record (.encrypted ((s.tlsPlain.drop s.tlsPlainOff).take k))).tally
  rw [htally]
  refine ⟨?_, hle, h.idle, h.writes, h.records, ?_⟩
  · change s.tally.appended = s.tally.toSocket ++
      (s.tally.encrypted ++ (s.tlsPlain.drop s.tlsPlainOff).take k) ++
        s.tlsPlain.drop (s.tlsPlainOff + k) ++ s.out
    rw [h.accounted, ← List.drop_drop]
    nth_rewrite 1 [← List.take_append_drop k (s.tlsPlain.drop s.tlsPlainOff)]
    simp only [List.append_assoc]
  · have hstage := h.stage
    unfold Stage at hstage ⊢
    rw [hready] at hstage
    dsimp only [OutputState.record]
    rw [hready]
    exact hstage

theorem leaves_encryptLoop (writes : List Encrypt) (h : Core tls info s)
    (hready : s.tlsState = .ready) : Leaves tls info (s.encryptLoop writes) := by
  induction writes generalizing s with
  | nil => exact leaves_true (h.refill hready).1
  | cons w writes ih =>
    obtain ⟨hrefill, hready⟩ := h.refill hready
    unfold OutputState.encryptLoop
    dsimp only
    generalize s.refill = r at hrefill hready ⊢
    obtain ⟨more, s⟩ := r
    dsimp only at hrefill hready ⊢
    by_cases hmore : (!more) = true
    · rw [if_pos hmore]
      exact leaves_true hrefill
    · rw [if_neg hmore]
      cases w.answer with
      | taken n =>
        dsimp only
        have hmoved := hrefill.sslWrite hready n
        obtain ⟨hset, hoff⟩ := tlsDrainWbio_plainOff (s.sslWrite n).2 w.drain
          (s.tlsPlainOff + (s.sslWrite n).1)
        obtain ⟨hdrain, hstate⟩ := leaves_tlsDrainWbio w.drain hmoved
        rw [hset] at hdrain hstate
        split_ifs with hok
        · exact leaves_false (hdrain.failed (by simpa using hok))
        · have hok : (((s.sslWrite n).2).tlsDrainWbio w.drain).1 = true := by simpa using hok
          have hsame : (((s.sslWrite n).2).tlsDrainWbio w.drain).2.tlsPlainOff = s.tlsPlainOff := hoff
          rw [hsame]
          exact ih (hdrain.kept hok) ((hstate hok).trans hready)
      | want => exact (leaves_tlsDrainWbio w.drain hrefill).1
      | failed =>
        dsimp only
        have hdrain := (leaves_tlsDrainWbio w.drain hrefill).1
        split_ifs with hok
        · exact leaves_false (hdrain.failed (by simpa using hok))
        · exact leaves_false (beginClose_closing _)

theorem leaves_tlsEncryptPending (writes : List Encrypt) (h : Core tls info s) :
    Leaves tls info (s.tlsEncryptPending writes) := by
  unfold OutputState.tlsEncryptPending
  split_ifs with hready
  · exact leaves_true h
  · exact leaves_encryptLoop writes h (not_not.mp hready)

/-! ## Writing -/

/-- `out` goes to the socket as it is while there is no TLS. -/
theorem good_writeOut (uvOk : Bool) (h : Core tls info s) (hoff : s.tlsState = .off) :
    Good tls info (s.writeOut uvOk) := by
  unfold OutputState.writeOut
  split_ifs with hskip
  · exact .inr h
  have hpending : s.writePending = false := by
    simp only [Bool.or_eq_true, not_or, Bool.not_eq_true] at hskip
    exact hskip.1.2
  unfold OutputState.uvWrite
  split_ifs
  · exact good_beginClose _
  · right
    apply core_record
    have hstage := h.stage
    unfold Stage at hstage
    rw [hoff] at hstage
    obtain ⟨htls, hencrypted, hplain⟩ := hstage
    refine ⟨?_, h.plainOff, fun h => (by cases h), ?_, h.records, ?_⟩
    · change s.tally.appended = (s.tally.toSocket ++ s.out) ++ s.tally.encrypted ++
        s.tlsPlain.drop s.tlsPlainOff ++ s.inFlight
      rw [h.accounted, hencrypted, hplain, h.idle hpending]
      simp
    · change s.tally.started + 1 = s.tally.completed + 1
      rw [h.writes, hpending]
      rfl
    · unfold Stage
      dsimp only [OutputState.record]
      rw [hoff]
      exact ⟨htls, hencrypted, hplain⟩
  · exact good_beginClose _

theorem good_writeTlsOut (uvOk : Bool) (h : Core tls info s) : Good tls info (s.writeTlsOut uvOk) := by
  unfold OutputState.writeTlsOut
  split_ifs with hskip
  · exact .inr h
  have hpending : s.writePending = false := by
    simp only [Bool.or_eq_true, not_or, Bool.not_eq_true] at hskip
    exact hskip.1.2
  unfold OutputState.uvWrite
  split_ifs
  · exact good_beginClose _
  · right
    apply core_record
    refine ⟨h.accounted, h.plainOff, fun h => (by cases h), ?_, ?_, ?_⟩
    · change s.tally.started + 1 = s.tally.completed + 1
      rw [h.writes, hpending]
      rfl
    · change s.tally.drained = (s.tally.records ++ s.tlsOut) ++ s.inFlight
      rw [h.records, h.idle hpending, List.append_nil]
    · have hstage := h.stage
      unfold Stage at hstage ⊢
      dsimp only [OutputState.record]
      cases hstate : s.tlsState with
      | info =>
        rw [hstate] at hstage
        exact ⟨hstage.1, hstage.2.1, hstage.2.2.1, hstage.2.2.2.1, rfl⟩
      | _ =>
        rw [hstate] at hstage
        exact hstage
  · exact good_beginClose _

theorem good_kickWrite (k : Kick) (h : Core tls info s) : Good tls info (s.kickWrite k) := by
  unfold OutputState.kickWrite
  split_ifs with hclosing hslow hpending
  · exact .inr h
  · exact good_beginClose _
  · exact .inr h
  · cases hstate : s.tlsState with
    | off => exact good_writeOut k.uvOk h hstate
    | info =>
      -- the `INFO` line is still on its way
      have hstage := h.stage
      unfold Stage at hstage
      rw [hstate] at hstage
      exact absurd hstage.2.2.2.2 hpending
    | handshake => exact good_writeTlsOut k.uvOk h
    | ready =>
      have hleaves := leaves_tlsEncryptPending k.writes h
      dsimp only
      split_ifs with hok
      · exact hleaves.good
      · exact good_writeTlsOut k.uvOk (hleaves.kept (by simpa using hok))

/-! ## Reading -/

theorem good_call (c : Call) (h : Good tls info s) : Good tls info (s.call c) := by
  rcases h with hclosing | hcore
  · left
    cases c with
    | append bytes => exact hclosing
    | kick k =>
      unfold OutputState.call OutputState.kickWrite
      dsimp only
      rw [if_pos hclosing]
      exact hclosing
    | close => exact beginClose_closing s
  · cases c with
    | append bytes => exact .inr (hcore.append bytes)
    | kick k => exact good_kickWrite k hcore
    | close => exact good_beginClose s

theorem good_processRx (script : List Call) (h : Good tls info s) :
    Good tls info (s.processRx script) := by
  unfold OutputState.processRx
  induction script generalizing s with
  | nil => exact h
  | cons c script ih => exact ih (good_call c h)

/-- A connection that is still open is as it should be. -/
theorem Good.core (h : Good tls info s) (hopen : ¬s.closing = true) : Core tls info s :=
  h.resolve_left hopen

theorem leaves_tlsDrainPlain (reads : List Decrypt) (h : Core tls info s) :
    Leaves tls info (s.tlsDrainPlain reads) := by
  induction reads generalizing s with
  | nil => exact leaves_true h
  | cons r reads ih =>
    have hdrain := (leaves_tlsDrainWbio r.drain h).1
    unfold OutputState.tlsDrainPlain
    dsimp only
    by_cases hok : (!(s.tlsDrainWbio r.drain).1) = true
    · rw [if_pos hok]
      exact leaves_false (hdrain.failed (by simpa using hok))
    rw [if_neg hok]
    have hcore := hdrain.kept (by simpa using hok)
    cases r.answer with
    | data memory script =>
      dsimp only
      split_ifs with hmemory hclosing
      · exact leaves_false (beginClose_closing _)
      · exact leaves_false hclosing
      · exact ih ((good_processRx script (.inr hcore)).core hclosing)
    | want => exact leaves_true hcore
    | failed => exact leaves_false (beginClose_closing _)

theorem leaves_tlsDriveHandshake (k : Handshake) (h : Core tls info s) :
    Leaves tls info (s.tlsDriveHandshake k) := by
  unfold OutputState.tlsDriveHandshake
  by_cases hstate : s.tlsState ≠ .handshake
  · rw [if_pos hstate]
    exact leaves_true h
  rw [if_neg hstate]
  obtain ⟨hdrain, hsame⟩ := leaves_tlsDrainWbio k.drain h
  dsimp only
  by_cases hok : (!(s.tlsDrainWbio k.drain).1) = true
  · rw [if_pos hok]
    exact leaves_false (hdrain.failed (by simpa using hok))
  rw [if_neg hok]
  have hok : (s.tlsDrainWbio k.drain).1 = true := by simpa using hok
  have hcore := hdrain.kept hok
  have hshake := (hsame hok).trans (not_not.mp hstate)
  cases k.answer with
  | done =>
    apply leaves_tlsDrainPlain
    have hstage := hcore.stage
    unfold Stage at hstage
    rw [hshake] at hstage
    exact ⟨hcore.accounted, hcore.plainOff, hcore.idle, hcore.writes, hcore.records,
      hstage.1, hstage.2.1⟩
  | want => exact leaves_true hcore
  | failed => exact leaves_false (beginClose_closing _)

theorem leaves_tlsFeedEncrypted (bioOk : Bool) (k : Handshake) (h : Core tls info s) :
    Leaves tls info (s.tlsFeedEncrypted bioOk k) := by
  unfold OutputState.tlsFeedEncrypted
  by_cases hbio : (!bioOk) = true
  · rw [if_pos hbio]
    exact leaves_false (beginClose_closing _)
  rw [if_neg hbio]
  split
  · exact leaves_tlsDriveHandshake k h
  · exact leaves_tlsDrainPlain k.reads h
  · exact leaves_true h

/-- A kick after a function that may have failed. -/
theorem good_kickAfter {r : Bool × OutputState} (k : Kick) (h : Leaves tls info r) :
    Good tls info (if r.1 && !r.2.closing then r.2.kickWrite k else r.2) := by
  split_ifs with hok
  · exact good_kickWrite k (h.kept (Bool.and_eq_true_iff.mp hok).1)
  · exact h.good

/-- TLS starts when the `INFO` line is out. -/
theorem good_tlsStart (t : Start) (h : Core tls info { s with tlsState := .handshake }) :
    Good tls info (s.tlsStart t) := by
  unfold OutputState.tlsStart
  by_cases hallocated : (!t.allocated) = true
  · rw [if_pos hallocated]
    exact good_beginClose _
  rw [if_neg hallocated]
  dsimp only
  by_cases hreading : (!t.reading) = true
  · rw [if_pos hreading]
    exact good_beginClose _
  rw [if_neg hreading]
  have hleaves := leaves_tlsDriveHandshake t.handshake h
  split_ifs with hok
  · exact hleaves.good
  · exact good_kickWrite t.kick (hleaves.kept (by simpa using hok))

/-! ## Callbacks -/

/-- A write is over, with the state of TLS that follows. -/
theorem Core.written (h : Core tls info s) (hpending : s.writePending = true) (state : TlsState)
    (hstage : Stage tls info { s with tlsState := state, writePending := false } s.tally) :
    Core tls info
      { s.record .completed with inFlight := [], writePending := false, tlsState := state } := by
  change Accounts tls info _ (s.record .completed).tally
  rw [tally_record]
  refine ⟨h.accounted, h.plainOff, fun _ => rfl, ?_, h.records, hstage⟩
  change s.tally.started = s.tally.completed + 1 + 0
  rw [h.writes, hpending]
  rfl

theorem good_writeCb (ok : Bool) (w : Written) (hpending : s.writePending = true)
    (h : Good tls info s) : Good tls info (s.writeCb ok w) := by
  unfold OutputState.writeCb
  dsimp only
  by_cases hfailed : (!ok || (s.record .completed).closing) = true
  · rw [if_pos hfailed]
    exact good_beginClose _
  rw [if_neg hfailed]
  have hopen : ¬s.closing = true := by
    simp only [Bool.or_eq_true, not_or] at hfailed
    exact hfailed.2
  have hcore := h.core hopen
  have hstage := hcore.stage
  have hwritten := fun state => hcore.written hpending state
  obtain ⟨out, inFlight, tlsPlain, tlsPlainOff, tlsOut, tlsState, writePending, closing, log⟩ := s
  cases tlsState with
  | off => exact good_kickWrite w.kick (hwritten .off hstage)
  | info =>
    obtain ⟨htls, hsocket, hencrypted, hplain, -⟩ := hstage
    exact good_tlsStart w.start (hwritten .handshake ⟨htls, hsocket, hencrypted, hplain⟩)
  | handshake =>
    have hleaves := leaves_tlsDriveHandshake w.handshake (hwritten .handshake hstage)
    exact good_kickAfter w.kick hleaves
  | ready => exact good_kickWrite w.kick (hwritten .ready hstage)

theorem good_readCb (f : Feed) (h : Core tls info s) : Good tls info (s.readCb f) := by
  unfold OutputState.readCb
  split
  · exact good_beginClose _
  · split_ifs with hmemory
    · exact good_beginClose _
    have hgood := good_processRx f.script (.inr h)
    dsimp only
    split_ifs with hclosing
    · exact hgood
    · exact good_kickWrite f.kick (hgood.core hclosing)
  · exact good_kickAfter f.kick (leaves_tlsFeedEncrypted f.bioOk f.handshake h)

theorem good_step (a : OutputAction) (h : Good tls info s) : Good tls info (step s a) := by
  cases a with
  | call c => exact good_call c h
  | written ok w =>
    unfold step
    dsimp only
    split_ifs with hpending
    · exact good_writeCb ok w hpending h
    · exact h
  | read f =>
    unfold step
    dsimp only
    split_ifs with hclosing
    · exact h
    · exact good_readCb f (h.core hclosing)
  | readError =>
    unfold step
    dsimp only
    split_ifs with hclosing
    · exact h
    · exact good_beginClose s

/-! ## Runs -/

/-- A connection whose `INFO` line is still in its output. -/
def announced (state : TlsState) (line : Bytes) : OutputState :=
  OutputState.append ⟨[], [], [], 0, [], state, false, false, []⟩ line

theorem core_announced (line : Bytes) : Core false line (announced .off line) := by
  have hempty : Core false line ⟨[], [], [], 0, [], .off, false, false, []⟩ :=
    ⟨rfl, le_rfl, fun _ => rfl, rfl, rfl, rfl, rfl, rfl⟩
  exact hempty.append line

/-- The first kick sends the line as it is. -/
theorem good_announced {line : Bytes} (hline : line ≠ []) (k : Kick) :
    Good true line ((announced .info line).kickWrite k) := by
  unfold OutputState.kickWrite
  split_ifs with hclosing hslow hpending
  · cases hclosing
  · exact good_beginClose _
  · cases hpending
  · have hout : (announced .info line).out = line := rfl
    have hempty : ((announced .info line).out).isEmpty = false := by
      rw [hout]
      simpa using hline
    change Good true line ((announced .info line).writeOut k.uvOk)
    have hskip : ((announced .info line).closing || (announced .info line).writePending) = false := rfl
    unfold OutputState.writeOut
    rw [hskip, hempty, Bool.or_false, if_neg Bool.false_ne_true]
    unfold OutputState.uvWrite
    split_ifs
    · exact good_beginClose _
    · right
      apply core_record
      refine ⟨?_, le_rfl, fun h => (by cases h), rfl, rfl, rfl, rfl, rfl, rfl, rfl⟩
      change [] ++ line = [] ++ line ++ [] ++ [] ++ []
      simp
    · exact good_beginClose _

theorem infoLine_ne_nil (fields : Bytes) : OutputState.infoLine fields ≠ [] := by
  intro h
  have hlen := congrArg List.length h
  simp only [OutputState.infoLine, List.length_append, List.length_nil] at hlen
  have hpos : (lit "\x7d\r\n").length = 3 := by decide
  omega

theorem good_create (tls : Bool) (fields : Bytes) (reading : Bool) (k : Kick) :
    Good tls (OutputState.infoLine fields) (OutputState.create tls fields reading k) := by
  unfold OutputState.create
  cases tls with
  | true => exact good_announced (infoLine_ne_nil fields) k
  | false =>
    change Good false _ (if (!false && !reading) = true then (announced .off _).beginClose
      else (announced .off _).kickWrite k)
    split_ifs
    · exact good_beginClose _
    · exact good_kickWrite k (core_announced _)

theorem good_run {actions : List OutputAction} (h : Good tls info s) :
    Good tls info (run s actions) := by
  unfold run
  induction actions generalizing s with
  | nil => exact h
  | cons a actions ih => exact ih (good_step a h)

/-! ## In order and once -/

/-- The output of an open connection. The bytes handed to the transport, the
socket or with TLS `SSL_write`, are the first of those that were appended; with
TLS the `INFO` line goes before them, and nothing else to the socket as it is. -/
structure InOrder (tls : Bool) (line : Bytes) (s : OutputState) : Prop where
  plain : tls = false → s.tally.encrypted = [] ∧ s.tally.toSocket <+: s.tally.appended
  encrypted : tls = true →
    s.tally.toSocket = line ∧ line ++ s.tally.encrypted <+: s.tally.appended
  /-- What has not been handed over is still there, in order. -/
  waiting : s.tally.appended = s.tally.toSocket ++ s.tally.encrypted ++
    s.tlsPlain.drop s.tlsPlainOff ++ s.out
  /-- Records go to the socket in the order in which they were drained. -/
  records : s.tally.records <+: s.tally.drained
  oneWrite : s.tally.started = s.tally.completed ∧ s.inFlight = [] ∨
    s.tally.started = s.tally.completed + 1

theorem output_in_order (tls : Bool) (fields : Bytes) (reading : Bool) (k : Kick)
    (actions : List OutputAction)
    (hopen : (run (.create tls fields reading k) actions).closing = false) :
    InOrder tls (OutputState.infoLine fields) (run (.create tls fields reading k) actions) := by
  have hcore := (@good_run _ _ _ actions (good_create tls fields reading k)).core
    (by rw [hopen]; exact Bool.false_ne_true)
  generalize run (.create tls fields reading k) actions = s at hcore
  have hstage := hcore.stage
  unfold Stage at hstage
  constructor
  · intro htls
    have hnone : s.tally.encrypted = [] := by
      cases hstate : s.tlsState with
      | off =>
        rw [hstate] at hstage
        exact hstage.2.1
      | info =>
        rw [hstate] at hstage
        exact absurd (htls.symm.trans hstage.1) Bool.noConfusion
      | handshake =>
        rw [hstate] at hstage
        exact absurd (htls.symm.trans hstage.1) Bool.noConfusion
      | ready =>
        rw [hstate] at hstage
        exact absurd (htls.symm.trans hstage.1) Bool.noConfusion
    refine ⟨hnone, ?_⟩
    rw [hcore.accounted, List.append_assoc, List.append_assoc]
    exact List.prefix_append _ _
  · intro htls
    have hline : s.tally.toSocket = OutputState.infoLine fields := by
      cases hstate : s.tlsState with
      | off =>
        rw [hstate] at hstage
        exact absurd (hstage.1.symm.trans htls) Bool.noConfusion
      | info =>
        rw [hstate] at hstage
        exact hstage.2.1
      | handshake =>
        rw [hstate] at hstage
        exact hstage.2.1
      | ready =>
        rw [hstate] at hstage
        exact hstage.2
    refine ⟨hline, ?_⟩
    rw [hcore.accounted, hline, List.append_assoc (_ ++ _)]
    exact List.prefix_append _ _
  · exact hcore.accounted
  · rw [hcore.records]
    exact List.prefix_append _ _
  · have hwrites := hcore.writes
    cases hpending : s.writePending with
    | false =>
      rw [hpending] at hwrites
      exact .inl ⟨hwrites, hcore.idle hpending⟩
    | true =>
      rw [hpending] at hwrites
      exact .inr hwrites

/-- A handshake in two rounds, a reply of which `SSL_write` takes four bytes at first,
and a write that is not over. -/
def shortTlsRun : List OutputAction :=
  let none : Kick := ⟨[], true⟩
  let shake : Handshake := ⟨.want, ⟨[[22, 3]], true⟩, []⟩
  let shaken : Handshake := ⟨.done, ⟨[[22, 4]], true⟩, []⟩
  let partly : Kick := ⟨[⟨.taken 3, ⟨[[23, 1]], true⟩⟩, ⟨.want, ⟨[], true⟩⟩], true⟩
  let written : Written := ⟨⟨true, true, shake, none⟩, shake, none⟩
  [.written true written, .written true written, .read ⟨true, [], true, shaken, none⟩,
    .call (.append (lit "PONG\r\n")), .written true { written with kick := partly }]

theorem shortTlsRun_in_order :
    let s := run (.create true (lit "1") true ⟨[], true⟩) shortTlsRun
    s.tally.encrypted = lit "PONG" ∧ InOrder true (OutputState.infoLine (lit "1")) s :=
  ⟨by decide +kernel, output_in_order true (lit "1") true ⟨[], true⟩ shortTlsRun (by decide +kernel)⟩

end Monoblok.Output
