import Monoblok.Router.Writers
import Monoblok.Server.Http

/-!
# What the callbacks do to the connections

Almost every step keeps all HTTP connections: their flags do not change, except
that a connection may close, and a stream only grows by what its writer
appends. A request is the one thing that does more, to its own connection.
-/

namespace Monoblok.Http

/-! ## What a stream consists of -/

/-- The bytes one call of `sse_write_msg` appends, for a message and a subscription. -/
def SseOutput (y : Bytes) : Prop :=
  ∃ ok out, ∃ sub : Subscription, ∃ m : Message,
    (sseWriteMsg ok out (subPrefix sub) m.subject sub.sid m.replyTo m.payload).1 = out ++ y

theorem appendAll_append (ok : ℕ → Bool) (i : ℕ) (out : Bytes) (pieces : List Bytes) :
    ∃ k, (appendAll ok i out pieces).1 = out ++ (pieces.take k).flatten ∧
      ((appendAll ok i out pieces).2 = true → k = pieces.length) := by
  induction pieces generalizing i out with
  | nil => exact ⟨0, by simp [appendAll]⟩
  | cons piece pieces ih =>
    unfold appendAll
    split
    · rename_i hempty
      obtain ⟨k, h₁, h₂⟩ := ih (i + 1) out
      refine ⟨k + 1, ?_, fun h => by simp [h₂ h]⟩
      rw [h₁, List.take_succ_cons, List.flatten_cons, List.isEmpty_iff.mp hempty, List.nil_append]
    · split
      · exact ⟨0, by simp⟩
      · split
        · exact ⟨0, by simp⟩
        · rename_i out' hbuf
          have hout : out' = out ++ piece := by
            unfold bufAppend bufReserve at hbuf
            split_ifs at hbuf
            · cases hbuf
            · exact (Option.some.inj hbuf).symm
          subst hout
          obtain ⟨k, h₁, h₂⟩ := ih (i + 1) (out ++ piece)
          refine ⟨k + 1, ?_, fun h => by simp [h₂ h]⟩
          rw [h₁, List.take_succ_cons, List.flatten_cons, List.append_assoc]

/-- The event of a message. -/
def sseEvent (pre subject payload : Bytes) : Bytes := (eventPieces pre subject payload).flatten

/-- A call that finds its memory appends one whole event, or nothing for a
binary payload. -/
theorem sseWriteMsg_eq (ok : ℕ → Bool) (out pre subject sid replyTo payload : Bytes) :
    ∃ y, (sseWriteMsg ok out pre subject sid replyTo payload).1 = out ++ y ∧
      y <+: sseEvent pre subject payload ∧
      ((sseWriteMsg ok out pre subject sid replyTo payload).2 = true →
        y = if sliceHasNul payload then [] else sseEvent pre subject payload) := by
  unfold sseWriteMsg
  split
  · exact ⟨[], by simp⟩
  · obtain ⟨k, h₁, h₂⟩ := appendAll_append ok 0 out (eventPieces pre subject payload)
    refine ⟨_, h₁, ?_, fun h => ?_⟩
    · refine ⟨((eventPieces pre subject payload).drop k).flatten, ?_⟩
      rw [← List.flatten_append, List.take_append_drop]
      rfl
    · rw [h₂ h, List.take_length]
      rfl

theorem writes_sse {out out' : Bytes} (h : Writes sseWriteMsg out out') :
    ∃ chunks : List Bytes, (∀ y ∈ chunks, SseOutput y) ∧ out' = out ++ chunks.flatten := by
  induction h with
  | refl => exact ⟨[], by simp, by simp⟩
  | @call out' ok sub m _ ih =>
    obtain ⟨chunks, hall, rfl⟩ := ih
    obtain ⟨y, hy, -⟩ := sseWriteMsg_eq ok (out ++ chunks.flatten) (subPrefix sub) m.subject sub.sid
      m.replyTo m.payload
    refine ⟨chunks ++ [y], fun z hz => ?_, by simp [hy]⟩
    rcases List.mem_append.mp hz with hz | hz
    · exact hall z hz
    · rw [List.mem_singleton.mp hz]
      exact ⟨_, _, sub, m, hy⟩

/-! ## Connections that are kept -/

/-- Nothing is in flight unless a write is pending. -/
def HttpConn.Settled (h : HttpConn) : Prop :=
  h.closing = false → h.writePending = false → h.inFlight = []

structure ConnKeeps (x : RouterConn) (h : HttpConn) (x' : RouterConn) (h' : HttpConn) : Prop where
  published : h'.published = h.published
  closeAfterWrite : h'.closeAfterWrite = h.closeAfterWrite
  closing : h.closing = true → h'.closing = true
  sse : h'.sse = h.sse
  streamStart : h'.streamStart = h.streamStart
  writer : x'.writeMsgFn = x.writeMsgFn
  settled : h.Settled → h'.Settled
  stream : h.Settled → x.writeMsgFn = some sseWriteMsg → ∃ chunks : List Bytes,
    (∀ y ∈ chunks, SseOutput y) ∧ h'.sent ++ x'.out = h.sent ++ x.out ++ chunks.flatten

theorem ConnKeeps.of_step {x x' : RouterConn} (hx : ConnStep x x') (h : HttpConn) :
    ConnKeeps x h x' h := by
  refine ⟨rfl, rfl, id, rfl, rfl, hx.writeMsgFn, id, fun _ hw => ?_⟩
  obtain ⟨chunks, hall, hout⟩ := writes_sse (hx.out sseWriteMsg hw)
  exact ⟨chunks, hall, by rw [hout, List.append_assoc]⟩

theorem ConnKeeps.trans {x y z : RouterConn} {h i j : HttpConn} (f : ConnKeeps x h y i)
    (g : ConnKeeps y i z j) : ConnKeeps x h z j := by
  refine ⟨g.published.trans f.published, g.closeAfterWrite.trans f.closeAfterWrite,
    fun hc => g.closing (f.closing hc), g.sse.trans f.sse, g.streamStart.trans f.streamStart,
    g.writer.trans f.writer, fun hs => g.settled (f.settled hs), fun hs hw => ?_⟩
  obtain ⟨cs, hcs, h₁⟩ := f.stream hs hw
  obtain ⟨ds, hds, h₂⟩ := g.stream (f.settled hs) (f.writer.trans hw)
  refine ⟨cs ++ ds, fun y hy => ?_, ?_⟩
  · rcases List.mem_append.mp hy with hy | hy
    · exact hcs y hy
    · exact hds y hy
  · rw [h₂, h₁, List.flatten_append, List.append_assoc]

/-- The connections other than `c`, or all when `c` is `none`, are kept. -/
structure KeepsBut (c : Option ConnId) (S S' : Server) : Prop where
  http : ∀ d h, some d ≠ c → S.peers d = .http h →
    ∃ h', S'.peers d = .http h' ∧ ConnKeeps (S.world.conns d) h (S'.world.conns d) h'
  rest : ∀ d, some d ≠ c → (∀ h, S.peers d ≠ .http h) → S'.peers d = S.peers d

abbrev Keeps (S S' : Server) : Prop := KeepsBut none S S'

theorem KeepsBut.refl (c : Option ConnId) (S : Server) : KeepsBut c S S :=
  ⟨fun _ h _ hd => ⟨h, hd, .of_step (.refl _) h⟩, fun _ _ _ => rfl⟩

theorem KeepsBut.trans {c : Option ConnId} {S T U : Server} (f : KeepsBut c S T)
    (g : KeepsBut c T U) : KeepsBut c S U := by
  constructor
  · intro d h hne hd
    obtain ⟨i, hi, hf⟩ := f.http d h hne hd
    obtain ⟨j, hj, hg⟩ := g.http d i hne hi
    exact ⟨j, hj, hf.trans hg⟩
  · intro d hne hd
    have hT := f.rest d hne hd
    rw [g.rest d hne fun h => hT ▸ hd h, hT]

theorem KeepsBut.but {S S' : Server} (h : Keeps S S') (c : Option ConnId) : KeepsBut c S S' :=
  ⟨fun d i _ => h.http d i (by simp), fun d _ => h.rest d (by simp)⟩

/-- The router moves and the connections stay. -/
theorem KeepsBut.of_world {c : Option ConnId} {S S' : Server} (hpeers : S'.peers = S.peers)
    (h : ∀ d i, some d ≠ c → S.peers d = .http i → ConnStep (S.world.conns d) (S'.world.conns d)) :
    KeepsBut c S S' := by
  constructor
  · intro d i hne hd
    exact ⟨i, by rw [hpeers, hd], .of_step (h d i hne hd) i⟩
  · intro d _ _
    rw [hpeers]

/-- One connection changes. -/
theorem KeepsBut.of_conn {S S' : Server} (c : ConnId) {p : Peer}
    (hpeers : S'.peers = Function.update S.peers c p)
    (hothers : ∀ d, d ≠ c → ConnStep (S.world.conns d) (S'.world.conns d)) :
    KeepsBut (some c) S S' := by
  have hsame : ∀ d, some d ≠ some c → d ≠ c ∧ S'.peers d = S.peers d := by
    intro d hne
    have hdc : d ≠ c := fun h => hne (congrArg some h)
    exact ⟨hdc, by rw [hpeers, Function.update_of_ne hdc]⟩
  constructor
  · intro d i hne hd
    exact ⟨i, (hsame d hne).2.trans hd, .of_step (hothers d (hsame d hne).1) i⟩
  · exact fun d hne _ => (hsame d hne).2

theorem Keeps.of_but {S S' : Server} {c : ConnId} {h h' : HttpConn} (hbut : KeepsBut (some c) S S')
    (hc : S.peers c = .http h) (hc' : S'.peers c = .http h')
    (hkeeps : ConnKeeps (S.world.conns c) h (S'.world.conns c) h') : Keeps S S' := by
  constructor
  · intro d i _ hd
    by_cases hdc : d = c
    · subst hdc
      rw [hc] at hd
      cases hd
      exact ⟨h', hc', hkeeps⟩
    · exact hbut.http d i (fun h => hdc (Option.some.inj h)) hd
  · intro d _ hd
    refine hbut.rest d (fun h => ?_) hd
    cases h
    exact hd h hc

/-! ## Changes of one connection -/

section Updates

variable (S : Server) (c : ConnId) (h h' : HttpConn) (out : Bytes)

@[simp] theorem setHttp_setHttp : (S.setHttp c h).setHttp c h' = S.setHttp c h' := by
  simp only [Server.setHttp, Function.update_idem]

@[simp] theorem setHttp_peers_self : (S.setHttp c h).peers c = .http h := Function.update_self c _ _

@[simp] theorem setHttp_world : (S.setHttp c h).world = S.world := rfl

@[simp] theorem setHttp_out : (S.setHttp c h).out c = S.out c := rfl

@[simp] theorem setOut_peers : (S.setOut c out).peers = S.peers := rfl

@[simp] theorem setOut_conns_self :
    (S.setOut c out).world.conns c = { S.world.conns c with out := out } :=
  Function.update_self c _ _

theorem setOut_conns_of_ne {d : ConnId} (hd : d ≠ c) :
    (S.setOut c out).world.conns d = S.world.conns d :=
  Function.update_of_ne hd _ _

theorem keepsBut_setHttp : KeepsBut (some c) S (S.setHttp c h) :=
  KeepsBut.of_conn c rfl fun _ _ => .refl _

theorem keepsBut_setOut : KeepsBut (some c) S (S.setOut c out) := by
  refine KeepsBut.of_world rfl fun d i hne _ => ?_
  rw [setOut_conns_of_ne S c out fun h => hne (congrArg some h)]
  exact .refl _

theorem worldStep_dropConn : WorldStep S.world (S.dropConn c).world :=
  WorldStep.trans (v := S.world.updateConn c fun x => { x with closed := true })
    (.of_conns c rfl (.of_eq rfl rfl rfl)) (worldStep_sweep _ _)

theorem keeps_dropConn : Keeps S (S.dropConn c) :=
  .of_world rfl fun d _ _ _ => worldStep_dropConn S c d

end Updates

/-! ## Closing and writing -/

theorem beginClose_setHttp (S : Server) (c : ConnId) {h : HttpConn} (hopen : h.closing = false) :
    beginClose (S.setHttp c h) c = (S.setHttp c { h with closing := true }).dropConn c := by
  unfold beginClose
  rw [setHttp_peers_self]
  simp only [hopen, Bool.false_eq_true, if_false, setHttp_setHttp]

theorem setHttp_self {S : Server} {c : ConnId} {h : HttpConn} (hc : S.peers c = .http h) :
    S.setHttp c h = S := by
  rw [Server.setHttp, ← hc, Function.update_eq_self]

/-- Marking a connection as closing keeps it. -/
theorem connKeeps_closing {x x' : RouterConn} (hx : ConnStep x x') (h h' : HttpConn)
    (hh : h' = { h with
      closing := true
      writePending := h'.writePending }) : ConnKeeps x h x' h' := by
  refine (ConnKeeps.of_step hx h).trans ?_
  rw [hh]
  refine ⟨rfl, rfl, fun _ => rfl, rfl, rfl, rfl, ?_, fun _ _ => ⟨[], by simp, by simp⟩⟩
  exact fun _ hclosing => nomatch hclosing

theorem keeps_beginClose (S : Server) (c : ConnId) : Keeps S (beginClose S c) := by
  cases hc : S.peers c with
  | free =>
    unfold beginClose
    rw [hc]
    exact .refl none S
  | nats =>
    unfold beginClose
    rw [hc]
    exact keeps_dropConn S c
  | http h =>
    by_cases hopen : h.closing = true
    · unfold beginClose
      rw [hc]
      simp only [hopen, if_true]
      exact .refl none S
    · have hclose := beginClose_setHttp S c (h := h) (by simpa using hopen)
      rw [setHttp_self hc] at hclose
      rw [hclose]
      refine Keeps.of_but (((keepsBut_setHttp S c _).trans ((keeps_dropConn _ c).but _))) hc
        (setHttp_peers_self S c _) ?_
      exact connKeeps_closing (worldStep_dropConn _ c c) h _ rfl

/-- The output has gone to the socket. -/
theorem connKeeps_taken {x x' : RouterConn} {h h' : HttpConn} (hopen : h.closing = false)
    (hidle : h.writePending = false) (hx : ConnStep { x with out := h.inFlight } x')
    (hh : h' = { h with
      inFlight := x.out
      sent := h.sent ++ x.out
      writePending := h'.writePending
      closing := h'.closing }) (hbusy : h'.closing = true ∨ h'.writePending = true) :
    ConnKeeps x h x' h' := by
  have hsettled : h'.Settled := by
    intro h₁ h₂
    rcases hbusy with h | h
    · rw [h] at h₁
      cases h₁
    · rw [h] at h₂
      cases h₂
  refine ⟨?_, ?_, fun h => absurd h (by simp [hopen]), ?_, ?_, hx.writeMsgFn, fun _ => hsettled, ?_⟩
  · rw [hh]
  · rw [hh]
  · rw [hh]
  · rw [hh]
  · intro hs hw
    obtain ⟨chunks, hall, hout⟩ := writes_sse (hx.out sseWriteMsg hw)
    refine ⟨chunks, hall, ?_⟩
    rw [hh, hout]
    simp [hs hopen hidle]

theorem keeps_writeSocket (env : Env) {S : Server} {c : ConnId} {h : HttpConn}
    (hc : S.peers c = .http h) : Keeps S (writeSocket env S c h) := by
  unfold writeSocket
  split
  · exact .refl none S
  · rename_i hgo
    simp only [Bool.or_eq_true, not_or, Bool.not_eq_true] at hgo
    obtain ⟨⟨hopen, hidle⟩, -⟩ := hgo
    -- the write is refused, at once or by its size
    have hclose : Keeps S (beginClose ((S.setOut c h.inFlight).setHttp c
        { h with inFlight := S.out c, sent := h.sent ++ S.out c }) c) := by
      rw [beginClose_setHttp _ _ (h := { h with inFlight := S.out c, sent := h.sent ++ S.out c })
        hopen]
      refine Keeps.of_but ((keepsBut_setOut S c _).trans ((keepsBut_setHttp _ c _).trans
        ((keeps_dropConn _ c).but _))) hc (setHttp_peers_self _ c _) ?_
      refine connKeeps_taken hopen hidle ?_ rfl (.inl rfl)
      have hstep := worldStep_dropConn ((S.setOut c h.inFlight).setHttp c
        { h with inFlight := S.out c, sent := h.sent ++ S.out c, closing := true }) c c
      rw [setHttp_world, setOut_conns_self] at hstep
      exact hstep
    dsimp only
    split
    · exact hclose
    · split
      · rw [setHttp_setHttp]
        refine Keeps.of_but ((keepsBut_setOut S c _).trans (keepsBut_setHttp _ c _)) hc
          (setHttp_peers_self _ c _) ?_
        refine connKeeps_taken hopen hidle ?_ rfl (.inr rfl)
        rw [setHttp_world, setOut_conns_self]
        exact .refl _
      · exact hclose

theorem keeps_kickWrite (env : Env) (S : Server) (c : ConnId) : Keeps S (kickWrite env S c) := by
  unfold kickWrite
  cases hc : S.peers c with
  | free => exact .refl none S
  | nats =>
    simp only
    split
    · -- only the NATS connection itself is touched
      refine .of_world rfl fun d h _ hd => ?_
      rw [setOut_conns_of_ne]
      · exact .refl _
      · rintro rfl
        rw [hc] at hd
        cases hd
    · exact keeps_beginClose S c
  | http h =>
    simp only
    split
    · exact .refl none S
    · split
      · exact keeps_beginClose S c
      · split
        · exact .refl none S
        · exact keeps_writeSocket env hc

theorem keeps_writeCb (env : Env) (S : Server) (c : ConnId) (ok : Bool) :
    Keeps S (writeCb env S c ok) := by
  unfold writeCb
  cases hc : S.peers c with
  | free => exact .refl none S
  | nats => exact .refl none S
  | http h =>
    simp only
    split
    · exact .refl none S
    · split
      · by_cases hclosing : h.closing = true
        · refine KeepsBut.trans ?_ (keeps_beginClose _ c)
          refine Keeps.of_but (keepsBut_setHttp S c _) hc (setHttp_peers_self S c _) ?_
          refine connKeeps_closing (.refl _) h _ ?_
          rw [← hclosing]
        · rw [beginClose_setHttp S c (h := { h with writePending := false }) (by simpa using hclosing)]
          refine Keeps.of_but ((keepsBut_setHttp S c _).trans ((keeps_dropConn _ c).but _)) hc
            (setHttp_peers_self S c _) ?_
          exact connKeeps_closing (worldStep_dropConn _ c c) h _ rfl
      · -- the write has left nothing in flight
        rw [setHttp_setHttp]
        have hset : Keeps S (S.setHttp c { h with writePending := false, inFlight := [] }) := by
          refine Keeps.of_but (keepsBut_setHttp S c _) hc (setHttp_peers_self S c _) ?_
          refine ⟨rfl, rfl, id, rfl, rfl, rfl, fun _ _ _ => rfl, fun _ _ => ⟨[], by simp, ?_⟩⟩
          simp
        split
        · exact hset.trans (keeps_beginClose _ c)
        · exact hset.trans (keeps_kickWrite env _ c)

/-! ## Publishing -/

theorem keeps_foldl {α : Type*} {f : Server → α → Server} (hf : ∀ S a, Keeps S (f S a))
    (l : List α) (S : Server) : Keeps S (l.foldl f S) := by
  induction l generalizing S with
  | nil => exact .refl none S
  | cons a l ih => exact (hf S a).trans (ih (f S a))

theorem keeps_routerPublish (env : Env) (A : Alloc) (S : Server) (m : Message) :
    Keeps S (routerPublish env A S m).1 := by
  unfold routerPublish
  dsimp only
  have hworld : Keeps S { S with world := (publishWithReply A S.world m).world } :=
    .of_world rfl fun d _ _ _ => worldStep_publish A S.world m d
  refine hworld.trans ((keeps_foldl keeps_beginClose _ _).trans (keeps_foldl (fun T c => ?_) _ _))
  split
  · exact .refl none T
  · exact keeps_kickWrite env T c

theorem keeps_publishEmits (env : Env) (S : Server) : Keeps S (publishEmits env S) := by
  unfold publishEmits
  apply keeps_foldl
  intro T x
  exact keeps_routerPublish env x.1 T x.2

theorem keeps_clientPublish (cfg : Config) (env : Env) (S : Server) (m : Message) :
    Keeps S (clientPublish cfg env S m).1 := by
  unfold clientPublish
  split
  · exact .refl none S
  · split
    · exact .refl none S
    · split
      · exact .refl none S
      · have hpub := keeps_routerPublish env env.alloc S m
        split
        · rename_i T heq
          rw [heq] at hpub
          exact hpub
        · rename_i T heq
          rw [heq] at hpub
          exact hpub.trans (keeps_publishEmits env T)

/-! ## Requests -/

/-- A response is on its way, or the connection is closing. -/
def HttpConn.Answered (h : HttpConn) : Prop := h.closeAfterWrite = true ∨ h.closing = true

theorem ConnKeeps.answered {x x' : RouterConn} {h h' : HttpConn} (k : ConnKeeps x h x' h')
    (ha : h.Answered) : h'.Answered := by
  rcases ha with ha | ha
  · exact .inl (k.closeAfterWrite.trans ha)
  · exact .inr (k.closing ha)

/-- The stream of a connection: the header, then what the writer appended. -/
def Streaming (S : Server) (c : ConnId) (h : HttpConn) : Prop :=
  ∀ start, h.streamStart = some start →
    (S.world.conns c).writeMsgFn = some sseWriteMsg ∧ ∃ chunks : List Bytes,
      (∀ y ∈ chunks, SseOutput y) ∧ h.sent ++ S.out c = start ++ sseHeader ++ chunks.flatten

/-- Streams are the connections in SSE mode, except one that closes before its
header. -/
structure HttpConn.Flags (h : HttpConn) : Prop where
  plain : h.sse = false → h.streamStart = none
  stream : h.sse = true → h.closing = false → h.streamStart ≠ none

theorem ConnKeeps.flags {x x' : RouterConn} {h h' : HttpConn} (k : ConnKeeps x h x' h')
    (hf : h.Flags) : h'.Flags := by
  constructor
  · intro hs
    rw [k.streamStart]
    exact hf.plain (k.sse.symm.trans hs)
  · intro hs hopen
    rw [k.streamStart]
    refine hf.stream (k.sse.symm.trans hs) (Bool.eq_false_iff.mpr fun hc => ?_)
    rw [k.closing hc] at hopen
    cases hopen

theorem ConnKeeps.streaming {S S' : Server} {c : ConnId} {h h' : HttpConn}
    (k : ConnKeeps (S.world.conns c) h (S'.world.conns c) h') (hsettled : h.Settled)
    (hs : Streaming S c h) : Streaming S' c h' := by
  intro start hstart
  obtain ⟨hw, chunks, hall, hstream⟩ := hs start (k.streamStart.symm.trans hstart)
  obtain ⟨more, hmore, hgrow⟩ := k.stream hsettled hw
  refine ⟨k.writer.trans hw, chunks ++ more, fun y hy => ?_, ?_⟩
  · rcases List.mem_append.mp hy with hy | hy
    · exact hall y hy
    · exact hmore y hy
  · calc h'.sent ++ S'.out c = h.sent ++ S.out c ++ more.flatten := hgrow
      _ = start ++ sseHeader ++ (chunks ++ more).flatten := by
        rw [hstream, List.flatten_append, List.append_assoc]

/-- What a request does to its connection, which had reached state `h`. `quiet`
says that no cached value is replayed. -/
structure Handled (quiet : Prop) (S : Server) (c : ConnId) (h : HttpConn) (S' : Server) : Prop where
  others : KeepsBut (some c) S S'
  conn : ∃ h', S'.peers c = .http h' ∧ (h.Settled → h'.Settled) ∧
    (h'.published = h.published ∨ h'.published = h.published + 1 ∧ h'.Answered) ∧
    (h.Answered → h'.Answered) ∧ h'.Flags ∧ (h.Settled → quiet → Streaming S' c h')

/-- A connection that is no stream. -/
def HttpConn.Plain (h : HttpConn) : Prop := h.sse = false ∧ h.streamStart = none

theorem HttpConn.Plain.flags {h : HttpConn} (hp : h.Plain) : h.Flags := by
  constructor
  · exact fun _ => hp.2
  · intro hs
    rw [hp.1] at hs
    cases hs

theorem HttpConn.Plain.streaming {h : HttpConn} (hp : h.Plain) (S : Server) (c : ConnId) :
    Streaming S c h := by
  intro start hstart
  rw [hp.2] at hstart
  cases hstart

theorem ConnKeeps.plain {x x' : RouterConn} {h h' : HttpConn} (k : ConnKeeps x h x' h')
    (hp : h.Plain) : h'.Plain :=
  ⟨k.sse.trans hp.1, k.streamStart.trans hp.2⟩

/-- A response answers the connection and changes nothing else of it. -/
theorem respondAndClose_spec (env : Env) (S : Server) (c : ConnId) {h : HttpConn} (r : Response)
    (hplain : h.Plain) :
    KeepsBut (some c) S (respondAndClose env S c h r) ∧
      ∃ h', (respondAndClose env S c h r).peers c = .http h' ∧ (h.Settled → h'.Settled) ∧
        h'.published = h.published ∧ h'.Answered ∧ h'.Plain := by
  unfold respondAndClose
  split
  · rename_i out _
    have hkeeps := keeps_beginClose ((S.setOut c out).setHttp c h) c
    refine ⟨(keepsBut_setOut S c out).trans ((keepsBut_setHttp _ c h).trans (hkeeps.but _)), ?_⟩
    obtain ⟨h', hc', k⟩ := hkeeps.http c h (by simp) (setHttp_peers_self _ c h)
    refine ⟨h', hc', k.settled, k.published, ?_, k.plain hplain⟩
    -- the connection was open or closing before
    by_cases hclosing : h.closing = true
    · exact .inr (k.closing hclosing)
    · rw [beginClose_setHttp _ _ (by simpa using hclosing)] at hc'
      cases (setHttp_peers_self (S.setOut c out) c { h with closing := true }).symm.trans hc'
      exact .inr rfl
  · rename_i out _
    have hkeeps := keeps_kickWrite env ((S.setOut c out).setHttp c { h with closeAfterWrite := true }) c
    refine ⟨(keepsBut_setOut S c out).trans ((keepsBut_setHttp _ c _).trans (hkeeps.but _)), ?_⟩
    obtain ⟨h', hc', k⟩ := hkeeps.http c _ (by simp) (setHttp_peers_self _ c _)
    exact ⟨h', hc', k.settled, k.published, .inl k.closeAfterWrite, k.plain hplain⟩

section Handlers

variable {q : Prop} (cfg : Config) (env : Env) (S : Server) (c : ConnId) {h : HttpConn}

theorem handled_respond (r : Response) (hplain : h.Plain) :
    Handled q S c h (respondAndClose env S c h r) := by
  obtain ⟨hothers, h', hc', hsettled, hpub, hans, hplain'⟩ := respondAndClose_spec env S c r hplain
  exact ⟨hothers, h', hc', hsettled, .inl hpub, fun _ => hans, hplain'.flags,
    fun _ _ => hplain'.streaming _ c⟩

theorem handled_wait (hplain : h.Plain) : Handled q S c h (S.setHttp c h) :=
  ⟨keepsBut_setHttp S c h, h, setHttp_peers_self S c h, id, .inl rfl, id, hplain.flags,
    fun _ _ => hplain.streaming _ c⟩

theorem handled_latest (req : Request) (hplain : h.Plain) :
    Handled q S c h (handleLatest cfg env S c h req) := by
  unfold handleLatest
  split
  · exact handled_respond env S c _ hplain
  · split
    · exact handled_respond env S c _ hplain
    · split
      · exact handled_respond env S c _ hplain
      · split
        · exact handled_respond env S c _ hplain
        · exact handled_respond env S c _ hplain

theorem bufAppend_eq {buf src out : Bytes} (h : bufAppend buf src = some out) : out = buf ++ src := by
  unfold bufAppend bufReserve at h
  split_ifs at h
  · cases h
  · exact (Option.some.inj h).symm

theorem handled_openStream (subject : Bytes) (hplain : h.Plain)
    (hquiet : q → replays S.world.router subject = false) :
    Handled q S c h (openStream env S c h subject) := by
  have hout : (withSseWriter S c).out c = S.out c := by
    simp [withSseWriter, Server.out, World.updateConn]
  have hwriter : KeepsBut (some c) S (withSseWriter S c) := by
    refine KeepsBut.of_world rfl fun d _ hne _ => ?_
    have hd : d ≠ c := fun h => hne (congrArg some h)
    simpa [withSseWriter, World.updateConn, hd] using ConnStep.refl (S.world.conns d)
  unfold openStream
  dsimp only
  rw [hout]
  split
  · rename_i out _ hbuf
    rw [bufAppend_eq hbuf]
    generalize hT : (withSseWriter S c).setOut c (S.out c ++ sseHeader) = T
    have hkeeps : KeepsBut (some c) S T := by
      rw [← hT]
      exact hwriter.trans (keepsBut_setOut _ c _)
    have hrouter : T.world.router = S.world.router := by
      rw [← hT]
      rfl
    have hconn : (T.world.conns c).writeMsgFn = some sseWriteMsg ∧
        (T.world.conns c).out = S.out c ++ sseHeader := by
      rw [← hT]
      simp [withSseWriter, Server.setOut, World.updateConn]
    have hsub := connStep_subscribeQueue env.alloc T.world c subject [] (lit "sse")
    generalize subscribeQueue env.alloc T.world c subject [] (lit "sse") = q at hsub
    obtain ⟨world, ok⟩ := q
    have hworld : KeepsBut (some c) T { T with world := world } :=
      KeepsBut.of_world rfl fun d _ hne _ => hsub d fun h => absurd (congrArg some h) hne
    cases ok with
    | false =>
      obtain ⟨hothers, h', hc', hsettled, hpub, hans, hplain'⟩ := respondAndClose_spec env
        (Server.setOut { T with world := world } c []) c
        ⟨500, lit "Internal Server Error", [], lit "subscribe failed\n"⟩ hplain
      exact ⟨hkeeps.trans (hworld.trans ((keepsBut_setOut _ c _).trans hothers)), h', hc', hsettled,
        .inl hpub, fun _ => hans, hplain'.flags, fun _ _ => hplain'.streaming _ c⟩
    | true =>
      have hkick := keeps_kickWrite env (Server.setHttp { T with world := world } c
        { h with rx := [], sse := true, streamStart := some (h.sent ++ S.out c) }) c
      obtain ⟨h', hc', k⟩ := hkick.http c _ (by simp) (setHttp_peers_self _ c _)
      refine ⟨hkeeps.trans (hworld.trans ((keepsBut_setHttp _ c _).trans (hkick.but _))), h', hc',
        k.settled, .inl k.published, k.answered, k.flags ⟨Bool.noConfusion, fun _ _ => Option.some_ne_none _⟩,
        fun hset hq => k.streaming hset ?_⟩
      -- nothing was replayed: the output is the header
      intro start hstart
      cases hstart
      have hstep := hsub c fun _ => .inl (by rw [hrouter]; exact hquiet hq)
      obtain ⟨chunks, hall, hchunks⟩ := writes_sse (hstep.out sseWriteMsg hconn.1)
      refine ⟨hstep.writeMsgFn.trans hconn.1, chunks, hall, ?_⟩
      rw [hconn.2] at hchunks
      change h.sent ++ (world.conns c).out = _
      rw [hchunks]
      simp only [List.append_assoc]
  · have hkeeps := keeps_beginClose ((withSseWriter S c).setHttp c { h with sse := true }) c
    obtain ⟨h', hc', k⟩ := hkeeps.http c _ (by simp) (setHttp_peers_self _ c _)
    refine ⟨hwriter.trans ((keepsBut_setHttp _ c _).trans (hkeeps.but _)), h', hc', k.settled,
      .inl k.published, k.answered, ⟨fun hs => ?_, fun _ hopen => ?_⟩, fun hset _ => ?_⟩
    · rw [k.sse] at hs
      cases hs
    · -- the connection closes at once
      exfalso
      by_cases hclosing : h.closing = true
      · rw [k.closing hclosing] at hopen
        cases hopen
      · rw [beginClose_setHttp _ _ (h := { h with sse := true }) (by simpa using hclosing)] at hc'
        cases (setHttp_peers_self (withSseWriter S c) c
          { h with sse := true, closing := true }).symm.trans hc'
        cases hopen
    · intro start hstart
      rw [k.streamStart] at hstart
      rw [hplain.2] at hstart
      cases hstart

/-- What `handle_get` asks of a request before it opens a stream on a subject. -/
structure OpensStream (cfg : Config) (env : Env) (req : Request) (subject : Bytes) : Prop where
  noBody : req.contentLength.getD 0 = 0
  authorized : authorized cfg env req = true
  notLatest : sliceHasPrefix req.target (lit "/latest/") = false
  sub : sliceHasPrefix req.target (lit "/sub/") = true
  path : subjectOf env req (lit "/sub/") true = some subject
  enabled : (subjectHasLvcPrefix subject && !cfg.lvcEnabled) = false

theorem handled_get (req : Request) (hplain : h.Plain)
    (hquiet : q → ∀ subject, OpensStream cfg env req subject →
      replays S.world.router subject = false) :
    Handled q S c h (handleGet cfg env S c h req) := by
  unfold handleGet
  split
  · exact handled_respond env S c _ hplain
  · rename_i hbody
    split
    · exact handled_respond env S c _ hplain
    · rename_i hauth
      split
      · exact handled_latest cfg env S c req hplain
      · rename_i hlatest
        split
        · exact handled_respond env S c _ hplain
        · rename_i hsub
          split
          · exact handled_respond env S c _ hplain
          · rename_i subject hsubject
            split
            · exact handled_respond env S c _ hplain
            · rename_i henabled
              have hopens : OpensStream cfg env req subject :=
                ⟨not_not.mp hbody, by simpa using hauth, by simpa using hlatest,
                  by simpa using hsub, hsubject, by simpa using henabled⟩
              exact handled_openStream env S c subject hplain fun hq => hquiet hq subject hopens

theorem handled_post (req : Request) (body : Bytes) (hplain : h.Plain) :
    Handled q S c h (handlePost cfg env S c h req body) := by
  unfold handlePost
  split
  · exact handled_respond env S c _ hplain
  · split
    · exact handled_respond env S c _ hplain
    · split
      · exact handled_respond env S c _ hplain
      · rename_i subject _
        split
        · exact handled_respond env S c _ hplain
        · -- the publish keeps the connection, the response answers it
          dsimp only
          have hpub := keeps_clientPublish cfg env
            (S.setHttp c { h with published := h.published + 1 }) ⟨subject, body, []⟩
          generalize clientPublish cfg env (S.setHttp c { h with published := h.published + 1 })
            ⟨subject, body, []⟩ = q at hpub
          obtain ⟨T, status⟩ := q
          obtain ⟨i, hi, k⟩ := hpub.http c _ (by simp) (setHttp_peers_self _ c _)
          have hreload : reload T c h = i := by
            unfold reload
            rw [hi]
          rw [hreload]
          obtain ⟨hothers, h', hc', hsettled, hpub', hans, hplain'⟩ :=
            respondAndClose_spec env T c (publishResponse status) (k.plain hplain)
          exact ⟨(keepsBut_setHttp S c _).trans ((hpub.but _).trans hothers), h', hc',
            fun hs => hsettled (k.settled hs), .inr ⟨hpub'.trans k.published, hans⟩, fun _ => hans,
            hplain'.flags, fun _ _ => hplain'.streaming _ c⟩

theorem handled_processRequest (hplain : h.Plain)
    (hquiet : q → ∀ n req subject, findHeaderEnd h.rx = some n → n ≤ maxHeader →
      parseHeaders (h.rx.take n) = some req → req.hasTransferEncoding = false →
      req.method = .get → OpensStream cfg env req subject →
      replays S.world.router subject = false) :
    Handled q S c h (processRequest cfg env S c h) := by
  unfold processRequest
  split
  · split
    · exact handled_respond env S c _ hplain
    · exact handled_wait S c hplain
  · rename_i n hn
    split
    · exact handled_respond env S c _ hplain
    · rename_i hfit
      split
      · exact handled_respond env S c _ hplain
      · rename_i req hreq
        split
        · exact handled_respond env S c _ hplain
        · rename_i hchunked
          split
          · rename_i hmethod
            exact handled_get cfg env S c req hplain fun hq subject =>
              hquiet hq n req subject hn (Nat.le_of_not_lt hfit) hreq (by simpa using hchunked)
                hmethod
          · exact handled_respond env S c _ hplain
          · split
            · exact handled_respond env S c _ hplain
            · split
              · exact handled_wait S c hplain
              · exact handled_post cfg env S c req _ hplain

end Handlers

end Monoblok.Http
