import Monoblok.Proto.Codec

/-!
# What a client reads of its stream

The server writes messages and lines of its own (`INFO`, `PING`, `PONG`, `+OK`,
`-ERR`) into one stream. A client tells them apart by their first byte and gets
the messages back in order.
-/

namespace Monoblok

open Tokens

/-- The first byte of a message. -/
def letterM : UInt8 := 77

/-- The messages of a stream; other lines are passed over. -/
def readOutput : ℕ → Bytes → Option (List Msg)
  | _, [] => some []
  | 0, _ => none
  | fuel + 1, b :: buf =>
    if b = letterM then
      match readMsgFrame (b :: buf) with
      | none => none
      | some (m, rest) => (readOutput fuel rest).map (m :: ·)
    else if lf ∈ b :: buf then
      readOutput fuel ((b :: buf).drop ((first lf (b :: buf)).length + 1))
    else none

def readStream (buf : Bytes) : Option (List Msg) := readOutput buf.length buf

/-- What the server writes at one time: a message, or a line of its own. -/
inductive Piece where
  | message (m : OutMsg)
  | notice (line : Bytes)

namespace Piece

def bytes : Piece → Bytes
  | message m => m.frame
  | notice line => line ++ lit "\r\n"

def msg : Piece → Option Msg
  | message m => some m.wire
  | notice _ => none

/-- A message the writer accepts, or a line that is not taken for one. -/
def Valid : Piece → Prop
  | message m => m.Valid ∧ m.payload.length ≤ sizeMax
  | notice line => lf ∉ line ∧ line.head? ≠ some letterM

theorem exists_cons_bytes (p : Piece) : ∃ b bs, p.bytes = b :: bs := by
  cases p with
  | message m =>
    rw [bytes, OutMsg.frame_eq]
    exact ⟨_, _, rfl⟩
  | notice line =>
    cases line with
    | nil => exact ⟨_, _, rfl⟩
    | cons b bs => exact ⟨b, bs ++ lit "\r\n", rfl⟩

theorem readOutput_message {m : OutMsg} (hm : m.Valid) (hlen : m.payload.length ≤ sizeMax)
    (fuel : ℕ) (rest : Bytes) :
    readOutput (fuel + 1) (m.frame ++ rest) = (readOutput fuel rest).map (m.wire :: ·) := by
  have hread := OutMsg.readMsgFrame_frame hm hlen rest
  have hfirst : ∃ bs, m.frame ++ rest = letterM :: bs := by
    rw [OutMsg.frame_eq]
    exact ⟨_, rfl⟩
  obtain ⟨bs, hbs⟩ := hfirst
  rw [hbs] at hread ⊢
  simp [readOutput, hread]

theorem readOutput_notice {line : Bytes} (hlf : lf ∉ line) (hhead : line.head? ≠ some letterM)
    (fuel : ℕ) (rest : Bytes) :
    readOutput (fuel + 1) (line ++ lit "\r\n" ++ rest) = readOutput fuel rest := by
  have hsplit : line ++ lit "\r\n" ++ rest = (line ++ [cr]) ++ lf :: rest := by
    simp [lit, cr, lf]
  have hnot : lf ∉ line ++ [cr] := by simp [hlf, show lf ≠ cr by decide]
  have hfirst := first_append_of_not_mem (r := rest) hnot
  have hdrop : ((line ++ [cr]) ++ lf :: rest).drop ((line ++ [cr]).length + 1) = rest := by
    rw [← List.drop_drop, List.drop_left]
    rfl
  have hcons : ∃ b bs, (line ++ [cr]) ++ lf :: rest = b :: bs ∧ b ≠ letterM := by
    cases line with
    | nil => exact ⟨cr, lf :: rest, rfl, by decide⟩
    | cons b bs => exact ⟨b, bs ++ [cr] ++ lf :: rest, by simp, by simpa using hhead⟩
  have hmem : lf ∈ (line ++ [cr]) ++ lf :: rest := by simp
  obtain ⟨b, bs, hbs, hb⟩ := hcons
  rw [hsplit]
  rw [hbs] at hfirst hdrop hmem ⊢
  rw [readOutput, if_neg hb, if_pos hmem, hfirst, hdrop]

theorem readOutput_flatMap (ps : List Piece) (hps : ∀ p ∈ ps, p.Valid) {fuel : ℕ}
    (hfuel : ps.length ≤ fuel) :
    readOutput fuel (ps.flatMap bytes) = some (ps.filterMap msg) := by
  induction ps generalizing fuel with
  | nil => cases fuel <;> rfl
  | cons p ps ih =>
    cases fuel with
    | zero => simp at hfuel
    | succ fuel =>
      have hp := hps p List.mem_cons_self
      have hrest := ih (fun q hq => hps q (List.mem_cons_of_mem p hq)) (Nat.le_of_succ_le_succ hfuel)
      rw [List.flatMap_cons]
      cases p with
      | message m =>
        have hread := readOutput_message hp.1 hp.2 fuel (ps.flatMap bytes)
        simp [bytes, msg, hread, hrest]
      | notice line =>
        have hread := readOutput_notice hp.1 hp.2 fuel (ps.flatMap bytes)
        simp only [bytes, hread, hrest]
        rw [List.filterMap_cons_none (show msg (notice line) = none from rfl)]

theorem length_le_bytes (ps : List Piece) : ps.length ≤ (ps.flatMap bytes).length := by
  induction ps with
  | nil => simp
  | cons p ps ih =>
    obtain ⟨b, bs, hp⟩ := p.exists_cons_bytes
    simp only [List.flatMap_cons, List.length_append, List.length_cons, hp]
    omega

end Piece

/-- The bytes are pieces of the server, and these their messages. -/
def Spoken (buf : Bytes) (ms : List Msg) : Prop :=
  ∃ ps : List Piece, (∀ p ∈ ps, p.Valid) ∧ buf = ps.flatMap Piece.bytes ∧ ms = ps.filterMap Piece.msg

section Spoken

variable {buf buf' : Bytes} {ms ms' : List Msg}

theorem Spoken.nil : Spoken [] [] := ⟨[], by simp⟩

theorem Spoken.append (h : Spoken buf ms) (g : Spoken buf' ms') :
    Spoken (buf ++ buf') (ms ++ ms') := by
  obtain ⟨ps, hps, rfl, rfl⟩ := h
  obtain ⟨qs, hqs, rfl, rfl⟩ := g
  refine ⟨ps ++ qs, ?_, by simp, by simp⟩
  intro p hp
  rcases List.mem_append.mp hp with hp | hp
  · exact hps p hp
  · exact hqs p hp

theorem Spoken.messages {l : List OutMsg} (hl : ∀ m ∈ l, m.Valid)
    (hlen : (l.flatMap OutMsg.frame).length ≤ sizeMax) :
    Spoken (l.flatMap OutMsg.frame) (l.map OutMsg.wire) := by
  refine ⟨l.map .message, ?_, ?_, ?_⟩
  · intro p hp
    obtain ⟨m, hm, rfl⟩ := List.mem_map.mp hp
    exact ⟨hl m hm, (OutMsg.payload_le_frames hm).trans hlen⟩
  · rw [List.flatMap_map]
    rfl
  · simp only [List.filterMap_map, Function.comp_def, Piece.msg, List.filterMap_eq_map']

/-- **A client reads what was written.** -/
theorem Spoken.read (h : Spoken buf ms) : readStream buf = some ms := by
  obtain ⟨ps, hps, rfl, rfl⟩ := h
  exact Piece.readOutput_flatMap ps hps (Piece.length_le_bytes ps)

end Spoken

end Monoblok
