import Mathlib.Data.List.Basic
import Mathlib.Data.UInt

/-!
# Event streams

How a client reads a stream of server-sent events: lines, which `\n`, `\r` or both end,
fields, and an event at every blank line behind some data.
-/

namespace EventStream

/-- The lines that are ended; a rest without an end is not a line yet. -/
def linesFrom : List UInt8 → List UInt8 → List (List UInt8)
  | _, [] => []
  | line, 0x0d :: 0x0a :: cs => line :: linesFrom [] cs
  | line, c :: cs =>
    if c = 0x0a ∨ c = 0x0d then line :: linesFrom [] cs else linesFrom (line ++ [c]) cs

def lines (stream : List UInt8) : List (List UInt8) := linesFrom [] stream

structure Event where
  type : List UInt8
  data : List UInt8
  deriving DecidableEq, Repr

/-- What the fields since the last blank line have set. -/
structure Pending where
  type : List UInt8
  data : List (List UInt8)

def Pending.empty : Pending := ⟨[], []⟩

/-- The value of a field begins behind the colon and one blank. -/
def fieldValue (rest : List UInt8) : List UInt8 :=
  match rest with
  | 0x3a :: 0x20 :: value => value
  | 0x3a :: value => value
  | _ => []

def Pending.field (p : Pending) (line : List UInt8) : Pending :=
  let name := line.takeWhile (· != 0x3a)
  let value := fieldValue (line.dropWhile (· != 0x3a))
  if name = [0x65, 0x76, 0x65, 0x6e, 0x74] then { p with type := value }
  else if name = [0x64, 0x61, 0x74, 0x61] then { p with data := p.data ++ [value] }
  else p

/-- The events of lines; without a type an event is a `message`. -/
def eventsFrom : Pending → List (List UInt8) → List Event
  | _, [] => []
  | p, line :: rest =>
    if line = [] then
      if p.data = [] then eventsFrom .empty rest
      else
        let type := if p.type = [] then [0x6d, 0x65, 0x73, 0x73, 0x61, 0x67, 0x65] else p.type
        ⟨type, [0x0a].intercalate p.data⟩ :: eventsFrom .empty rest
    else eventsFrom (p.field line) rest

def events (stream : List UInt8) : List Event := eventsFrom .empty (lines stream)

/-- A text within one line. -/
def OneLine (text : List UInt8) : Prop := 0x0a ∉ text ∧ 0x0d ∉ text

theorem linesFrom_line {line text cs : List UInt8} (h : OneLine text) :
    linesFrom line (text ++ 0x0a :: cs) = (line ++ text) :: lines cs := by
  induction text generalizing line with
  | nil => simp [linesFrom, lines]
  | cons c text ih =>
    obtain ⟨hlf, hcr⟩ := h
    simp only [List.mem_cons, not_or] at hlf hcr
    have hstep : linesFrom line (c :: (text ++ 0x0a :: cs)) =
        linesFrom (line ++ [c]) (text ++ 0x0a :: cs) := by
      rw [linesFrom]
      · exact if_neg (by simp [Ne.symm hlf.1, Ne.symm hcr.1])
      · rintro _ rfl _
        exact hcr.1 rfl
    rw [List.cons_append, hstep, ih ⟨hlf.2, hcr.2⟩, List.append_assoc]
    rfl

theorem lines_line {text cs : List UInt8} (h : OneLine text) :
    lines (text ++ 0x0a :: cs) = text :: lines cs :=
  linesFrom_line h

/-- A line with the type, a line with data and a blank line are an event. -/
theorem events_event {type data cs : List UInt8} (htype : OneLine type) (hne : type ≠ [])
    (hdata : OneLine data) :
    events ([0x65, 0x76, 0x65, 0x6e, 0x74, 0x3a, 0x20] ++ type ++ 0x0a ::
      ([0x64, 0x61, 0x74, 0x61, 0x3a, 0x20] ++ data ++ 0x0a :: 0x0a :: cs)) =
      ⟨type, data⟩ :: events cs := by
  have hfirst : OneLine ([0x65, 0x76, 0x65, 0x6e, 0x74, 0x3a, 0x20] ++ type) := by
    simpa [OneLine] using htype
  have hsecond : OneLine ([0x64, 0x61, 0x74, 0x61, 0x3a, 0x20] ++ data) := by
    simpa [OneLine] using hdata
  have hblank : lines (0x0a :: cs) = [] :: lines cs :=
    @lines_line [] cs (by simp [OneLine])
  unfold events
  rw [lines_line hfirst, lines_line hsecond, hblank]
  simp [eventsFrom, Pending.field, Pending.empty, fieldValue, hne]

end EventStream
