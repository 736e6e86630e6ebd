import Monoblok.Lib.Cursor
import Monoblok.Snapshot.Format

/-!
# The snapshot reader and its positions

`mb_snapshot_load` as it moves through the file: the readers check what is left of
the file with unsigned subtraction, move the position, and read bytes by their index;
the rings are filled through a second cursor from bytes that have been skipped.
Every request for memory can fail.

The arrays of a ring are kept with the slot they belong to, as long as they were
allocated. A slice is read as soon as it is taken.
-/

namespace Monoblok.Snapshot.Positioned

open Cursor Cursor.Prog LittleEndian Patchbay
open Patchbay.Number

/-- The contents of a file. The length is a `size_t`. -/
structure File where
  bytes : Bytes
  fits : bytes.length ≤ sizeMax

def File.len (f : File) : ℕ := f.bytes.length

/-- The byte at an index; what lies behind the array is not known. -/
def File.at (f : File) (i : ℕ) : UInt8 := f.bytes.getD i 0

/-- `size_t` arithmetic. -/
def subSize (a b : ℕ) : ℕ := (a + 2 ^ 64 - b) % 2 ^ 64

def plusSize (a b : ℕ) : ℕ := (a + b) % 2 ^ 64

section Readers

variable {σ : Type} (f : File)

def readU8 : Prog σ UInt8 := do
  let pos ← position
  if f.len ≤ pos then fail
  else do
    look [pos]
    move (plusSize pos 1)
    pure (f.at pos)

/-- The bytes from an index on. -/
def File.slice (f : File) (pos n : ℕ) : Bytes := (List.range' pos n).map f.at

/-- `read_u32` and `read_u64`: a number of `n` bytes, lowest first. -/
def readNumber (n : ℕ) : Prog σ ℕ := do
  let pos ← position
  if subSize f.len pos < n then fail
  else do
    look (List.range' pos n)
    move (plusSize pos n)
    pure (decode (f.slice pos n))

def readU32 : Prog σ ℕ := readNumber f 4

def readU64 : Prog σ UInt64 := do
  let v ← readNumber f 8
  pure (UInt64.ofNat v)

def readF64 {N : Type} [Number N] : Prog σ N := do
  let v ← readU64 f
  pure (ofBits v)

def skipBytes (n : ℕ) : Prog σ Unit := do
  let pos ← position
  if subSize f.len pos < n then fail else move (plusSize pos n)

def readLenPrefixed : Prog σ Bytes := do
  let n ← readU32 f
  let pos ← position
  if snapMaxField < n ∨ subSize f.len pos < n then fail
  else do
    look (List.range' pos n)
    move (plusSize pos n)
    pure (f.slice pos n)

/-- The start of a slot record: the rule, its filter, the key and the variant. -/
def readHead : Prog σ (ℕ × Bytes × Bytes × UInt8) := do
  let idx ← readU32 f
  let filter ← readLenPrefixed f
  let key ← readLenPrefixed f
  let variant ← readU8 f
  pure (idx, filter, key, variant)

def skipCountRing : Prog σ Unit := do
  let cap ← readU32 f
  let capBytes ← ofOption (checkedFieldBytes cap 8)
  skipBytes f (8 + 8 + capBytes)
  let maxLen ← readU32 f
  let maxBytes ← ofOption (checkedFieldBytes maxLen 8)
  skipBytes f maxBytes
  let minLen ← readU32 f
  let minBytes ← ofOption (checkedFieldBytes minLen 8)
  skipBytes f minBytes

def skipTimeRing : Prog σ Unit := do
  skipBytes f 8
  let n ← readU32 f
  let sampleBytes ← ofOption (checkedFieldBytes n 16)
  skipBytes f sampleBytes

def skipVariant (variant : UInt8) : Prog σ Unit :=
  if variant = 0x00 then pure ()
  else if variant = 0x01 then do
    let _ ← readLenPrefixed f
    pure ()
  else if variant = 0x02 then skipBytes f 8
  else if variant = 0x03 then skipCountRing f
  else if variant = 0x04 then skipBytes f (8 + 8 + 8 + 4 + 4 + 8 + 8 + 8)
  else if variant = 0x05 then skipTimeRing f
  else fail

/-- `skip_rule_state`. -/
def skipRuleState : Prog σ Unit := do
  let head ← readHead f
  skipVariant f head.2.2.2

end Readers

/-! ## What is loaded -/

variable {N : Type} [Number N]

/-- A slot that has been appended, with the arrays of its ring. -/
structure Added (N : Type) where
  entry : StateEntry N
  values : List N
  times : List UInt64

/-- What the load works on; `asked` counts the requests for memory. -/
structure LoadData (N : Type) where
  router : Router
  program : Option (Program N)
  counts : Counts
  added : List (Added N)
  asked : ℕ

/-- The answers to the requests for memory: of the loader, and of the router each time
a value is stored. -/
structure Memory where
  loader : ℕ → Bool
  router : ℕ → Alloc

section Slots

variable (f : File) (mem : Memory)

def ask : Prog (LoadData N) Bool := do
  let d ← getData
  modifyData fun d => { d with asked := d.asked + 1 }
  pure (mem.loader d.asked)

/-- Two requests, the second only after a first that was met. -/
def askBoth : Prog (LoadData N) Bool := do
  let ok ← ask mem
  if ok then ask mem else pure false

def growRule (p : Program N) (idx cap : ℕ) : Program N :=
  { p with rules := p.rules.modify idx fun rule => { rule with state.cap := cap } }

def pushEntry (p : Program N) (idx : ℕ) (e : StateEntry N) : Program N :=
  { p with
    rules := p.rules.modify idx fun rule => { rule with state.items := rule.state.items ++ [e] } }

def setLastEntry (p : Program N) (idx : ℕ) (e : StateEntry N) : Program N :=
  { p with
    rules := p.rules.modify idx fun rule =>
      { rule with state.items := rule.state.items.dropLast ++ [e] } }

/-- `append_state`: whether there is a new slot, which is zeroed. -/
def appendState (idx : ℕ) (filter key : Bytes) : Prog (LoadData N) Bool := do
  let d ← getData
  match d.program.bind fun p => p.rules[idx]?, splitKey key with
  | some rule, some (op, subject) =>
    if rule.filter != filter then pure false
    else do
      let ok ← ask mem
      match stateReserve ok rule.state with
      | none => pure false
      | some st => do
        modifyData fun d => { d with program := d.program.map (growRule · idx st.cap) }
        let copied ← askBoth mem
        if copied then do
          let e := freshEntry ⟨idx, op, subject⟩
          modifyData fun d =>
            { d with
              program := d.program.map (pushEntry · idx e)
              added := d.added ++ [⟨e, [], []⟩] }
          pure true
        else pure false
  | _, _ => pure false

/-- The slot that was appended last gets its contents. -/
def complete (idx : ℕ) (fill : StateEntry N → StateEntry N) (values : List N)
    (times : List UInt64) : Prog (LoadData N) Unit :=
  modifyData fun d =>
    match d.added.getLast? with
    | none => d
    | some a =>
      { d with
        program := d.program.map (setLastEntry · idx (fill a.entry))
        counts.ruleState := d.counts.ruleState + 1
        added := d.added.dropLast ++ [⟨fill a.entry, values, times⟩] }

/-- `calloc`; no array is empty. -/
def callocArray {α : Type} (zero : α) (n : ℕ) : List α := List.replicate (if n = 0 then 1 else n) zero

/-- The values of a count ring, from element `i` on. -/
def fillValues (start : ℕ) : ℕ → ℕ → List N → Prog (LoadData N) (List N)
  | 0, _, values => pure values
  | n + 1, i, values => do
    let x ← from_ (plusSize start (i * 8)) (readF64 f)
    fillValues start n (i + 1) (values.set i x)

/-- A sample of a time ring. -/
def readSample : Prog (LoadData N) (N × UInt64) := do
  let x ← readF64 f
  let t ← readU64 f
  pure (x, t)

/-- The samples of a time ring with the sum of their values. -/
def fillSamples (start : ℕ) :
    ℕ → ℕ → List N → List UInt64 → N → Prog (LoadData N) (List N × List UInt64 × N)
  | 0, _, values, times, sum => pure (values, times, sum)
  | n + 1, i, values, times, sum => do
    let s ← from_ (plusSize start (i * 16)) (readSample f)
    fillSamples start n (i + 1) (values.set i s.1) (times.set i s.2) (fadd sum s.1)

/-- What a ring reads in an array. -/
def arrayAt {α : Type} (zero : α) (l : List α) (i : ℕ) : α := l.getD i zero

def loadBytes (idx : ℕ) (entry : Bool) : Prog (LoadData N) Unit := do
  let data ← readLenPrefixed f
  if entry then do
    let ok ← ask mem
    if ok then complete idx (fun e => { e with kind := .bytes, bytes := data }) [] [] else fail
  else pure ()

def loadNumber (idx : ℕ) (entry : Bool) : Prog (LoadData N) Unit := do
  let x : N ← readF64 f
  if entry then complete idx (fun e => { e with kind := .number, number := x }) [] []
  else pure ()

def loadCountRing (idx : ℕ) (entry : Bool) : Prog (LoadData N) Unit := do
  let cap ← readU32 f
  let savedLen ← readU64 f
  let sum : N ← readF64 f
  let capBytes ← ofOption (checkedFieldBytes cap 8)
  if cap < savedLen.toNat then fail
  else do
    let valuesPos ← position
    skipBytes f capBytes
    let maxLen ← readU32 f
    skipBytes f (maxLen * 8)
    let minLen ← readU32 f
    skipBytes f (minLen * 8)
    if entry then do
      let ok ← ask mem
      if ok then do
        let values ← fillValues f valuesPos savedLen.toNat 0 (callocArray (ofNat 0) cap)
        complete idx (fun e =>
          { e with
            kind := .ring
            ringValues := arrayAt (ofNat 0) values
            ringCap := cap
            ringLen := savedLen.toNat
            ringSum := sum }) values []
      else fail
    else pure ()

def loadBar (idx : ℕ) (entry : Bool) : Prog (LoadData N) Unit := do
  let op : N ← readF64 f
  let high : N ← readF64 f
  let low : N ← readF64 f
  let count ← readU32 f
  let cap ← readU32 f
  let windowMs ← readU64 f
  let windowStartMs ← readU64 f
  let lastClose : N ← readF64 f
  if entry then
    complete idx (fun e =>
      { e with
        kind := .bar
        barOpen := op
        barHigh := high
        barLow := low
        barCount := UInt32.ofNat count
        barCap := UInt32.ofNat cap
        barWindowMs := windowMs
        barWindowStartMs := windowStartMs
        barLastClose := lastClose
        barTimeWindow := windowMs != 0 }) [] []
  else pure ()

def loadTimeRing (idx : ℕ) (entry : Bool) : Prog (LoadData N) Unit := do
  let windowMs ← readU64 f
  let n ← readU32 f
  let samplesPos ← position
  skipBytes f (n * 16)
  if entry then do
    let valuesOk ← ask mem
    let timesOk ← ask mem
    if valuesOk && timesOk then do
      let r ← fillSamples f samplesPos n 0 (callocArray (ofNat 0 : N) n) (callocArray 0 n) (ofNat 0)
      complete idx (fun e =>
        { e with
          kind := .ring
          ringValues := arrayAt (ofNat 0) r.1
          ringTimes := arrayAt 0 r.2.1
          ringCap := n
          ringLen := n
          ringSum := r.2.2
          ringWindowMs := windowMs
          ringTimeWindow := true }) r.1 r.2.1
    else fail
  else pure ()

def loadVariant (idx : ℕ) (variant : UInt8) (entry : Bool) : Prog (LoadData N) Unit :=
  if variant = 0x00 then
    if entry then complete idx (fun e => { e with kind := .empty }) [] [] else pure ()
  else if variant = 0x01 then loadBytes f mem idx entry
  else if variant = 0x02 then loadNumber f idx entry
  else if variant = 0x03 then loadCountRing f mem idx entry
  else if variant = 0x04 then loadBar f idx entry
  else if variant = 0x05 then loadTimeRing f mem idx entry
  else fail

def loadRuleState : Prog (LoadData N) Unit := do
  let head ← readHead f
  let entry ← appendState mem head.1 head.2.1 head.2.2.1
  loadVariant f mem head.1 head.2.2.2 entry

def loadLvc : Prog (LoadData N) Unit := do
  let subject ← readLenPrefixed f
  let payload ← readLenPrefixed f
  let d ← getData
  let r := lvcStore (mem.router d.asked) d.router subject payload
  modifyData fun d =>
    { d with
      router := r.1
      asked := d.asked + 1 }
  if r.2 then modifyData fun d => { d with counts.lvc := d.counts.lvc + 1 } else fail

/-- One round of the loop of `mb_snapshot_load`. -/
def loadRecord : Prog (LoadData N) Unit := do
  let kind ← readU8 f
  if kind = snapKindLvc then loadLvc f mem
  else if kind = snapKindRuleState then do
    let d ← getData
    if d.program.isNone then skipRuleState f else loadRuleState f mem
  else fail

/-- The loop; there is no result while rounds are missing. -/
def loadLoop : ℕ → Tape (LoadData N) → Option (Bool × Tape (LoadData N))
  | fuel, t =>
    if t.pos < f.len then
      match fuel with
      | 0 => none
      | fuel + 1 =>
        match loadRecord f mem t with
        | (none, t) => some (false, t)
        | (some (), t) => loadLoop fuel t
    else some (true, t)

/-- `mb_snapshot_load` on the contents of the file: what it returns, and what it leaves. -/
def snapshotLoad (fuel : ℕ) (r : Router) (p : Option (Program N)) :
    Option (Bool × Tape (LoadData N)) :=
  let d : LoadData N := ⟨r, p, ⟨0, 0⟩, [], 0⟩
  if f.len < 8 then some (true, ⟨0, [], [], d⟩)
  else
    let t : Tape (LoadData N) := ⟨0, [0, 1, 2, 3, 4], [], d⟩
    if !headerOk f.bytes then some (true, t)
    else loadLoop f mem fuel { t with pos := 8, marks := [8] }

end Slots

end Monoblok.Snapshot.Positioned
