import Monoblok.Patchbay.Program
import Monoblok.Router.Lvc

/-!
# Snapshot files

`mb_snapshot_build` and `mb_snapshot_load` of `snapshot.c`. A file is a header
and a sequence of records: one for each cached value, one for each slot of a
rule that is not a clock. There are two readers of a slot record: one restores
it into a program, one skips it when there is no program.

A reader takes bytes from the front of its input and returns the rest. Memory is
available throughout.
-/

namespace Monoblok.Snapshot

open LittleEndian Patchbay

def snapVersion : UInt8 := 4
def snapMinReadVersion : UInt8 := 3
def snapKindLvc : UInt8 := 0x01
def snapKindRuleState : UInt8 := 0x02
def snapMaxField : ℕ := 16 * 1024 * 1024

def colon : UInt8 := 0x3a

/-- The contents of a slot record. -/
inductive Saved (N : Type) where
  | empty
  | bytes (data : Bytes)
  | number (n : N)
  | countRing (cap len : ℕ) (sum : N) (values : List N)
  | bar («open» high low : N) (count cap : UInt32) (windowMs windowStartMs : UInt64)
      (lastClose : N)
  | timeRing (windowMs : UInt64) (samples : List (N × UInt64))

variable {N : Type} [Number N]

open Number

/-! ## Writing -/

def appendLenPrefixed (s : Bytes) : Option Bytes :=
  if snapMaxField < s.length then none else some (encode 4 s.length ++ s)

def f64Bytes (n : N) : Bytes := encode 8 (bits n).toNat

def u64Bytes (n : UInt64) : Bytes := encode 8 n.toNat

def sampleBytes (s : N × UInt64) : Bytes := f64Bytes s.1 ++ u64Bytes s.2

def appendKey (op subject : Bytes) : Option Bytes :=
  if snapMaxField < op.length + 1 + subject.length then none
  else some (encode 4 (op.length + 1 + subject.length) ++ (op ++ colon :: subject))

/-- What is written about a slot; rings start at their oldest sample and the room
behind the samples of a count ring is filled with zeros. -/
def savedOf (e : StateEntry N) : Option (Saved N) :=
  match e.kind with
  | .empty => some .empty
  | .bytes => some (.bytes e.bytes)
  | .number => some (.number e.number)
  | .ring =>
    if e.ringTimeWindow then
      if 2 ^ 32 - 1 < e.ringLen then none
      else
        some (.timeRing e.ringWindowMs
          ((List.range e.ringLen).map fun i => (e.ringValueAt i, e.ringTimeAt i)))
    else if 2 ^ 32 - 1 < e.ringCap ∨ e.ringCap < e.ringLen then none
    else
      some (.countRing e.ringCap e.ringLen e.ringSum
        ((List.range e.ringCap).map fun i => if i < e.ringLen then e.ringValueAt i else ofNat 0))
  | .bar =>
    some (.bar e.barOpen e.barHigh e.barLow e.barCount e.barCap
      (if e.barTimeWindow then e.barWindowMs else 0) e.barWindowStartMs e.barLastClose)
  | .clock => none

def appendSaved : Saved N → Option Bytes
  | .empty => some [0x00]
  | .bytes data => (appendLenPrefixed data).map (0x01 :: ·)
  | .number n => some (0x02 :: f64Bytes n)
  | .countRing cap len sum values =>
    some (0x03 :: (encode 4 cap ++ encode 8 len ++ f64Bytes sum ++ values.flatMap f64Bytes ++
      encode 4 0 ++ encode 4 0))
  | .bar op high low count cap windowMs windowStartMs lastClose =>
    some (0x04 :: (f64Bytes op ++ f64Bytes high ++ f64Bytes low ++ encode 4 count.toNat ++
      encode 4 cap.toNat ++ u64Bytes windowMs ++ u64Bytes windowStartMs ++ f64Bytes lastClose))
  | .timeRing windowMs samples =>
    some (0x05 :: (u64Bytes windowMs ++ encode 4 samples.length ++ samples.flatMap sampleBytes))

/-- One slot record. -/
def appendEntry (ruleIdx : ℕ) (filter : Bytes) (e : StateEntry N) : Option Bytes := do
  let f ← appendLenPrefixed filter
  let k ← appendKey e.op e.subject
  let s ← savedOf e
  let v ← appendSaved s
  pure (snapKindRuleState :: (encode 4 ruleIdx ++ f ++ k ++ v))

/-- The slots that are written, each with the number and the filter of its rule. -/
def savedEntries (p : Program N) : List (ℕ × Bytes × StateEntry N) :=
  p.rules.zipIdx.flatMap fun r =>
    (r.1.state.items.filter fun e => e.kind != .clock).map fun e => (r.2, r.1.filter, e)

def appendRuleState (p : Program N) : Option Bytes :=
  ((savedEntries p).mapM fun x => appendEntry x.1 x.2.1 x.2.2).map List.flatten

def appendLvcEntry (e : LvcEntry) : Option Bytes := do
  let s ← appendLenPrefixed e.subject
  let p ← appendLenPrefixed e.payload
  pure (snapKindLvc :: (s ++ p))

def header : Bytes := lit "MBLK" ++ [snapVersion, 0, 0, 0]

def snapshotBuild (r : Router) (p : Option (Program N)) : Option Bytes := do
  let lvc ← r.lvc.mapM appendLvcEntry
  let state ← match p with
    | none => some []
    | some p => appendRuleState p
  pure (header ++ lvc.flatten ++ state)

/-! ## Reading -/

def readU8 : Bytes → Option (UInt8 × Bytes)
  | [] => none
  | b :: rest => some (b, rest)

def takeBytes (n : ℕ) (bs : Bytes) : Option (Bytes × Bytes) :=
  if bs.length < n then none else some (bs.take n, bs.drop n)

def readU32 (bs : Bytes) : Option (ℕ × Bytes) :=
  (takeBytes 4 bs).map fun x => (decode x.1, x.2)

def readU64 (bs : Bytes) : Option (UInt64 × Bytes) :=
  (takeBytes 8 bs).map fun x => (UInt64.ofNat (decode x.1), x.2)

def readF64 (bs : Bytes) : Option (N × Bytes) := (readU64 bs).map fun x => (ofBits x.1, x.2)

def skipBytes (n : ℕ) (bs : Bytes) : Option Bytes := (takeBytes n bs).map Prod.snd

def checkedFieldBytes (count elemSize : ℕ) : Option ℕ :=
  if elemSize = 0 ∨ snapMaxField / elemSize < count then none else some (count * elemSize)

def readLenPrefixed (bs : Bytes) : Option (Bytes × Bytes) := do
  let (n, bs) ← readU32 bs
  if snapMaxField < n then none else takeBytes n bs

/-- The number of a rule, its filter, the key of the slot and the variant. -/
def readHead (bs : Bytes) : Option ((ℕ × Bytes × Bytes × UInt8) × Bytes) := do
  let (idx, bs) ← readU32 bs
  let (filter, bs) ← readLenPrefixed bs
  let (key, bs) ← readLenPrefixed bs
  let (variant, bs) ← readU8 bs
  pure ((idx, filter, key, variant), bs)

def skipCountRing (bs : Bytes) : Option Bytes := do
  let (cap, bs) ← readU32 bs
  let capBytes ← checkedFieldBytes cap 8
  let bs ← skipBytes (8 + 8 + capBytes) bs
  let (maxLen, bs) ← readU32 bs
  let maxBytes ← checkedFieldBytes maxLen 8
  let bs ← skipBytes maxBytes bs
  let (minLen, bs) ← readU32 bs
  let minBytes ← checkedFieldBytes minLen 8
  skipBytes minBytes bs

def skipTimeRing (bs : Bytes) : Option Bytes := do
  let bs ← skipBytes 8 bs
  let (n, bs) ← readU32 bs
  let sampleBytes ← checkedFieldBytes n 16
  skipBytes sampleBytes bs

def skipVariant (variant : UInt8) (bs : Bytes) : Option Bytes :=
  if variant = 0x00 then some bs
  else if variant = 0x01 then (readLenPrefixed bs).map Prod.snd
  else if variant = 0x02 then skipBytes 8 bs
  else if variant = 0x03 then skipCountRing bs
  else if variant = 0x04 then skipBytes (8 + 8 + 8 + 4 + 4 + 8 + 8 + 8) bs
  else if variant = 0x05 then skipTimeRing bs
  else none

def skipRuleState (bs : Bytes) : Option Bytes := do
  let ((_, _, _, variant), bs) ← readHead bs
  skipVariant variant bs

/-- `n` numbers from the front. -/
def readValues : ℕ → Bytes → Option (List N)
  | 0, _ => some []
  | n + 1, bs => do
    let (x, bs) ← readF64 bs
    let xs ← readValues n bs
    pure (x :: xs)

def readSamples : ℕ → Bytes → Option (List (N × UInt64))
  | 0, _ => some []
  | n + 1, bs => do
    let (x, bs) ← readF64 bs
    let (t, bs) ← readU64 bs
    let xs ← readSamples n bs
    pure ((x, t) :: xs)

/-- The values are read from where they start, up to the saved length, after the
fields behind them have been skipped. -/
def loadCountRing (bs : Bytes) : Option (Saved N × Bytes) := do
  let (cap, bs) ← readU32 bs
  let (savedLen, bs) ← readU64 bs
  let (sum, bs) ← readF64 bs
  let capBytes ← checkedFieldBytes cap 8
  if cap < savedLen.toNat then none
  else
    let values := bs
    let bs ← skipBytes capBytes bs
    let (maxLen, bs) ← readU32 bs
    let bs ← skipBytes (maxLen * 8) bs
    let (minLen, bs) ← readU32 bs
    let bs ← skipBytes (minLen * 8) bs
    let xs ← readValues savedLen.toNat values
    pure (.countRing cap savedLen.toNat sum xs, bs)

def loadBar (bs : Bytes) : Option (Saved N × Bytes) := do
  let (op, bs) ← readF64 bs
  let (high, bs) ← readF64 bs
  let (low, bs) ← readF64 bs
  let (count, bs) ← readU32 bs
  let (cap, bs) ← readU32 bs
  let (windowMs, bs) ← readU64 bs
  let (windowStartMs, bs) ← readU64 bs
  let (lastClose, bs) ← readF64 bs
  pure (.bar op high low (UInt32.ofNat count) (UInt32.ofNat cap) windowMs windowStartMs lastClose,
    bs)

def loadTimeRing (bs : Bytes) : Option (Saved N × Bytes) := do
  let (windowMs, bs) ← readU64 bs
  let (n, bs) ← readU32 bs
  let samples := bs
  let bs ← skipBytes (n * 16) bs
  let xs ← readSamples n samples
  pure (.timeRing windowMs xs, bs)

def loadVariant (variant : UInt8) (bs : Bytes) : Option (Saved N × Bytes) :=
  if variant = 0x00 then some (.empty, bs)
  else if variant = 0x01 then (readLenPrefixed bs).map fun x => (.bytes x.1, x.2)
  else if variant = 0x02 then (readF64 bs).map fun x => (.number x.1, x.2)
  else if variant = 0x03 then loadCountRing bs
  else if variant = 0x04 then loadBar bs
  else if variant = 0x05 then loadTimeRing bs
  else none

/-- Splits a key at its first colon. -/
def splitKey (key : Bytes) : Option (Bytes × Bytes) :=
  let op := key.takeWhile (· != colon)
  if op.length < key.length then some (op, key.drop (op.length + 1)) else none

/-- The contents of a record in a zeroed slot. -/
def restore (e : StateEntry N) : Saved N → StateEntry N
  | .empty => { e with kind := .empty }
  | .bytes data => { e with kind := .bytes, bytes := data }
  | .number n => { e with kind := .number, number := n }
  | .countRing cap len sum values =>
    { e with
      kind := .ring
      ringValues := fun i => values.getD i (ofNat 0)
      ringCap := cap
      ringLen := len
      ringSum := sum }
  | .bar op high low count cap windowMs windowStartMs lastClose =>
    { e with
      kind := .bar
      barOpen := op
      barHigh := high
      barLow := low
      barCount := count
      barCap := cap
      barWindowMs := windowMs
      barWindowStartMs := windowStartMs
      barLastClose := lastClose
      barTimeWindow := windowMs != 0 }
  | .timeRing windowMs samples =>
    { e with
      kind := .ring
      ringValues := fun i => (samples[i]?.map Prod.fst).getD (ofNat 0)
      ringTimes := fun i => (samples[i]?.map Prod.snd).getD 0
      ringCap := samples.length
      ringLen := samples.length
      ringSum := samples.foldl (fun acc s => fadd acc s.1) (ofNat 0)
      ringWindowMs := windowMs
      ringTimeWindow := true }

/-- `append_state` followed by the restored contents: the slot goes to the rule of
the recorded number if that has the recorded filter, and is dropped otherwise. -/
def appendState (p : Program N) (idx : ℕ) (filter key : Bytes) (s : Saved N) :
    Option (Program N) :=
  match p.rules[idx]?, splitKey key with
  | some rule, some (op, subject) =>
    if rule.filter == filter then
      (stateReserve true rule.state).map fun st =>
        let e := restore (freshEntry ⟨idx, op, subject⟩) s
        { p with rules := p.rules.set idx { rule with state.items := st.items ++ [e], state.cap := st.cap } }
    else none
  | _, _ => none

structure Counts where
  lvc : ℕ
  ruleState : ℕ
  deriving DecidableEq, Repr

/-- What a load works on. -/
structure Loading (N : Type) where
  router : Router
  program : Option (Program N)
  counts : Counts

def loadRuleState (s : Loading N) (p : Program N) (bs : Bytes) : Option (Loading N × Bytes) := do
  let ((idx, filter, key, variant), bs) ← readHead bs
  let (saved, bs) ← loadVariant variant bs
  match appendState p idx filter key saved with
  | none => pure (s, bs)
  | some p =>
    pure ({ s with program := some p, counts.ruleState := s.counts.ruleState + 1 }, bs)

def loadLvc (s : Loading N) (bs : Bytes) : Option (Loading N × Bytes) := do
  let (subject, bs) ← readLenPrefixed bs
  let (payload, bs) ← readLenPrefixed bs
  match lvcStore Alloc.succeeds s.router subject payload with
  | (_, false) => none
  | (r, true) => pure ({ s with router := r, counts.lvc := s.counts.lvc + 1 }, bs)

def loadRecord (s : Loading N) (bs : Bytes) : Option (Loading N × Bytes) := do
  let (kind, bs) ← readU8 bs
  if kind = snapKindLvc then loadLvc s bs
  else if kind = snapKindRuleState then
    match s.program with
    | none => (skipRuleState bs).map fun bs => (s, bs)
    | some p => loadRuleState s p bs
  else none

/-- Every record takes at least its kind byte. -/
def loadRecords : ℕ → Loading N → Bytes → Option (Loading N)
  | _, s, [] => some s
  | 0, _, _ => none
  | fuel + 1, s, bs => do
    let (s, bs) ← loadRecord s bs
    loadRecords fuel s bs

def headerOk (bs : Bytes) : Bool :=
  decide (8 ≤ bs.length) && bs.take 4 == lit "MBLK" &&
    match bs[4]? with
    | some v => decide (snapMinReadVersion ≤ v ∧ v ≤ snapVersion)
    | none => false

/-- The state after the load, or `none` when the file is rejected. A file that is
not a snapshot is ignored. -/
def snapshotLoad (bs : Bytes) (r : Router) (p : Option (Program N)) : Option (Loading N) :=
  let s : Loading N := ⟨r, p, ⟨0, 0⟩⟩
  if headerOk bs then loadRecords bs.length s (bs.drop 8) else some s

end Monoblok.Snapshot
