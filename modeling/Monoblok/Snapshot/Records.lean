import Monoblok.Snapshot.Format

/-!
# Reading back what was written

Each reader inverts its writer, with whatever bytes follow. A slot record is read
back as the contents that were written, up to the limits of the two readers; the
limits are stated here as conditions on the contents.
-/

namespace Monoblok.Snapshot

open LittleEndian Patchbay Number

/-! ## Fields -/

theorem takeBytes_append {n : ℕ} {a : Bytes} (h : a.length = n) (rest : Bytes) :
    takeBytes n (a ++ rest) = some (a, rest) := by
  unfold takeBytes
  rw [if_neg (by simp [h]), ← h, List.take_left, List.drop_left]

theorem skipBytes_append {n : ℕ} {a : Bytes} (h : a.length = n) (rest : Bytes) :
    skipBytes n (a ++ rest) = some rest := by
  rw [skipBytes, takeBytes_append h]
  rfl

theorem readU32_encode {n : ℕ} (h : n < 2 ^ 32) (rest : Bytes) :
    readU32 (encode 4 n ++ rest) = some (n, rest) := by
  rw [readU32, takeBytes_append (length_encode 4 n)]
  simp [decode_encode (k := 4) (by omega)]

/-- The number of a rule is cut to 32 bits. -/
theorem readU32_encode_mod (n : ℕ) (rest : Bytes) :
    readU32 (encode 4 n ++ rest) = some (n % 2 ^ 32, rest) := by
  rw [← encode_mod]
  exact readU32_encode (Nat.mod_lt n (by decide)) rest

theorem readU64_u64Bytes (n : UInt64) (rest : Bytes) :
    readU64 (u64Bytes n ++ rest) = some (n, rest) := by
  have hlt : n.toNat < 256 ^ 8 := n.toNat_lt
  rw [readU64, u64Bytes, takeBytes_append (length_encode 8 _)]
  simp [decode_encode hlt]

theorem readLenPrefixed_append {s : Bytes} (h : s.length ≤ snapMaxField) (rest : Bytes) :
    readLenPrefixed (encode 4 s.length ++ (s ++ rest)) = some (s, rest) := by
  have hlt : s.length < 2 ^ 32 := by
    rw [snapMaxField] at h
    omega
  rw [readLenPrefixed, readU32_encode hlt]
  simp [not_lt.mpr h, takeBytes_append]

theorem appendLenPrefixed_eq_some {s bs : Bytes} (h : appendLenPrefixed s = some bs) :
    s.length ≤ snapMaxField ∧ bs = encode 4 s.length ++ s := by
  unfold appendLenPrefixed at h
  split_ifs at h with hlen
  exact ⟨by omega, (Option.some.inj h).symm⟩

theorem appendKey_eq_some {op subject bs : Bytes} (h : appendKey op subject = some bs) :
    (op ++ colon :: subject).length ≤ snapMaxField ∧
      bs = encode 4 (op ++ colon :: subject).length ++ (op ++ colon :: subject) := by
  have hlen : (op ++ colon :: subject).length = op.length + 1 + subject.length := by
    simp
    omega
  unfold appendKey at h
  split_ifs at h with hmax
  exact ⟨by omega, by rw [hlen]; exact (Option.some.inj h).symm⟩

variable {N : Type} [Number N]

/-- A number after its way through the file. -/
def reread (x : N) : N := ofBits (bits x)

theorem length_f64Bytes (x : N) : (f64Bytes x).length = 8 := length_encode 8 _

theorem readF64_f64Bytes (x : N) (rest : Bytes) :
    readF64 (f64Bytes x ++ rest) = some (reread x, rest) := by
  rw [readF64]
  exact congrArg (Option.map _) (readU64_u64Bytes (bits x) rest)

theorem length_flatMap_f64Bytes (xs : List N) : (xs.flatMap f64Bytes).length = xs.length * 8 := by
  induction xs with
  | nil => rfl
  | cons x xs ih =>
    rw [List.flatMap_cons, List.length_append, length_f64Bytes, ih, List.length_cons]
    omega

theorem length_flatMap_sampleBytes (xs : List (N × UInt64)) :
    (xs.flatMap sampleBytes).length = xs.length * 16 := by
  induction xs with
  | nil => rfl
  | cons x xs ih =>
    rw [List.flatMap_cons, List.length_append, sampleBytes, List.length_append, length_f64Bytes,
      u64Bytes, length_encode, ih, List.length_cons]
    omega

theorem readValues_flatMap {n : ℕ} {xs : List N} (h : n ≤ xs.length) (rest : Bytes) :
    readValues n (xs.flatMap f64Bytes ++ rest) = some ((xs.take n).map reread) := by
  induction xs generalizing n with
  | nil =>
    obtain rfl : n = 0 := by simpa using h
    rfl
  | cons x xs ih =>
    cases n with
    | zero => rfl
    | succ n =>
      rw [List.flatMap_cons, List.append_assoc, readValues, readF64_f64Bytes]
      simp [ih (Nat.le_of_succ_le_succ h)]

def rereadSample (s : N × UInt64) : N × UInt64 := (reread s.1, s.2)

theorem readSamples_flatMap (xs : List (N × UInt64)) (rest : Bytes) :
    readSamples xs.length (xs.flatMap sampleBytes ++ rest) = some (xs.map rereadSample) := by
  induction xs with
  | nil => rfl
  | cons x xs ih =>
    rw [List.flatMap_cons, sampleBytes, List.append_assoc, List.append_assoc, List.length_cons,
      readSamples, readF64_f64Bytes]
    simp [readU64_u64Bytes, ih, rereadSample]

/-! ## Contents of a record -/

namespace Saved

/-- What the writer guarantees about the contents. -/
def Written : Saved N → Prop
  | .countRing cap len _ values => values.length = cap ∧ len ≤ cap ∧ cap < 2 ^ 32
  | .timeRing _ samples => samples.length < 2 ^ 32
  | _ => True

/-- What the reader that restores a slot insists on. -/
def fitsLoad : Saved N → Bool
  | .countRing cap _ _ _ => decide (cap ≤ snapMaxField / 8)
  | _ => true

/-- What the reader that skips a slot insists on. -/
def fitsSkip : Saved N → Bool
  | .countRing cap _ _ _ => decide (cap ≤ snapMaxField / 8)
  | .timeRing _ samples => decide (samples.length ≤ snapMaxField / 16)
  | _ => true

/-- The contents that are read back: a count ring loses the room behind its
samples. -/
def afterRead : Saved N → Saved N
  | .empty => .empty
  | .bytes data => .bytes data
  | .number n => .number (reread n)
  | .countRing cap len sum values =>
    .countRing cap len (reread sum) ((values.take len).map reread)
  | .bar op high low count cap windowMs windowStartMs lastClose =>
    .bar (reread op) (reread high) (reread low) count cap windowMs windowStartMs
      (reread lastClose)
  | .timeRing windowMs samples => .timeRing windowMs (samples.map rereadSample)

end Saved

theorem written_savedOf {e : StateEntry N} {s : Saved N} (h : savedOf e = some s) : s.Written := by
  unfold savedOf at h
  split at h
  · cases h
    trivial
  · cases h
    trivial
  · cases h
    trivial
  · split_ifs at h with _ hlen hcap
    · cases h
      simp only [Saved.Written, List.length_map, List.length_range]
      omega
    · cases h
      simp only [Saved.Written, List.length_map, List.length_range, true_and]
      omega
  · cases h
    trivial
  · cases h

theorem checkedFieldBytes_eq {count elemSize : ℕ} (h : elemSize ≠ 0) :
    checkedFieldBytes count elemSize =
      if count ≤ snapMaxField / elemSize then some (count * elemSize) else none := by
  unfold checkedFieldBytes
  by_cases hle : count ≤ snapMaxField / elemSize
  · rw [if_pos hle, if_neg (by omega)]
  · rw [if_neg hle, if_pos (by omega)]

theorem loadCountRing_append {cap len : ℕ} {sum : N} {values : List N}
    (hw : (Saved.countRing cap len sum values).Written) (rest : Bytes) :
    loadCountRing (encode 4 cap ++ (encode 8 len ++ (f64Bytes sum ++
        (values.flatMap f64Bytes ++ (encode 4 0 ++ (encode 4 0 ++ rest)))))) =
      if cap ≤ snapMaxField / 8 then
        some (.countRing cap len (reread sum) ((values.take len).map reread), rest)
      else none := by
  obtain ⟨hvalues, hlen, hcap⟩ := hw
  have hsize : len < UInt64.size := by
    rw [UInt64.size]
    omega
  have hlenNat : (UInt64.ofNat len).toNat = len := UInt64.toNat_ofNat_of_lt' hsize
  have hlenBytes : encode 8 len = u64Bytes (UInt64.ofNat len) := by rw [u64Bytes, hlenNat]
  have hzero : ∀ r : Bytes, readU32 (encode 4 0 ++ r) = some (0, r) :=
    fun r => readU32_encode (by decide) r
  have hskip : ∀ r : Bytes, skipBytes 0 r = some r := fun r => skipBytes_append (a := []) rfl r
  have hbody : ∀ r : Bytes, skipBytes (cap * 8) (values.flatMap f64Bytes ++ r) = some r := by
    intro r
    apply skipBytes_append
    rw [length_flatMap_f64Bytes, hvalues]
  rw [loadCountRing, readU32_encode hcap, hlenBytes]
  simp only [Option.bind_eq_bind, Option.bind_some, readU64_u64Bytes, readF64_f64Bytes,
    checkedFieldBytes_eq (show 8 ≠ 0 by decide), hlenNat, not_lt.mpr hlen, if_false]
  split
  · simp only [Option.bind_some, hbody, hzero, Nat.zero_mul, hskip,
      readValues_flatMap (hvalues ▸ hlen)]
    rfl
  · rfl

theorem skipCountRing_append {cap len : ℕ} {sum : N} {values : List N}
    (hw : (Saved.countRing cap len sum values).Written) (rest : Bytes) :
    skipCountRing (encode 4 cap ++ (encode 8 len ++ (f64Bytes sum ++
        (values.flatMap f64Bytes ++ (encode 4 0 ++ (encode 4 0 ++ rest)))))) =
      if cap ≤ snapMaxField / 8 then some rest else none := by
  obtain ⟨hvalues, hlen, hcap⟩ := hw
  have hzero : ∀ r : Bytes, readU32 (encode 4 0 ++ r) = some (0, r) :=
    fun r => readU32_encode (by decide) r
  have hskip : ∀ r : Bytes, skipBytes 0 r = some r := fun r => skipBytes_append (a := []) rfl r
  have hbody : ∀ r : Bytes, skipBytes (8 + 8 + cap * 8)
      (encode 8 len ++ (f64Bytes sum ++ (values.flatMap f64Bytes ++ r))) = some r := by
    intro r
    rw [← List.append_assoc, ← List.append_assoc]
    apply skipBytes_append
    simp only [List.length_append, length_encode, length_f64Bytes, length_flatMap_f64Bytes, hvalues]
  rw [skipCountRing, readU32_encode hcap]
  simp only [Option.bind_eq_bind, Option.bind_some, checkedFieldBytes_eq (show 8 ≠ 0 by decide)]
  split
  · simp only [Option.bind_some, hbody, hzero, Nat.zero_le, if_true, Nat.zero_mul, hskip]
  · rfl

theorem loadBar_append (op high low : N) (count cap : UInt32) (windowMs windowStartMs : UInt64)
    (lastClose : N) (rest : Bytes) :
    loadBar (f64Bytes op ++ (f64Bytes high ++ (f64Bytes low ++ (encode 4 count.toNat ++
        (encode 4 cap.toNat ++ (u64Bytes windowMs ++ (u64Bytes windowStartMs ++
          (f64Bytes lastClose ++ rest)))))))) =
      some (Saved.afterRead (.bar op high low count cap windowMs windowStartMs lastClose), rest) := by
  have hu32 : ∀ (n : UInt32) (r : Bytes), readU32 (encode 4 n.toNat ++ r) = some (n.toNat, r) :=
    fun n r => readU32_encode n.toNat_lt r
  simp [loadBar, readF64_f64Bytes, hu32, readU64_u64Bytes, Saved.afterRead]

theorem loadTimeRing_append {windowMs : UInt64} {samples : List (N × UInt64)}
    (hw : (Saved.timeRing windowMs samples).Written) (rest : Bytes) :
    loadTimeRing (u64Bytes windowMs ++ (encode 4 samples.length ++
        (samples.flatMap sampleBytes ++ rest))) =
      some (.timeRing windowMs (samples.map rereadSample), rest) := by
  rw [loadTimeRing, readU64_u64Bytes]
  simp [readU32_encode hw, skipBytes_append (length_flatMap_sampleBytes samples),
    readSamples_flatMap]

theorem skipTimeRing_append {windowMs : UInt64} {samples : List (N × UInt64)}
    (hw : (Saved.timeRing windowMs samples).Written) (rest : Bytes) :
    skipTimeRing (u64Bytes windowMs ++ (encode 4 samples.length ++
        (samples.flatMap sampleBytes ++ rest))) =
      if samples.length ≤ snapMaxField / 16 then some rest else none := by
  rw [skipTimeRing, u64Bytes, skipBytes_append (length_encode 8 windowMs.toNat)]
  simp only [Option.bind_eq_bind, Option.bind_some, readU32_encode hw,
    checkedFieldBytes_eq (show 16 ≠ 0 by decide)]
  split
  · simp only [Option.bind_some, skipBytes_append (length_flatMap_sampleBytes samples)]
  · rfl

/-- The restoring reader inverts the writer up to its limit. -/
theorem loadVariant_appendSaved {s : Saved N} (hw : s.Written) {bs : Bytes}
    (h : appendSaved s = some bs) :
    ∃ variant body, bs = variant :: body ∧ ∀ rest,
      loadVariant variant (body ++ rest) =
        if s.fitsLoad then some (s.afterRead, rest) else none := by
  cases s with
  | empty =>
    cases h
    exact ⟨_, _, rfl, fun rest => rfl⟩
  | bytes data =>
    rw [appendSaved, Option.map_eq_some_iff] at h
    obtain ⟨field, hfield, rfl⟩ := h
    obtain ⟨hlen, rfl⟩ := appendLenPrefixed_eq_some hfield
    refine ⟨_, _, rfl, fun rest => ?_⟩
    rw [List.append_assoc]
    simp [loadVariant, readLenPrefixed_append hlen, Saved.fitsLoad, Saved.afterRead]
  | number n =>
    cases h
    refine ⟨_, _, rfl, fun rest => ?_⟩
    simp [loadVariant, readF64_f64Bytes, Saved.fitsLoad, Saved.afterRead]
  | countRing cap len sum values =>
    cases h
    refine ⟨_, _, rfl, fun rest => ?_⟩
    simp only [List.append_assoc]
    exact (loadCountRing_append hw rest).trans (by simp [Saved.fitsLoad, Saved.afterRead])
  | bar op high low count cap windowMs windowStartMs lastClose =>
    cases h
    refine ⟨_, _, rfl, fun rest => ?_⟩
    simp only [List.append_assoc]
    exact loadBar_append op high low count cap windowMs windowStartMs lastClose rest
  | timeRing windowMs samples =>
    cases h
    refine ⟨_, _, rfl, fun rest => ?_⟩
    simp only [List.append_assoc]
    exact loadTimeRing_append hw rest

/-- So does the skipping reader, with another limit. -/
theorem skipVariant_appendSaved {s : Saved N} (hw : s.Written) {variant : UInt8} {body : Bytes}
    (h : appendSaved s = some (variant :: body)) (rest : Bytes) :
    skipVariant variant (body ++ rest) = if s.fitsSkip then some rest else none := by
  cases s with
  | empty =>
    cases h
    rfl
  | bytes data =>
    rw [appendSaved, Option.map_eq_some_iff] at h
    obtain ⟨field, hfield, hcons⟩ := h
    cases hcons
    obtain ⟨hlen, rfl⟩ := appendLenPrefixed_eq_some hfield
    rw [List.append_assoc]
    simp [skipVariant, readLenPrefixed_append hlen, Saved.fitsSkip]
  | number n =>
    cases h
    exact skipBytes_append (length_f64Bytes n) rest
  | countRing cap len sum values =>
    cases h
    simp only [List.append_assoc]
    exact (skipCountRing_append hw rest).trans (by simp [Saved.fitsSkip])
  | bar op high low count cap windowMs windowStartMs lastClose =>
    cases h
    have hlen : (f64Bytes op ++ f64Bytes high ++ f64Bytes low ++ encode 4 count.toNat ++
        encode 4 cap.toNat ++ u64Bytes windowMs ++ u64Bytes windowStartMs ++
          f64Bytes lastClose).length = 8 + 8 + 8 + 4 + 4 + 8 + 8 + 8 := by
      simp only [List.length_append, length_f64Bytes, length_encode, u64Bytes]
    exact skipBytes_append hlen rest
  | timeRing windowMs samples =>
    cases h
    simp only [List.append_assoc]
    exact (skipTimeRing_append hw rest).trans (by simp [Saved.fitsSkip])

/-! ## Records -/

/-- The key of a slot as it is written. -/
def entryKey (e : StateEntry N) : Bytes := e.op ++ colon :: e.subject

/-- The parts of a slot record. -/
structure EntryBytes (ruleIdx : ℕ) (filter : Bytes) (e : StateEntry N) (bs : Bytes)
    (s : Saved N) : Prop where
  saved : savedOf e = some s
  body : ∃ variant body, appendSaved s = some (variant :: body) ∧
    bs = snapKindRuleState :: (encode 4 ruleIdx ++ (encode 4 filter.length ++ (filter ++
      (encode 4 (entryKey e).length ++ (entryKey e ++ variant :: body)))))
  filter_le : filter.length ≤ snapMaxField
  key_le : (entryKey e).length ≤ snapMaxField

theorem appendEntry_eq_some {ruleIdx : ℕ} {filter : Bytes} {e : StateEntry N} {bs : Bytes}
    (h : appendEntry ruleIdx filter e = some bs) : ∃ s, EntryBytes ruleIdx filter e bs s := by
  unfold appendEntry at h
  simp only [Option.bind_eq_bind, Option.bind_eq_some_iff, Option.pure_def,
    Option.some.injEq] at h
  obtain ⟨f, hf, k, hk, s, hs, v, hv, rfl⟩ := h
  obtain ⟨hflen, rfl⟩ := appendLenPrefixed_eq_some hf
  obtain ⟨hklen, rfl⟩ := appendKey_eq_some hk
  obtain ⟨variant, body, rfl, -⟩ := loadVariant_appendSaved (written_savedOf hs) hv
  exact ⟨s, hs, ⟨variant, body, hv, by simp only [entryKey, List.append_assoc]⟩, hflen, hklen⟩

/-- Both readers find the head of a record. -/
theorem readHead_append {filter key : Bytes} (hf : filter.length ≤ snapMaxField)
    (hk : key.length ≤ snapMaxField) (ruleIdx : ℕ) (variant : UInt8) (rest : Bytes) :
    readHead (encode 4 ruleIdx ++ (encode 4 filter.length ++ (filter ++
        (encode 4 key.length ++ (key ++ variant :: rest))))) =
      some ((ruleIdx % 2 ^ 32, filter, key, variant), rest) := by
  simp [readHead, readU32_encode_mod, readLenPrefixed_append hf, readLenPrefixed_append hk, readU8]

/-- The slot of a record, put into the program if there is a place for it. -/
def placeEntry (l : Loading N) (p : Program N) (ruleIdx : ℕ) (filter : Bytes)
    (e : StateEntry N) (s : Saved N) : Loading N :=
  match appendState p (ruleIdx % 2 ^ 32) filter (entryKey e) s.afterRead with
  | none => l
  | some p => { l with program := some p, counts.ruleState := l.counts.ruleState + 1 }

theorem loadRecord_entry {ruleIdx : ℕ} {filter bs : Bytes} {e : StateEntry N} {s : Saved N}
    (h : EntryBytes ruleIdx filter e bs s) {l : Loading N} {p : Program N}
    (hp : l.program = some p) (rest : Bytes) :
    loadRecord l (bs ++ rest) =
      if s.fitsLoad then some (placeEntry l p ruleIdx filter e s, rest) else none := by
  obtain ⟨hsaved, ⟨variant, body, hbody, rfl⟩, hf, hk⟩ := h
  obtain ⟨v, b, hcons, hload⟩ := loadVariant_appendSaved (written_savedOf hsaved) hbody
  cases hcons
  simp only [List.cons_append, List.append_assoc, loadRecord, readU8, Option.bind_eq_bind,
    Option.bind_some, hp, loadRuleState, hload,
    show (snapKindRuleState = snapKindLvc) = False from by decide, if_false, if_true,
    readHead_append hf hk]
  split
  · simp only [Option.bind_some, placeEntry]
    cases appendState p (ruleIdx % 2 ^ 32) filter (entryKey e) s.afterRead <;> rfl
  · rfl

theorem loadRecord_entry_skip {ruleIdx : ℕ} {filter bs : Bytes} {e : StateEntry N} {s : Saved N}
    (h : EntryBytes ruleIdx filter e bs s) {l : Loading N} (hp : l.program = none)
    (rest : Bytes) :
    loadRecord l (bs ++ rest) = if s.fitsSkip then some (l, rest) else none := by
  obtain ⟨hsaved, ⟨variant, body, hbody, rfl⟩, hf, hk⟩ := h
  have hskip := skipVariant_appendSaved (written_savedOf hsaved) hbody
  simp only [List.cons_append, List.append_assoc, loadRecord, readU8, Option.bind_eq_bind,
    Option.bind_some, hp, skipRuleState, hskip,
    show (snapKindRuleState = snapKindLvc) = False from by decide, if_false, if_true,
    readHead_append hf hk]
  split <;> rfl

theorem appendLvcEntry_eq_some {e : LvcEntry} {bs : Bytes} (h : appendLvcEntry e = some bs) :
    e.subject.length ≤ snapMaxField ∧ e.payload.length ≤ snapMaxField ∧
      bs = snapKindLvc :: (encode 4 e.subject.length ++ (e.subject ++
        (encode 4 e.payload.length ++ e.payload))) := by
  unfold appendLvcEntry at h
  simp only [Option.bind_eq_bind, Option.bind_eq_some_iff, Option.pure_def,
    Option.some.injEq] at h
  obtain ⟨s, hs, p, hp, rfl⟩ := h
  obtain ⟨hslen, rfl⟩ := appendLenPrefixed_eq_some hs
  obtain ⟨hplen, rfl⟩ := appendLenPrefixed_eq_some hp
  exact ⟨hslen, hplen, by simp only [List.append_assoc]⟩

theorem loadRecord_lvc {e : LvcEntry} {bs : Bytes} (h : appendLvcEntry e = some bs)
    (l : Loading N) {r : Router}
    (hstore : lvcStore Alloc.succeeds l.router e.subject e.payload = (r, true)) (rest : Bytes) :
    loadRecord l (bs ++ rest) =
      some ({ l with router := r, counts.lvc := l.counts.lvc + 1 }, rest) := by
  obtain ⟨hs, hp, rfl⟩ := appendLvcEntry_eq_some h
  simp only [List.cons_append, List.append_assoc, loadRecord, readU8, Option.bind_eq_bind,
    Option.bind_some, if_true, loadLvc, readLenPrefixed_append hs, readLenPrefixed_append hp,
    hstore]
  rfl

end Monoblok.Snapshot
