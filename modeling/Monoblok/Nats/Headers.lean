import Monoblok.Nats.Bridge

/-!
# Message headers

How the NATS client writes the headers of a message in front of its payload and
reads them back on the other side (`msg.c` of the vendored client). A value loses
its line breaks on the way out and the white space around it on the way in.

The table of the headers is a list of pairs in the order of the message. A table
of the client keeps the values of one key together and finds a key by a 32-bit
hash; here keys are told apart by their bytes.
-/

namespace Monoblok.Nats

/-- `NATS_PROTOCOL_ERROR`. -/
def natsProtocolError : Status := 2

def colon : UInt8 := 0x3a

/-- `isspace`. -/
def isSpace (c : UInt8) : Bool := c = space || (0x09 ≤ c && c ≤ 0x0d)

/-! ## Writing -/

/-- A value as it is sent: no line breaks. -/
def encodedValue (value : Bytes) : Bytes :=
  (cString value).map fun c => if c = cr || c = lf then space else c

def headerLine (header : Bytes × Bytes) : Bytes :=
  cString header.1 ++ lit ": " ++ encodedValue header.2 ++ [cr, lf]

/-- `natsMsgHeader_encode`, of a message that has headers. -/
def natsMsgHeaderEncode (headers : List (Bytes × Bytes)) : Bytes :=
  lit "NATS/1.0" ++ [cr, lf] ++ headers.flatMap headerLine ++ [cr, lf]

/-! ## Reading -/

/-- `_moveToLF`: the bytes in front of the next CRLF and those behind it. -/
def moveToLF : Bytes → Option (Bytes × Bytes)
  | [] => none
  | [_] => none
  | c :: d :: rest =>
    if c = cr ∧ d = lf then some ([], rest)
    else (moveToLF (d :: rest)).map fun x => (c :: x.1, x.2)

def trimRight (bytes : Bytes) : Bytes := (bytes.reverse.dropWhile isSpace).reverse

/-- The value of a line and the lines behind it. Of white space only, the value is
empty, and a CRLF ends it; `carRet` is `tmpCarRet`. -/
def readValue (carRet : Bool) : Bytes → Option (Bytes × Bytes)
  | [] => none
  | c :: rest =>
    if isSpace c then
      if carRet && c = lf then some ([], rest) else readValue (c = cr) rest
    else (moveToLF (c :: rest)).map fun x => (cString (trimRight x.1), x.2)

/-- `strchr (ptr, ':')`: the bytes in front of the colon and those behind it. -/
def splitColon : Bytes → Option (Bytes × Bytes)
  | [] => none
  | c :: rest =>
    if c = colon then some ([], rest)
    else if c = 0 then none
    else (splitColon rest).map fun x => (c :: x.1, x.2)

/-- A folded line goes on with the last value. -/
def continueLast (headers : List (Bytes × Bytes)) (value : Bytes) : List (Bytes × Bytes) :=
  headers.modify (headers.length - 1) fun h => (h.1, h.2 ++ [space] ++ value)

/-- `_processKeyValue`, where memory does not run out. -/
def processKeyValue (headers : List (Bytes × Bytes)) :
    Bytes → Option (List (Bytes × Bytes) × Bytes)
  | [] => none
  | c :: rest =>
    if c = cr then
      if rest = [] ∨ rest = [lf] ∨ rest = [lf, cr, lf] then some (headers, []) else none
    else if isSpace c then
      if headers.isEmpty then none
      else (readValue false (c :: rest)).map fun x => (continueLast headers x.1, x.2)
    else
      (splitColon (c :: rest)).bind fun key =>
        (readValue false key.2).map fun x => (headers ++ [(key.1, x.1)], x.2)

/-- The loop over the lines, for so many of them at most. -/
def processLines : ℕ → List (Bytes × Bytes) → Bytes → Option (List (Bytes × Bytes))
  | _, headers, [] => some headers
  | 0, _, _ :: _ => none
  | fuel + 1, headers, c :: rest =>
    (processKeyValue headers (c :: rest)).bind fun x => processLines fuel x.1 x.2

/-- `_liftHeaders`. The headers it adds for an inlined status have names of their own and are
left out. -/
def liftHeaders (hdr : Bytes) : Option (List (Bytes × Bytes)) :=
  if hdr.length < 10 ∨ !sliceHasPrefix hdr (lit "NATS/1.0") then none
  else
    match moveToLF ((hdr.drop 8).dropWhile (· = space)) with
    | none => none
    | some (_, []) => none
    | some (_, c :: rest) => processLines (rest.length + 1) [] (c :: rest)

/-- The first value of a key. -/
def headerValue (headers : List (Bytes × Bytes)) (key : Bytes) : Option Bytes :=
  (headers.find? fun h => h.1 = key).map Prod.snd

/-- The answer of `natsMsgHeader_Get`. -/
inductive HeaderGet where
  | ok (value : Option Bytes)
  | notFound
  | failed (status : Status)
  deriving DecidableEq, Repr

/-- `natsMsgHeader_Get` of a message that has just come in, with the bytes of its headers if it
has any; `failure` is the status when memory runs out. -/
def natsMsgHeaderGet (hdr : Option Bytes) (failure : Option Status) (key : Bytes) : HeaderGet :=
  match hdr, failure with
  | none, _ => .notFound
  | some _, some status => .failed status
  | some hdr, none =>
    match liftHeaders hdr with
    | none => .failed natsProtocolError
    | some headers =>
      match headerValue headers key with
      | some value => .ok (some value)
      | none => .notFound

/-! ## Every line takes some of the bytes -/

theorem moveToLF_length {bytes : Bytes} {x : Bytes × Bytes} (h : moveToLF bytes = some x) :
    x.2.length < bytes.length := by
  induction bytes generalizing x with
  | nil => cases h
  | cons c bytes ih =>
    cases bytes with
    | nil => cases h
    | cons d rest =>
      rw [moveToLF] at h
      split_ifs at h
      · cases h
        simp
      · obtain ⟨y, hy, rfl⟩ := Option.map_eq_some_iff.mp h
        exact (ih hy).trans (Nat.lt_succ_self _)

theorem readValue_length {carRet : Bool} {bytes : Bytes} {x : Bytes × Bytes}
    (h : readValue carRet bytes = some x) : x.2.length < bytes.length := by
  induction bytes generalizing carRet with
  | nil => cases h
  | cons c rest ih =>
    rw [readValue] at h
    split_ifs at h
    · cases h
      simp
    · exact (ih h).trans (Nat.lt_succ_self _)
    · obtain ⟨y, hy, rfl⟩ := Option.map_eq_some_iff.mp h
      have hlen := moveToLF_length hy
      exact hlen

theorem splitColon_length {bytes : Bytes} {x : Bytes × Bytes} (h : splitColon bytes = some x) :
    x.2.length < bytes.length := by
  induction bytes generalizing x with
  | nil => cases h
  | cons c rest ih =>
    rw [splitColon] at h
    split_ifs at h
    · cases h
      simp
    · obtain ⟨y, hy, rfl⟩ := Option.map_eq_some_iff.mp h
      exact (ih hy).trans (Nat.lt_succ_self _)

theorem processKeyValue_length {headers : List (Bytes × Bytes)} {bytes : Bytes}
    {x : List (Bytes × Bytes) × Bytes} (h : processKeyValue headers bytes = some x) :
    x.2.length < bytes.length := by
  cases bytes with
  | nil => cases h
  | cons c rest =>
    rw [processKeyValue] at h
    split_ifs at h
    · cases h
      simp
    · obtain ⟨y, hy, rfl⟩ := Option.map_eq_some_iff.mp h
      exact readValue_length hy
    · obtain ⟨key, hkey, hvalue⟩ := Option.bind_eq_some_iff.mp h
      obtain ⟨y, hy, rfl⟩ := Option.map_eq_some_iff.mp hvalue
      exact (readValue_length hy).trans (splitColon_length hkey)

/-- So many lines as there are bytes are enough for any message. -/
theorem processLines_fuel {fuel : ℕ} {bytes : Bytes} (h : bytes.length ≤ fuel)
    (headers : List (Bytes × Bytes)) :
    processLines (fuel + 1) headers bytes = processLines fuel headers bytes := by
  induction fuel generalizing bytes headers with
  | zero =>
    rw [List.length_eq_zero_iff.mp (Nat.le_zero.mp h)]
    rfl
  | succ fuel ih =>
    cases bytes with
    | nil => rfl
    | cons c rest =>
      rw [processLines, processLines]
      cases hline : processKeyValue headers (c :: rest) with
      | none => rfl
      | some x =>
        have hlen := processKeyValue_length hline
        rw [Option.bind_some, Option.bind_some]
        exact ih (Nat.le_of_lt_succ (hlen.trans_le h)) x.1

/-! ## What is read of what was written -/

/-- A value as it arrives. -/
def trimmedValue (value : Bytes) : Bytes := trimRight ((encodedValue value).dropWhile isSpace)

/-- A key that the client reads as it is. -/
def PlainKey (key : Bytes) : Prop := ∀ c ∈ key, isSpace c = false ∧ c ≠ 0 ∧ c ≠ colon

instance (key : Bytes) : Decidable (PlainKey key) :=
  List.decidableBAll (fun c => isSpace c = false ∧ c ≠ 0 ∧ c ≠ colon) key

theorem moveToLF_append {line : Bytes} (h : cr ∉ line) (rest : Bytes) :
    moveToLF (line ++ cr :: lf :: rest) = some (line, rest) := by
  induction line with
  | nil => simp [moveToLF]
  | cons c line ih =>
    rw [List.mem_cons, not_or] at h
    obtain ⟨d, rest', hrest⟩ : ∃ d rest', line ++ cr :: lf :: rest = d :: rest' := by
      cases line <;> simp
    have hc : ¬(c = cr ∧ d = lf) := fun hc => h.1 hc.1.symm
    rw [List.cons_append, hrest, moveToLF, if_neg hc, ← hrest, ih h.2]
    rfl

theorem mem_cString {bytes : Bytes} {c : UInt8} (h : c ∈ cString bytes) : c ≠ 0 := by
  have := List.mem_takeWhile_imp h
  simpa using this

theorem mem_encodedValue {value : Bytes} {c : UInt8} (h : c ∈ encodedValue value) :
    c ≠ 0 ∧ c ≠ cr ∧ c ≠ lf := by
  obtain ⟨d, hd, rfl⟩ := List.mem_map.mp h
  have hzero := mem_cString hd
  split_ifs with hline
  · decide
  · simp only [Bool.or_eq_true, decide_eq_true_eq, not_or] at hline
    exact ⟨hzero, hline⟩

theorem cString_of_ne_zero {bytes : Bytes} (h : ∀ c ∈ bytes, c ≠ 0) : cString bytes = bytes := by
  apply List.takeWhile_eq_self_iff.mpr
  intro c hc
  simpa using h c hc

theorem trimRight_sublist (bytes : Bytes) : (trimRight bytes).Sublist bytes := by
  have h := (List.dropWhile_sublist isSpace (l := bytes.reverse)).reverse
  rwa [List.reverse_reverse] at h

/-- A value that is written is read without the white space around it. -/
theorem readValue_append {value : Bytes} (h : ∀ c ∈ value, c ≠ 0 ∧ c ≠ cr ∧ c ≠ lf)
    (carRet : Bool) (rest : Bytes) :
    readValue carRet (value ++ cr :: lf :: rest) =
      some (trimRight (value.dropWhile isSpace), rest) := by
  induction value generalizing carRet with
  | nil =>
    have hcr : isSpace cr = true := by decide
    have hlf : isSpace lf = true := by decide
    have hne : ¬cr = lf := by decide
    simp [readValue, hcr, hlf, hne, trimRight]
  | cons c value ih =>
    have hc := h c List.mem_cons_self
    have hvalue := fun d hd => h d (List.mem_cons_of_mem c hd)
    rw [List.cons_append, readValue, List.dropWhile_cons]
    cases hspace : isSpace c with
    | true => simp [hc.2.2, ih hvalue]
    | false =>
      have hcr : cr ∉ c :: value := fun hmem => (h cr hmem).2.1 rfl
      have hzero : ∀ d ∈ trimRight (c :: value), d ≠ 0 :=
        fun d hd => (h d ((trimRight_sublist _).subset hd)).1
      have hmove := moveToLF_append hcr rest
      rw [List.cons_append] at hmove
      simp [hmove, cString_of_ne_zero hzero]

theorem splitColon_append {key : Bytes} (h : PlainKey key) (rest : Bytes) :
    splitColon (key ++ colon :: rest) = some (key, rest) := by
  induction key with
  | nil => simp [splitColon]
  | cons c key ih =>
    obtain ⟨-, hzero, hcolon⟩ := h c List.mem_cons_self
    rw [List.cons_append, splitColon, if_neg hcolon, if_neg hzero,
      ih fun d hd => h d (List.mem_cons_of_mem c hd)]
    rfl

/-- One line that was written. -/
theorem processKeyValue_headerLine {key : Bytes} (h : PlainKey key) (value : Bytes)
    (headers : List (Bytes × Bytes)) (rest : Bytes) :
    processKeyValue headers (headerLine (key, value) ++ rest) =
      some (headers ++ [(key, trimmedValue value)], rest) := by
  have hkey : cString key = key := cString_of_ne_zero fun c hc => (h c hc).2.1
  have hvalue := readValue_append (fun _ => @mem_encodedValue value _) false rest
  have hspace : isSpace space = true := by decide
  have hread : readValue false (space :: (encodedValue value ++ cr :: lf :: rest)) =
      some (trimmedValue value, rest) := by
    rw [readValue, if_pos hspace]
    simpa [trimmedValue, show ¬space = cr by decide] using hvalue
  have hsplit := splitColon_append h (space :: (encodedValue value ++ cr :: lf :: rest))
  have hline : headerLine (key, value) ++ rest =
      key ++ colon :: space :: (encodedValue value ++ cr :: lf :: rest) := by
    simp [headerLine, hkey, show lit ": " = [colon, space] by decide]
  rw [hline]
  obtain ⟨c, tail, htail, hc⟩ : ∃ c tail,
      key ++ colon :: space :: (encodedValue value ++ cr :: lf :: rest) = c :: tail ∧
        isSpace c = false := by
    cases key with
    | nil => exact ⟨colon, _, rfl, by decide⟩
    | cons c key => exact ⟨c, _, rfl, (h c List.mem_cons_self).1⟩
  have hcr : ¬c = cr := by
    rintro rfl
    exact absurd hc (by decide)
  rw [htail] at hsplit ⊢
  simp [processKeyValue, hcr, hc, hsplit, hread]

theorem processLines_encoded {headers : List (Bytes × Bytes)} (h : ∀ x ∈ headers, PlainKey x.1)
    (before : List (Bytes × Bytes)) {fuel : ℕ} (hfuel : headers.length < fuel) :
    processLines fuel before (headers.flatMap headerLine ++ [cr, lf]) =
      some (before ++ headers.map fun x => (x.1, trimmedValue x.2)) := by
  induction headers generalizing before fuel with
  | nil =>
    obtain ⟨fuel, rfl⟩ := Nat.exists_eq_succ_of_ne_zero (Nat.ne_of_gt hfuel)
    simp [processLines, processKeyValue]
  | cons x headers ih =>
    obtain ⟨fuel, rfl⟩ := Nat.exists_eq_succ_of_ne_zero (Nat.ne_of_gt (Nat.zero_lt_of_lt hfuel))
    have hline := processKeyValue_headerLine (h x List.mem_cons_self) x.2 before
      (headers.flatMap headerLine ++ [cr, lf])
    have hrest := ih (fun y hy => h y (List.mem_cons_of_mem x hy))
      (before ++ [(x.1, trimmedValue x.2)]) (Nat.lt_of_succ_lt_succ hfuel)
    obtain ⟨c, tail, htail⟩ : ∃ c tail,
        headerLine x ++ (headers.flatMap headerLine ++ [cr, lf]) = c :: tail := by
      apply List.exists_cons_of_ne_nil
      simp [headerLine]
    rw [List.flatMap_cons, List.append_assoc, htail, processLines, ← htail, hline, Option.bind_some,
      hrest]
    simp

theorem length_le_flatMap (headers : List (Bytes × Bytes)) :
    headers.length ≤ (headers.flatMap headerLine).length := by
  induction headers with
  | nil => exact Nat.le_refl 0
  | cons x headers ih =>
    have hline : 0 < (headerLine x).length := by simp [headerLine]
    rw [List.flatMap_cons, List.length_append, List.length_cons]
    omega

/-- Headers that were written are read in their order, with their values trimmed. -/
theorem liftHeaders_encode {headers : List (Bytes × Bytes)} (h : ∀ x ∈ headers, PlainKey x.1) :
    liftHeaders (natsMsgHeaderEncode headers) =
      some (headers.map fun x => (x.1, trimmedValue x.2)) := by
  have hlen := length_le_flatMap headers
  have hmove := @moveToLF_append [] List.not_mem_nil (headers.flatMap headerLine ++ [cr, lf])
  have hdrop : ((natsMsgHeaderEncode headers).drop 8).dropWhile (· = space) =
      cr :: lf :: (headers.flatMap headerLine ++ [cr, lf]) := by
    have hne : ¬cr = space := by decide
    simp [natsMsgHeaderEncode, lit, hne]
  have hprefix : sliceHasPrefix (natsMsgHeaderEncode headers) (lit "NATS/1.0") = true :=
    sliceHasPrefix_iff.mpr ⟨_, by rw [natsMsgHeaderEncode, List.append_assoc, List.append_assoc]⟩
  have hsize : ¬(natsMsgHeaderEncode headers).length < 10 := by
    simp [natsMsgHeaderEncode, lit]
  obtain ⟨c, tail, htail⟩ : ∃ c tail, headers.flatMap headerLine ++ [cr, lf] = c :: tail := by
    apply List.exists_cons_of_ne_nil
    simp
  have hcount := congrArg List.length htail
  simp only [List.length_append, List.length_cons, List.length_nil] at hcount
  have hlines := @processLines_encoded headers h [] (tail.length + 1) (by omega)
  rw [List.nil_append, htail] at hmove
  rw [htail, List.nil_append] at hlines
  rw [liftHeaders, if_neg (by simp [hsize, hprefix]), hdrop, htail, hmove]
  exact hlines

theorem headerValue_of_mem {headers : List (Bytes × Bytes)} (h : (headers.map Prod.fst).Nodup)
    {key value : Bytes} (hmem : (key, value) ∈ headers) : headerValue headers key = some value := by
  induction headers with
  | nil => cases hmem
  | cons x headers ih =>
    rw [List.map_cons, List.nodup_cons] at h
    rcases List.mem_cons.mp hmem with rfl | hmem
    · simp [headerValue]
    · have hkey : key ∈ headers.map Prod.fst := List.mem_map_of_mem (f := Prod.fst) hmem
      have hne : ¬x.1 = key := fun heq => h.1 (heq ▸ hkey)
      have hrest := ih h.2 hmem
      rw [headerValue] at hrest ⊢
      rw [List.find?_cons_of_neg (by simpa using hne)]
      exact hrest

/-- A header with a name of its own arrives with its value trimmed. -/
theorem natsMsgHeaderGet_encode {headers : List (Bytes × Bytes)}
    (hplain : ∀ x ∈ headers, PlainKey x.1) (hnodup : (headers.map Prod.fst).Nodup)
    {key value : Bytes} (hmem : (key, value) ∈ headers) :
    natsMsgHeaderGet (some (natsMsgHeaderEncode headers)) none key =
      .ok (some (trimmedValue value)) := by
  have hkeys : ((headers.map fun x => (x.1, trimmedValue x.2)).map Prod.fst) =
      headers.map Prod.fst := by
    rw [List.map_map]
    rfl
  have hvalue := headerValue_of_mem (hkeys.symm ▸ hnodup)
    (List.mem_map_of_mem (f := fun x => (x.1, trimmedValue x.2)) hmem)
  rw [natsMsgHeaderGet, liftHeaders_encode hplain]
  simp only [hvalue]

/-- A value is empty on arrival exactly if it has nothing but white space in it. -/
theorem trimmedValue_eq_nil_iff (value : Bytes) :
    trimmedValue value = [] ↔ ∀ c ∈ cString value, isSpace c = true := by
  have htrim : ∀ bytes : Bytes, trimRight bytes = [] ↔ ∀ c ∈ bytes, isSpace c = true := by
    intro bytes
    simp [trimRight, List.dropWhile_eq_nil_iff]
  have hdrop : ∀ bytes : Bytes, (∀ c ∈ bytes.dropWhile isSpace, isSpace c = true) ↔
      ∀ c ∈ bytes, isSpace c = true := by
    intro bytes
    induction bytes with
    | nil => simp
    | cons d bytes ih =>
      rw [List.dropWhile_cons]
      cases hd : isSpace d with
      | true => simp [hd, ih]
      | false => simp [hd]
  rw [trimmedValue, htrim, hdrop, encodedValue]
  have hspace : isSpace space = true := by decide
  have hline : ∀ c, c = cr ∨ c = lf → isSpace c = true := by
    rintro c (rfl | rfl) <;> decide
  constructor
  · intro h c hc
    by_cases hbreak : c = cr ∨ c = lf
    · exact hline c hbreak
    · have hmem := h _ (List.mem_map_of_mem hc)
      simpa [hbreak] using hmem
  · intro h c hc
    obtain ⟨d, hd, rfl⟩ := List.mem_map.mp hc
    split_ifs
    · exact hspace
    · exact h d hd

example : trimmedValue (lit "  a b\r\n") = lit "a b" := by decide

end Monoblok.Nats
