import Monoblok.Source.JsonForms
import Monoblok.Source.Lowering
import Monoblok.Source.RoundTrip

/-!
# Quoted strings in the configuration

A string of the configuration may be written in each of the three notations. The forms keep it
as it is, JSON takes the names of the bound symbols for symbols, and YAML leaves the escapes
in it and takes a colon in front for a keyword.
-/

namespace Monoblok.Patchbay

open Number Sexpr

variable {N : Type}

/-! ## Places -/

/-- An option: its name is a simple key of YAML, and an object with it alone is nothing special
in JSON. -/
structure OptionKey where
  text : Bytes
  simple : Yaml.simpleKey text = true
  plain : text ≠ lit "sym" ∧ text ≠ lit "str" ∧ text ≠ lit "kw"

/-- The forms of the top level that take options. -/
inductive ConfigName where
  | export
  | bridge
  | import

def ConfigName.text : ConfigName → Bytes
  | .export => lit "export"
  | .bridge => lit "bridge"
  | .import => lit "import"

/-- Where the string stands: the filter of the cache, the value of an option, or the filter
of a rule. -/
inductive Place where
  | lvc
  | option (name : ConfigName) (key : OptionKey)
  | filter

/-- The form with a value there. -/
def Place.form (v : Value N) : Place → Value N
  | .lvc => .list [.symbol (lit "lvc"), v]
  | .option name key => .list [.symbol name.text, .keyword key.text, v]
  | .filter => .list [.symbol (lit "on"), v, .list [.symbol (lit "do")]]

theorem form_injective (place : Place) {v w : Value N} (h : place.form v = place.form w) : v = w := by
  cases place <;> simpa [Place.form] using h

/-! ## Forms -/

section Forms

variable [Number N]

theorem isSymbol_lit {name : String} (h : IsWord (lit name) ∧ (lit name).head? ≠ some quote ∧
    (lit name).head? ≠ some colon ∧ lit name ≠ lit "nil" ∧ lit name ≠ lit "true" ∧
    lit name ≠ lit "false" ∧ looksNumeric (lit name) = false) : IsSymbol N (lit name) where
  word := h.1
  quote := h.2.1
  colon := h.2.2.1
  nil := h.2.2.2.1
  true := h.2.2.2.2.1
  false := h.2.2.2.2.2.1
  number := by simp [Sexpr.parseNumber, h.2.2.2.2.2.2]

theorem isSymbol_configName (name : ConfigName) : IsSymbol N name.text := by
  cases name with
  | «export» => exact isSymbol_lit (by decide)
  | bridge => exact isSymbol_lit (by decide)
  | «import» => exact isSymbol_lit (by decide)

theorem not_delimiter_of_key {c : UInt8}
    (h : (Yaml.isAlnum c || c == 0x5f || c == Yaml.dash) = true) : isDelimiter c = false := by
  by_contra hdelimiter
  simp only [isDelimiter, isSpace, Bool.not_eq_false, Bool.or_eq_true, beq_iff_eq] at hdelimiter
  rcases hdelimiter with
    (((((((rfl | rfl) | rfl) | rfl) | rfl) | rfl) | rfl) | rfl) | rfl <;> exact absurd h (by decide)

theorem isWord_of_simpleKey {key : Bytes} (h : Yaml.simpleKey key = true) : IsWord key := by
  rw [Yaml.simpleKey, Bool.and_eq_true, List.all_eq_true] at h
  constructor
  · rintro rfl
    simp at h
  · exact fun c hc => not_delimiter_of_key (h.2 c hc)

theorem written_form (place : Place) (s : Bytes) : Written (place.form (.string (N := N) s)) := by
  have hs : Written (.string (N := N) s) := .string s
  cases place with
  | lvc => exact .list (isSymbol_lit (by decide)) (List.forall_mem_cons.mpr ⟨hs, by simp⟩)
  | option name key =>
    have hkey : Written (.keyword (N := N) key.text) := .keyword (isWord_of_simpleKey key.simple)
    exact .list (isSymbol_configName name)
      (List.forall_mem_cons.mpr ⟨hkey, List.forall_mem_cons.mpr ⟨hs, by simp⟩⟩)
  | filter =>
    have hbody : Written (.list [.symbol (N := N) (lit "do")]) :=
      .list (isSymbol_lit (by decide)) (by simp)
    exact .list (isSymbol_lit (by decide))
      (List.forall_mem_cons.mpr ⟨hs, List.forall_mem_cons.mpr ⟨hbody, by simp⟩⟩)

/-- However the form is laid out, its string is read as it is. -/
theorem parseAll_form (memory : Bytes → Bool) (place : Place) {s src : Bytes}
    (h : Layout true (tokensOf [place.form (.string (N := N) s)]) src) :
    parseAll memory src = some (.ok [place.form (.string (N := N) s)]) := by
  have hforms : ∀ v ∈ [place.form (.string (N := N) s)], Written v :=
    List.forall_mem_cons.mpr ⟨written_form place s, by simp⟩
  have hread := @parseForms_layout N _ memory (parseFuel src) src _ hforms true h
    (by unfold parseFuel; omega)
  rw [parseAll, hread]
  rfl

end Forms

/-! ## JSON -/

/-- The document of the form. -/
def Place.document (s : Bytes) : Place → Json N
  | .lvc => .arr [.arr [.str (lit "lvc"), .str s]]
  | .option name key => .arr [.arr [.str name.text, .obj [(key.text, .str s)]]]
  | .filter => .arr [.arr [.str (lit "on"), .str s, .arr [.str (lit "do")]]]

theorem parseJsonPatchbay_document {readJson : Bytes → Except ℕ (Json N)} {place : Place}
    {s src : Bytes} (h : readJson src = .ok (place.document s)) :
    JsonForms.parseJsonPatchbay readJson src = .ok [place.form (JsonForms.stringValue s)] := by
  unfold JsonForms.parseJsonPatchbay
  rw [h]
  cases place with
  | lvc => rfl
  | option name key =>
    have hplain : JsonForms.specialText (N := N) key.text s = none := by
      rw [JsonForms.specialText, if_neg key.plain.1, if_neg key.plain.2.1, if_neg key.plain.2.2]
    simp [Place.document, JsonForms.convertForms, JsonForms.convertTop, JsonForms.convertForm,
      JsonForms.convertArgs, JsonForms.convertSpecial, hplain, JsonForms.convertPairs,
      JsonForms.convertExpr, JsonForms.followedBy, JsonForms.result, Place.form]
  | filter => rfl

theorem stringValue_eq_string {s : Bytes} :
    JsonForms.stringValue (N := N) s = .string s ↔ ∀ name ∈ JsonForms.boundNames, s ≠ lit name := by
  unfold JsonForms.stringValue
  split_ifs with hbound
  · simpa using hbound
  · simpa using hbound

/-! ## Lines of YAML -/

namespace Yaml

/-- A byte between double quotes as it is written. -/
def escapeByte (c : UInt8) : Bytes := if c = quote ∨ c = backslash then [backslash, c] else [c]

/-- The text between the quotes. -/
def escaped (s : Bytes) : Bytes := s.flatMap escapeByte

def quoted (s : Bytes) : Bytes := quote :: (escaped s ++ [quote])

/-- The scan of a line within double quotes. -/
def inQuotes : Scan := ⟨some quote, 0⟩

theorem stripComment_escapeByte (c : UInt8) {rest : Bytes} (hrest : rest ≠ []) :
    stripComment inQuotes (escapeByte c ++ rest) = escapeByte c ++ stripComment inQuotes rest := by
  obtain ⟨d, rest, rfl⟩ := List.exists_cons_of_ne_nil hrest
  unfold escapeByte
  split_ifs with hc
  · rfl
  · obtain ⟨hquote, hslash⟩ := not_or.mp hc
    simp [stripComment, inQuotes, Scan.plain, Scan.escapes, Scan.next, hquote, hslash]

theorem stripComment_escaped (s : Bytes) :
    stripComment inQuotes (escaped s ++ [quote]) = escaped s ++ [quote] := by
  induction s with
  | nil => rfl
  | cons c s ih =>
    have hne : escaped s ++ [quote] ≠ [] := by simp
    rw [escaped, List.flatMap_cons, List.append_assoc, ← escaped, stripComment_escapeByte c hne, ih]

/-- A byte that leaves the scan of a line as it is. -/
def Unmarked (c : UInt8) : Prop := isQuote c = false ∧ c ≠ lbracket ∧ c ≠ rbracket ∧ c ≠ hash

instance (c : UInt8) : Decidable (Unmarked c) := inferInstanceAs (Decidable (_ ∧ _))

theorem next_unmarked {c : UInt8} (h : Unmarked c) : Scan.start.next c = .start := by
  simp [Scan.next, Scan.start, h.1, h.2.1, h.2.2.1]

theorem stripComment_unmarked {front rest : Bytes} (h : ∀ c ∈ front, Unmarked c)
    (hrest : rest ≠ []) :
    stripComment .start (front ++ rest) = front ++ stripComment .start rest := by
  induction front with
  | nil => rfl
  | cons c front ih =>
    obtain ⟨hc, hfront⟩ := List.forall_mem_cons.mp h
    obtain ⟨d, tail, htail⟩ := List.exists_cons_of_ne_nil
      (List.append_ne_nil_of_right_ne_nil front hrest)
    have ih := ih hfront
    rw [htail] at ih
    have hhash : (c == hash) = false := by simpa using hc.2.2.2
    have hnot : Scan.start.escapes c = false := rfl
    rw [List.cons_append, List.cons_append, htail, stripComment, next_unmarked hc, hhash, hnot, ih]
    simp

/-- A line of a key and a quoted string has no comment. -/
theorem stripComment_quoted {front : Bytes} (h : ∀ c ∈ front, Unmarked c) (s : Bytes) :
    stripComment .start (front ++ quoted s) = front ++ quoted s := by
  have hstart : stripComment .start (quoted s) = quoted s := by
    have hrest := stripComment_escaped s
    obtain ⟨d, tail, htail⟩ : ∃ d tail, escaped s ++ [quote] = d :: tail :=
      List.exists_cons_of_ne_nil (by simp)
    rw [htail] at hrest
    rw [quoted, htail]
    exact congrArg (quote :: ·) hrest
  rw [stripComment_unmarked h (by simp [quoted]), hstart]

/-- The text of a line: it begins and ends with something, and there is no comment. -/
structure IsText (text : Bytes) : Prop where
  nonempty : text ≠ []
  head : text.head? ≠ some space ∧ text.head? ≠ some tab
  last : ∀ c ∈ text.getLast?, isBlank c = false ∧ c ≠ cr
  comment : stripComment .start text = text

theorem readLine_text (start indent : ℕ) {text : Bytes} (h : IsText text) :
    readLine start (List.replicate indent space ++ text) =
      .ok (some ⟨indent, text, start + indent⟩) := by
  have hlast : (List.replicate indent space ++ text).getLast? = text.getLast? := by
    rw [List.getLast?_append_of_ne_nil _ h.nonempty]
  have hcr : (List.replicate indent space ++ text).getLast? ≠ some cr := by
    rw [hlast]
    exact fun hc => (h.last cr hc).2 rfl
  obtain ⟨c, rest, rfl⟩ := List.exists_cons_of_ne_nil h.nonempty
  have hc : (c == space) = false := by simpa using h.head.1
  have hspaces : ∀ c ∈ List.replicate indent space, (c == space) = true := by
    intro c hc
    rw [List.eq_of_mem_replicate hc]
    rfl
  have htake : (List.replicate indent space ++ c :: rest).takeWhile (· == space) =
      List.replicate indent space := by
    rw [List.takeWhile_append_of_pos hspaces, List.takeWhile_cons_of_neg (by simp [hc]),
      List.append_nil]
  have hdrop : (List.replicate indent space ++ c :: rest).dropWhile (· == space) = c :: rest := by
    rw [List.dropWhile_append_of_pos hspaces, List.dropWhile_cons_of_neg (by simp [hc])]
  have hblank : (c :: rest).rdropWhile isBlank = c :: rest := by
    rw [List.rdropWhile_eq_self_iff]
    intro hne
    simpa using (h.last _ (List.getLast?_eq_some_getLast hne)).1
  unfold readLine
  simp only [if_neg hcr, htake, hdrop, if_neg h.head.2, h.comment, hblank, List.length_replicate]
  rfl

/-- The lines of a source, each with its indent, with a newline between them. -/
def joinLines (lines : List (ℕ × Bytes)) : Bytes :=
  [lf].intercalate (lines.map fun l => List.replicate l.1 space ++ l.2)

/-- The lines as they are collected; the offset of each is where its text begins. -/
def linesFrom (start : ℕ) : List (ℕ × Bytes) → List Line
  | [] => []
  | (indent, text) :: rest =>
    ⟨indent, text, start + indent⟩ :: linesFrom (start + (indent + text.length) + 1) rest

theorem collectLines_joined {lines : List (ℕ × Bytes)} (htext : ∀ l ∈ lines, IsText l.2)
    (hline : ∀ l ∈ lines, lf ∉ l.2) (hne : lines ≠ []) :
    collectLines 0 ((joinLines lines).splitOn lf) = .ok (linesFrom 0 lines) := by
  have hsplit : (joinLines lines).splitOn lf =
      lines.map fun l => List.replicate l.1 space ++ l.2 := by
    apply List.splitOn_intercalate
    · intro raw hraw
      obtain ⟨l, hl, rfl⟩ := List.mem_map.mp hraw
      intro hmem
      rcases List.mem_append.mp hmem with hmem | hmem
      · exact absurd (List.eq_of_mem_replicate hmem) (by decide)
      · exact hline l hl hmem
    · simpa using hne
  rw [hsplit]
  clear hsplit hline hne
  generalize 0 = start
  induction lines generalizing start with
  | nil => rfl
  | cons l lines ih =>
    obtain ⟨hl, hlines⟩ := List.forall_mem_cons.mp htext
    rw [List.map_cons, collectLines, readLine_text start l.1 hl]
    dsimp only
    rw [ih hlines, List.length_append, List.length_replicate]
    rfl

/-! ## Keys and values -/

theorem trim_self {s : Bytes} (hhead : ∀ c ∈ s.head?, isBlank c = false)
    (hlast : ∀ c ∈ s.getLast?, isBlank c = false) : trim s = s := by
  have hdrop : s.dropWhile isBlank = s := by
    cases s with
    | nil => rfl
    | cons c s => rw [List.dropWhile_cons_of_neg (by simp [hhead c rfl])]
  rw [trim, hdrop, List.rdropWhile_eq_self_iff]
  intro hne
  simpa using hlast _ (List.getLast?_eq_some_getLast hne)

theorem trim_space {s : Bytes} : trim (space :: s) = trim s := by
  rw [trim, List.dropWhile_cons_of_pos (by decide)]
  rfl

/-- A byte of a simple key. -/
def IsKeyByte (c : UInt8) : Prop := (isAlnum c || c == 0x5f || c == dash) = true

theorem IsKeyByte.plain {c : UInt8} (h : IsKeyByte c) :
    Unmarked c ∧ isBlank c = false ∧ c ≠ colon ∧ c ≠ lf ∧ c ≠ cr := by
  have hne : ∀ d : UInt8, ¬IsKeyByte d → c ≠ d := by
    rintro d hd rfl
    exact hd h
  have hquote := hne quote (by unfold IsKeyByte; decide)
  have hsingle := hne singleQuote (by unfold IsKeyByte; decide)
  have hspace := hne space (by unfold IsKeyByte; decide)
  have htab := hne tab (by unfold IsKeyByte; decide)
  refine ⟨⟨by simp [isQuote, hquote, hsingle], ?_, ?_, ?_⟩, by simp [isBlank, hspace, htab], ?_, ?_, ?_⟩
  all_goals
    apply hne
    unfold IsKeyByte
    decide

theorem simpleKey_iff {key : Bytes} :
    simpleKey key = true ↔ key ≠ [] ∧ ∀ c ∈ key, IsKeyByte c := by
  rw [simpleKey, Bool.and_eq_true, List.all_eq_true]
  simp [IsKeyByte]

theorem trim_key {key : Bytes} (h : ∀ c ∈ key, IsKeyByte c) : trim key = key := by
  apply trim_self
  · exact fun c hc => (h c (List.mem_of_mem_head? hc)).plain.2.1
  · exact fun c hc => (h c (List.mem_of_getLast? hc)).plain.2.1

theorem findKeyColon_scan {key before : Bytes} (hkey : ∀ c ∈ key, IsKeyByte c) {after : Bytes}
    (hafter : ∀ c ∈ after.head?, isBlank c = true) :
    findKeyColon .start before (key ++ colon :: after) =
      if simpleKey (trim (before ++ key)) then some (before ++ key, after) else none := by
  induction key generalizing before with
  | nil =>
    rw [List.nil_append, List.append_nil]
    cases after with
    | nil => rfl
    | cons d after =>
      simp [findKeyColon, hafter d rfl, Scan.plain, Scan.start]
  | cons c key ih =>
    obtain ⟨hc, hkey⟩ := List.forall_mem_cons.mp hkey
    obtain ⟨d, tail, htail⟩ : ∃ d tail, key ++ colon :: after = d :: tail :=
      List.exists_cons_of_ne_nil (by simp)
    have hstep := @ih (before ++ [c]) hkey
    have hcolon : (c == colon) = false := by simpa using hc.plain.2.2.1
    have hnot : Scan.start.escapes c = false := rfl
    rw [htail] at hstep
    rw [List.cons_append, htail, findKeyColon, hcolon, hnot, next_unmarked hc.plain.1]
    simpa using hstep

/-- The key of a line, and what is behind its colon. -/
theorem findKeyColon_key {key : Bytes} (hkey : simpleKey key = true) {after : Bytes}
    (hafter : ∀ c ∈ after.head?, isBlank c = true) :
    findKeyColon .start [] (key ++ colon :: after) = some (key, after) := by
  have hbytes := (simpleKey_iff.mp hkey).2
  rw [findKeyColon_scan hbytes hafter, List.nil_append, trim_key hbytes, if_pos hkey]

theorem trim_quoted (s : Bytes) : trim (quoted s) = quoted s := by
  apply trim_self
  · rintro c hc
    cases hc
    decide
  · intro c hc
    rw [quoted, List.getLast?_cons, List.getLast?_concat] at hc
    cases hc
    decide

theorem readScalar_quoted [Number N] (s : Bytes) :
    readScalar (N := N) (quoted s) = .text (escaped s) := by
  have hquoted : isQuotedBy quote (quoted s) = true := by
    have hlast : (quoted s).getLast? = some quote := by
      rw [quoted, List.getLast?_cons, List.getLast?_concat]
      rfl
    have hhead : (quoted s).head? = some quote := rfl
    have hlength : 2 ≤ (quoted s).length := by
      simp [quoted]
    simp [isQuotedBy, hlast, hlength, hhead]
  have htext : (quoted s).tail.dropLast = escaped s := by
    rw [quoted, List.tail_cons, List.dropLast_concat]
  unfold readScalar
  rw [trim_quoted]
  simp only [hquoted, Bool.true_or, if_true, htext]

theorem inlineNode_quoted [Number N] (s : Bytes) (offset : ℕ) (rest : List Line) :
    inlineNode (N := N) (trim (space :: quoted s)) offset rest =
      Parsing.Parsed.done (.scalar offset (.text (escaped s))) rest := by
  have hread := @readScalar_quoted N _ s
  have htrim := trim_quoted s
  rw [trim_space, htrim]
  unfold inlineNode inlineValue
  rw [htrim]
  rw [quoted] at hread ⊢
  dsimp only
  rw [if_neg (by decide), hread]
  rfl

/-! ## Blocks -/

theorem isText_quoted {front : Bytes} (hne : front ≠ [])
    (hhead : front.head? ≠ some space ∧ front.head? ≠ some tab) (h : ∀ c ∈ front, Unmarked c)
    (s : Bytes) : IsText (front ++ quoted s) where
  nonempty := by simp [hne]
  head := by
    rw [List.head?_append_of_ne_nil _ hne]
    exact hhead
  last := by
    intro c hc
    rw [List.getLast?_append_of_ne_nil _ (by simp [quoted]), quoted, List.getLast?_cons,
      List.getLast?_concat] at hc
    cases hc
    decide
  comment := stripComment_quoted h s

/-- A pair on one line. -/
def pairLine (key s : Bytes) : Bytes := key ++ colon :: space :: quoted s

theorem isText_pairLine {key : Bytes} (hkey : simpleKey key = true) (s : Bytes) :
    IsText (pairLine key s) := by
  obtain ⟨hne, hbytes⟩ := simpleKey_iff.mp hkey
  obtain ⟨c, rest, rfl⟩ := List.exists_cons_of_ne_nil hne
  have hblank := (hbytes c List.mem_cons_self).plain.2.1
  simp only [isBlank, Bool.or_eq_false_iff, beq_eq_false_iff_ne] at hblank
  have hfront : ∀ b ∈ (c :: rest) ++ [colon, space], Unmarked b := by
    intro b hb
    rcases List.mem_append.mp hb with hb | hb
    · exact (hbytes b hb).plain.1
    · simp only [List.mem_cons, List.not_mem_nil, or_false] at hb
      rcases hb with rfl | rfl <;> decide
  have htext := isText_quoted (List.cons_ne_nil c _) (by simpa using hblank) hfront s
  simpa [pairLine] using htext

theorem lf_not_mem_quoted {s : Bytes} (h : lf ∉ s) : lf ∉ quoted s := by
  have hescaped : lf ∉ escaped s := by
    intro hmem
    obtain ⟨c, hc, hmem⟩ := List.mem_flatMap.mp hmem
    unfold escapeByte at hmem
    split_ifs at hmem with hspecial
    · simp only [List.mem_cons, List.not_mem_nil, or_false] at hmem
      rcases hmem with hmem | rfl
      · exact absurd hmem (by decide)
      · exact h hc
    · rw [List.mem_singleton] at hmem
      exact h (hmem ▸ hc)
  have hquote : lf ≠ quote := by decide
  simp [quoted, hescaped, hquote]

theorem isSeq_key {key : Bytes} (hkey : simpleKey key = true) (indent offset : ℕ) (rest : Bytes) :
    Line.isSeq ⟨indent, key ++ colon :: rest, offset⟩ = false := by
  obtain ⟨hne, hbytes⟩ := simpleKey_iff.mp hkey
  obtain ⟨c, tail, rfl⟩ := List.exists_cons_of_ne_nil hne
  have hspace : ∀ d, IsKeyByte d → (d == space) = false := by
    intro d hd
    have hblank := hd.plain.2.1
    simp only [isBlank, Bool.or_eq_false_iff] at hblank
    exact hblank.1
  cases tail with
  | nil => simp [Line.isSeq, colon, space]
  | cons d tail =>
    have hd := hspace d (hbytes d (by simp))
    simp [Line.isSeq, hd]

section Blocks

variable [Number N] {stop : ℕ}

/-- A pair with a quoted string is read from its line. -/
theorem mapPair_quoted {key : Bytes} (hkey : simpleKey key = true) (s : Bytes)
    (block : ℕ → List Line → Block (Node N)) (indent offset : ℕ) (rest : List Line) :
    mapPair block ⟨indent, pairLine key s, offset⟩ rest =
      Parsing.Parsed.done (key, .scalar (offset + key.length + 1) (.text (escaped s))) rest := by
  obtain ⟨hne, hbytes⟩ := simpleKey_iff.mp hkey
  have hvalue : trim (space :: quoted s) ≠ [] := by
    rw [trim_space, trim_quoted]
    exact List.cons_ne_nil _ _
  have hcolon : findKeyColon .start [] (key ++ colon :: space :: quoted s) =
      some (key, space :: quoted s) := by
    apply findKeyColon_key hkey
    rintro c hc
    cases hc
    decide
  unfold mapPair pairLine
  rw [hcolon]
  dsimp only
  rw [if_neg hvalue, inlineNode_quoted, Parsing.Parsed.done_andThen, putPair, trim_key hbytes]
  simp [hne]

/-- A pair whose value is the block below. -/
theorem mapPair_nested {key : Bytes} (hkey : simpleKey key = true)
    (block : ℕ → List Line → Block (Node N)) (indent offset : ℕ) (child : Line)
    (rest rest' : List Line) (node : Node N) (hindent : indent < child.indent)
    (hblock : block child.indent (child :: rest) = Parsing.Parsed.done node rest') :
    mapPair block ⟨indent, key ++ [colon], offset⟩ (child :: rest) =
      Parsing.Parsed.done (key, node) rest' := by
  obtain ⟨hne, hbytes⟩ := simpleKey_iff.mp hkey
  have hcolon : findKeyColon .start [] (key ++ [colon]) = some (key, []) :=
    findKeyColon_key hkey (by simp)
  have htrim : trim [] = [] := rfl
  unfold mapPair
  rw [hcolon]
  dsimp only
  rw [if_pos htrim, nested, if_neg (by omega), hblock, Parsing.Parsed.done_andThen, putPair,
    trim_key hbytes]
  simp [hne]

/-- A map of one pair that is at the end of the lines. -/
theorem parseBlock_pair {line : Line} {key : Bytes} {node : Node N} {rest : List Line}
    {fuel : ℕ} (hseq : line.isSeq = false)
    (hpair : mapPair (parseBlock stop fuel) line rest = Parsing.Parsed.done (key, node) [])
    (hfuel : fuel ≠ 0) :
    parseBlock stop (fuel + 2) line.indent (line :: rest) =
      Parsing.Parsed.done (.map line.offset [(key, node)]) [] := by
  obtain ⟨fuel, rfl⟩ := Nat.exists_eq_succ_of_ne_zero hfuel
  have hnone : mapPairs (N := N) stop (fuel + 1) line.indent [] = Parsing.Parsed.done [] [] := by
    rw [mapPairs]
  rw [parseBlock, if_neg (by simp), hseq, if_neg Bool.false_ne_true, mapPairs,
    if_pos ⟨rfl, hseq⟩, hpair, Parsing.Parsed.done_andThen, hnone, Parsing.Parsed.done_andThen,
    Parsing.Parsed.done_andThen]
  rfl

theorem inlineNode_empty (offset : ℕ) (rest : List Line) :
    inlineNode (N := N) (trim (lit " []")) offset rest =
      Parsing.Parsed.done (.list offset []) rest := by
  have htrim : trim (lit " []") = lit "[]" := by decide
  have htrim' : trim (lit "[]") = lit "[]" := by decide
  unfold inlineNode inlineValue
  rw [htrim, htrim']
  change Option.map _ (if lbracket = lbracket then _ else _) = _
  rw [if_pos rfl]
  rfl

/-- The lines of a rule with an empty body. -/
def ruleLines (s : Bytes) (offset offset' : ℕ) : List Line :=
  [⟨2, lit "- " ++ pairLine (lit "sub") s, offset⟩, ⟨4, lit "do: []", offset'⟩]

theorem childPairs_do (offset : ℕ) {fuel : ℕ} (hfuel : fuel ≠ 0) :
    ∃ o, childPairs (N := N) stop (fuel + 1) 2 [⟨4, lit "do: []", offset⟩] =
      Parsing.Parsed.done [(lit "do", .list o [])] [] := by
  obtain ⟨fuel, rfl⟩ := Nat.exists_eq_succ_of_ne_zero hfuel
  have hcolon : findKeyColon .start [] (lit "do: []") = some (lit "do", lit " []") := by decide
  have hseq : Line.isSeq ⟨4, lit "do: []", offset⟩ = false := rfl
  have hnone : childPairs (N := N) stop (fuel + 1) 2 [] = Parsing.Parsed.done [] [] := by
    rw [childPairs]
  refine ⟨offset + (lit "do").length + 1, ?_⟩
  rw [childPairs, if_pos (show 2 < 4 by decide), if_neg (by simp [hseq]), mapPair, hcolon]
  dsimp only
  rw [if_neg (by decide), inlineNode_empty, Parsing.Parsed.done_andThen, putPair,
    if_neg (by decide), Parsing.Parsed.done_andThen, hnone, Parsing.Parsed.done_andThen]
  rfl

theorem parseBlock_rule (s : Bytes) (offset offset' : ℕ) {fuel : ℕ} (hfuel : fuel ≠ 0) :
    ∃ o o' o'', parseBlock (N := N) stop (fuel + 3) 2 (ruleLines s offset offset') =
      Parsing.Parsed.done (.list o [.map o [(lit "sub", .scalar o' (.text (escaped s))),
        (lit "do", .list o'' [])]]) [] := by
  obtain ⟨o'', hdo⟩ := @childPairs_do N _ stop offset' fuel hfuel
  obtain ⟨fuel, rfl⟩ := Nat.exists_eq_succ_of_ne_zero hfuel
  have hseq : Line.isSeq ⟨2, lit "- " ++ pairLine (lit "sub") s, offset⟩ = true := rfl
  have hnone : seqItems (N := N) stop (fuel + 2) 2 [] = Parsing.Parsed.done [] [] := by
    rw [seqItems]
  have htext := @isText_pairLine (lit "sub") (by decide) s
  have hitem : trim (lit "- " ++ pairLine (lit "sub") s).tail = pairLine (lit "sub") s := by
    change trim (space :: pairLine (lit "sub") s) = _
    rw [trim_space]
    apply trim_self
    · rintro c hc
      cases hc
      decide
    · exact fun c hc => (htext.last c hc).1
  have hcolon : findKeyColon .start [] (pairLine (lit "sub") s) =
      some (lit "sub", space :: quoted s) := by
    apply findKeyColon_key (by decide)
    rintro c hc
    cases hc
    decide
  have hvalue : trim (space :: quoted s) ≠ [] := by
    rw [trim_space, trim_quoted]
    exact List.cons_ne_nil _ _
  refine ⟨offset, offset + (1 + leadingBlanks (space :: pairLine (lit "sub") s)) +
    (lit "sub").length + 1 + leadingBlanks (space :: quoted s), o'', ?_⟩
  rw [ruleLines, parseBlock, if_neg (by simp), hseq, if_pos rfl, seqItems, if_pos ⟨rfl, hseq⟩]
  dsimp only
  rw [hitem, if_neg htext.nonempty, hcolon]
  dsimp only
  unfold firstPair
  rw [if_neg hvalue, inlineNode_quoted, Parsing.Parsed.done_andThen, putPair,
    if_neg (by decide), Parsing.Parsed.done_andThen, hdo, Parsing.Parsed.done_andThen,
    Parsing.Parsed.done_andThen, hnone, Parsing.Parsed.done_andThen, Parsing.Parsed.done_andThen]
  rfl

theorem parseTree_of_block {line : Line} {rest : List Line} {root : Node N}
    (h : parseBlock stop (2 * (rest.length + 1) + 1 + 2) line.indent (line :: rest) =
      Parsing.Parsed.done root []) :
    parseTree stop (line :: rest) = some (.ok root) := by
  unfold parseTree
  change (parseBlock stop (2 * (rest.length + 1) + 1 + 2) line.indent (line :: rest)).map _ = _
  rw [h]
  rfl

end Blocks

end Yaml

/-! ## The form in YAML -/

section Yaml

open Yaml

/-- The lines of the form, with the string in double quotes. -/
def Place.lines (s : Bytes) : Place → List (ℕ × Bytes)
  | .lvc => [(0, pairLine (lit "lvc") s)]
  | .option name key => [(0, name.text ++ [colon]), (2, pairLine key.text s)]
  | .filter => [(0, lit "on" ++ [colon]), (2, lit "- " ++ pairLine (lit "sub") s), (4, lit "do: []")]

/-- What the text between the quotes is lowered to. -/
def Place.lowered (text : Bytes) : Place → Value N
  | .filter => .string text
  | _ => lowerScalar false (.text text)

theorem simpleKey_configName (name : ConfigName) : simpleKey name.text = true := by
  cases name <;> decide

theorem isText_lines (place : Place) (s : Bytes) : ∀ l ∈ place.lines s, IsText l.2 := by
  have hname : ∀ name : ConfigName, IsText (name.text ++ [colon]) := by
    intro name
    cases name <;> exact ⟨by decide, by decide, by decide +kernel, by decide⟩
  have hfront : ∀ c ∈ lit "- sub: ", Unmarked c := by decide +kernel
  cases place with
  | lvc => simpa [Place.lines] using isText_pairLine (by decide) s
  | option name key => simpa [Place.lines] using ⟨hname name, isText_pairLine key.simple s⟩
  | filter =>
    have hon : IsText (lit "on" ++ [colon]) := ⟨by decide, by decide, by decide +kernel, by decide⟩
    have hsub : IsText (lit "- " ++ pairLine (lit "sub") s) :=
      isText_quoted (by decide) (by decide) hfront s
    have hdo : IsText (lit "do: []") := ⟨by decide, by decide, by decide +kernel, by decide⟩
    simpa [Place.lines] using ⟨hon, hsub, hdo⟩

theorem lf_not_mem_lines (place : Place) {s : Bytes} (h : lf ∉ s) :
    ∀ l ∈ place.lines s, lf ∉ l.2 := by
  have hquoted := lf_not_mem_quoted h
  have hpair : ∀ key, simpleKey key = true → lf ∉ pairLine key s := by
    intro key hkey hmem
    rcases List.mem_append.mp hmem with hmem | hmem
    · exact ((simpleKey_iff.mp hkey).2 lf hmem).plain.2.2.2.1 rfl
    · simp only [List.mem_cons, hquoted, or_false] at hmem
      exact absurd hmem (by decide)
  cases place with
  | lvc => simpa [Place.lines] using hpair _ (by decide)
  | option name key =>
    have hname : lf ∉ name.text ++ [colon] := by
      cases name <;> decide
    exact List.forall_mem_cons.mpr ⟨hname, List.forall_mem_singleton.mpr (hpair _ key.simple)⟩
  | filter =>
    have hsub : lf ∉ lit "- " ++ pairLine (lit "sub") s := by
      intro hmem
      rcases List.mem_append.mp hmem with hmem | hmem
      · exact absurd hmem (by decide)
      · exact hpair _ (by decide) hmem
    exact List.forall_mem_cons.mpr ⟨by decide,
      List.forall_mem_cons.mpr ⟨hsub, List.forall_mem_singleton.mpr (by decide)⟩⟩

variable [Number N]

omit [Number N] in
theorem lowerSection_config (name : ConfigName) (v : Node N) :
    lowerSection name.text v = (lowerConfigForm name.text v).map fun form => [form] := by
  cases name <;> rfl

/-- The tree of the lines is lowered to the form. -/
theorem parseTree_lines (place : Place) (s : Bytes) (stop : ℕ) :
    ∃ root : Node N, parseTree stop (linesFrom 0 (place.lines s)) = some (.ok root) ∧
      lowerRoot root = some [place.form (place.lowered (escaped s))] := by
  cases place with
  | lvc =>
    have hpair := @mapPair_quoted N _ (lit "lvc") (by decide) s (parseBlock stop 3) 0 0 []
    have hblock := parseBlock_pair (isSeq_key (by decide) 0 0 _) hpair (by decide)
    refine ⟨_, parseTree_of_block hblock, ?_⟩
    rfl
  | option name key =>
    have hpair := @mapPair_quoted N _ key.text key.simple s (parseBlock stop 3) 2
      (0 + (0 + (name.text ++ [colon]).length) + 1 + 2) []
    have hblock := parseBlock_pair (isSeq_key key.simple _ _ _) hpair (by decide)
    have houter := mapPair_nested (simpleKey_configName name) (parseBlock stop 5) 0 0 _ [] [] _
      (show 0 < 2 by decide) hblock
    have hroot := parseBlock_pair (isSeq_key (simpleKey_configName name) 0 0 _) houter (by decide)
    refine ⟨_, parseTree_of_block hroot, ?_⟩
    simp [lowerRoot, lowerSection_config, lowerConfigForm, lowerConfigPairs, lowerConfig, Place.form,
      Place.lowered]
  | filter =>
    obtain ⟨o, o', o'', hblock⟩ := @parseBlock_rule N _ stop s
      (0 + (0 + (lit "on" ++ [colon]).length) + 1 + 2)
      (0 + (0 + (lit "on" ++ [colon]).length) + 1 +
        (2 + (lit "- " ++ pairLine (lit "sub") s).length) + 1 + 4) 4 (by decide)
    have houter := @mapPair_nested N _ (lit "on") (by decide) (parseBlock stop 7) 0 0
      ⟨2, lit "- " ++ pairLine (lit "sub") s, _⟩ [⟨4, lit "do: []", _⟩] [] _
      (show 0 < 2 by decide) hblock
    have hroot := parseBlock_pair (@isSeq_key (lit "on") (by decide) 0 0 []) houter (by decide)
    refine ⟨_, parseTree_of_block hroot, ?_⟩
    rfl

theorem lines_ne_nil (place : Place) (s : Bytes) : place.lines s ≠ [] := by
  cases place <;> simp [Place.lines]

/-- The form is read with what is between the quotes, the escapes still in it. -/
theorem parseYamlPatchbay_lines (place : Place) {s : Bytes} (h : lf ∉ s) :
    parseYamlPatchbay (N := N) (joinLines (place.lines s)) =
      some (.ok [place.form (place.lowered (escaped s))]) := by
  have hcollect := collectLines_joined (isText_lines place s) (lf_not_mem_lines place h)
    (lines_ne_nil place s)
  obtain ⟨root, hroot, hlower⟩ :=
    parseTree_lines (N := N) place s (joinLines (place.lines s)).length
  unfold parseYamlPatchbay
  rw [hcollect]
  cases hlines : linesFrom 0 (place.lines s) with
  | nil => cases place <;> simp [Place.lines, linesFrom] at hlines
  | cons line lines =>
    rw [hlines] at hroot
    simp [hroot, hlower]

theorem length_le_escaped (s : Bytes) : s.length ≤ (escaped s).length := by
  induction s with
  | nil => simp
  | cons c s ih =>
    have hbyte : 1 ≤ (escapeByte c).length := by
      unfold escapeByte
      split_ifs <;> simp
    simp only [escaped, List.flatMap_cons, List.length_append, List.length_cons] at ih ⊢
    omega

/-- Only a string with nothing to escape is written as it is. -/
theorem escaped_eq_self {s : Bytes} : escaped s = s ↔ quote ∉ s ∧ backslash ∉ s := by
  induction s with
  | nil => simp [escaped]
  | cons c s ih =>
    have hcons : escaped (c :: s) = escapeByte c ++ escaped s := rfl
    by_cases hc : c = quote ∨ c = backslash
    · have hlonger : escaped (c :: s) ≠ c :: s := by
        intro heq
        have hlength := congrArg List.length heq
        have hle := length_le_escaped s
        rw [hcons, escapeByte, if_pos hc] at hlength
        simp only [List.length_append, List.length_cons, List.length_nil] at hlength
        omega
      have hmem : ¬ (quote ∉ c :: s ∧ backslash ∉ c :: s) := by
        rintro ⟨hquote, hslash⟩
        rcases hc with rfl | rfl
        · exact hquote List.mem_cons_self
        · exact hslash List.mem_cons_self
      simp only [hlonger, hmem]
    · obtain ⟨hquote, hslash⟩ := not_or.mp hc
      rw [hcons, escapeByte, if_neg hc, List.singleton_append, List.cons_inj_right, ih]
      simp [Ne.symm hquote, Ne.symm hslash]

/-- A text that YAML takes for a keyword outside the rules. -/
def KeywordLike (s : Bytes) : Prop := 1 < s.length ∧ s.head? = some colon

instance (s : Bytes) : Decidable (KeywordLike s) := inferInstanceAs (Decidable (_ ∧ _))

omit [Number N] in
theorem lowerScalar_eq_string {text s : Bytes} :
    lowerScalar (N := N) false (.text text) = .string s ↔ text = s ∧ ¬ KeywordLike text := by
  rcases text with _ | ⟨c, _ | ⟨d, name⟩⟩
  · simp [lowerScalar, KeywordLike]
  · simp [lowerScalar, KeywordLike]
  · by_cases hc : c = colon
    · simp [lowerScalar, KeywordLike, hc]
    · simp [lowerScalar, KeywordLike, hc]

omit [Number N] in
theorem lowered_eq_string {place : Place} {text s : Bytes} :
    place.lowered (N := N) text = .string s ↔
      text = s ∧ (place = .filter ∨ ¬ KeywordLike text) := by
  cases place with
  | filter => simp [Place.lowered]
  | lvc => simpa [Place.lowered] using lowerScalar_eq_string
  | option name key => simpa [Place.lowered] using lowerScalar_eq_string

end Yaml

/-! ## The three notations -/

section Notations

variable [Number N]

open Yaml

/-- A string in a form is read as itself in all three notations exactly when it does not name
a bound symbol, has nothing to escape, and is not a keyword to YAML where it stands. -/
theorem means_itself_iff (memory : Bytes → Bool) {readJson : Bytes → Except ℕ (Json N)}
    (place : Place) {s edn json : Bytes} (hline : lf ∉ s)
    (hedn : Layout true (tokensOf [place.form (.string (N := N) s)]) edn)
    (hjson : readJson json = .ok (place.document s)) :
    (parseAll memory edn = some (.ok [place.form (.string (N := N) s)]) ∧
      JsonForms.parseJsonPatchbay readJson json = .ok [place.form (.string s)] ∧
      parseYamlPatchbay (joinLines (place.lines s)) =
        some (.ok [place.form (.string (N := N) s)])) ↔
    (∀ name ∈ JsonForms.boundNames, s ≠ lit name) ∧ quote ∉ s ∧ backslash ∉ s ∧
      (place = .filter ∨ ¬ KeywordLike s) := by
  have hJson : JsonForms.parseJsonPatchbay readJson json = .ok [place.form (.string s)] ↔
      ∀ name ∈ JsonForms.boundNames, s ≠ lit name := by
    rw [parseJsonPatchbay_document hjson, ← stringValue_eq_string (N := N)]
    constructor
    · intro h
      simp only [Except.ok.injEq, List.cons.injEq, and_true] at h
      exact form_injective place h
    · intro h
      rw [h]
  have hYaml : parseYamlPatchbay (joinLines (place.lines s)) =
        some (.ok [place.form (.string (N := N) s)]) ↔
      quote ∉ s ∧ backslash ∉ s ∧ (place = .filter ∨ ¬ KeywordLike s) := by
    rw [parseYamlPatchbay_lines place hline, ← and_assoc, ← escaped_eq_self]
    constructor
    · intro h
      simp only [Option.some.injEq, Except.ok.injEq, List.cons.injEq, and_true] at h
      obtain ⟨hself, hplain⟩ := lowered_eq_string.mp (form_injective place h)
      rw [hself] at hplain
      exact ⟨hself, hplain⟩
    · rintro ⟨hself, hplain⟩
      rw [hself, lowered_eq_string.mpr ⟨rfl, hplain⟩]
  rw [hJson, hYaml]
  constructor
  · exact fun h => h.2
  · exact fun h => ⟨parseAll_form memory place hedn, h⟩

/-- The password of an import. -/
def password : Place := .option .«import» ⟨lit "password", by decide, by decide⟩

omit [Number N] in
theorem layout_password (s : Bytes) :
    Layout true (tokensOf [password.form (.string (N := N) s)])
      ([] ++ (lit "(" ++ (lit " " ++ (lit "import" ++ (lit " " ++ (lit ":password" ++ (lit " " ++
        (stringToken s ++ (lit " " ++ (lit ")" ++ [])))))))))) := by
  have hne : false = false → lit " " ≠ [] := fun _ => by decide
  apply Layout.cons .nil (fun h => by cases h)
  apply Layout.cons gap_space hne
  apply Layout.cons gap_space hne
  apply Layout.cons gap_space hne
  exact .cons gap_space hne (.nil .nil)

/-- A password with a point in it is itself in all three. -/
theorem means_itself_password :
    parseAll (N := ℚ) (fun _ => true) (lit "( import :password \"a.b\" )") =
        some (.ok [password.form (.string (lit "a.b"))]) ∧
      JsonForms.parseJsonPatchbay (N := ℚ) (fun _ => .ok (password.document (lit "a.b")))
          (lit "[[\"import\",\x7b\"password\":\"a.b\"\x7d]]") =
        .ok [password.form (.string (lit "a.b"))] ∧
      parseYamlPatchbay (N := ℚ) (lit "import:\n  password: \"a.b\"") =
        some (.ok [password.form (.string (lit "a.b"))]) := by
  have hsource : joinLines (password.lines (lit "a.b")) =
      lit "import:\n  password: \"a.b\"" := by decide
  have hall := (@means_itself_iff ℚ _ (fun _ => true) (fun _ => .ok (password.document (lit "a.b")))
    password (lit "a.b") _ (lit "[[\"import\",\x7b\"password\":\"a.b\"\x7d]]") (by decide)
    (layout_password (lit "a.b")) rfl).mpr ⟨by decide, by decide, by decide, .inr (by decide)⟩
  rw [hsource] at hall
  exact hall

/-- A password with a colon in front is a keyword in YAML only, and one that is called as a
bound symbol is a symbol in JSON only. -/
theorem password_not_itself :
    (parseAll (N := ℚ) (fun _ => true) (lit "( import :password \":secret\" )") =
        some (.ok [password.form (.string (lit ":secret"))]) ∧
      parseYamlPatchbay (N := ℚ) (lit "import:\n  password: \":secret\"") =
        some (.ok [password.form (.keyword (lit "secret"))])) ∧
    (parseAll (N := ℚ) (fun _ => true) (lit "( import :password \"payload\" )") =
        some (.ok [password.form (.string (lit "payload"))]) ∧
      JsonForms.parseJsonPatchbay (N := ℚ) (fun _ => .ok (password.document (lit "payload")))
          (lit "[[\"import\",\x7b\"password\":\"payload\"\x7d]]") =
        .ok [password.form (.symbol (lit "payload"))]) ∧
    ¬ ∀ (place : Place) (s : Bytes), lf ∉ s →
        parseYamlPatchbay (N := ℚ) (joinLines (place.lines s)) =
          some (.ok [place.form (.string s)]) := by
  have hyaml : parseYamlPatchbay (N := ℚ) (joinLines (password.lines (lit ":secret"))) =
      some (.ok [password.form (.keyword (lit "secret"))]) := by
    apply parseYamlPatchbay_lines
    decide
  have hsource : joinLines (password.lines (lit ":secret")) =
      lit "import:\n  password: \":secret\"" := by decide
  have hjson : JsonForms.stringValue (N := ℚ) (lit "payload") = .symbol (lit "payload") := rfl
  refine ⟨⟨?_, ?_⟩, ⟨?_, ?_⟩, ?_⟩
  · exact parseAll_form _ password (layout_password (lit ":secret"))
  · rw [← hsource, hyaml]
  · exact parseAll_form _ password (layout_password (lit "payload"))
  · rw [← hjson]
    exact parseJsonPatchbay_document rfl
  · intro h
    have hself := h password (lit ":secret") (by decide)
    rw [hyaml] at hself
    simp [password, Place.form] at hself

end Notations

end Monoblok.Patchbay
