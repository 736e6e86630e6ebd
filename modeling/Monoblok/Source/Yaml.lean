import Monoblok.Source.Sexpr

/-!
# Reading YAML

The first half of `pb_yaml.c`: the lines of a source, and the tree of lists, maps and
scalars they stand for. An error is the offset where the source goes wrong; only the
first is kept, and it ends the parse. Memory does not run out.
-/

namespace Monoblok.Patchbay.Yaml

open Number Parsing Sexpr

variable {N : Type}

def singleQuote : UInt8 := 0x27
def comma : UInt8 := 0x2c
def dash : UInt8 := 0x2d
def hash : UInt8 := 0x23

/-! ## Trees -/

inductive Scalar (N : Type) where
  | text (s : Bytes)
  | number (n : N)
  | bool (b : Bool)
  | null

/-- `y_node`, each with the offset it was read at -/
inductive Node (N : Type) where
  | scalar (offset : ℕ) (v : Scalar N)
  | list (offset : ℕ) (items : List (Node N))
  | map (offset : ℕ) (pairs : List (Bytes × Node N))

def Node.offset : Node N → ℕ
  | .scalar offset _ => offset
  | .list offset _ => offset
  | .map offset _ => offset

/-! ## Lines -/

/-- `y_line`: a line without its indent, its comment and the blanks at its end. -/
structure Line where
  indent : ℕ
  text : Bytes
  offset : ℕ

def isBlank (c : UInt8) : Bool := c == space || c == tab

def isQuote (c : UInt8) : Bool := c == quote || c == singleQuote

/-- `trim_slice` -/
def trim (s : Bytes) : Bytes := (s.dropWhile isBlank).rdropWhile isBlank

def leadingBlanks (s : Bytes) : ℕ := (s.takeWhile isBlank).length

/-- Where a scan of a line is: within quotes, or within so many brackets. -/
structure Scan where
  quoted : Option UInt8
  depth : ℕ

def Scan.start : Scan := ⟨none, 0⟩

/-- One byte further; a backslash in double quotes takes the next byte with it, which is
what `escapes` tells. -/
def Scan.next (s : Scan) (c : UInt8) : Scan :=
  match s.quoted with
  | some q => if c = q then ⟨none, s.depth⟩ else s
  | none =>
    if isQuote c then ⟨some c, s.depth⟩
    else if c = lbracket then ⟨none, s.depth + 1⟩
    else if c = rbracket then ⟨none, s.depth - 1⟩
    else s

def Scan.escapes (s : Scan) (c : UInt8) : Bool := s.quoted == some quote && c == backslash

/-- Outside of quotes and brackets. -/
def Scan.plain (s : Scan) : Bool := s.quoted.isNone && s.depth == 0

/-- What is before the comment. -/
def stripComment (s : Scan) : Bytes → Bytes
  | [] => []
  | [c] => if s.plain && c == hash then [] else [c]
  | c :: d :: rest =>
    if s.plain && c == hash then []
    else if s.escapes c then c :: d :: stripComment s rest
    else c :: stripComment (s.next c) (d :: rest)

/-- A line of `collect_lines` that begins at `start`, or the offset of a tab in its indent. -/
def readLine (start : ℕ) (raw : Bytes) : Except ℕ (Option Line) :=
  let raw := if raw.getLast? = some cr then raw.dropLast else raw
  let indent := (raw.takeWhile (· == space)).length
  let content := raw.dropWhile (· == space)
  if content.head? = some tab then .error (start + indent)
  else
    let text := (stripComment .start content).rdropWhile isBlank
    .ok (if text.isEmpty then none else some ⟨indent, text, start + indent⟩)

def collectLines (start : ℕ) : List Bytes → Except ℕ (List Line)
  | [] => .ok []
  | raw :: rest =>
    match readLine start raw with
    | .error offset => .error offset
    | .ok line => (collectLines (start + raw.length + 1) rest).map (line.toList ++ ·)

/-- `line_is_seq` -/
def Line.isSeq (line : Line) : Bool :=
  match line.text with
  | [c] => c == dash
  | c :: d :: _ => c == dash && d == space
  | [] => false

/-! ## Keys -/

def isAlnum (c : UInt8) : Bool :=
  isDigit c || decide (0x41 ≤ c ∧ c ≤ 0x5a) || decide (0x61 ≤ c ∧ c ≤ 0x7a)

def simpleKey (key : Bytes) : Bool :=
  !key.isEmpty && key.all fun c => isAlnum c || c == 0x5f || c == dash

/-- `find_key_colon`: what is before the colon and what is after it. -/
def findKeyColon (s : Scan) (before : Bytes) : Bytes → Option (Bytes × Bytes)
  | [] => none
  | [c] =>
    if s.plain && c == colon then
      if simpleKey (trim before) then some (before, []) else none
    else none
  | c :: d :: rest =>
    if s.plain && c == colon && isBlank d then
      if simpleKey (trim before) then some (before, d :: rest) else none
    else if s.escapes c then findKeyColon s (before ++ [c, d]) rest
    else findKeyColon (s.next c) (before ++ [c]) (d :: rest)

/-! ## Values on one line -/

def isQuotedBy (q : UInt8) (s : Bytes) : Bool :=
  decide (2 ≤ s.length) && s.head? == some q && s.getLast? == some q

/-- `scalar_from_slice` -/
def readScalar [Number N] (raw : Bytes) : Scalar N :=
  let raw := trim raw
  if isQuotedBy quote raw || isQuotedBy singleQuote raw then .text raw.tail.dropLast
  else if raw = lit "null" ∨ raw = lit "nil" ∨ raw = lit "~" then .null
  else if raw = lit "true" ∨ raw = lit "false" then .bool (raw == lit "true")
  else
    match (Patchbay.parseNumber raw : Option N) with
    | some n => .number n
    | none => .text raw

abbrev Flow (α : Type) := Parsed ℕ Bytes α

def skipBlanks (s : Bytes) : Bytes := s.dropWhile isBlank

/-- The rest of a quoted scalar with its closing quote, and what is after it. -/
def quotedText (q : UInt8) : Bytes → Option (Bytes × Bytes)
  | [] => none
  | [c] => if c = q then some ([c], []) else none
  | c :: d :: rest =>
    if c = q then some ([c], d :: rest)
    else if c = backslash ∧ q = quote then (quotedText q rest).map fun x => (c :: d :: x.1, x.2)
    else (quotedText q (d :: rest)).map fun x => (c :: x.1, x.2)

section Values

variable [Number N] (stop : ℕ)

/-- The offset of the rest of a text that ends at `stop`. -/
def offsetAt (rest : Bytes) : ℕ := stop - rest.length

/-- `parse_flow_scalar` -/
def flowScalar (s : Bytes) : Flow (Node N) :=
  match s with
  | c :: rest =>
    if isQuote c then
      match quotedText c rest with
      | some (text, rest') => .done (.scalar (offsetAt stop s) (readScalar (c :: text))) rest'
      | none => .fail (offsetAt stop s)
    else
      let raw := trim (s.takeWhile fun c => c != comma && c != rbracket)
      if raw.isEmpty then .fail (offsetAt stop s)
      else
        .done (.scalar (offsetAt stop s) (readScalar raw))
          (s.dropWhile fun c => c != comma && c != rbracket)
  | [] => .fail (offsetAt stop [])

mutual

/-- `parse_flow_value` -/
def flowValue : ℕ → Bytes → Flow (Node N)
  | 0, _ => none
  | fuel + 1, s =>
    match skipBlanks s with
    | c :: rest =>
      if c = lbracket then flowArray fuel (c :: rest) rest else flowScalar stop (c :: rest)
    | [] => flowScalar stop []

/-- `parse_flow_array`, from behind its bracket -/
def flowArray : ℕ → Bytes → Bytes → Flow (Node N)
  | 0, _, _ => none
  | fuel + 1, start, s =>
    match skipBlanks s with
    | c :: rest =>
      if c = rbracket then .done (.list (offsetAt stop start) []) rest
      else
        (flowItems fuel (c :: rest)).andThen fun items rest' =>
          .done (.list (offsetAt stop start) items) rest'
    | [] =>
      (flowItems fuel []).andThen fun items rest' => .done (.list (offsetAt stop start) items) rest'

/-- The loop over the items. -/
def flowItems : ℕ → Bytes → Flow (List (Node N))
  | 0, _ => none
  | fuel + 1, s =>
    (flowValue fuel s).andThen fun item rest =>
      match skipBlanks rest with
      | [] => .fail stop
      | c :: rest' =>
        if c = rbracket then .done [item] rest'
        else if c = comma then
          (flowItems fuel (skipBlanks rest')).andThen fun items rest'' =>
            .done (item :: items) rest''
        else .fail (offsetAt stop (c :: rest'))

end

/-- Enough for the values on one line. -/
def flowFuel (s : Bytes) : ℕ := 3 * s.length + 3

/-- `parse_inline_value` -/
def inlineValue (raw : Bytes) (offset : ℕ) : Option (Except ℕ (Node N)) :=
  match trim raw with
  | [] => some (.error offset)
  | c :: rest =>
    if c = lbracket then
      let stop := offset + (c :: rest).length
      (flowArray stop (flowFuel (c :: rest)) (c :: rest) rest).map fun r =>
        match r with
        | .error e => .error e
        | .ok (node, rest') =>
          if skipBlanks rest' = [] then .ok node else .error (offsetAt stop (skipBlanks rest'))
    else some (.ok (.scalar offset (readScalar (c :: rest))))

end Values

/-! ## Blocks of lines -/

abbrev Block (α : Type) := Parsed ℕ (List Line) α

section Blocks

variable [Number N]

/-- A value on the line itself; `rest` are the lines below. -/
def inlineNode (raw : Bytes) (offset : ℕ) (rest : List Line) : Block (Node N) :=
  (inlineValue raw offset).map fun r => r.map fun node => (node, rest)

/-- The block under a key or a dash, which is further to the right. -/
def nested (block : ℕ → List Line → Block (Node N)) (indent missing : ℕ) (lines : List Line) :
    Block (Node N) :=
  match lines with
  | [] => .fail missing
  | child :: _ => if child.indent ≤ indent then .fail missing else block child.indent lines

/-- `node_map_put` -/
def putPair (key : Bytes) (value : Node N) (lines : List Line) : Block (Bytes × Node N) :=
  if key.isEmpty then .fail value.offset else .done (key, value) lines

/-- `parse_map_pair_from_line`; `rest` are the lines below. -/
def mapPair (block : ℕ → List Line → Block (Node N)) (line : Line) (rest : List Line) :
    Block (Bytes × Node N) :=
  match findKeyColon .start [] line.text with
  | none => .fail line.offset
  | some (before, after) =>
    let value : Block (Node N) :=
      if trim after = [] then nested block line.indent (line.offset + before.length) rest
      else inlineNode (trim after) (line.offset + before.length + 1) rest
    value.andThen fun node rest' => putPair (trim before) node rest'

/-- The first pair of a map behind a dash, as `parse_seq_map_item` reads it; `column` is where
it begins. -/
def firstPair (block : ℕ → List Line → Block (Node N)) (line : Line) (column : ℕ)
    (before after : Bytes) (indent : ℕ) (rest : List Line) : Block (Bytes × Node N) :=
  let value : Block (Node N) :=
    if trim after = [] then nested block indent (line.offset + column + before.length) rest
    else
      inlineNode (trim after) (line.offset + column + before.length + 1 + leadingBlanks after) rest
  value.andThen fun node rest' => putPair (trim before) node rest'

mutual

/-- `parse_block`; `stop` is the end of the source. -/
def parseBlock (stop : ℕ) : ℕ → ℕ → List Line → Block (Node N)
  | 0, _, _ => none
  | _ + 1, _, [] => .fail stop
  | fuel + 1, indent, line :: rest =>
    if line.indent ≠ indent then .fail line.offset
    else if line.isSeq then
      (seqItems stop fuel indent (line :: rest)).andThen fun items rest' =>
        if items.isEmpty then .fail line.offset else .done (.list line.offset items) rest'
    else
      (mapPairs stop fuel indent (line :: rest)).andThen fun pairs rest' =>
        if pairs.isEmpty then .fail line.offset else .done (.map line.offset pairs) rest'

/-- The loop of `parse_map` -/
def mapPairs (stop : ℕ) : ℕ → ℕ → List Line → Block (List (Bytes × Node N))
  | 0, _, _ => none
  | _ + 1, _, [] => .done [] []
  | fuel + 1, indent, line :: rest =>
    if line.indent = indent ∧ line.isSeq = false then
      (mapPair (parseBlock stop fuel) line rest).andThen fun pair rest' =>
        (mapPairs stop fuel indent rest').andThen fun pairs rest'' => .done (pair :: pairs) rest''
    else .done [] (line :: rest)

/-- The loop of `parse_seq` -/
def seqItems (stop : ℕ) : ℕ → ℕ → List Line → Block (List (Node N))
  | 0, _, _ => none
  | _ + 1, _, [] => .done [] []
  | fuel + 1, indent, line :: rest =>
    if line.indent = indent ∧ line.isSeq = true then
      let item := trim line.text.tail
      let column := 1 + leadingBlanks line.text.tail
      let node : Block (Node N) :=
        if item = [] then nested (parseBlock stop fuel) indent line.offset rest
        else
          match findKeyColon .start [] item with
          | some (before, after) =>
            (firstPair (parseBlock stop fuel) line column before after indent rest).andThen
              fun pair rest' =>
                (childPairs stop fuel indent rest').andThen fun pairs rest'' =>
                  .done (.map line.offset (pair :: pairs)) rest''
          | none => inlineNode item (line.offset + column) rest
      node.andThen fun node rest' =>
        (seqItems stop fuel indent rest').andThen fun nodes rest'' => .done (node :: nodes) rest''
    else .done [] (line :: rest)

/-- The further pairs of a map behind a dash, two columns to the right of it. -/
def childPairs (stop : ℕ) : ℕ → ℕ → List Line → Block (List (Bytes × Node N))
  | 0, _, _ => none
  | _ + 1, _, [] => .done [] []
  | fuel + 1, indent, line :: rest =>
    if indent < line.indent then
      if line.indent ≠ indent + 2 ∨ line.isSeq = true then .fail line.offset
      else
        (mapPair (parseBlock stop fuel) line rest).andThen fun pair rest' =>
          (childPairs stop fuel indent rest').andThen fun pairs rest'' =>
            .done (pair :: pairs) rest''
    else .done [] (line :: rest)

end

/-- The tree of a source that has lines. -/
def parseTree (stop : ℕ) (lines : List Line) : Option (Except ℕ (Node N)) :=
  (parseBlock stop (2 * lines.length + 3) (lines.head?.elim 0 Line.indent) lines).map fun r =>
    match r with
    | .error offset => .error offset
    | .ok (root, []) => .ok root
    | .ok (_, line :: _) => .error line.offset

end Blocks

end Monoblok.Patchbay.Yaml
