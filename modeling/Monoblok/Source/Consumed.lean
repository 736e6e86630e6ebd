import Monoblok.Source.Lowering

/-!
# Every line is read once

The parser of YAML comes to an end on every source. What it has read of a flow array is the
text up to the bracket that closes it, and what it has read of the lines of a source are the
pairs and the items of the tree, each with its own line and, further to the right, the lines
below it.
-/

namespace Monoblok.Patchbay.Yaml

open Number Parsing Sexpr

variable {N : Type}

/-! ## The text of a value -/

def Blank (s : Bytes) : Prop := ∀ c ∈ s, isBlank c = true

/-- What a text stands for. -/
inductive FlowPart (N : Type) where
  | value (node : Node N)
  | items (nodes : List (Node N))

section Flow

variable [Number N]

/-- The text is that of the value, or of the items with the bracket that closes them. In a
scalar without quotes an opening bracket is like any other byte. -/
inductive Text : Bytes → FlowPart N → Prop
  | quoted {q : UInt8} {s : Bytes} (o : ℕ) (hq : isQuote q = true)
      (hs : quotedText q s = some (s, [])) :
      Text (q :: s) (.value (.scalar o (readScalar (q :: s))))
  | plain {s : Bytes} (o : ℕ) (hne : trim s ≠ [])
      (hhead : ∀ c ∈ s.head?, isBlank c = false ∧ isQuote c = false ∧ c ≠ lbracket)
      (hs : ∀ c ∈ s, c ≠ comma ∧ c ≠ rbracket) :
      Text s (.value (.scalar o (readScalar (trim s))))
  | empty {g : Bytes} (o : ℕ) (hg : Blank g) :
      Text (lbracket :: (g ++ [rbracket])) (.value (.list o []))
  | array {s : Bytes} {nodes : List (Node N)} (o : ℕ) (hs : Text s (.items nodes)) :
      Text (lbracket :: s) (.value (.list o nodes))
  | last {g v g' : Bytes} {node : Node N} (hg : Blank g) (hv : Text v (.value node))
      (hg' : Blank g') : Text (g ++ (v ++ (g' ++ [rbracket]))) (.items [node])
  | more {g v g' s : Bytes} {node : Node N} {nodes : List (Node N)} (hg : Blank g)
      (hv : Text v (.value node)) (hg' : Blank g') (hs : Text s (.items nodes)) :
      Text (g ++ (v ++ (g' ++ comma :: s))) (.items (node :: nodes))

theorem Text.ne_nil {s : Bytes} {part : FlowPart N} (h : Text s part) : s ≠ [] := by
  cases h with
  | quoted => exact List.cons_ne_nil _ _
  | plain o hne =>
    rintro rfl
    exact hne rfl
  | empty => exact List.cons_ne_nil _ _
  | array => exact List.cons_ne_nil _ _
  | last => simp
  | more => simp

/-- Items may have blanks before them. -/
theorem Text.after_blanks {g s : Bytes} {nodes : List (Node N)} (hg : Blank g)
    (h : Text s (.items nodes)) : Text (g ++ s) (.items nodes) := by
  have happend : ∀ {g' : Bytes}, Blank g' → Blank (g ++ g') := by
    intro g' hg' c hc
    rcases List.mem_append.mp hc with hc | hc
    · exact hg c hc
    · exact hg' c hc
  cases h with
  | last hg' hv hg'' =>
    rw [← List.append_assoc]
    exact .last (happend hg') hv hg''
  | more hg' hv hg'' hs =>
    rw [← List.append_assoc]
    exact .more (happend hg') hv hg'' hs

theorem skipBlanks_split (s : Bytes) : ∃ g, Blank g ∧ s = g ++ skipBlanks s := by
  refine ⟨s.takeWhile isBlank, fun c hc => ?_, (List.takeWhile_append_dropWhile).symm⟩
  exact List.mem_takeWhile_imp hc

theorem head_skipBlanks {s rest : Bytes} {c : UInt8} (h : skipBlanks s = c :: rest) :
    isBlank c = false := by
  have hhead := List.head?_dropWhile_not isBlank s
  rw [← skipBlanks, h] at hhead
  simpa using hhead

/-- A quoted text ends with the quote that closes it. -/
theorem quotedText_split {q : UInt8} : ∀ {s text rest : Bytes},
    quotedText q s = some (text, rest) → s = text ++ rest ∧ quotedText q text = some (text, [])
  | [], _, _, h => by cases h
  | [c], _, _, h => by
    unfold quotedText at h
    split_ifs at h with hc
    cases h
    simp [quotedText, hc]
  | c :: d :: tail, _, _, h => by
    unfold quotedText at h
    split_ifs at h with hc hslash
    · cases h
      simp [quotedText, hc]
    · obtain ⟨⟨text, rest⟩, htail, heq⟩ := Option.map_eq_some_iff.mp h
      cases heq
      obtain ⟨rfl, hself⟩ := quotedText_split htail
      refine ⟨rfl, ?_⟩
      rw [quotedText.eq_def]
      dsimp only
      rw [if_neg hc, if_pos hslash, hself]
      rfl
    · obtain ⟨⟨text, rest⟩, htail, heq⟩ := Option.map_eq_some_iff.mp h
      cases heq
      obtain ⟨hsplit, hself⟩ := quotedText_split htail
      refine ⟨by rw [hsplit]; rfl, ?_⟩
      cases text with
      | nil => cases hself
      | cons e text =>
        rw [quotedText.eq_def]
        dsimp only
        rw [if_neg hc, if_neg hslash, hself]
        rfl

variable {stop : ℕ}

/-- The scalar that is read is the front of the text. -/
theorem flowScalar_done {s rest : Bytes} {node : Node N} (hhead : ∀ c ∈ s.head?, isBlank c = false ∧
    c ≠ lbracket) (h : flowScalar stop s = Parsed.done node rest) :
    ∃ v, s = v ++ rest ∧ Text v (.value node) := by
  unfold flowScalar at h
  split at h
  · rename_i c tail
    split_ifs at h with hquote
    · split at h
      · rename_i text rest' htext
        cases h
        obtain ⟨rfl, hself⟩ := quotedText_split htext
        exact ⟨c :: text, rfl, .quoted _ hquote hself⟩
      · cases h
    · dsimp only at h
      split_ifs at h with hempty
      · cases h
      cases h
      have hsplit := List.takeWhile_append_dropWhile (p := fun c => c != comma && c != rbracket)
        (l := c :: tail)
      refine ⟨_, hsplit.symm, .plain _ ?_ ?_ ?_⟩
      · simpa using hempty
      · intro d hd
        have hdc : d = c := by
          rw [List.takeWhile_cons] at hd
          split_ifs at hd
          · simpa using hd.symm
          · cases hd
        subst hdc
        obtain ⟨hblank, hbracket⟩ := hhead d rfl
        exact ⟨hblank, by simpa using hquote, hbracket⟩
      · intro d hd
        simpa using List.mem_takeWhile_imp hd
  · cases h

/-- What the three parsers have read is the front of the text. -/
theorem flow_done (fuel : ℕ) :
    (∀ (s rest : Bytes) (node : Node N), flowValue stop fuel s = Parsed.done node rest →
      ∃ g v, s = g ++ (v ++ rest) ∧ Blank g ∧ Text v (.value node)) ∧
    (∀ (start s rest : Bytes) (node : Node N), flowArray stop fuel start s = Parsed.done node rest →
      ∃ v, s = v ++ rest ∧ Text (lbracket :: v) (.value node)) ∧
    ∀ (s rest : Bytes) (nodes : List (Node N)), flowItems stop fuel s = Parsed.done nodes rest →
      ∃ v, s = v ++ rest ∧ Text v (.items nodes) := by
  induction fuel with
  | zero =>
    refine ⟨fun s rest node h => ?_, fun start s rest node h => ?_, fun s rest nodes h => ?_⟩
    · rw [flowValue] at h
      cases h
    · rw [flowArray] at h
      cases h
    · rw [flowItems] at h
      cases h
  | succ fuel ih =>
    obtain ⟨hvalue, harray, hitems⟩ := ih
    refine ⟨fun s rest node h => ?_, fun start s rest node h => ?_, fun s rest nodes h => ?_⟩
    · obtain ⟨g, hg, hs⟩ := skipBlanks_split s
      rw [flowValue] at h
      split at h
      · rename_i c tail hskip
        rw [hskip] at hs
        split_ifs at h with hbracket
        · obtain ⟨v, rfl, hv⟩ := harray _ _ _ _ h
          subst hbracket
          exact ⟨g, lbracket :: v, hs, hg, hv⟩
        · obtain ⟨v, hsplit, hv⟩ := flowScalar_done (s := c :: tail) (by
            rintro d hd
            cases hd
            exact ⟨head_skipBlanks hskip, hbracket⟩) h
          rw [hsplit] at hs
          exact ⟨g, v, hs, hg, hv⟩
      · cases h
    · obtain ⟨g, hg, hs⟩ := skipBlanks_split s
      rw [flowArray] at h
      split at h
      · rename_i c tail hskip
        rw [hskip] at hs
        split_ifs at h with hbracket
        · cases h
          subst hbracket
          exact ⟨g ++ [rbracket], by simpa using hs, .empty _ hg⟩
        · obtain ⟨nodes, rest', hnodes, h⟩ := Parsed.andThen_ok h
          cases h
          obtain ⟨v, hsplit, hv⟩ := hitems _ _ _ hnodes
          rw [hsplit, ← List.append_assoc] at hs
          exact ⟨g ++ v, hs, .array _ (hv.after_blanks hg)⟩
      · rename_i hskip
        obtain ⟨nodes, rest', hnodes, h⟩ := Parsed.andThen_ok h
        cases h
        obtain ⟨v, hsplit, hv⟩ := hitems _ _ _ hnodes
        rw [hskip, hsplit, ← List.append_assoc] at hs
        exact ⟨g ++ v, hs, .array _ (hv.after_blanks hg)⟩
    · rw [flowItems] at h
      obtain ⟨node, rest', hnode, h⟩ := Parsed.andThen_ok h
      obtain ⟨g, v, hs, hg, hv⟩ := hvalue _ _ _ hnode
      obtain ⟨g', hg', hrest⟩ := skipBlanks_split rest'
      split at h
      · cases h
      · rename_i c tail hskip
        rw [hskip] at hrest
        split_ifs at h with hbracket hcomma
        · cases h
          subst hbracket
          refine ⟨g ++ (v ++ (g' ++ [rbracket])), ?_, .last hg hv hg'⟩
          rw [hs, hrest]
          simp
        · obtain ⟨nodes', rest'', hnodes, h⟩ := Parsed.andThen_ok h
          cases h
          subst hcomma
          obtain ⟨w, hsplit, hw⟩ := hitems _ _ _ hnodes
          obtain ⟨g'', hg'', htail⟩ := skipBlanks_split tail
          refine ⟨g ++ (v ++ (g' ++ comma :: (g'' ++ w))), ?_,
            .more hg hv hg' (hw.after_blanks hg'')⟩
          rw [hs, hrest, htail, hsplit]
          simp
        · cases h

theorem isSome_flowScalar (s : Bytes) : (flowScalar (N := N) stop s).isSome = true := by
  unfold flowScalar
  split
  · split_ifs
    · split <;> rfl
    · dsimp only
      split_ifs <;> rfl
  · rfl

/-- Three steps for each byte are enough. -/
theorem isSome_flow (fuel : ℕ) :
    (∀ s : Bytes, 3 * s.length + 1 ≤ fuel → (flowValue (N := N) stop fuel s).isSome = true) ∧
    (∀ start s : Bytes, 3 * s.length + 3 ≤ fuel →
      (flowArray (N := N) stop fuel start s).isSome = true) ∧
    ∀ s : Bytes, 3 * s.length + 2 ≤ fuel → (flowItems (N := N) stop fuel s).isSome = true := by
  induction fuel with
  | zero =>
    refine ⟨fun s h => ?_, fun start s h => ?_, fun s h => ?_⟩ <;> omega
  | succ fuel ih =>
    obtain ⟨hvalue, harray, hitems⟩ := ih
    have hskip : ∀ s : Bytes, (skipBlanks s).length ≤ s.length := fun s =>
      (List.dropWhile_sublist isBlank).length_le
    refine ⟨fun s h => ?_, fun start s h => ?_, fun s h => ?_⟩
    · have hlength := hskip s
      rw [flowValue]
      split
      · rename_i c tail heq
        rw [heq, List.length_cons] at hlength
        split_ifs
        · apply harray
          omega
        · exact isSome_flowScalar _
      · exact isSome_flowScalar _
    · have hlength := hskip s
      rw [flowArray]
      split
      · rename_i c tail heq
        rw [heq] at hlength
        split_ifs
        · rfl
        · apply Parsed.isSome_andThen
          · apply hitems
            omega
          · exact fun _ _ _ => rfl
      · apply Parsed.isSome_andThen
        · apply hitems
          simp only [List.length_nil]
          omega
        · exact fun _ _ _ => rfl
    · rw [flowItems]
      apply Parsed.isSome_andThen
      · apply hvalue
        omega
      · intro node rest hnode
        obtain ⟨g, v, hs, -, hv⟩ := (flow_done fuel).1 _ _ _ hnode
        have hlength := hskip rest
        have hshorter : rest.length < s.length := by
          have hpos := List.length_pos_of_ne_nil hv.ne_nil
          rw [hs]
          simp only [List.length_append]
          omega
        split
        · rfl
        · rename_i c tail heq
          rw [heq, List.length_cons] at hlength
          have htail := hskip tail
          split_ifs
          · rfl
          · apply Parsed.isSome_andThen
            · apply hitems
              omega
            · exact fun _ _ _ => rfl
          · rfl

end Flow

/-! ## Values on a line -/

section Inline

variable [Number N]

/-- The text of a value that is on the line itself: a flow array to its closing bracket, or a
scalar. -/
inductive Inline : Bytes → Node N → Prop
  | scalar {text : Bytes} (o : ℕ) (hne : text ≠ []) (hhead : text.head? ≠ some lbracket) :
      Inline text (.scalar o (readScalar text))
  | array {v g : Bytes} {node : Node N} (hhead : v.head? = some lbracket)
      (hv : Text v (.value node)) (hg : Blank g) : Inline (v ++ g) node

theorem inlineValue_ok {raw : Bytes} {offset : ℕ} {node : Node N}
    (h : inlineValue raw offset = some (.ok node)) : Inline (trim raw) node := by
  unfold inlineValue at h
  split at h
  · cases h
  · rename_i c rest htrim
    rw [htrim]
    split_ifs at h with hbracket
    · obtain ⟨r, hr, h⟩ := Option.map_eq_some_iff.mp h
      split at h
      · cases h
      · rename_i node' rest'
        split_ifs at h with hblank
        cases h
        obtain ⟨v, rfl, hv⟩ := (flow_done _).2.1 _ _ _ _ hr
        obtain ⟨g, hg, hrest⟩ := skipBlanks_split rest'
        rw [hblank, List.append_nil] at hrest
        rw [hbracket, hrest]
        exact .array rfl hv hg
    · cases h
      exact .scalar _ (List.cons_ne_nil _ _) (by simpa using hbracket)

theorem trim_trim (s : Bytes) : trim (trim s) = trim s := by
  have hfront : (trim s).dropWhile isBlank = trim s := by
    cases htrim : trim s with
    | nil => rfl
    | cons c rest =>
      obtain ⟨tail, htail⟩ := List.rdropWhile_prefix isBlank (s.dropWhile isBlank)
      rw [← trim, htrim] at htail
      have hc : isBlank c = false := head_skipBlanks (s := s) htail.symm
      exact List.dropWhile_cons_of_neg (by simp [hc])
  rw [trim, hfront, trim, List.rdropWhile_idempotent]

theorem isSome_inlineValue (raw : Bytes) (offset : ℕ) :
    (inlineValue (N := N) raw offset).isSome = true := by
  unfold inlineValue
  split
  · rfl
  · rename_i c rest htrim
    split_ifs
    · rw [Option.isSome_map]
      apply (isSome_flow _).2.1
      rw [flowFuel, List.length_cons]
      omega
    · rfl

end Inline

/-! ## Lines -/

/-- What lines stand for. -/
inductive BlockPart (N : Type) where
  | value (raw : Bytes) (node : Node N)
  | pair (key : Bytes) (node : Node N)
  | item (node : Node N)
  | pairs (pairs : List (Bytes × Node N))
  | items (nodes : List (Node N))
  | block (node : Node N)

section Lines

variable [Number N]

/-- The lines are those of the part, at the indent. Every line is the line of one pair or of
one item; what follows it there are the lines of its value, if that is not on the line. -/
inductive Spans : ℕ → List Line → BlockPart N → Prop
  | inline {indent : ℕ} {raw : Bytes} {node : Node N} (h : Inline (trim raw) node) :
      Spans indent [] (.value raw node)
  | nested {indent indent' : ℕ} {raw : Bytes} {below : List Line} {node : Node N}
      (hraw : trim raw = []) (hindent : indent < indent') (h : Spans indent' below (.block node)) :
      Spans indent below (.value raw node)
  | pair {line : Line} {below : List Line} {before after : Bytes} {node : Node N}
      (hseq : line.isSeq = false) (hkey : findKeyColon .start [] line.text = some (before, after))
      (h : Spans line.indent below (.value after node)) :
      Spans line.indent (line :: below) (.pair (trim before) node)
  | item {line : Line} {below : List Line} {node : Node N} (hseq : line.isSeq = true)
      (hkey : findKeyColon .start [] (trim line.text.tail) = none)
      (h : Spans line.indent below (.value line.text.tail node)) :
      Spans line.indent (line :: below) (.item node)
  | mapItem {line : Line} {below more : List Line} {before after : Bytes} {node : Node N}
      {pairs : List (Bytes × Node N)} (hseq : line.isSeq = true)
      (hkey : findKeyColon .start [] (trim line.text.tail) = some (before, after))
      (h : Spans line.indent below (.value after node))
      (h' : Spans (line.indent + 2) more (.pairs pairs)) :
      Spans line.indent (line :: (below ++ more))
        (.item (.map line.offset ((trim before, node) :: pairs)))
  | noPairs {indent : ℕ} : Spans indent [] (.pairs [])
  | pairs {indent : ℕ} {lines rest : List Line} {key : Bytes} {node : Node N}
      {pairs : List (Bytes × Node N)} (h : Spans indent lines (.pair key node))
      (h' : Spans indent rest (.pairs pairs)) :
      Spans indent (lines ++ rest) (.pairs ((key, node) :: pairs))
  | noItems {indent : ℕ} : Spans indent [] (.items [])
  | items {indent : ℕ} {lines rest : List Line} {node : Node N} {nodes : List (Node N)}
      (h : Spans indent lines (.item node)) (h' : Spans indent rest (.items nodes)) :
      Spans indent (lines ++ rest) (.items (node :: nodes))
  | map {indent o : ℕ} {lines : List Line} {pairs : List (Bytes × Node N)} (hne : pairs ≠ [])
      (h : Spans indent lines (.pairs pairs)) : Spans indent lines (.block (.map o pairs))
  | list {indent o : ℕ} {lines : List Line} {nodes : List (Node N)} (hne : nodes ≠ [])
      (h : Spans indent lines (.items nodes)) : Spans indent lines (.block (.list o nodes))

/-- No line of a part is left of its indent, and those of a value are right of it. -/
theorem Spans.indented {indent : ℕ} {lines : List Line} {part : BlockPart N}
    (h : Spans indent lines part) :
    (∀ l ∈ lines, indent ≤ l.indent) ∧
      ∀ raw node, part = .value raw node → ∀ l ∈ lines, indent < l.indent := by
  induction h with
  | inline _ => simp
  | nested _ hindent _ ih =>
    exact ⟨fun l hl => hindent.le.trans (ih.1 l hl),
      fun _ _ _ l hl => hindent.trans_le (ih.1 l hl)⟩
  | pair _ _ _ ih =>
    exact ⟨List.forall_mem_cons.mpr ⟨le_rfl, ih.1⟩, fun _ _ h => by cases h⟩
  | item _ _ _ ih =>
    exact ⟨List.forall_mem_cons.mpr ⟨le_rfl, ih.1⟩, fun _ _ h => by cases h⟩
  | mapItem _ _ _ _ ih ih' =>
    refine ⟨List.forall_mem_cons.mpr ⟨le_rfl, fun l hl => ?_⟩, fun _ _ h => by cases h⟩
    rcases List.mem_append.mp hl with hl | hl
    · exact ih.1 l hl
    · exact (Nat.le_add_right _ 2).trans (ih'.1 l hl)
  | noPairs => simp
  | noItems => simp
  | pairs _ _ ih ih' =>
    refine ⟨fun l hl => ?_, fun _ _ h => by cases h⟩
    rcases List.mem_append.mp hl with hl | hl
    · exact ih.1 l hl
    · exact ih'.1 l hl
  | items _ _ ih ih' =>
    refine ⟨fun l hl => ?_, fun _ _ h => by cases h⟩
    rcases List.mem_append.mp hl with hl | hl
    · exact ih.1 l hl
    · exact ih'.1 l hl
  | map _ _ ih => exact ⟨ih.1, fun _ _ h => by cases h⟩
  | list _ _ ih => exact ⟨ih.1, fun _ _ h => by cases h⟩

theorem Spans.length_pos {indent : ℕ} {lines : List Line} {key : Bytes} {node : Node N}
    (h : Spans indent lines (.pair key node)) : 0 < lines.length := by
  cases h with
  | pair => simp

/-! ### What has been read -/

/-- The parser of a block reads the front of the lines. -/
def ReadsBlock (block : ℕ → List Line → Block (Node N)) : Prop :=
  ∀ indent lines rest node, block indent lines = Parsed.done node rest →
    ∃ used, lines = used ++ rest ∧ Spans indent used (.block node)

variable {block : ℕ → List Line → Block (Node N)}

theorem nested_done (hblock : ReadsBlock block) {indent missing : ℕ} {raw : Bytes}
    {lines rest : List Line} {node : Node N} (hraw : trim raw = [])
    (h : nested block indent missing lines = Parsed.done node rest) :
    ∃ used, lines = used ++ rest ∧ Spans indent used (.value raw node) := by
  unfold nested at h
  split at h
  · cases h
  · rename_i child tail
    split_ifs at h with hindent
    · cases h
    · obtain ⟨used, hused, hspans⟩ := hblock _ _ _ _ h
      exact ⟨used, hused, .nested hraw (Nat.lt_of_not_le hindent) hspans⟩

theorem inlineNode_done (indent : ℕ) {raw : Bytes} {offset : ℕ} {lines rest : List Line} {node : Node N}
    (h : inlineNode (trim raw) offset lines = Parsed.done node rest) :
    rest = lines ∧ Spans indent [] (.value raw node) := by
  obtain ⟨r, hr, h⟩ := Option.map_eq_some_iff.mp h
  obtain ⟨node', rfl, h⟩ := Parsed.map_ok h
  cases h
  have hinline := inlineValue_ok hr
  rw [trim_trim] at hinline
  exact ⟨rfl, .inline hinline⟩

omit [Number N] in
theorem putPair_done {p : Block (Node N)} {before key : Bytes} {rest : List Line} {node : Node N}
    (h : (p.andThen fun node rest' => putPair (trim before) node rest') =
      Parsed.done (key, node) rest) : p = Parsed.done node rest ∧ key = trim before := by
  obtain ⟨node', rest', hp, h⟩ := Parsed.andThen_ok h
  unfold putPair at h
  split_ifs at h
  · cases h
  · cases h
    exact ⟨hp, rfl⟩

theorem mapPair_done (hblock : ReadsBlock block) {line : Line} {lines rest : List Line}
    {key : Bytes} {node : Node N} (hseq : line.isSeq = false)
    (h : mapPair block line lines = Parsed.done (key, node) rest) :
    ∃ used, line :: lines = used ++ rest ∧ Spans line.indent used (.pair key node) := by
  unfold mapPair at h
  split at h
  · cases h
  · rename_i before after hkey
    obtain ⟨hvalue, rfl⟩ := putPair_done h
    split_ifs at hvalue with hafter
    · obtain ⟨used, rfl, hspans⟩ := nested_done hblock hafter hvalue
      exact ⟨line :: used, rfl, .pair hseq hkey hspans⟩
    · obtain ⟨rfl, hspans⟩ := inlineNode_done line.indent hvalue
      exact ⟨[line], rfl, .pair hseq hkey hspans⟩

theorem firstPair_done (hblock : ReadsBlock block) {line : Line} {column indent : ℕ}
    {before after key : Bytes} {lines rest : List Line} {node : Node N}
    (h : firstPair block line column before after indent lines = Parsed.done (key, node) rest) :
    key = trim before ∧ ∃ used, lines = used ++ rest ∧ Spans indent used (.value after node) := by
  obtain ⟨hvalue, rfl⟩ := putPair_done h
  refine ⟨rfl, ?_⟩
  split_ifs at hvalue with hafter
  · exact nested_done hblock hafter hvalue
  · obtain ⟨rfl, hspans⟩ := inlineNode_done indent hvalue
    exact ⟨[], rfl, hspans⟩

variable {stop : ℕ}

/-- What the loops have read: the pairs, the items, and the pairs behind a dash. -/
structure ReadsLines (stop fuel : ℕ) : Prop where
  block : ReadsBlock (parseBlock (N := N) stop fuel)
  pairs : ∀ (indent : ℕ) (lines rest : List Line) (pairs : List (Bytes × Node N)),
    mapPairs stop fuel indent lines = Parsed.done pairs rest →
      ∃ used, lines = used ++ rest ∧ Spans indent used (.pairs pairs)
  items : ∀ (indent : ℕ) (lines rest : List Line) (nodes : List (Node N)),
    seqItems stop fuel indent lines = Parsed.done nodes rest →
      ∃ used, lines = used ++ rest ∧ Spans indent used (.items nodes)
  children : ∀ (indent : ℕ) (lines rest : List Line) (pairs : List (Bytes × Node N)),
    childPairs stop fuel indent lines = Parsed.done pairs rest →
      ∃ used, lines = used ++ rest ∧ Spans (indent + 2) used (.pairs pairs)

variable {fuel : ℕ}

theorem readsBlock_step (h : ReadsLines (N := N) stop fuel) :
    ReadsBlock (parseBlock (N := N) stop (fuel + 1)) := by
  intro indent lines rest node hread
  cases lines with
  | nil =>
    rw [parseBlock] at hread
    cases hread
  | cons line lines =>
    rw [parseBlock] at hread
    split_ifs at hread with hindent hseq
    · cases hread
    · obtain ⟨nodes, rest', hnodes, hread⟩ := Parsed.andThen_ok hread
      split_ifs at hread with hempty
      · cases hread
      · cases hread
        obtain ⟨used, hused, hspans⟩ := h.items _ _ _ _ hnodes
        exact ⟨used, hused, .list (by simpa using hempty) hspans⟩
    · obtain ⟨pairs, rest', hpairs, hread⟩ := Parsed.andThen_ok hread
      split_ifs at hread with hempty
      · cases hread
      · cases hread
        obtain ⟨used, hused, hspans⟩ := h.pairs _ _ _ _ hpairs
        exact ⟨used, hused, .map (by simpa using hempty) hspans⟩

theorem readsPairs_step (h : ReadsLines (N := N) stop fuel) {indent : ℕ} {lines rest : List Line}
    {pairs : List (Bytes × Node N)}
    (hread : mapPairs stop (fuel + 1) indent lines = Parsed.done pairs rest) :
    ∃ used, lines = used ++ rest ∧ Spans indent used (.pairs pairs) := by
  cases lines with
  | nil =>
    rw [mapPairs] at hread
    cases hread
    exact ⟨[], rfl, .noPairs⟩
  | cons line lines =>
    rw [mapPairs] at hread
    split_ifs at hread with hline
    · obtain ⟨rfl, hseq⟩ := hline
      obtain ⟨⟨key, node⟩, rest', hpair, hread⟩ := Parsed.andThen_ok hread
      obtain ⟨pairs', rest'', hpairs, hread⟩ := Parsed.andThen_ok hread
      cases hread
      obtain ⟨used, hused, hspans⟩ := mapPair_done h.block hseq hpair
      obtain ⟨used', rfl, hspans'⟩ := h.pairs _ _ _ _ hpairs
      exact ⟨used ++ used', by rw [hused, List.append_assoc], .pairs hspans hspans'⟩
    · cases hread
      exact ⟨[], rfl, .noPairs⟩

theorem readsChildren_step (h : ReadsLines (N := N) stop fuel) {indent : ℕ}
    {lines rest : List Line} {pairs : List (Bytes × Node N)}
    (hread : childPairs stop (fuel + 1) indent lines = Parsed.done pairs rest) :
    ∃ used, lines = used ++ rest ∧ Spans (indent + 2) used (.pairs pairs) := by
  cases lines with
  | nil =>
    rw [childPairs] at hread
    cases hread
    exact ⟨[], rfl, .noPairs⟩
  | cons line lines =>
    rw [childPairs] at hread
    split_ifs at hread with hright hline
    · cases hread
    · obtain ⟨hindent, hseq⟩ := not_or.mp hline
      obtain ⟨⟨key, node⟩, rest', hpair, hread⟩ := Parsed.andThen_ok hread
      obtain ⟨pairs', rest'', hpairs, hread⟩ := Parsed.andThen_ok hread
      cases hread
      obtain ⟨used, hused, hspans⟩ := mapPair_done h.block (by simpa using hseq) hpair
      obtain ⟨used', rfl, hspans'⟩ := h.children _ _ _ _ hpairs
      rw [not_not.mp hindent] at hspans
      exact ⟨used ++ used', by rw [hused, List.append_assoc], .pairs hspans hspans'⟩
    · cases hread
      exact ⟨[], rfl, .noPairs⟩

/-- An item is its line and the lines of its value, or those of its pairs. -/
theorem readsSeq_step (h : ReadsLines (N := N) stop fuel) {indent : ℕ} {lines rest : List Line}
    {nodes : List (Node N)}
    (hread : seqItems stop (fuel + 1) indent lines = Parsed.done nodes rest) :
    ∃ used, lines = used ++ rest ∧ Spans indent used (.items nodes) := by
  cases lines with
  | nil =>
    rw [seqItems] at hread
    cases hread
    exact ⟨[], rfl, .noItems⟩
  | cons line lines =>
    rw [seqItems] at hread
    split_ifs at hread with hline
    · obtain ⟨rfl, hseq⟩ := hline
      dsimp only at hread
      obtain ⟨node, rest', hnode, hread⟩ := Parsed.andThen_ok hread
      obtain ⟨nodes', rest'', hnodes, hread⟩ := Parsed.andThen_ok hread
      cases hread
      obtain ⟨used', rfl, hspans'⟩ := h.items _ _ _ _ hnodes
      have hitem : ∃ used, line :: lines = used ++ (used' ++ rest) ∧
          Spans line.indent used (.item node) := by
        split_ifs at hnode with hempty
        · obtain ⟨used, hused, hspans⟩ := nested_done h.block hempty hnode
          have hkey : findKeyColon .start [] (trim line.text.tail) = none := by
            rw [hempty]
            rfl
          exact ⟨line :: used, by rw [hused]; rfl, .item hseq hkey hspans⟩
        · split at hnode
          · rename_i before after hkey
            obtain ⟨⟨key, value⟩, rest', hfirst, hnode⟩ := Parsed.andThen_ok hnode
            obtain ⟨pairs, rest'', hpairs, hnode⟩ := Parsed.andThen_ok hnode
            cases hnode
            obtain ⟨rfl, used, rfl, hspans⟩ := firstPair_done h.block hfirst
            obtain ⟨more, rfl, hmore⟩ := h.children _ _ _ _ hpairs
            exact ⟨line :: (used ++ more), by simp, .mapItem hseq hkey hspans hmore⟩
          · rename_i hkey
            obtain ⟨hrest, hspans⟩ := inlineNode_done line.indent hnode
            exact ⟨[line], by rw [hrest]; rfl, .item hseq hkey hspans⟩
      obtain ⟨used, hused, hspans⟩ := hitem
      exact ⟨used ++ used', by rw [hused, List.append_assoc], .items hspans hspans'⟩
    · cases hread
      exact ⟨[], rfl, .noItems⟩

/-- However much fuel there is, what has been read are the lines in front. -/
theorem readsLines (fuel : ℕ) : ReadsLines (N := N) stop fuel := by
  induction fuel with
  | zero =>
    constructor
    · intro indent lines rest node h
      rw [parseBlock] at h
      cases h
    · intro indent lines rest pairs h
      rw [mapPairs] at h
      cases h
    · intro indent lines rest nodes h
      rw [seqItems] at h
      cases h
    · intro indent lines rest pairs h
      rw [childPairs] at h
      cases h
  | succ fuel ih =>
    constructor
    · exact readsBlock_step ih
    · exact fun _ _ _ _ h => readsPairs_step ih h
    · exact fun _ _ _ _ h => readsSeq_step ih h
    · exact fun _ _ _ _ h => readsChildren_step ih h

/-! ### Fuel -/

omit [Number N] in
theorem isSome_nested {lines : List Line} (hblock : ∀ i, (block i lines).isSome = true)
    (indent missing : ℕ) : (nested block indent missing lines).isSome = true := by
  unfold nested
  split
  · rfl
  · split_ifs
    · rfl
    · exact hblock _

omit [Number N] in
theorem isSome_putPair (key : Bytes) (node : Node N) (lines : List Line) :
    (putPair key node lines).isSome = true := by
  unfold putPair
  split_ifs <;> rfl

theorem isSome_inlineNode (raw : Bytes) (offset : ℕ) (rest : List Line) :
    (inlineNode (N := N) raw offset rest).isSome = true := by
  rw [inlineNode, Option.isSome_map]
  exact isSome_inlineValue raw offset

theorem isSome_mapPair {lines : List Line} (hblock : ∀ i, (block i lines).isSome = true)
    (line : Line) : (mapPair block line lines).isSome = true := by
  unfold mapPair
  split
  · rfl
  · apply Parsed.isSome_andThen
    · split_ifs
      · exact isSome_nested hblock _ _
      · exact isSome_inlineNode _ _ _
    · exact fun node rest _ => isSome_putPair _ node rest

theorem isSome_firstPair {lines : List Line} (hblock : ∀ i, (block i lines).isSome = true)
    (line : Line) (column : ℕ) (before after : Bytes) (indent : ℕ) :
    (firstPair block line column before after indent lines).isSome = true := by
  apply Parsed.isSome_andThen
  · split_ifs
    · exact isSome_nested hblock _ _
    · exact isSome_inlineNode _ _ _
  · exact fun node rest _ => isSome_putPair _ node rest

/-- With so much fuel the loops come to an end. -/
structure Ends (stop fuel : ℕ) : Prop where
  block : ∀ (indent : ℕ) (lines : List Line), 2 * lines.length + 2 ≤ fuel →
    (parseBlock (N := N) stop fuel indent lines).isSome = true
  pairs : ∀ (indent : ℕ) (lines : List Line), 2 * lines.length + 1 ≤ fuel →
    (mapPairs (N := N) stop fuel indent lines).isSome = true
  items : ∀ (indent : ℕ) (lines : List Line), 2 * lines.length + 1 ≤ fuel →
    (seqItems (N := N) stop fuel indent lines).isSome = true
  children : ∀ (indent : ℕ) (lines : List Line), 2 * lines.length + 1 ≤ fuel →
    (childPairs (N := N) stop fuel indent lines).isSome = true

theorem endsBlock_step (h : Ends (N := N) stop fuel) (indent : ℕ) (lines : List Line)
    (hfuel : 2 * lines.length + 2 ≤ fuel + 1) :
    (parseBlock (N := N) stop (fuel + 1) indent lines).isSome = true := by
  cases lines with
  | nil =>
    rw [parseBlock]
    rfl
  | cons line lines =>
    rw [parseBlock]
    split_ifs
    · rfl
    · apply Parsed.isSome_andThen (h.items indent (line :: lines) (by omega))
      intro nodes rest _
      split_ifs <;> rfl
    · apply Parsed.isSome_andThen (h.pairs indent (line :: lines) (by omega))
      intro pairs rest _
      split_ifs <;> rfl

/-- A pair has at least its own line, so that there are fewer after it. -/
theorem length_after_mapPair {line : Line} {lines rest : List Line} {pair : Bytes × Node N}
    (hseq : line.isSeq = false)
    (h : mapPair (parseBlock stop fuel) line lines = Parsed.done pair rest) :
    rest.length ≤ lines.length := by
  obtain ⟨used, hused, hspans⟩ := mapPair_done (readsLines fuel).block hseq h
  have hlength := congrArg List.length hused
  have hpos := hspans.length_pos
  simp only [List.length_cons, List.length_append] at hlength
  omega

theorem endsPairs_step (h : Ends (N := N) stop fuel) (indent : ℕ) (lines : List Line)
    (hfuel : 2 * lines.length + 1 ≤ fuel + 1) :
    (mapPairs (N := N) stop (fuel + 1) indent lines).isSome = true := by
  cases lines with
  | nil =>
    rw [mapPairs]
    rfl
  | cons line lines =>
    rw [List.length_cons] at hfuel
    rw [mapPairs]
    split_ifs with hline
    · apply Parsed.isSome_andThen (isSome_mapPair (fun i => h.block i lines (by omega)) line)
      intro pair rest hpair
      have hlength := length_after_mapPair hline.2 hpair
      exact Parsed.isSome_andThen (h.pairs indent rest (by omega)) fun _ _ _ => rfl
    · rfl

theorem endsChildren_step (h : Ends (N := N) stop fuel) (indent : ℕ) (lines : List Line)
    (hfuel : 2 * lines.length + 1 ≤ fuel + 1) :
    (childPairs (N := N) stop (fuel + 1) indent lines).isSome = true := by
  cases lines with
  | nil =>
    rw [childPairs]
    rfl
  | cons line lines =>
    rw [List.length_cons] at hfuel
    rw [childPairs]
    split_ifs with hright hline
    · rfl
    · apply Parsed.isSome_andThen (isSome_mapPair (fun i => h.block i lines (by omega)) line)
      intro pair rest hpair
      have hlength := length_after_mapPair (by simpa using (not_or.mp hline).2) hpair
      exact Parsed.isSome_andThen (h.children indent rest (by omega)) fun _ _ _ => rfl
    · rfl

theorem endsItems_step (h : Ends (N := N) stop fuel) (indent : ℕ) (lines : List Line)
    (hfuel : 2 * lines.length + 1 ≤ fuel + 1) :
    (seqItems (N := N) stop (fuel + 1) indent lines).isSome = true := by
  cases lines with
  | nil =>
    rw [seqItems]
    rfl
  | cons line lines =>
    rw [List.length_cons] at hfuel
    have hblock : ∀ i, (parseBlock (N := N) stop fuel i lines).isSome = true :=
      fun i => h.block i lines (by omega)
    have hreads : ReadsLines (N := N) stop fuel := readsLines fuel
    rw [seqItems]
    split_ifs with hline
    · dsimp only
      -- What is left after the item is no longer than what is below its line.
      have hitem : ∀ node : Block (Node N), node.isSome = true →
          (∀ value rest, node = Parsed.done value rest → rest.length ≤ lines.length) →
          (node.andThen fun value rest => (seqItems stop fuel indent rest).andThen
            fun nodes rest' => Parsed.done (value :: nodes) rest').isSome = true := by
        intro node hnode hshort
        apply Parsed.isSome_andThen hnode
        intro value rest hvalue
        have hlength := hshort value rest hvalue
        exact Parsed.isSome_andThen (h.items indent rest (by omega)) fun _ _ _ => rfl
      apply hitem
      · split_ifs
        · exact isSome_nested hblock _ _
        · split
          · apply Parsed.isSome_andThen (isSome_firstPair hblock _ _ _ _ _)
            intro pair rest hpair
            obtain ⟨-, used, rfl, -⟩ := firstPair_done hreads.block hpair
            simp only [List.length_append] at hfuel
            exact Parsed.isSome_andThen (h.children indent rest (by omega)) fun _ _ _ => rfl
          · exact isSome_inlineNode _ _ _
      · intro value rest hvalue
        split_ifs at hvalue with hempty
        · obtain ⟨used, rfl, -⟩ := nested_done hreads.block hempty hvalue
          simp
        · split at hvalue
          · obtain ⟨pair, rest', hpair, hvalue⟩ := Parsed.andThen_ok hvalue
            obtain ⟨pairs, rest'', hpairs, hvalue⟩ := Parsed.andThen_ok hvalue
            cases hvalue
            obtain ⟨-, used, rfl, -⟩ := firstPair_done hreads.block hpair
            obtain ⟨more, rfl, -⟩ := hreads.children _ _ _ _ hpairs
            simp only [List.length_append]
            omega
          · rw [(inlineNode_done indent hvalue).1]
    · rfl

theorem ends (fuel : ℕ) : Ends (N := N) stop fuel := by
  induction fuel with
  | zero =>
    constructor <;> intro indent lines h <;> omega
  | succ fuel ih =>
    constructor
    · exact endsBlock_step ih
    · exact endsPairs_step ih
    · exact endsItems_step ih
    · exact endsChildren_step ih

theorem isSome_parseTree (lines : List Line) : (parseTree (N := N) stop lines).isSome = true := by
  rw [parseTree, Option.isSome_map]
  apply (ends _).block
  omega

/-- A tree that is read has all lines in it. -/
theorem parseTree_spans {lines : List Line} {root : Node N}
    (h : parseTree stop lines = some (.ok root)) :
    ∃ indent, Spans indent lines (.block root) := by
  obtain ⟨r, hr, h⟩ := Option.map_eq_some_iff.mp h
  split at h
  · cases h
  · cases h
    obtain ⟨used, hused, hspans⟩ := (readsLines _).block _ _ _ _ hr
    rw [hused, List.append_nil]
    exact ⟨_, hspans⟩
  · cases h

/-- Every source is read to an end, and if it is accepted, each of its lines is the line of one
pair or one item of the tree, in their order. -/
theorem lines_read_once (src : Bytes) :
    (parseYamlPatchbay (N := N) src).isSome = true ∧
    ∀ forms : List (Value N), parseYamlPatchbay src = some (.ok forms) →
      ∃ lines, collectLines 0 (src.splitOn lf) = .ok lines ∧
        (lines = [] ∧ forms = [] ∨
          ∃ indent root, Spans indent lines (.block root) ∧ lowerRoot root = some forms) := by
  unfold parseYamlPatchbay
  split
  · exact ⟨rfl, fun forms h => by cases h⟩
  · rename_i hlines
    refine ⟨rfl, fun forms h => ?_⟩
    cases h
    exact ⟨[], hlines, .inl ⟨rfl, rfl⟩⟩
  · rename_i line lines hlines
    constructor
    · rw [Option.isSome_map]
      exact isSome_parseTree _
    · intro forms h
      obtain ⟨r, hr, h⟩ := Option.map_eq_some_iff.mp h
      split at h
      · cases h
      · rename_i root
        split at h
        · rename_i hlower
          cases h
          obtain ⟨indent, hspans⟩ := parseTree_spans hr
          exact ⟨line :: lines, hlines, .inr ⟨indent, root, hspans, hlower⟩⟩
        · cases h

end Lines

end Monoblok.Patchbay.Yaml
