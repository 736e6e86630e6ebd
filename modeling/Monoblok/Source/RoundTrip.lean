import Monoblok.Patchbay.Exact
import Monoblok.Source.Sexpr

/-!
# Forms written and read back

A form is written as tokens with gaps between them, of white space and of comments that end
with their line. Whatever the gaps are, the reader gives the form back.
-/

namespace Monoblok.Patchbay.Sexpr

open Number Parsing

variable {N : Type}

/-! ## Gaps -/

/-- White space and whole comments. -/
inductive Gap : Bytes → Prop
  | nil : Gap []
  | space {c : UInt8} {g : Bytes} (hc : isSpace c = true) (hg : Gap g) : Gap (c :: g)
  | comment {text g : Bytes} (htext : lf ∉ text) (hg : Gap g) :
      Gap (semicolon :: (text ++ lf :: g))

/-- A token ends where a delimiter begins, or with the source. -/
def Ended (s : Bytes) : Prop := ∀ c ∈ s.head?, isDelimiter c = true

theorem Gap.ended {g : Bytes} (hg : Gap g) (hne : g ≠ []) (s : Bytes) : Ended (g ++ s) := by
  intro c hc
  cases hg with
  | nil => exact absurd rfl hne
  | space hspace _ =>
    cases hc
    simp [isDelimiter, hspace]
  | comment _ _ =>
    cases hc
    decide

theorem skipFrom_comment {text : Bytes} (htext : lf ∉ text) (s : Bytes) :
    skipFrom true (text ++ lf :: s) = skipWs s := by
  induction text with
  | nil => rfl
  | cons c text ih =>
    obtain ⟨hc, htext⟩ := not_or.mp (List.mem_cons.not.mp htext)
    have hne : (c != lf) = true := by simpa using Ne.symm hc
    rw [List.cons_append, skipFrom, hne]
    exact ih htext

/-- The reader passes over a gap. -/
theorem Gap.skip {g : Bytes} (hg : Gap g) (s : Bytes) : skipWs (g ++ s) = skipWs s := by
  induction hg with
  | nil => rfl
  | @space c g hc hg ih =>
    rw [List.cons_append, skipWs, skipFrom, if_pos hc]
    exact ih
  | @comment text g htext hg ih =>
    have hspace : isSpace semicolon = false := by decide
    rw [List.cons_append, skipWs, skipFrom, hspace, if_neg Bool.false_ne_true, if_pos rfl,
      List.append_assoc, List.cons_append, skipFrom_comment htext]
    exact ih

/-- A byte that may begin a token. -/
def Begins (c : UInt8) : Prop := isSpace c = false ∧ c ≠ semicolon

instance (c : UInt8) : Decidable (Begins c) := inferInstanceAs (Decidable (_ ∧ _))

theorem skipWs_begins {c : UInt8} (hc : Begins c) (s : Bytes) : skipWs (c :: s) = c :: s := by
  rw [skipWs, skipFrom, hc.1, if_neg Bool.false_ne_true, if_neg hc.2]

/-! ## Tokens -/

/-- A byte of a string as it is written. -/
def escape (c : UInt8) : Bytes :=
  if c = lf then [backslash, 0x6e]
  else if c = cr then [backslash, 0x72]
  else if c = tab then [backslash, 0x74]
  else if c = backslash then [backslash, backslash]
  else if c = quote then [backslash, quote]
  else [c]

def stringToken (text : Bytes) : Bytes := quote :: (text.flatMap escape ++ [quote])

mutual

/-- The tokens of a form; of a number there are none. -/
def tokens : Value N → List Bytes
  | .nil => [lit "nil"]
  | .bool b => [lit (if b then "true" else "false")]
  | .number _ => []
  | .string text => [stringToken text]
  | .keyword text => [colon :: text]
  | .symbol text => [text]
  | .vector items => [lbracket] :: (tokensOf items ++ [[rbracket]])
  | .list items => [lparen] :: (tokensOf items ++ [[rparen]])

def tokensOf : List (Value N) → List Bytes
  | [] => []
  | v :: vs => tokens v ++ tokensOf vs

end

/-- Tokens one after another with gaps around them. Only the first gap, if `first` says so, and
the last one may be empty. -/
inductive Layout : Bool → List Bytes → Bytes → Prop
  | nil {first : Bool} {g : Bytes} (hg : Gap g) : Layout first [] g
  | cons {first : Bool} {g tok s : Bytes} {toks : List Bytes} (hg : Gap g)
      (hne : first = false → g ≠ []) (hs : Layout false toks s) :
      Layout first (tok :: toks) (g ++ (tok ++ s))

theorem Layout.ended {toks : List Bytes} {s : Bytes} (h : Layout false toks s) : Ended s := by
  cases h with
  | nil hg =>
    cases s with
    | nil =>
      intro c hc
      cases hc
    | cons c s => simpa using hg.ended (List.cons_ne_nil c s) []
  | cons hg hne _ => exact hg.ended (hne rfl) _

/-! ## Forms that can be written -/

/-- A word: it is not empty, and nothing in it ends a token. -/
def IsWord (text : Bytes) : Prop := text ≠ [] ∧ ∀ c ∈ text, isDelimiter c = false

instance (text : Bytes) : Decidable (IsWord text) :=
  decidable_of_iff (text ≠ [] ∧ (text.all fun c => !isDelimiter c) = true) (by simp [IsWord])

/-- A word that is read as a symbol. -/
structure IsSymbol (N : Type) [Number N] (text : Bytes) : Prop where
  word : IsWord text
  quote : text.head? ≠ some quote
  colon : text.head? ≠ some colon
  nil : text ≠ lit "nil"
  true : text ≠ lit "true"
  false : text ≠ lit "false"
  number : parseNumber (N := N) Bool.true text = none

variable [Number N]

/-- Forms without numbers whose keywords and symbols are words, and whose lists begin with a
symbol. -/
inductive Written : Value N → Prop
  | nil : Written .nil
  | bool (b : Bool) : Written (.bool b)
  | string (text : Bytes) : Written (.string text)
  | keyword {text : Bytes} (h : IsWord text) : Written (.keyword text)
  | symbol {text : Bytes} (h : IsSymbol N text) : Written (.symbol text)
  | vector {items : List (Value N)} (h : ∀ v ∈ items, Written v) : Written (.vector items)
  | list {name : Bytes} {args : List (Value N)} (hname : IsSymbol N name)
      (h : ∀ v ∈ args, Written v) : Written (.list (.symbol name :: args))

/-! ## Reading a token -/

omit [Number N] in
theorem stringText_escaped (start : Bytes) {e b : UInt8} (h : unescape e = some b) (s : Bytes) :
    stringText start (backslash :: e :: s) = (stringText start s).map fun x => (b :: x.1, x.2) := by
  rw [stringText, if_neg (by decide), if_pos rfl]
  simp only [h]

omit [Number N] in
theorem stringText_plain (start : Bytes) {c : UInt8} (hquote : c ≠ quote) (hslash : c ≠ backslash)
    (s : Bytes) :
    stringText start (c :: s) = (stringText start s).map fun x => (c :: x.1, x.2) := by
  rw [stringText.eq_def]
  simp only [if_neg hquote, if_neg hslash]

omit [Number N] in
theorem stringText_quote (start s : Bytes) : stringText start (quote :: s) = .ok ([], s) := by
  rw [stringText.eq_def]
  simp only [if_true]

omit [Number N] in
theorem stringText_escape (start : Bytes) (c : UInt8) (s : Bytes) :
    stringText start (escape c ++ s) = (stringText start s).map fun x => (c :: x.1, x.2) := by
  unfold escape
  split_ifs with hlf hcr htab hslash hquote
  · exact stringText_escaped start (by rw [hlf]; decide) s
  · exact stringText_escaped start (by rw [hcr]; decide) s
  · exact stringText_escaped start (by rw [htab]; decide) s
  · exact stringText_escaped start (by rw [hslash]; decide) s
  · exact stringText_escaped start (by rw [hquote]; decide) s
  · exact stringText_plain start hquote hslash s

omit [Number N] in
/-- The escapes of a string are undone. -/
theorem stringText_escapes (start text s : Bytes) :
    stringText start (text.flatMap escape ++ quote :: s) = .ok (text, s) := by
  induction text with
  | nil => exact stringText_quote start s
  | cons c text ih =>
    rw [List.flatMap_cons, List.append_assoc, stringText_escape, ih]
    rfl

omit [Number N] in
theorem parseString_token (text s : Bytes) :
    parseString (N := N) (stringToken text ++ s) = .ok (.string text, s) := by
  have htoken : stringToken text ++ s = quote :: (text.flatMap escape ++ quote :: s) := by
    simp [stringToken]
  rw [htoken, parseString, List.tail_cons, stringText_escapes]
  rfl

/-- A word up to its end. -/
theorem parseAtom_word (memory : Bytes → Bool) {text s : Bytes} (htext : IsWord text)
    (hs : Ended s) :
    parseAtom (N := N) memory (text ++ s) = .ok (atomValue (memory s) text, s) := by
  have hword : ∀ c ∈ text, (!isDelimiter c) = true := by
    intro c hc
    rw [htext.2 c hc]
    rfl
  have htake : (text ++ s).takeWhile (fun c => !isDelimiter c) = text := by
    rw [List.takeWhile_append_of_pos hword]
    cases s with
    | nil => simp
    | cons c s => simp [hs c rfl]
  have hdrop : (text ++ s).dropWhile (fun c => !isDelimiter c) = s := by
    rw [List.dropWhile_append_of_pos hword]
    cases s with
    | nil => simp
    | cons c s => simp [hs c rfl]
  rw [parseAtom, htake, hdrop]
  simp [htext.1]

theorem parseNumber_none {text : Bytes} (h : parseNumber (N := N) true text = none)
    (memory : Bool) : parseNumber (N := N) memory text = none := by
  cases memory with
  | true => exact h
  | false => simp [parseNumber]

theorem atomValue_symbol (memory : Bool) {text : Bytes} (h : IsSymbol N text) :
    atomValue (N := N) memory text = .symbol text := by
  unfold atomValue
  rw [if_neg h.nil, if_neg h.true, if_neg h.false, parseNumber_none h.number]
  dsimp only
  split
  · rename_i c d name
    rw [if_neg fun hc => h.colon (congrArg some hc)]
  · rfl

theorem atomValue_keyword (memory : Bool) {text : Bytes} (h : text ≠ []) :
    atomValue (N := N) memory (colon :: text) = .keyword text := by
  obtain ⟨c, text, rfl⟩ := List.exists_cons_of_ne_nil h
  have hnumber : parseNumber (N := N) memory (colon :: c :: text) = none := by
    have hnumeric : looksNumeric (colon :: c :: text) = false := by
      unfold looksNumeric
      simp only [Bool.or_eq_false_iff, Bool.and_eq_false_iff]
      exact ⟨⟨by decide, .inl (by decide)⟩, by decide⟩
    simp [parseNumber, hnumeric]
  have hname : ∀ name : Bytes, name.head? ≠ some colon → colon :: c :: text ≠ name := by
    rintro name hhead rfl
    exact hhead rfl
  unfold atomValue
  rw [if_neg (hname _ (by decide)), if_neg (hname _ (by decide)),
    if_neg (hname _ (by decide)), hnumber]
  simp

/-! ## Reading a form -/

section Forms

variable {memory : Bytes → Bool} {fuel : ℕ} {g s : Bytes}

theorem Layout.cons_inv {first : Bool} {tok : Bytes} {toks : List Bytes}
    (h : Layout first (tok :: toks) s) :
    ∃ g s', Gap g ∧ s = g ++ (tok ++ s') ∧ Layout false toks s' := by
  cases h with
  | cons hg _ hs => exact ⟨_, _, hg, rfl, hs⟩

theorem Gap.skip_begins (hg : Gap g) {c : UInt8} (hc : Begins c) : skipWs (g ++ c :: s) = c :: s := by
  rw [hg.skip, skipWs_begins hc]

theorem begins_of_not_delimiter {c : UInt8} (hc : isDelimiter c = false) : Begins c := by
  simp only [isDelimiter, Bool.or_eq_false_iff, beq_eq_false_iff_ne] at hc
  exact ⟨hc.1.1.1.1.1, hc.2⟩

theorem parseOne_list (hg : Gap g) :
    parseOne (N := N) memory (fuel + 1) (g ++ lparen :: s) =
      (parseItems memory rparen rbracket fuel s).andThen (freeze true (lparen :: s)) := by
  rw [parseOne, hg.skip_begins (by decide)]
  rfl

theorem parseOne_vector (hg : Gap g) :
    parseOne (N := N) memory (fuel + 1) (g ++ lbracket :: s) =
      (parseItems memory rbracket rparen fuel s).andThen (freeze false (lbracket :: s)) := by
  rw [parseOne, hg.skip_begins (by decide)]
  rfl

theorem parseOne_string (hg : Gap g) (text : Bytes) :
    parseOne (N := N) memory (fuel + 1) (g ++ (stringToken text ++ s)) =
      Parsed.done (.string text) s := by
  have hread := @parseString_token N text s
  rw [stringToken, List.cons_append] at hread ⊢
  rw [parseOne, hg.skip_begins (by decide)]
  exact congrArg some hread

theorem parseOne_word (hg : Gap g) {text : Bytes} (htext : IsWord text)
    (hquote : text.head? ≠ some quote) (hs : Ended s) :
    parseOne (N := N) memory (fuel + 1) (g ++ (text ++ s)) =
      Parsed.done (atomValue (memory s) text) s := by
  have hread := @parseAtom_word N _ memory text s htext hs
  obtain ⟨c, text, rfl⟩ := List.exists_cons_of_ne_nil htext.1
  have hc := htext.2 c List.mem_cons_self
  have hne : c ≠ quote := fun h => hquote (congrArg some h)
  rw [List.cons_append] at hread ⊢
  rw [parseOne, hg.skip_begins (begins_of_not_delimiter hc)]
  simp only [isDelimiter, Bool.or_eq_false_iff, beq_eq_false_iff_ne] at hc
  obtain ⟨⟨⟨⟨⟨-, hlparen⟩, hrparen⟩, hlbracket⟩, hrbracket⟩, -⟩ := hc
  simp only [if_neg hlparen, if_neg hlbracket, if_neg hrparen, if_neg hrbracket, if_neg hne]
  exact congrArg some hread

/-- The first token of a form begins neither a gap nor the end of a sequence. -/
theorem Written.head {v : Value N} (h : Written v) :
    ∃ c tok toks, tokens v = (c :: tok) :: toks ∧ Begins c ∧ c ≠ rparen ∧ c ≠ rbracket := by
  have hword : ∀ text : Bytes, IsWord text →
      ∃ c tok, text = c :: tok ∧ Begins c ∧ c ≠ rparen ∧ c ≠ rbracket := by
    intro text htext
    obtain ⟨c, tok, rfl⟩ := List.exists_cons_of_ne_nil htext.1
    have hc := htext.2 c List.mem_cons_self
    refine ⟨c, tok, rfl, begins_of_not_delimiter hc, ?_, ?_⟩
    · rintro rfl
      exact absurd hc (by decide)
    · rintro rfl
      exact absurd hc (by decide)
  cases h with
  | nil => exact ⟨0x6e, _, [], rfl, by decide, by decide, by decide⟩
  | bool b =>
    cases b with
    | true => exact ⟨0x74, _, [], rfl, by decide, by decide, by decide⟩
    | false => exact ⟨0x66, _, [], rfl, by decide, by decide, by decide⟩
  | string text => exact ⟨quote, _, [], rfl, by decide, by decide, by decide⟩
  | keyword _ => exact ⟨colon, _, [], rfl, by decide, by decide, by decide⟩
  | symbol h =>
    obtain ⟨c, tok, rfl, hc⟩ := hword _ h.word
    exact ⟨c, tok, [], rfl, hc⟩
  | vector _ => exact ⟨lbracket, [], _, rfl, by decide, by decide, by decide⟩
  | list _ _ => exact ⟨lparen, [], _, rfl, by decide, by decide, by decide⟩

/-- What is read is the form, and what is left begins with the tokens behind it. -/
def ReadsBack (memory : Bytes → Bool) (fuel : ℕ) : Prop :=
  ∀ {v : Value N}, Written v → ∀ {first : Bool} {rest : List Bytes} {s : Bytes},
    Layout first (tokens v ++ rest) s → 2 * s.length < fuel →
      ∃ s', parseOne memory fuel s = Parsed.done v s' ∧ Layout false rest s'

/-- The same for the items of a sequence up to its bracket. -/
def ReadsItems (memory : Bytes → Bool) (fuel : ℕ) : Prop :=
  ∀ {vs : List (Value N)}, (∀ v ∈ vs, Written v) → ∀ {close wrongClose : UInt8},
    close = rparen ∧ wrongClose = rbracket ∨ close = rbracket ∧ wrongClose = rparen →
      ∀ {first : Bool} {rest : List Bytes} {s : Bytes},
        Layout first (tokensOf vs ++ [close] :: rest) s → 2 * s.length + 1 < fuel →
          ∃ s', parseItems memory close wrongClose fuel s = Parsed.done vs s' ∧ Layout false rest s'

theorem readsBack_step (hitems : ReadsItems (N := N) memory fuel) :
    ReadsBack (N := N) memory (fuel + 1) := by
  intro v hv first rest s hs hfuel
  have hword : ∀ {text : Bytes}, IsWord text → text.head? ≠ some quote → tokens v = [text] →
      (∀ memory : Bool, atomValue (N := N) memory text = v) →
        ∃ s', parseOne memory (fuel + 1) s = Parsed.done v s' ∧ Layout false rest s' := by
    intro text htext hquote htokens hvalue
    rw [htokens] at hs
    obtain ⟨g, s', hg, rfl, hrest⟩ := hs.cons_inv
    refine ⟨s', ?_, hrest⟩
    rw [parseOne_word hg htext hquote hrest.ended, hvalue]
  have hseq : ∀ (open' close : UInt8) {items : List (Value N)},
      tokens v = [open'] :: (tokensOf items ++ [[close]]) →
        ∃ g s', Gap g ∧ s = g ++ open' :: s' ∧ 2 * s'.length + 1 < fuel ∧
          Layout false (tokensOf items ++ [close] :: rest) s' := by
    intro open' close items htokens
    rw [htokens] at hs
    obtain ⟨g, s', hg, rfl, hrest⟩ := hs.cons_inv
    refine ⟨g, s', hg, rfl, ?_, ?_⟩
    · simp only [List.length_append, List.length_cons, List.length_nil] at hfuel
      omega
    · simpa using hrest
  cases hv with
  | nil => exact hword (by decide) (by decide) rfl fun _ => rfl
  | bool b =>
    cases b with
    | true => exact hword (by decide) (by decide) rfl fun _ => rfl
    | false => exact hword (by decide) (by decide) rfl fun _ => rfl
  | string text =>
    obtain ⟨g, s', hg, rfl, hrest⟩ := hs.cons_inv
    exact ⟨s', parseOne_string hg text, hrest⟩
  | @keyword text h =>
    have hcolon : isDelimiter colon = false := by decide
    exact hword ⟨List.cons_ne_nil _ _, List.forall_mem_cons.mpr ⟨hcolon, h.2⟩⟩
      (by simp [colon, quote]) rfl fun memory => atomValue_keyword memory h.1
  | symbol h => exact hword h.word h.quote rfl fun memory => atomValue_symbol memory h
  | @vector items h =>
    obtain ⟨g, s', hg, rfl, hlt, hrest⟩ := hseq lbracket rbracket rfl
    obtain ⟨s'', hread, hlast⟩ := hitems h (.inr ⟨rfl, rfl⟩) hrest hlt
    refine ⟨s'', ?_, hlast⟩
    rw [parseOne_vector hg, hread]
    rfl
  | @list name args hname h =>
    obtain ⟨g, s', hg, rfl, hlt, hrest⟩ := hseq lparen rparen rfl
    obtain ⟨s'', hread, hlast⟩ :=
      hitems (List.forall_mem_cons.mpr ⟨.symbol hname, h⟩) (.inl ⟨rfl, rfl⟩) hrest hlt
    refine ⟨s'', ?_, hlast⟩
    rw [parseOne_list hg, hread]
    rfl

theorem readsItems_step (hone : ReadsBack (N := N) memory fuel)
    (hitems : ReadsItems (N := N) memory fuel) : ReadsItems (N := N) memory (fuel + 1) := by
  intro vs hvs close wrongClose hclose first rest s hs hfuel
  cases vs with
  | nil =>
    obtain ⟨g, s', hg, rfl, hrest⟩ := hs.cons_inv
    have hbegins : Begins close := by
      rcases hclose with ⟨rfl, -⟩ | ⟨rfl, -⟩ <;> decide
    refine ⟨s', ?_, hrest⟩
    rw [List.singleton_append, parseItems, hg.skip_begins hbegins]
    exact if_pos rfl
  | cons v vs =>
    obtain ⟨hv, hvs⟩ := List.forall_mem_cons.mp hvs
    obtain ⟨c, tok, toks, htokens, hbegins, hrparen, hrbracket⟩ := hv.head
    rw [tokensOf, List.append_assoc] at hs
    have hs' := hs
    rw [htokens] at hs'
    obtain ⟨g, s', hg, rfl, hrest⟩ := hs'.cons_inv
    -- the gap is passed over before the form is read
    have hform : Layout true (tokens v ++ (tokensOf vs ++ [close] :: rest)) ((c :: tok) ++ s') := by
      rw [htokens]
      exact @Layout.cons true [] (c :: tok) s' _ .nil (fun h => by cases h) hrest
    simp only [List.length_append, List.length_cons] at hfuel
    obtain ⟨s₁, hread, hs₁⟩ := hone hv hform (by
      simp only [List.length_append, List.length_cons]
      omega)
    have hless := (length_parse fuel).1 hread
    simp only [List.length_append, List.length_cons] at hless
    obtain ⟨s₂, hread', hs₂⟩ := hitems hvs hclose hs₁ (by omega)
    have hne : c ≠ close ∧ c ≠ wrongClose := by
      rcases hclose with ⟨rfl, rfl⟩ | ⟨rfl, rfl⟩
      · exact ⟨hrparen, hrbracket⟩
      · exact ⟨hrbracket, hrparen⟩
    refine ⟨s₂, ?_, hs₂⟩
    rw [List.cons_append] at hread ⊢
    rw [parseItems, hg.skip_begins hbegins]
    simp only [if_neg hne.1, if_neg hne.2, hread]
    rw [Parsed.done_andThen, hread', Parsed.done_andThen]

theorem readsBack (fuel : ℕ) :
    ReadsBack (N := N) memory fuel ∧ ReadsItems (N := N) memory fuel := by
  induction fuel with
  | zero =>
    constructor
    · intro v _ first rest s _ hfuel
      omega
    · intro vs _ close wrongClose _ first rest s _ hfuel
      omega
  | succ fuel ih => exact ⟨readsBack_step ih.2, readsItems_step ih.1 ih.2⟩

theorem parseForms_layout {forms : List (Value N)} (hforms : ∀ v ∈ forms, Written v) {first : Bool}
    (hs : Layout first (tokensOf forms) s) (hfuel : 2 * s.length + 1 < fuel) :
    parseForms memory fuel s = Parsed.done forms [] := by
  induction forms generalizing first s fuel with
  | nil =>
    cases hs with
    | nil hg =>
      obtain ⟨fuel, rfl⟩ := Nat.exists_eq_succ_of_ne_zero (by omega : fuel ≠ 0)
      have hskip := hg.skip []
      rw [List.append_nil] at hskip
      rw [parseForms, hskip]
      rfl
  | cons v vs ih =>
    obtain ⟨hv, hvs⟩ := List.forall_mem_cons.mp hforms
    obtain ⟨c, tok, toks, htokens, hbegins, -, -⟩ := hv.head
    obtain ⟨fuel, rfl⟩ := Nat.exists_eq_succ_of_ne_zero (by omega : fuel ≠ 0)
    rw [tokensOf] at hs
    have hs' := hs
    rw [htokens] at hs'
    obtain ⟨g, s', hg, rfl, hrest⟩ := hs'.cons_inv
    have hform : Layout true (tokens v ++ tokensOf vs) ((c :: tok) ++ s') := by
      rw [htokens]
      exact @Layout.cons true [] (c :: tok) s' _ .nil (fun h => by cases h) hrest
    simp only [List.length_append, List.length_cons] at hfuel
    obtain ⟨s₁, hread, hs₁⟩ := (readsBack fuel).1 hv hform (by
      simp only [List.length_append, List.length_cons]
      omega)
    have hless := (length_parse fuel).1 hread
    simp only [List.length_append, List.length_cons] at hless
    have hread' := ih hvs hs₁ (by omega : 2 * s₁.length + 1 < fuel)
    rw [List.cons_append] at hread ⊢
    rw [parseForms, hg.skip_begins hbegins]
    dsimp only
    rw [hread]
    rw [Parsed.done_andThen, hread', Parsed.done_andThen]

theorem length_parseForms {rest : Bytes} {forms : List (Value N)}
    (h : parseForms memory fuel s = some (.ok (forms, rest))) : forms.length ≤ s.length := by
  induction fuel generalizing s rest forms with
  | zero => cases h
  | succ fuel ih =>
    rw [parseForms] at h
    split at h
    · cases h
      exact Nat.zero_le _
    · rename_i c tail hskip
      have hlt := length_of_skipWs hskip
      obtain ⟨v, rest', hread, h⟩ := Parsed.andThen_ok h
      obtain ⟨vs, rest'', hrest, h⟩ := Parsed.andThen_ok h
      cases h
      have hless := (length_parse fuel).1 hread
      have hle := ih hrest
      simp only [List.length_cons] at hless ⊢
      omega

end Forms

/-- A source laid out from the tokens of its forms is read as these forms. Every source is read
to an end, and whatever is read as a form takes some of the source. -/
theorem parseAll_reads_back (memory : Bytes → Bool) :
    (∀ forms : List (Value N), (∀ v ∈ forms, Written v) → ∀ src,
      Layout true (tokensOf forms) src → parseAll memory src = some (.ok forms)) ∧
    (∀ src, ∃ r : ParseResult N, parseAll memory src = some r) ∧
    (∀ fuel s (v : Value N) rest, parseOne memory fuel s = some (.ok (v, rest)) →
      rest.length < s.length) ∧
    ∀ src (forms : List (Value N)), parseAll memory src = some (.ok forms) →
      forms.length ≤ src.length := by
  refine ⟨?_, parseAll_total, ?_, ?_⟩
  · intro forms hforms src hsrc
    have hread := @parseForms_layout N _ memory (parseFuel src) src forms hforms true hsrc
      (by unfold parseFuel; omega)
    rw [parseAll, hread]
    rfl
  · intro fuel s v rest h
    exact (length_parse fuel).1 h
  · intro src forms h
    obtain ⟨r, hr, hforms⟩ := Option.map_eq_some_iff.mp h
    cases r with
    | error e => cases hforms
    | ok x =>
      cases hforms
      exact length_parseForms hr

theorem gap_space : Gap (lit " ") := .space (by decide) .nil

/-- A call whose string has escapes in it, with a comment behind it. -/
theorem parseAll_reads_back_call :
    parseAll (N := ℚ) (fun _ => true) (lit "( on \"\\n\\\"\" [ :ms ] ) ;end\n") =
      some (.ok [.list [.symbol (lit "on"), .string (lit "\n\""), .vector [.keyword (lit "ms")]]]) := by
  have hon : IsSymbol ℚ (lit "on") :=
    ⟨by decide, by decide, by decide, by decide, by decide, by decide, by decide⟩
  have hitem : ∀ v ∈ [Value.keyword (N := ℚ) (lit "ms")], Written v := by
    intro v hv
    rw [List.mem_singleton.mp hv]
    exact .keyword (by decide)
  have hcall : Written (.list [.symbol (lit "on"), .string (lit "\n\""),
      .vector [.keyword (N := ℚ) (lit "ms")]]) := by
    apply Written.list hon
    intro v hv
    rcases List.mem_cons.mp hv with rfl | hv
    · exact .string _
    · rw [List.mem_singleton.mp hv]
      exact .vector hitem
  have hcomment : Gap (lit " ;end\n") := .space (by decide) (@Gap.comment (lit "end") [] (by decide) .nil)
  have hne : false = false → lit " " ≠ [] := fun _ => by decide
  have hlayout : Layout true (tokensOf [.list [.symbol (lit "on"), .string (lit "\n\""),
      .vector [.keyword (N := ℚ) (lit "ms")]]])
      ([] ++ (lit "(" ++ (lit " " ++ (lit "on" ++ (lit " " ++ (lit "\"\\n\\\"\"" ++ (lit " " ++
        (lit "[" ++ (lit " " ++ (lit ":ms" ++ (lit " " ++ (lit "]" ++ (lit " " ++ (lit ")" ++
          lit " ;end\n")))))))))))))) := by
    apply Layout.cons .nil (fun h => by cases h)
    apply Layout.cons gap_space hne
    apply Layout.cons gap_space hne
    apply Layout.cons gap_space hne
    apply Layout.cons gap_space hne
    apply Layout.cons gap_space hne
    exact .cons gap_space hne (.nil hcomment)
  have hread := (@parseAll_reads_back ℚ _ fun _ => true).1 _ (List.forall_mem_cons.mpr ⟨hcall, by simp⟩) _ hlayout
  exact hread

end Monoblok.Patchbay.Sexpr
