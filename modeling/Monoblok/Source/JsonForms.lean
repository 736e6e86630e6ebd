import Monoblok.Source.Sexpr

/-!
# Forms as JSON

`pb_json.c`: a document of the JSON reader into expressions. The conversion goes on
after a failure in some places, so the error so far is passed along; an error once set
stays set, but a later one may take its place. Memory does not run out.
-/

namespace Monoblok.Patchbay.JsonForms

variable {N : Type}

def boundNames : List String := ["subject", "payload", "payload-float", "payload-int", "replaying?"]

/-- `string_value` -/
def stringValue (s : Bytes) : Value N :=
  if boundNames.any fun name => s == lit name then .symbol s else .string s

/-- The values so far with the error so far; without values the conversion has failed. -/
abbrev Converted (α : Type) := Option α × Option ParseError

def one (r : Value N × Option ParseError) : Converted (List (Value N)) := (some [r.1], r.2)

/-- The loops stop at the first error. -/
def followedBy (r rest : Converted (List (Value N))) : Converted (List (Value N)) :=
  match r with
  | (some vs, none) => (rest.1.map (vs ++ ·), rest.2)
  | (_, err) => (none, err)

/-- What an object with a string stands for: `sym`, `str` or `kw`. -/
def specialText (name text : Bytes) : Option (Value N) :=
  if name = lit "sym" then some (.symbol text)
  else if name = lit "str" then some (.string text)
  else if name = lit "kw" then some (.keyword text)
  else none

mutual

/-- `convert_expr` -/
def convertExpr (err : Option ParseError) : Json N → Value N × Option ParseError
  | .null => (.nil, err)
  | .bool b => (.bool b, err)
  | .num n => (.number n, err)
  | .str s => (stringValue s, err)
  | .arr items =>
    let r := convertForm err items
    (r.1.getD .nil, r.2)
  | .obj members =>
    match convertSpecial err members with
    | (some v, err') => (v, err')
    | (none, _) => (.nil, some .invalidJson)

/-- `convert_special_object` on the members of an object -/
def convertSpecial (err : Option ParseError) : List (Bytes × Json N) → Converted (Value N)
  | [(name, .str text)] => (if err.isSome then none else specialText name text, err)
  | [(name, .arr items)] =>
    if name = lit "vec" then
      let r := convertVec err items
      (r.1.map .vector, r.2)
    else (none, err)
  | _ => (none, err)

/-- The loop of `convert_vec_array` -/
def convertVec (err : Option ParseError) : List (Json N) → Converted (List (Value N))
  | [] => (some [], err)
  | item :: rest => followedBy (one (convertExpr err item)) (convertVec none rest)

/-- `convert_form` on the items of an array -/
def convertForm (err : Option ParseError) : List (Json N) → Converted (Value N)
  | .str head :: rest =>
    if err.isSome then (none, err)
    else
      let r := convertArgs rest
      (r.1.map fun args => .list (.symbol head :: args), r.2)
  | _ => (none, some .invalidListHead)

/-- The items after the first: an object that is not special has its members put in line. -/
def convertArgs : List (Json N) → Converted (List (Value N))
  | [] => (some [], none)
  | .obj members :: rest =>
    match convertSpecial none members with
    | (some v, err) => followedBy (one (v, err)) (convertArgs rest)
    | (none, err) => followedBy (convertPairs err members) (convertArgs rest)
  | item :: rest => followedBy (one (convertExpr none item)) (convertArgs rest)

/-- Members as options, the value of each by `convert_config_value`: an array is a vector. -/
def convertPairs (err : Option ParseError) : List (Bytes × Json N) → Converted (List (Value N))
  | [] => (some [], err)
  | (key, .arr items) :: rest =>
    match convertVec err items with
    | (none, err') => (none, err')
    | (some vs, err') =>
      let r := convertPairs err' rest
      (r.1.map ([.keyword key, .vector vs] ++ ·), r.2)
  | (key, val) :: rest =>
    let r := convertExpr err val
    followedBy (some [.keyword key, r.1], r.2) (convertPairs none rest)

end

/-- `convert_form` -/
def convertTop : Json N → Converted (Value N)
  | .arr items => convertForm none items
  | _ => (none, some .invalidListHead)

/-- The forms of an array of forms. -/
def convertForms : List (Json N) → Converted (List (Value N))
  | [] => (some [], none)
  | item :: rest =>
    let r := convertTop item
    followedBy (r.1.map fun form => [form], r.2) (convertForms rest)

/-- A conversion that fails leaves an error. -/
def result : Converted (List (Value N)) → ParseResult N
  | (forms, none) => .ok (forms.getD [])
  | (_, some e) => .error (e, 0)

/-- `parse_json_patchbay`; the reader says where a document is not well formed. -/
def parseJsonPatchbay (readJson : Bytes → Except ℕ (Json N)) (src : Bytes) : ParseResult N :=
  match readJson src with
  | .error pos => .error (.invalidJson, pos)
  | .ok (.arr items) =>
    match items with
    | .str _ :: _ =>
      let r := convertForm none items
      result (r.1.map fun form => [form], r.2)
    | _ => result (convertForms items)
  | .ok _ => .error (.invalidJson, 0)

/-! ## Lists are calls -/

/-- Without an error at the end there was none before, and the values are as they should be. -/
def Sound {α : Type} (good : α → Prop) (err : Option ParseError) (r : Converted α) : Prop :=
  r.2 = none → err = none ∧ ∀ a, r.1 = some a → good a

section Shape

variable {err : Option ParseError}

theorem sound_followedBy {r rest : Converted (List (Value N))} (hr : Sound AllShaped err r)
    (hrest : Sound AllShaped none rest) : Sound AllShaped err (followedBy r rest) := by
  obtain ⟨vs, err'⟩ := r
  cases err' with
  | some e => cases vs <;> exact fun h => by cases h
  | none =>
    obtain ⟨herr, hvs⟩ := hr rfl
    cases vs with
    | none => exact fun _ => ⟨herr, fun ws hws => by cases hws⟩
    | some vs =>
      intro h
      obtain ⟨-, hws⟩ := hrest h
      refine ⟨herr, fun us hus => ?_⟩
      obtain ⟨ws, hsome, rfl⟩ := Option.map_eq_some_iff.mp hus
      exact List.forall_mem_append.mpr ⟨hvs vs rfl, hws ws hsome⟩

theorem sound_one {r : Value N × Option ParseError} (h : r.2 = none → err = none ∧ r.1.Shaped) :
    Sound AllShaped err (one r) := by
  intro hnone
  obtain ⟨herr, hshaped⟩ := h hnone
  refine ⟨herr, fun vs hvs => ?_⟩
  cases hvs
  exact List.forall_mem_singleton.mpr hshaped

theorem sound_pair {key : Bytes} {r : Value N × Option ParseError}
    (h : r.2 = none → err = none ∧ r.1.Shaped) :
    Sound AllShaped err (some [.keyword key, r.1], r.2) := by
  intro hnone
  obtain ⟨herr, hshaped⟩ := h hnone
  refine ⟨herr, fun vs hvs => ?_⟩
  cases hvs
  exact List.forall_mem_cons.mpr ⟨shaped_keyword key, List.forall_mem_singleton.mpr hshaped⟩

theorem shaped_stringValue (s : Bytes) : (stringValue s : Value N).Shaped := by
  unfold stringValue
  split_ifs
  · exact shaped_symbol s
  · exact shaped_string s

theorem shaped_specialText {name text : Bytes} {v : Value N} (h : specialText name text = some v) :
    v.Shaped := by
  unfold specialText at h
  split_ifs at h
  · cases h
    exact shaped_symbol text
  · cases h
    exact shaped_string text
  · cases h
    exact shaped_keyword text

/-- Where there are no values there is nothing to show of them. -/
theorem sound_none {α : Type} {good : α → Prop} : Sound good err (none, err) :=
  fun h => ⟨h, fun a ha => by cases ha⟩

theorem convertSpecial_many (a b : Bytes × Json N) (rest : List (Bytes × Json N)) :
    convertSpecial err (a :: b :: rest) = (none, err) := by
  obtain ⟨name, v⟩ := a
  cases v <;> rfl

end Shape

mutual

theorem sound_convertExpr (err : Option ParseError) :
    ∀ v : Json N, (convertExpr err v).2 = none → err = none ∧ (convertExpr err v).1.Shaped
  | .null => fun h => ⟨h, shaped_nil⟩
  | .bool b => fun h => ⟨h, shaped_bool b⟩
  | .num n => fun h => ⟨h, shaped_number n⟩
  | .str s => fun h => ⟨h, shaped_stringValue s⟩
  | .arr items => by
    intro h
    rw [convertExpr] at h ⊢
    obtain ⟨herr, hgood⟩ := sound_convertForm err items h
    refine ⟨herr, ?_⟩
    dsimp only
    cases hform : (convertForm err items).1 with
    | none => exact shaped_nil
    | some v => exact hgood v hform
  | .obj members => by
    intro h
    rw [convertExpr] at h ⊢
    have hspecial := sound_convertSpecial err members
    generalize convertSpecial err members = r at h hspecial ⊢
    obtain ⟨v, err'⟩ := r
    cases v with
    | none => cases h
    | some v =>
      obtain ⟨herr, hgood⟩ := hspecial h
      exact ⟨herr, hgood v rfl⟩

theorem sound_convertSpecial (err : Option ParseError) :
    ∀ members : List (Bytes × Json N), Sound Value.Shaped err (convertSpecial err members)
  | [(name, .str text)] => by
    rw [convertSpecial]
    intro h
    refine ⟨h, fun v hv => ?_⟩
    split_ifs at hv
    exact shaped_specialText hv
  | [(name, .arr items)] => by
    rw [convertSpecial]
    split_ifs
    · intro h
      obtain ⟨herr, hgood⟩ := sound_convertVec err items h
      refine ⟨herr, fun v hv => ?_⟩
      obtain ⟨vs, hvs, rfl⟩ := Option.map_eq_some_iff.mp hv
      exact shaped_vector.mpr (hgood vs hvs)
    · exact sound_none
  | [] => sound_none
  | [(name, .null)] => sound_none
  | [(name, .bool b)] => sound_none
  | [(name, .num n)] => sound_none
  | [(name, .obj members)] => sound_none
  | a :: b :: rest => by
    rw [convertSpecial_many]
    exact sound_none

theorem sound_convertVec (err : Option ParseError) :
    ∀ items : List (Json N), Sound AllShaped err (convertVec err items)
  | [] => fun h => ⟨h, fun vs hvs => by cases hvs; exact List.forall_mem_nil _⟩
  | item :: rest => by
    rw [convertVec]
    exact sound_followedBy (sound_one (sound_convertExpr err item)) (sound_convertVec none rest)

theorem sound_convertForm (err : Option ParseError) :
    ∀ items : List (Json N), Sound Value.Shaped err (convertForm err items)
  | .str head :: rest => by
    rw [convertForm]
    intro h
    cases err with
    | some e => cases h
    | none =>
      refine ⟨rfl, fun v hv => ?_⟩
      obtain ⟨-, hgood⟩ := sound_convertArgs rest h
      obtain ⟨args, hargs, rfl⟩ := Option.map_eq_some_iff.mp hv
      exact shaped_call.mpr (hgood args hargs)
  | [] => fun h => by cases h
  | .null :: _ => fun h => by cases h
  | .bool _ :: _ => fun h => by cases h
  | .num _ :: _ => fun h => by cases h
  | .arr _ :: _ => fun h => by cases h
  | .obj _ :: _ => fun h => by cases h

theorem sound_convertArgs :
    ∀ items : List (Json N), Sound AllShaped none (convertArgs items)
  | [] => fun h => ⟨h, fun vs hvs => by cases hvs; exact List.forall_mem_nil _⟩
  | .obj members :: rest => by
    rw [convertArgs]
    have hrest := sound_convertArgs rest
    have hspecial := sound_convertSpecial none members
    have hpairs := fun err => sound_convertPairs err members
    generalize convertSpecial none members = r at hspecial ⊢
    obtain ⟨v, err'⟩ := r
    cases v with
    | some v =>
      apply sound_followedBy (sound_one ?_) hrest
      exact fun h => (hspecial h).imp_right fun hgood => hgood v rfl
    | none =>
      apply sound_followedBy _ hrest
      exact fun h => ⟨rfl, (hpairs err' h).2⟩
  | .null :: rest =>
    sound_followedBy (sound_one (sound_convertExpr none .null)) (sound_convertArgs rest)
  | .bool b :: rest =>
    sound_followedBy (sound_one (sound_convertExpr none (.bool b))) (sound_convertArgs rest)
  | .num n :: rest =>
    sound_followedBy (sound_one (sound_convertExpr none (.num n))) (sound_convertArgs rest)
  | .str s :: rest =>
    sound_followedBy (sound_one (sound_convertExpr none (.str s))) (sound_convertArgs rest)
  | .arr items :: rest =>
    sound_followedBy (sound_one (sound_convertExpr none (.arr items))) (sound_convertArgs rest)

theorem sound_convertPairs (err : Option ParseError) :
    ∀ members : List (Bytes × Json N), Sound AllShaped err (convertPairs err members)
  | [] => fun h => ⟨h, fun vs hvs => by cases hvs; exact List.forall_mem_nil _⟩
  | (key, .arr items) :: rest => by
    rw [convertPairs]
    have hvec := sound_convertVec err items
    have hrest := fun err => sound_convertPairs err rest
    generalize convertVec err items = r at hvec ⊢
    obtain ⟨vs, err'⟩ := r
    cases vs with
    | none => exact fun h => ⟨(hvec h).1, fun a ha => by cases ha⟩
    | some vs =>
      intro h
      obtain ⟨hnone, hgood⟩ := hrest err' h
      obtain ⟨herr, hitems⟩ := hvec hnone
      refine ⟨herr, fun us hus => ?_⟩
      obtain ⟨ws, hws, rfl⟩ := Option.map_eq_some_iff.mp hus
      apply List.forall_mem_cons.mpr ⟨shaped_keyword key, _⟩
      exact List.forall_mem_cons.mpr ⟨shaped_vector.mpr (hitems vs rfl), hgood ws hws⟩
  | (key, .null) :: rest =>
    sound_followedBy (sound_pair (sound_convertExpr err .null)) (sound_convertPairs none rest)
  | (key, .bool b) :: rest =>
    sound_followedBy (sound_pair (sound_convertExpr err (.bool b))) (sound_convertPairs none rest)
  | (key, .num n) :: rest =>
    sound_followedBy (sound_pair (sound_convertExpr err (.num n))) (sound_convertPairs none rest)
  | (key, .str s) :: rest =>
    sound_followedBy (sound_pair (sound_convertExpr err (.str s))) (sound_convertPairs none rest)
  | (key, .obj members) :: rest =>
    sound_followedBy (sound_pair (sound_convertExpr err (.obj members)))
      (sound_convertPairs none rest)

end

theorem sound_convertForms (items : List (Json N)) : Sound AllShaped none (convertForms items) := by
  induction items with
  | nil => exact fun h => ⟨h, fun vs hvs => by cases hvs; exact List.forall_mem_nil _⟩
  | cons item rest ih =>
    rw [convertForms]
    apply sound_followedBy _ ih
    cases item with
    | arr items =>
      intro h
      obtain ⟨-, hgood⟩ := sound_convertForm none items h
      refine ⟨rfl, fun vs hvs => ?_⟩
      obtain ⟨form, hform, rfl⟩ := Option.map_eq_some_iff.mp hvs
      exact List.forall_mem_singleton.mpr (hgood form hform)
    | null => exact fun h => by cases h
    | bool b => exact fun h => by cases h
    | num n => exact fun h => by cases h
    | str s => exact fun h => by cases h
    | obj members => exact fun h => by cases h

theorem shaped_result {r : Converted (List (Value N))} {forms : List (Value N)}
    (h : Sound AllShaped none r) (hr : result r = .ok forms) : AllShaped forms := by
  obtain ⟨vs, err⟩ := r
  cases err with
  | some e => cases hr
  | none =>
    cases hr
    cases vs with
    | none => exact List.forall_mem_nil _
    | some vs => exact (h rfl).2 vs rfl

theorem shaped_parseJsonPatchbay {readJson : Bytes → Except ℕ (Json N)} {src : Bytes}
    {forms : List (Value N)} (h : parseJsonPatchbay readJson src = .ok forms) : AllShaped forms := by
  unfold parseJsonPatchbay at h
  split at h
  · cases h
  · rename_i items hread
    split at h
    · rename_i head rest
      apply shaped_result _ h
      intro hnone
      obtain ⟨-, hgood⟩ := sound_convertForm none (.str head :: rest) hnone
      refine ⟨rfl, fun vs hvs => ?_⟩
      obtain ⟨form, hform, rfl⟩ := Option.map_eq_some_iff.mp hvs
      exact List.forall_mem_singleton.mpr (hgood form hform)
    · exact shaped_result (sound_convertForms items) h
  · cases h

end Monoblok.Patchbay.JsonForms
