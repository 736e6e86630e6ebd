import Monoblok.Source.Validate
import Monoblok.Router.Lvc
import Monoblok.Patchbay.Exact

/-!
# Validated sources load

The validator checks every form by itself. What the loader asks besides is
`Loadable`: the numbers of the options are whole and in range, a stream entry has
one subject, there is one export and one import at most, and every filter of the
last-value cache is a valid filter.
-/

namespace Monoblok.Patchbay

open Number ConfigNumber OptionResult

variable {N : Type}

/-! ## What the loader asks besides -/

/-- A number is whole and in the range of the field it goes to. -/
def numberFits [ConfigNumber N] (key : Bytes) : Value N → Bool
  | .number x =>
    feq (ofI64 (toI64 x)) x &&
      (key != lit "max-reconnect" || decide (-2 ^ 31 ≤ toI64 x ∧ toI64 x ≤ 2 ^ 31 - 1)) &&
      (key != lit "max-pending" || decide (0 < toI64 x))
  | _ => true

def optionPairs : List (Value N) → List (Bytes × Value N)
  | .keyword key :: v :: rest => (key, v) :: optionPairs rest
  | _ => []

def numbersFit [ConfigNumber N] (options : List (Value N)) : Bool :=
  (optionPairs options).all fun o => numberFits o.1 o.2

def isSubjectKey (key : Bytes) : Bool := keyIn ["subject", "subjects"] key

/-- How often an entry names its subjects. -/
def subjectOptions (options : List (Value N)) : ℕ :=
  (optionPairs options).countP fun o => isSubjectKey o.1

/-- The entries of `:core` and `:streams`. -/
def importEntries : Value N → List (List (Value N))
  | .vector items =>
    items.filterMap fun v =>
      match v with
      | .vector options => some options
      | _ => none
  | _ => []

def entryFits [ConfigNumber N] (streamEntry : Bool) (options : List (Value N)) : Bool :=
  numbersFit options && (!streamEntry || decide (subjectOptions options = 1))

def nestedFits [ConfigNumber N] (key : Bytes) (v : Value N) : Bool :=
  (importEntries v).all (entryFits (key == lit "streams"))

def importFits [ConfigNumber N] (options : List (Value N)) : Bool :=
  if (optionPairs options).any (fun o => importKeyIsNested o.1) then
    (optionPairs options).all fun o => nestedFits o.1 o.2
  else numbersFit options

def formFits [ConfigNumber N] : Value N → Bool
  | .list (.symbol head :: items) =>
    if isExportConfigHead head then numbersFit items
    else if head = lit "import" then importFits items
    else true
  | _ => true

def isExportForm (form : Value N) : Bool := valueHeadIs ["bridge", "export"] form

def isImportForm (form : Value N) : Bool := valueHeadIs ["import"] form

/-- The filters of an `lvc` form, before the environment is read. -/
def lvcFilterValues : Value N → List (Value N)
  | .list (.symbol head :: items) =>
    if head = lit "lvc" then
      match items with
      | [.vector vs] => vs
      | vs => vs
    else []
  | _ => []

/-- What the loader and the last-value cache ask of validated forms. -/
structure Loadable [ConfigNumber N] (getenv : Bytes → Option Bytes) (forms : List (Value N)) :
    Prop where
  numbers : ∀ form ∈ forms, formFits form = true
  oneExport : forms.countP isExportForm ≤ 1
  oneImport : forms.countP isImportForm ≤ 1
  filters : ∀ form ∈ forms, ∀ v ∈ lvcFilterValues form, ∀ t,
    loadConfigString getenv v = some t → subjectValid t true = true

/-- What is said of the result of a load whose success is a matter of `fits`. -/
structure LoadsIf {α : Type} (fits : Bool) (good : α → Prop) (r : Option α) : Prop where
  loads : fits = true → ∃ c, r = some c ∧ good c
  fails : fits = false → r = none

namespace LoadsIf

variable {α β : Type} {fits : Bool} {good : α → Prop} {r : Option α}

theorem of_some {c : α} (h : good c) : LoadsIf true good (some c) :=
  ⟨fun _ => ⟨c, rfl, h⟩, fun e => absurd e (by decide)⟩

theorem of_ite {c : α} (h : good c) : LoadsIf fits good (if fits = true then some c else none) := by
  cases fits with
  | true => exact .of_some h
  | false => exact ⟨fun e => absurd e (by decide), fun _ => rfl⟩

theorem imp {better : α → Prop} (hg : ∀ c, good c → better c) (h : LoadsIf fits good r) :
    LoadsIf fits better r :=
  ⟨fun e => (h.loads e).imp fun c hc => ⟨hc.1, hg c hc.2⟩, h.fails⟩

/-- One load after another. -/
theorem bind {more : Bool} {better : β → Prop} {g : α → Option β} (h : LoadsIf fits good r)
    (hg : ∀ c, good c → LoadsIf more better (g c)) : LoadsIf (fits && more) better (r.bind g) := by
  cases fits with
  | false =>
    rw [h.fails rfl]
    exact ⟨fun e => absurd e (by simp), fun _ => rfl⟩
  | true =>
    obtain ⟨c, hc, hgood⟩ := h.loads rfl
    rw [hc, Bool.true_and]
    exact hg c hgood

theorem map {better : β → Prop} {g : α → β} (h : LoadsIf fits good r)
    (hg : ∀ c, good c → better (g c)) : LoadsIf fits better (r.map g) := by
  constructor
  · intro e
    obtain ⟨c, hc, hgood⟩ := h.loads e
    exact ⟨g c, by rw [hc, Option.map_some], hg c hgood⟩
  · intro e
    rw [h.fails e, Option.map_none]

theorem filter {more : Bool} {p : α → Bool} (h : LoadsIf fits good r)
    (hp : ∀ c, good c → p c = more) : LoadsIf (fits && more) (fun _ => True) (r.filter p) := by
  constructor
  · intro e
    rw [Bool.and_eq_true] at e
    obtain ⟨c, hc, hgood⟩ := h.loads e.1
    exact ⟨c, by rw [hc, Option.filter_some, if_pos (by rw [hp c hgood, e.2])], trivial⟩
  · intro e
    cases fits with
    | false => rw [h.fails rfl, Option.filter_none]
    | true =>
      obtain ⟨c, hc, hgood⟩ := h.loads rfl
      rw [Bool.true_and] at e
      rw [hc, Option.filter_some, if_neg (by rw [hp c hgood, e]; decide)]

theorem mapM {f : β → Option α} {ok : β → Bool} {xs : List β}
    (h : ∀ x ∈ xs, LoadsIf (ok x) (fun _ => True) (f x)) :
    LoadsIf (xs.all ok) (fun ys => ys.length = xs.length) (xs.mapM f) := by
  induction xs with
  | nil => exact .of_some rfl
  | cons x xs ih =>
    have hcons : (x :: xs).mapM f = (f x).bind fun y => (xs.mapM f).map (y :: ·) := by
      rw [List.mapM_cons]
      cases f x with
      | none => rfl
      | some y =>
        cases xs.mapM f <;> rfl
    rw [hcons, List.all_cons]
    apply (h x List.mem_cons_self).bind
    intro y _
    have htail := ih fun x' hx' => h x' (List.mem_cons_of_mem x hx')
    apply htail.map
    intro ys hys
    rw [List.length_cons, List.length_cons, hys]

end LoadsIf

/-- An option loader that follows an option check follows it through a list of
options. -/
theorem loadOptions_of_validate {α F : Type} {option : α → Bytes → Value N → OptionResult α}
    {check : F → Bytes → Value N → Option F} {fits : Bytes → Value N → Bool}
    (counts : Bytes → Bool) (R : ℕ → F → α → Prop)
    (hstep : ∀ n f c key v f', R n f c → check f key v = some f' →
      LoadsIf (fits key v) (R (n + if counts key = true then 1 else 0) f') (option c key v).toOption)
    (options : List (Value N)) :
    ∀ n {f c f'}, R n f c → validateOptions check f options = some f' →
      LoadsIf ((optionPairs options).all fun o => fits o.1 o.2)
        (R (n + (optionPairs options).countP fun o => counts o.1) f')
        (loadOptions option c options) := by
  induction options using optionPairs.induct with
  | case1 key v rest ih =>
    intro n f c f' hR hv
    rw [validateOptions, Option.bind_eq_some_iff] at hv
    obtain ⟨f₁, hf₁, hrest⟩ := hv
    have hone := hstep n f c key v f₁ hR hf₁
    rw [loadOptions, optionPairs, List.all_cons, List.countP_cons]
    apply hone.bind
    intro c₁ hc₁
    have hmore := ih _ hc₁ hrest
    rwa [Nat.add_assoc, Nat.add_comm (if counts key = true then 1 else 0)] at hmore
  | case2 options hne =>
    intro n f c f' hR hv
    match options, hne, hv with
    | [], _, hv =>
      cases hv
      exact .of_some hR
    | [.keyword _], _, hv => exact absurd hv (by simp [validateOptions])
    | .keyword key :: v :: rest, hne, _ => exact absurd rfl (hne key v rest)
    | .nil :: _, _, hv | .bool _ :: _, _, hv | .number _ :: _, _, hv | .string _ :: _, _, hv
    | .symbol _ :: _, _, hv | .list _ :: _, _, hv | .vector _ :: _, _, hv =>
      exact absurd hv (by simp [validateOptions])

/-! ## Strings and lists -/

section Strings

variable (getenv : Bytes → Option Bytes)

theorem validateConfigString_of_ne {w : Value N} (hw : ∀ t, w ≠ .string t) :
    validateConfigString getenv w =
      match valueEnvForm w with
      | some (.string name) => !name.isEmpty && envValueNonempty getenv name
      | _ => false := by
  cases w <;> first | rfl | exact absurd rfl (hw _)

theorem validateConfigString_eq (v : Value N) :
    validateConfigString getenv v = (loadConfigString getenv v).isSome := by
  have henv : ∀ name : Bytes,
      envValueNonempty getenv name = !(cString ((getenv (cString name)).getD [])).isEmpty := by
    intro name
    unfold envValueNonempty
    cases getenv (cString name) with
    | none => rfl
    | some value => rfl
  have hother : ∀ w : Value N, (∀ t, w ≠ .string t) →
      validateConfigString getenv w = (loadConfigString getenv w).isSome := by
    intro w hw
    have hl : loadConfigString getenv w =
        ((envName w).map fun name => cString ((getenv (cString name)).getD [])).filter
          fun t => !t.isEmpty := by
      cases w <;> first | rfl | exact absurd rfl (hw _)
    rw [validateConfigString_of_ne getenv hw, hl]
    unfold envName
    cases valueEnvForm w with
    | none => rfl
    | some x =>
      cases x with
      | string name =>
        by_cases hn : name.isEmpty = true
        · simp [hn]
        · simp only [hn, Bool.not_false, Bool.true_and, henv]
          simp [Option.isSome_filter]
      | _ => rfl
  cases v with
  | string t => simp [validateConfigString, loadConfigString, Option.isSome_filter]
  | _ => exact hother _ (by simp)

/-- A list of values of which each reads as a text reads as a list of texts. -/
theorem mapM_of_all {α β : Type} {f : α → Option β} {xs : List α}
    (h : ∀ x ∈ xs, (f x).isSome = true) : ∃ ys, xs.mapM f = some ys ∧ ys.length = xs.length := by
  induction xs with
  | nil => exact ⟨[], rfl, rfl⟩
  | cons x xs ih =>
    obtain ⟨y, hy⟩ := Option.isSome_iff_exists.mp (h x List.mem_cons_self)
    obtain ⟨ys, hys, hlen⟩ := ih fun x' hx' => h x' (List.mem_cons_of_mem x hx')
    exact ⟨y :: ys, by simp [hy, hys], by simp [hlen]⟩

theorem mapM_loadConfigString {items : List (Value N)}
    (h : items.all (validateConfigString getenv) = true) :
    ∃ xs, items.mapM (loadConfigString getenv) = some xs ∧ xs.length = items.length := by
  apply mapM_of_all
  intro v hv
  rw [← validateConfigString_eq]
  exact List.all_eq_true.mp h v hv

/-- An accepted list is read, and never as an empty one. -/
theorem loadRemoteList_of_validate {v : Value N} (h : validateConfigStringList getenv v = true) :
    ∃ xs, xs ≠ [] ∧ (configStringListHasOne v = true → xs.length = 1) ∧
      ∀ out, loadRemoteList getenv out v = some (out ++ xs) := by
  have hone : ∀ w : Value N, validateConfigString getenv w = true →
      ∃ x, loadConfigString getenv w = some x := by
    intro w hw
    rw [validateConfigString_eq] at hw
    exact Option.isSome_iff_exists.mp hw
  have hitems : ∀ items : List (Value N),
      (!items.isEmpty && items.all (validateConfigString getenv)) = true →
      ∃ xs, items.isEmpty = false ∧ xs ≠ [] ∧ xs.length = items.length ∧
        items.mapM (loadConfigString getenv) = some xs := by
    intro items hw
    rw [Bool.and_eq_true, Bool.not_eq_true'] at hw
    obtain ⟨xs, hxs, hlen⟩ := mapM_loadConfigString getenv hw.2
    refine ⟨xs, hw.1, ?_, hlen, hxs⟩
    intro hnil
    rw [hnil, List.length_nil] at hlen
    rw [List.isEmpty_eq_false_iff] at hw
    exact hw.1 (List.length_eq_zero_iff.mp hlen.symm)
  cases v with
  | string t =>
    obtain ⟨x, hx⟩ := hone (.string t) h
    exact ⟨[x], by simp, fun _ => rfl, fun out => by simp [loadRemoteList, hx]⟩
  | vector items =>
    obtain ⟨xs, hne, hxs, hlen, hread⟩ := hitems items h
    refine ⟨xs, hxs, ?_, ?_⟩
    · intro hhas
      simpa [configStringListHasOne, hlen] using hhas
    · intro out
      simp [loadRemoteList, hne, hread]
  | list items =>
    by_cases henv : valueIsEnvForm (.list items : Value N) = true
    · simp only [validateConfigStringList, henv, if_true] at h
      obtain ⟨x, hx⟩ := hone (.list items) h
      exact ⟨[x], by simp, fun _ => rfl, fun out => by simp [loadRemoteList, henv, hx]⟩
    · rw [Bool.not_eq_true] at henv
      simp only [validateConfigStringList, henv, Bool.false_eq_true, if_false] at h
      obtain ⟨xs, hne, hxs, hlen, hread⟩ := hitems items h
      refine ⟨xs, hxs, ?_, ?_⟩
      · intro hhas
        simpa [configStringListHasOne, henv, hlen] using hhas
      · intro out
        simp [loadRemoteList, henv, hne, hread]
  | _ => exact absurd h (by simp [validateConfigStringList])

theorem isNumber_of_validateConfigStringList {v : Value N}
    (h : validateConfigStringList getenv v = true) : isNumber v = false := by
  cases v <;> first | rfl | exact absurd h (by simp [validateConfigStringList])

theorem isNumber_of_validateConfigString {v : Value N} (h : validateConfigString getenv v = true) :
    isNumber v = false := by
  cases v <;> first | rfl | exact absurd h (by simp [validateConfigString, valueEnvForm])

theorem keyIn_ne {names : List String} {key : Bytes} {k : String} (h : keyIn names key = true)
    (hk : keyIn names (lit k) = false) : key ≠ lit k := by
  intro he
  rw [he, hk] at h
  cases h

theorem keyIn_append (names more : List String) (key : Bytes) :
    keyIn (names ++ more) key = true ↔ keyIn names key = true ∨ keyIn more key = true := by
  unfold keyIn
  rw [List.any_append, Bool.or_eq_true]

theorem keyIn_single {k : String} {key : Bytes} : keyIn [k] key = true ↔ key = lit k := by
  simp [keyIn]

/-- The options the two checks accept alike. -/
def RemoteAccepted (key : Bytes) (v : Value N) : Prop :=
  key = lit "servers" ∧ validateConfigStringList getenv v = true ∨
  keyIn ["tls", "tls-skip-verify", "origin-header"] key = true ∧ isBool v = true ∨
  keyIn remoteNumbers key = true ∧ isNumber v = true ∨
  keyIn remoteStrings key = true ∧ validateConfigString getenv v = true

theorem RemoteAccepted.keyIn {key : Bytes} {v : Value N} (h : RemoteAccepted getenv key v) :
    keyIn ("servers" :: ["tls", "tls-skip-verify", "origin-header"] ++ remoteNumbers ++
      remoteStrings) key = true := by
  unfold RemoteAccepted Patchbay.keyIn at h
  unfold Patchbay.keyIn
  rw [List.any_append, List.any_append, List.any_cons]
  rcases h with ⟨rfl, -⟩ | ⟨hk, -⟩ | ⟨hk, -⟩ | ⟨hk, -⟩
  · simp
  · rw [hk, Bool.or_true, Bool.true_or, Bool.true_or]
  · rw [hk, Bool.or_true, Bool.true_or]
  · rw [hk, Bool.or_true]

theorem optionKeys_eq {options : List (Value N)} :
    ∀ {keys}, optionKeys options = some keys → keys = (optionPairs options).map Prod.fst := by
  induction options using optionPairs.induct with
  | case1 key v rest ih =>
    intro keys h
    rw [optionKeys, Option.map_eq_some_iff] at h
    obtain ⟨keys', hkeys', rfl⟩ := h
    rw [ih hkeys', optionPairs, List.map_cons]
  | case2 options hne =>
    intro keys h
    match options, hne, h with
    | [], _, h =>
      cases h
      rfl
    | [.keyword _], _, h => exact absurd h (by simp [optionKeys])
    | .keyword key :: v :: rest, hne, _ => exact absurd rfl (hne key v rest)
    | .nil :: _, _, h | .bool _ :: _, _, h | .number _ :: _, _, h | .string _ :: _, _, h
    | .symbol _ :: _, _, h | .list _ :: _, _, h | .vector _ :: _, _, h =>
      exact absurd h (by simp [optionKeys])

def lvcTexts (form : Value N) : List Bytes :=
  (lvcFilterValues form).filterMap (loadConfigString getenv)

theorem mapM_eq_filterMap {α β : Type} {f : α → Option β} {xs : List α} {ys : List β}
    (h : xs.mapM f = some ys) : ys = xs.filterMap f := by
  induction xs generalizing ys with
  | nil =>
    cases h
    rfl
  | cons x xs ih =>
    rw [List.mapM_cons] at h
    cases hx : f x with
    | none =>
      rw [hx] at h
      cases h
    | some y =>
      rw [hx] at h
      cases hxs : xs.mapM f with
      | none =>
        rw [hxs] at h
        cases h
      | some zs =>
        rw [hxs] at h
        cases h
        rw [List.filterMap_cons_some hx, ih hxs]

theorem loadLvcForm_of_validate {items : List (Value N)}
    (h : validateLvcForm getenv items = true) (filters : List Bytes) :
    loadLvcForm getenv filters items =
      some (filters ++ lvcTexts getenv (.list (.symbol (lit "lvc") :: items))) := by
  have hread : ∀ vs : List (Value N), vs.all (validateConfigString getenv) = true →
      (vs.mapM (loadConfigString getenv)).map (filters ++ ·) =
        some (filters ++ vs.filterMap (loadConfigString getenv)) := by
    intro vs hvs
    obtain ⟨xs, hxs, -⟩ := mapM_loadConfigString getenv hvs
    rw [hxs, ← mapM_eq_filterMap hxs, Option.map_some]
  match items, h with
  | [.vector vs], h =>
    rw [validateLvcForm, Bool.and_eq_true, Bool.not_eq_true'] at h
    rw [loadLvcForm, h.1, if_neg (by decide)]
    exact hread vs h.2
  | [.nil], h | [.bool _], h | [.number _], h | [.symbol _], h | [.keyword _], h | [.string _], h
  | [.list _], h => exact hread _ h
  | v :: w :: rest, h =>
    have hlist : lvcFilterValues (.list (.symbol (lit "lvc") :: v :: w :: rest)) = v :: w :: rest := by
      cases v <;> rfl
    rw [lvcTexts, hlist]
    have hall : (v :: w :: rest).all (validateConfigString getenv) = true := by
      cases v <;> exact h
    have hload := hread (v :: w :: rest) hall
    cases v <;> exact hload

theorem isExportForm_list (head : Bytes) (items : List (Value N)) :
    isExportForm (.list (.symbol head :: items)) = isExportConfigHead head := by
  simp [isExportForm, valueHeadIs, isExportConfigHead]

theorem isImportForm_list (head : Bytes) (items : List (Value N)) :
    isImportForm (.list (.symbol head :: items)) = (head == lit "import") := by
  simp [isImportForm, valueHeadIs]

end Strings

/-! ## One option -/

section Options

variable [ConfigNumber N] (getenv : Bytes → Option Bytes)

/-- A key of one of the classes and the field it sets. -/
theorem loadRemoteOption_string {key : Bytes} (h : keyIn remoteStrings key = true) :
    ∃ set : RemoteConfig → Bytes → RemoteConfig, (∀ c x, (set c x).servers = c.servers) ∧
      ∀ c (v : Value N), loadRemoteOption getenv c key v =
        ofOption ((loadConfigString getenv v).map (set c)) := by
  simp only [keyIn, remoteStrings, List.any_cons, List.any_nil, Bool.or_false, Bool.or_eq_true,
    beq_iff_eq] at h
  rcases h with rfl | rfl | rfl | rfl | rfl | rfl | rfl | rfl
  · exact ⟨fun c x => { c with name := some x }, fun _ _ => rfl, fun _ _ => rfl⟩
  · exact ⟨fun c x => { c with creds := some x }, fun _ _ => rfl, fun _ _ => rfl⟩
  · exact ⟨fun c x => { c with user := some x }, fun _ _ => rfl, fun _ _ => rfl⟩
  · exact ⟨fun c x => { c with password := some x }, fun _ _ => rfl, fun _ _ => rfl⟩
  · exact ⟨fun c x => { c with token := some x }, fun _ _ => rfl, fun _ _ => rfl⟩
  · exact ⟨fun c x => { c with tlsCa := some x }, fun _ _ => rfl, fun _ _ => rfl⟩
  · exact ⟨fun c x => { c with tlsCert := some x }, fun _ _ => rfl, fun _ _ => rfl⟩
  · exact ⟨fun c x => { c with tlsKey := some x }, fun _ _ => rfl, fun _ _ => rfl⟩

theorem loadRemoteOption_bool {key : Bytes}
    (h : keyIn ["tls", "tls-skip-verify", "origin-header"] key = true) :
    ∃ set : RemoteConfig → Bool → RemoteConfig, (∀ c x, (set c x).servers = c.servers) ∧
      ∀ c (v : Value N), loadRemoteOption getenv c key v =
        ofOption ((loadRemoteBool v).map (set c)) := by
  simp only [keyIn, List.any_cons, List.any_nil, Bool.or_false, Bool.or_eq_true, beq_iff_eq] at h
  rcases h with rfl | rfl | rfl
  · exact ⟨fun c x => { c with tls := x }, fun _ _ => rfl, fun _ _ => rfl⟩
  · exact ⟨fun c x => { c with tlsSkipVerify := x }, fun _ _ => rfl, fun _ _ => rfl⟩
  · exact ⟨fun c x => { c with originHeader := x }, fun _ _ => rfl, fun _ _ => rfl⟩

theorem loadRemoteI64_number (x : N) :
    loadRemoteI64 (.number x) = if feq (ofI64 (toI64 x)) x = true then some (toI64 x) else none := rfl

theorem loadRemoteOption_number {key : Bytes} (h : keyIn remoteNumbers key = true) :
    ∃ set : RemoteConfig → ℤ → RemoteConfig, (∀ c n, (set c n).servers = c.servers) ∧
      ∀ c (x : N), loadRemoteOption getenv c key (.number x) =
        ofOption (if numberFits key (.number x) = true then some (set c (toI64 x)) else none) := by
  have hwhole : ∀ (k : String) (set : ℤ → RemoteConfig) (x : N),
      lit k ≠ lit "max-reconnect" → lit k ≠ lit "max-pending" →
      (loadRemoteI64 (.number x)).map set =
        if numberFits (lit k) (.number x) = true then some (set (toI64 x)) else none := by
    intro k set x hr hp
    have hr' : (lit k != lit "max-reconnect") = true := bne_iff_ne.mpr hr
    have hp' : (lit k != lit "max-pending") = true := bne_iff_ne.mpr hp
    rw [loadRemoteI64_number, numberFits, hr', hp', Bool.true_or, Bool.true_or, Bool.and_true,
      Bool.and_true]
    by_cases hx : feq (ofI64 (toI64 x)) x = true
    · rw [if_pos hx, if_pos hx, Option.map_some]
    · rw [if_neg hx, if_neg hx, Option.map_none]
  simp only [keyIn, remoteNumbers, List.any_cons, List.any_nil, Bool.or_false, Bool.or_eq_true,
    beq_iff_eq] at h
  rcases h with rfl | rfl | rfl | rfl
  · exact ⟨fun c n => { c with connectTimeoutMs := some n }, fun _ _ => rfl,
      fun c x => congrArg ofOption (hwhole "connect-timeout-ms" _ x (by decide) (by decide))⟩
  · exact ⟨fun c n => { c with pingIntervalMs := some n }, fun _ _ => rfl,
      fun c x => congrArg ofOption (hwhole "ping-interval-ms" _ x (by decide) (by decide))⟩
  · exact ⟨fun c n => { c with reconnectWaitMs := some n }, fun _ _ => rfl,
      fun c x => congrArg ofOption (hwhole "reconnect-wait-ms" _ x (by decide) (by decide))⟩
  · refine ⟨fun c n => { c with maxReconnect := some n }, fun _ _ => rfl, fun c x => ?_⟩
    have hp : (lit "max-reconnect" != lit "max-pending") = true := by decide
    have hr : (lit "max-reconnect" != lit "max-reconnect") = false := by decide
    change ofOption ((loadRemoteInt (.number x)).map _) = _
    apply congrArg ofOption
    rw [loadRemoteInt, loadRemoteI64_number, numberFits, hp, hr, Bool.true_or, Bool.and_true,
      Bool.false_or]
    by_cases hx : feq (ofI64 (toI64 x)) x = true
    · rw [if_pos hx, hx, Bool.true_and, Option.filter_some]
      by_cases hn : -2 ^ 31 ≤ toI64 x ∧ toI64 x ≤ 2 ^ 31 - 1
      · rw [if_pos (decide_eq_true hn), if_pos (decide_eq_true hn), Option.map_some]
      · have hf : ¬ decide (-2 ^ 31 ≤ toI64 x ∧ toI64 x ≤ 2 ^ 31 - 1) = true := by
          rwa [decide_eq_true_eq]
        rw [if_neg hf, if_neg hf, Option.map_none]
    · rw [if_neg hx, Bool.not_eq_true] at *
      rw [hx, Bool.false_and, if_neg (by decide), Option.filter_none, Option.map_none]

theorem numberFits_of_not_number {key : Bytes} {v : Value N} (h : isNumber v = false) :
    numberFits key v = true := by
  cases v <;> first | rfl | exact absurd h (by simp [isNumber])

theorem loadRemoteOption_of_validate {key : Bytes} {v : Value N} (h : RemoteAccepted getenv key v)
    (c : RemoteConfig) :
    ∃ c', c'.servers.isEmpty = (c.servers.isEmpty && key != lit "servers") ∧
      loadRemoteOption getenv c key v =
        ofOption (if numberFits key v = true then some c' else none) := by
  have hsame : ∀ c' : RemoteConfig, c'.servers = c.servers → key ≠ lit "servers" →
      c'.servers.isEmpty = (c.servers.isEmpty && key != lit "servers") := by
    intro c' hc' hne
    rw [hc', bne_iff_ne.mpr hne, Bool.and_true]
  rcases h with ⟨rfl, hv⟩ | ⟨hk, hv⟩ | ⟨hk, hv⟩ | ⟨hk, hv⟩
  · obtain ⟨xs, hne, -, hread⟩ := loadRemoteList_of_validate getenv hv
    have hnum : numberFits (lit "servers") v = true :=
      numberFits_of_not_number (isNumber_of_validateConfigStringList getenv hv)
    refine ⟨{ c with servers := c.servers ++ xs }, ?_, ?_⟩
    · simp [hne]
    · change ofOption ((loadRemoteList getenv c.servers v).map _) = _
      rw [hread, hnum, if_pos rfl, Option.map_some]
  · obtain ⟨set, hset, hload⟩ := loadRemoteOption_bool (N := N) getenv hk
    cases v with
    | bool b =>
      refine ⟨set c b, hsame _ (hset c b) (keyIn_ne hk (by decide)), ?_⟩
      rw [hload, if_pos (numberFits_of_not_number rfl), loadRemoteBool, Option.map_some]
    | _ => exact absurd hv (by simp [isBool])
  · obtain ⟨set, hset, hload⟩ := loadRemoteOption_number (N := N) getenv hk
    cases v with
    | number x =>
      exact ⟨set c (toI64 x), hsame _ (hset c _) (keyIn_ne hk (by decide)), hload c x⟩
    | _ => exact absurd hv (by simp [isNumber])
  · obtain ⟨set, hset, hload⟩ := loadRemoteOption_string (N := N) getenv hk
    have hnum : numberFits key v = true :=
      numberFits_of_not_number (isNumber_of_validateConfigString getenv hv)
    rw [validateConfigString_eq] at hv
    obtain ⟨x, hx⟩ := Option.isSome_iff_exists.mp hv
    refine ⟨set c x, hsame _ (hset c x) (keyIn_ne hk (by decide)), ?_⟩
    rw [hload, hnum, if_pos rfl, hx, Option.map_some]

theorem toOption_ofOption {α : Type} (r : Option α) : (ofOption r).toOption = r := by
  cases r <;> rfl

theorem toOption_map {α β : Type} (g : α → β) (r : OptionResult α) :
    (r.map g).toOption = r.toOption.map g := by
  cases r <;> rfl

def BridgeRead (f : Bool) (c : BridgeConfig) : Prop := f = !c.servers.isEmpty

theorem loadBridgeOption_of_validate {f f' : Bool} {c : BridgeConfig} {key : Bytes} {v : Value N}
    (hR : BridgeRead f c) (h : validateBridgeOption getenv f key v = some f') :
    LoadsIf (numberFits key v) (BridgeRead f') (loadBridgeOption getenv c key v).toOption := by
  have hremote : RemoteAccepted getenv key v → f' = (f || key == lit "servers") →
      LoadsIf (numberFits key v) (BridgeRead f') (loadBridgeOption getenv c key v).toOption := by
    intro ha hf'
    obtain ⟨c', hc', hload⟩ := loadRemoteOption_of_validate getenv ha c.toRemoteConfig
    have hkey := ha.keyIn
    rw [loadBridgeOption, if_neg (keyIn_ne hkey (by decide)), if_neg (keyIn_ne hkey (by decide)),
      hload, toOption_map, toOption_ofOption]
    apply (LoadsIf.of_ite (rfl : c' = c')).map
    intro c₁ hc₁
    change f' = !c₁.servers.isEmpty
    rw [hf', hR, ← hc₁, hc', Bool.not_and, bne, Bool.not_not]
  have hnot : key ≠ lit "servers" → f = f' → f' = (f || key == lit "servers") := by
    intro hne he
    rw [beq_eq_false_iff_ne.mpr hne, Bool.or_false, he]
  unfold validateBridgeOption at h
  by_cases hl : keyIn ["servers", "export"] key = true
  · rw [if_pos hl, Option.ite_none_right_eq_some] at h
    obtain ⟨hv, he⟩ := h
    by_cases hs : key = lit "servers"
    · exact hremote (.inl ⟨hs, hv⟩) (Option.some.inj he).symm
    · have hk : key = lit "export" := by
        rcases (keyIn_append ["servers"] ["export"] key).mp hl with hk | hk
        · exact absurd (keyIn_single.mp hk) hs
        · exact keyIn_single.mp hk
      subst hk
      obtain ⟨xs, -, -, hread⟩ := loadRemoteList_of_validate getenv hv
      have hnum : numberFits (lit "export") v = true :=
        numberFits_of_not_number (isNumber_of_validateConfigStringList getenv hv)
      rw [hnum]
      change LoadsIf _ _ (ofOption ((loadRemoteList getenv c.exports v).map _)).toOption
      rw [hread, Option.map_some, toOption_ofOption]
      apply LoadsIf.of_some
      rw [← Option.some.inj he, hR, beq_eq_false_iff_ne.mpr hs, Bool.or_false]
      rfl
  · rw [if_neg hl] at h
    by_cases hb : keyIn ["tls", "tls-skip-verify", "origin-header", "replay-header"] key = true
    · rw [if_pos hb, Option.ite_none_right_eq_some] at h
      obtain ⟨hv, he⟩ := h
      rcases (keyIn_append ["tls", "tls-skip-verify", "origin-header"] ["replay-header"] key).mp hb
        with hk | hk
      · exact hremote (.inr (.inl ⟨hk, hv⟩)) (hnot (keyIn_ne hb (by decide)) (Option.some.inj he))
      · rw [keyIn_single.mp hk]
        cases v with
        | bool b => exact .of_some (by rw [← Option.some.inj he, hR]; rfl)
        | _ => exact absurd hv (by simp [isBool])
    · rw [if_neg hb] at h
      by_cases hn : keyIn remoteNumbers key = true
      · rw [if_pos hn, Option.ite_none_right_eq_some] at h
        exact hremote (.inr (.inr (.inl ⟨hn, h.1⟩)))
          (hnot (keyIn_ne hn (by decide)) (Option.some.inj h.2))
      · rw [if_neg hn, Option.ite_none_right_eq_some, Option.ite_none_right_eq_some] at h
        obtain ⟨hs, hv, he⟩ := h
        exact hremote (.inr (.inr (.inr ⟨hs, hv⟩)))
          (hnot (keyIn_ne hs (by decide)) (Option.some.inj he))

theorem loadRemoteSize_map {α : Type} (set : ℕ → α) (x : N) :
    (loadRemoteSize (.number x)).map set =
      if numberFits (lit "max-pending") (.number x) = true then some (set (toI64 x).toNat)
      else none := by
  have hp : (lit "max-pending" != lit "max-pending") = false := by decide
  have hr : (lit "max-pending" != lit "max-reconnect") = true := by decide
  rw [loadRemoteSize, loadRemoteI64_number, numberFits, hp, hr, Bool.true_or, Bool.and_true,
    Bool.false_or]
  by_cases hx : feq (ofI64 (toI64 x)) x = true
  · rw [if_pos hx, hx, Bool.true_and, Option.filter_some]
    by_cases hn : 0 < toI64 x
    · rw [if_pos (decide_eq_true hn), if_pos (decide_eq_true hn)]
      rfl
    · have hf : ¬ decide (0 < toI64 x) = true := by rwa [decide_eq_true_eq]
      rw [if_neg hf, if_neg hf]
      rfl
  · rw [if_neg hx, Bool.not_eq_true] at *
    rw [hx, Bool.false_and, if_neg (by decide), Option.filter_none]
    rfl

/-- The options that have been seen are those the entry has. -/
def CoreRead (f : EntryOptions) (c : ImportConfig) : Prop :=
  f.hasServers = !c.servers.isEmpty ∧ f.hasSubjects = !c.subjects.isEmpty

def StreamRead (n : ℕ) (f : EntryOptions) (c : ImportStreamConfig) : Prop :=
  CoreRead f c.source ∧ c.source.subjects.length = n ∧ f.hasStream = c.stream.isSome ∧
    f.hasConsumer = c.consumer.isSome

/-- An option both kinds of entries have. -/
theorem loadImportCommonOption_of_validate {streamEntry : Bool} {f f' : EntryOptions}
    {c : ImportConfig} {key : Bytes} {v : Value N} (hR : CoreRead f c)
    (h : validateImportOption getenv streamEntry f key v = some f')
    (hkey : keyIn ["stream", "consumer", "catch-up"] key = false) :
    ∃ c', (CoreRead f' c' ∧ f'.hasStream = f.hasStream ∧ f'.hasConsumer = f.hasConsumer ∧
        (streamEntry = true →
          c'.subjects.length = c.subjects.length + if isSubjectKey key = true then 1 else 0)) ∧
      loadImportCommonOption getenv c key v =
        ofOption (if numberFits key v = true then some c' else none) := by
  have hremote : RemoteAccepted getenv key v →
      f' = { f with hasServers := f.hasServers || key == lit "servers" } →
      ∃ c', (CoreRead f' c' ∧ f'.hasStream = f.hasStream ∧ f'.hasConsumer = f.hasConsumer ∧
          (streamEntry = true →
            c'.subjects.length = c.subjects.length + if isSubjectKey key = true then 1 else 0)) ∧
        loadImportCommonOption getenv c key v =
          ofOption (if numberFits key v = true then some c' else none) := by
    rintro ha rfl
    obtain ⟨c', hc', hload⟩ := loadRemoteOption_of_validate getenv ha c.toRemoteConfig
    have hk := ha.keyIn
    have hsub : isSubjectKey key = false := by
      rw [← Bool.not_eq_true]
      intro he
      rcases (keyIn_append ["subject"] ["subjects"] key).mp he with he | he
      · exact keyIn_ne hk (by decide) (keyIn_single.mp he)
      · exact keyIn_ne hk (by decide) (keyIn_single.mp he)
    have hne : ¬ (key = lit "subject" ∨ key = lit "subjects") := by
      rintro (he | he)
      · exact keyIn_ne hk (by decide) he
      · exact keyIn_ne hk (by decide) he
    refine ⟨{ c with toRemoteConfig := c' }, ⟨⟨?_, hR.2⟩, rfl, rfl, ?_⟩, ?_⟩
    · change (f.hasServers || key == lit "servers") = !c'.servers.isEmpty
      rw [hR.1, hc', Bool.not_and, bne, Bool.not_not]
    · intro _
      rw [hsub, if_neg (by decide), Nat.add_zero]
    · rw [loadImportCommonOption, if_neg hne, if_neg (keyIn_ne hk (by decide)), hload]
      by_cases hfit : numberFits key v = true
      · rw [if_pos hfit, if_pos hfit]
        rfl
      · rw [if_neg hfit, if_neg hfit]
        rfl
  have hnot : key ≠ lit "servers" → f = f' →
      f' = { f with hasServers := f.hasServers || key == lit "servers" } := by
    intro hne he
    rw [beq_eq_false_iff_ne.mpr hne, Bool.or_false, he]
  unfold validateImportOption at h
  by_cases hl : keyIn ["servers", "subject", "subjects"] key = true
  · rw [if_pos hl] at h
    by_cases hs : key = lit "servers"
    · rw [if_pos hs, Option.ite_none_right_eq_some] at h
      refine hremote (.inl ⟨hs, h.1⟩) ?_
      rw [← Option.some.inj h.2, beq_iff_eq.mpr hs, Bool.or_true]
    · have hsub : isSubjectKey key = true := by
        rcases (keyIn_append ["servers"] ["subject", "subjects"] key).mp hl with hk | hk
        · exact absurd (keyIn_single.mp hk) hs
        · exact hk
      have hkey' : key = lit "subject" ∨ key = lit "subjects" :=
        ((keyIn_append ["subject"] ["subjects"] key).mp hsub).imp keyIn_single.mp keyIn_single.mp
      rw [if_neg hs, Option.ite_none_left_eq_some, Option.ite_none_right_eq_some] at h
      obtain ⟨hone, hv, he⟩ := h
      obtain ⟨xs, hne, hlen, hread⟩ := loadRemoteList_of_validate getenv hv
      refine ⟨{ c with subjects := c.subjects ++ xs }, ⟨⟨?_, ?_⟩, ?_⟩, ?_⟩
      · rw [← Option.some.inj he]
        exact hR.1
      · rw [← Option.some.inj he]
        simp [hne]
      · rw [← Option.some.inj he]
        refine ⟨rfl, rfl, ?_⟩
        intro hstream
        rw [hstream, Bool.true_and, Bool.not_eq_true', Bool.not_eq_false] at hone
        rw [hsub, if_pos rfl, List.length_append, hlen hone]
      · rw [loadImportCommonOption, if_pos hkey', hread, Option.map_some,
          if_pos (numberFits_of_not_number (isNumber_of_validateConfigStringList getenv hv))]
  · rw [if_neg hl] at h
    by_cases hb : keyIn ["tls", "tls-skip-verify", "origin-header", "catch-up"] key = true
    · rw [if_pos hb, Option.ite_none_left_eq_some, Option.ite_none_right_eq_some] at h
      obtain ⟨-, hv, he⟩ := h
      rcases (keyIn_append ["tls", "tls-skip-verify", "origin-header"] ["catch-up"] key).mp hb with
        hk | hk
      · exact hremote (.inr (.inl ⟨hk, hv⟩)) (hnot (keyIn_ne hb (by decide)) (Option.some.inj he))
      · rw [keyIn_single.mp hk] at hkey
        exact absurd hkey (by decide)
    · rw [if_neg hb] at h
      by_cases hn : keyIn (remoteNumbers ++ ["max-pending"]) key = true
      · rw [if_pos hn, Option.ite_none_right_eq_some] at h
        rcases (keyIn_append remoteNumbers ["max-pending"] key).mp hn with hk | hk
        · exact hremote (.inr (.inr (.inl ⟨hk, h.1⟩)))
            (hnot (keyIn_ne hk (by decide)) (Option.some.inj h.2))
        · have hpend : key = lit "max-pending" := keyIn_single.mp hk
          subst hpend
          cases v with
          | number x =>
            refine ⟨{ c with maxPending := some (toI64 x).toNat }, ⟨?_, ?_⟩, ?_⟩
            · rw [← Option.some.inj h.2]
              exact hR
            · rw [← Option.some.inj h.2]
              exact ⟨rfl, rfl, fun _ => rfl⟩
            · exact congrArg ofOption (loadRemoteSize_map _ x)
          | _ => exact absurd h.1 (by simp [isNumber])
      · rw [if_neg hn, Option.ite_none_right_eq_some, Option.ite_none_left_eq_some] at h
        obtain ⟨hs, hv, he⟩ := h
        have hother : ∀ k, keyIn ["stream", "consumer", "catch-up"] (lit k) = true → key ≠ lit k := by
          intro k hk hek
          rw [hek, hk] at hkey
          cases hkey
        rw [if_neg (hother "stream" (by decide)), if_neg (hother "consumer" (by decide))] at he
        rw [Bool.not_eq_true', Bool.not_eq_false] at hv
        have hstring : keyIn remoteStrings key = true := by
          rw [Bool.or_eq_true, Bool.and_eq_true] at hs
          apply hs.resolve_right
          rintro ⟨-, hk⟩
          rcases (keyIn_append ["stream"] ["consumer"] key).mp hk with hk | hk
          · exact hother "stream" (by decide) (keyIn_single.mp hk)
          · exact hother "consumer" (by decide) (keyIn_single.mp hk)
        exact hremote (.inr (.inr (.inr ⟨hstring, hv⟩)))
          (hnot (keyIn_ne hstring (by decide)) (Option.some.inj he))

theorem loadImportCoreOption_of_validate {f f' : EntryOptions} {c : ImportConfig} {key : Bytes}
    {v : Value N} (hR : CoreRead f c) (h : validateImportOption getenv false f key v = some f') :
    LoadsIf (numberFits key v) (CoreRead f') (loadImportCommonOption getenv c key v).toOption := by
  have hkey : keyIn ["stream", "consumer", "catch-up"] key = false := by
    rw [← Bool.not_eq_true]
    intro hk
    simp only [keyIn, List.any_cons, List.any_nil, Bool.or_false, Bool.or_eq_true, beq_iff_eq] at hk
    rcases hk with rfl | rfl | rfl
    · exact nomatch (h : none = some f')
    · exact nomatch (h : none = some f')
    · exact nomatch (h : none = some f')
  obtain ⟨c', ⟨hc', -⟩, hload⟩ := loadImportCommonOption_of_validate getenv hR h hkey
  rw [hload, toOption_ofOption]
  exact .of_ite hc'

theorem loadImportStreamOption_of_validate {n : ℕ} {f f' : EntryOptions} {c : ImportStreamConfig}
    {key : Bytes} {v : Value N} (hR : StreamRead n f c)
    (h : validateImportOption getenv true f key v = some f') :
    LoadsIf (numberFits key v) (StreamRead (n + if isSubjectKey key = true then 1 else 0) f')
      (loadImportStreamOption getenv c key v).toOption := by
  obtain ⟨hcore, hlen, hstream, hconsumer⟩ := hR
  have hread : ∀ w : Value N, validateConfigString getenv w = true →
      numberFits key w = true ∧ ∃ x, loadConfigString getenv w = some x := by
    intro w hw
    refine ⟨numberFits_of_not_number (isNumber_of_validateConfigString getenv hw), ?_⟩
    rw [validateConfigString_eq] at hw
    exact Option.isSome_iff_exists.mp hw
  cases hkey : keyIn ["stream", "consumer", "catch-up"] key with
  | false =>
    obtain ⟨c', ⟨hc', hs, hk, hl⟩, hload⟩ :=
      loadImportCommonOption_of_validate getenv hcore h hkey
    rw [loadImportStreamOption, hload]
    have hgood : StreamRead (n + if isSubjectKey key = true then 1 else 0) f'
        { c with source := c' } := by
      exact ⟨hc', by rw [hl rfl, hlen], by rw [hs, hstream], by rw [hk, hconsumer]⟩
    by_cases hfit : numberFits key v = true
    · rw [if_pos hfit, hfit]
      exact .of_some hgood
    · rw [if_neg hfit]
      rw [Bool.not_eq_true] at hfit
      rw [hfit]
      exact ⟨fun e => absurd e (by decide), fun _ => rfl⟩
  | true =>
    simp only [keyIn, List.any_cons, List.any_nil, Bool.or_false, Bool.or_eq_true, beq_iff_eq]
      at hkey
    rcases hkey with rfl | rfl | rfl
    · change (if (!validateConfigString getenv v) = true then none
        else some { f with hasStream := true }) = some f' at h
      rw [Option.ite_none_left_eq_some, Bool.not_eq_true', Bool.not_eq_false] at h
      obtain ⟨hfit, x, hx⟩ := hread v h.1
      rw [hfit]
      change LoadsIf _ _ (ofOption ((loadConfigString getenv v).map _)).toOption
      rw [hx, Option.map_some, toOption_ofOption, ← Option.some.inj h.2]
      exact .of_some ⟨hcore, hlen, rfl, hconsumer⟩
    · change (if (!validateConfigString getenv v) = true then none
        else some { f with hasConsumer := true }) = some f' at h
      rw [Option.ite_none_left_eq_some, Bool.not_eq_true', Bool.not_eq_false] at h
      obtain ⟨hfit, x, hx⟩ := hread v h.1
      rw [hfit]
      change LoadsIf _ _ (ofOption ((loadConfigString getenv v).map _)).toOption
      rw [hx, Option.map_some, toOption_ofOption, ← Option.some.inj h.2]
      exact .of_some ⟨hcore, hlen, hstream, rfl⟩
    · change (if isBool v = true then some f else none) = some f' at h
      rw [Option.ite_none_right_eq_some] at h
      cases v with
      | bool b =>
        rw [← Option.some.inj h.2]
        exact .of_some ⟨hcore, hlen, hstream, hconsumer⟩
      | _ => exact absurd h.1 (by simp [isBool])

/-! ## Entries and forms -/

theorem loadBridgeForm_of_validate {options : List (Value N)}
    (h : validateBridgeForm getenv options = true) :
    LoadsIf (numbersFit options) (fun _ => True) (loadBridgeForm getenv none options) := by
  unfold validateBridgeForm at h
  unfold loadBridgeForm
  by_cases hlen : options.length < 2 ∨ options.length % 2 = 1
  · rw [if_pos hlen] at h
    cases h
  · rw [if_neg hlen] at h
    rw [if_neg (by decide), if_neg hlen]
    cases hv : validateOptions (validateBridgeOption getenv) false options with
    | none =>
      rw [hv] at h
      cases h
    | some f =>
      rw [hv] at h
      have hf : f = true := h
      subst hf
      have hload := loadOptions_of_validate (fun _ => false) (fun _ => BridgeRead)
        (fun _ f c key v f' hR hc => loadBridgeOption_of_validate getenv hR hc) options 0
        (c := BridgeConfig.zero) (f := false) rfl hv
      have hall := hload.filter fun c (hc : true = !c.servers.isEmpty) => hc.symm
      rwa [Bool.and_true] at hall

theorem loadImportCoreEntry_of_validate {options : List (Value N)}
    (h : validateImportEntryOptions getenv false options = true) :
    LoadsIf (numbersFit options) (fun _ => True) (loadImportCoreEntry getenv options) := by
  unfold validateImportEntryOptions at h
  unfold loadImportCoreEntry
  by_cases hlen : options.length = 0 ∨ options.length % 2 = 1
  · rw [if_pos hlen] at h
    cases h
  · rw [if_neg hlen] at h ⊢
    cases hv : validateOptions (validateImportOption getenv false) ⟨false, false, false, false⟩
      options with
    | none =>
      rw [hv] at h
      cases h
    | some f =>
      rw [hv] at h
      have hf : (f.hasServers && f.hasSubjects) = true := by simpa using h
      have hload := loadOptions_of_validate (fun _ => false) (fun _ => CoreRead)
        (fun _ f c key v f' hR hc => loadImportCoreOption_of_validate getenv hR hc) options 0
        (⟨rfl, rfl⟩ : CoreRead ⟨false, false, false, false⟩ ImportConfig.zero) hv
      have hok : ∀ c, CoreRead f c → importCoreOk c = true := by
        intro c hc
        rw [importCoreOk, ← hc.1, ← hc.2, hf]
      have hall := hload.filter hok
      rwa [Bool.and_true] at hall

theorem loadImportStreamEntry_of_validate {options : List (Value N)}
    (h : validateImportEntryOptions getenv true options = true) :
    LoadsIf (numbersFit options && decide (subjectOptions options = 1)) (fun _ => True)
      (loadImportStreamEntry getenv options) := by
  unfold validateImportEntryOptions at h
  unfold loadImportStreamEntry
  by_cases hlen : options.length = 0 ∨ options.length % 2 = 1
  · rw [if_pos hlen] at h
    cases h
  · rw [if_neg hlen] at h ⊢
    cases hv : validateOptions (validateImportOption getenv true) ⟨false, false, false, false⟩
      options with
    | none =>
      rw [hv] at h
      cases h
    | some f =>
      rw [hv] at h
      have hf : f.hasServers = true ∧ f.hasSubjects = true ∧ f.hasStream = true ∧
          f.hasConsumer = true := by
        simpa [and_assoc] using h
      have hload := loadOptions_of_validate isSubjectKey StreamRead
        (fun _ f c key v f' hR hc => loadImportStreamOption_of_validate getenv hR hc) options 0
        (⟨⟨rfl, rfl⟩, rfl, rfl, rfl⟩ : StreamRead 0 ⟨false, false, false, false⟩
          ImportStreamConfig.zero) hv
      apply hload.filter
      rintro c ⟨hcore, hsub, hstream, hconsumer⟩
      rw [importStreamOk, importCoreOk, ← hcore.1, ← hcore.2, ← hstream, ← hconsumer, hsub, hf.1,
        hf.2.1, hf.2.2.1, hf.2.2.2, Bool.and_true, Bool.and_true, Bool.and_true, Bool.true_and,
        Nat.zero_add]
      rfl

theorem loadImportEntries_of_validate {α : Type} {entry : List (Value N) → Option α}
    {streamEntry : Bool} {v : Value N}
    (hentry : ∀ options, validateImportEntryOptions getenv streamEntry options = true →
      LoadsIf (entryFits streamEntry options) (fun _ => True) (entry options))
    (h : validateImportEntries getenv streamEntry v = true) :
    LoadsIf ((importEntries v).all (entryFits streamEntry)) (fun xs => xs ≠ [])
      (loadImportEntries entry v) := by
  cases v with
  | vector items =>
    rw [validateImportEntries, Bool.and_eq_true, Bool.not_eq_true'] at h
    obtain ⟨hne, hall⟩ := h
    rw [List.all_eq_true] at hall
    have hitems : ∀ w ∈ items, ∃ options, w = .vector options ∧
        validateImportEntryOptions getenv streamEntry options = true := by
      intro w hw
      have hok := hall w hw
      cases w with
      | vector options => exact ⟨options, rfl, hok⟩
      | _ => cases hok
    rw [importEntries, List.all_filterMap, loadImportEntries, hne, if_neg (by decide)]
    apply LoadsIf.imp _ (LoadsIf.mapM _)
    · intro xs hlen hnil
      rw [hnil, List.length_nil] at hlen
      rw [List.length_eq_zero_iff.mp hlen.symm] at hne
      cases hne
    · intro w hw
      obtain ⟨options, rfl, hok⟩ := hitems w hw
      exact hentry options hok
  | _ => cases h

/-- An entry that has been seen is in the configuration. -/
def NestedRead (f : Bool) (c : ImportsConfig) : Prop :=
  f = true → (c.cores.isEmpty && c.streams.isEmpty) = false

theorem loadNestedOption_of_validate {f f' : Bool} (c : ImportsConfig) {key : Bytes} {v : Value N}
    (h : validateNestedOption getenv f key v = some f') :
    LoadsIf (nestedFits key v) (NestedRead f') (loadNestedOption getenv c key v).toOption := by
  unfold validateNestedOption at h
  unfold loadNestedOption nestedFits
  by_cases hcore : key = lit "core"
  · rw [if_pos hcore, Option.ite_none_right_eq_some] at h
    have hk : (key == lit "streams") = false := by
      rw [hcore]
      decide
    rw [if_pos hcore, toOption_ofOption, hk]
    apply (loadImportEntries_of_validate getenv (fun options ho => ?_) h.1).map
    · intro xs hxs _
      simp [hxs]
    · have hload := loadImportCoreEntry_of_validate getenv ho
      rwa [entryFits, Bool.not_false, Bool.true_or, Bool.and_true]
  · rw [if_neg hcore, Option.ite_none_right_eq_some, Option.ite_none_right_eq_some] at h
    have hk : (key == lit "streams") = true := beq_iff_eq.mpr h.1
    rw [if_neg hcore, if_pos h.1, toOption_ofOption, hk]
    apply (loadImportEntries_of_validate getenv (fun options ho => ?_) h.2.1).map
    · intro xs hxs _
      simp [hxs]
    · have hload := loadImportStreamEntry_of_validate getenv ho
      rwa [entryFits, Bool.not_true, Bool.false_or]

theorem loadImportForm_of_validate {options : List (Value N)}
    (h : validateImportForm getenv options = true) :
    LoadsIf (importFits options) (fun _ => True) (loadImportForm getenv none options) := by
  unfold validateImportForm at h
  unfold loadImportForm
  by_cases hlen : options.length < 2 ∨ options.length % 2 = 1
  · rw [if_pos hlen] at h
    cases h
  · rw [if_neg hlen] at h
    rw [if_neg (by decide), if_neg hlen]
    cases hkeys : optionKeys options with
    | none =>
      rw [hkeys] at h
      cases h
    | some keys =>
      rw [hkeys] at h
      have hnested : (optionPairs options).any (fun o => importKeyIsNested o.1) =
          keys.any importKeyIsNested := by
        rw [optionKeys_eq hkeys, List.any_map]
        rfl
      unfold importFits
      rw [hnested]
      by_cases hmix : (keys.any importKeyIsNested && keys.any fun key => !importKeyIsNested key) = true
      · simp only [hmix, if_true] at h
        cases h
      · rw [Bool.not_eq_true] at hmix
        simp only [hmix, Bool.false_eq_true, if_false] at h ⊢
        by_cases hn : keys.any importKeyIsNested = true
        · simp only [hn, Bool.not_true, Bool.false_eq_true, if_false, if_true] at h ⊢
          cases hv : validateOptions (validateNestedOption getenv) false options with
          | none =>
            rw [hv] at h
            cases h
          | some f =>
            rw [hv] at h
            have hf : f = true := h
            subst hf
            have hload := loadOptions_of_validate (fun _ => false) (fun _ => NestedRead)
              (fun _ f c key v f' _ hc => loadNestedOption_of_validate getenv c hc) options 0
              (c := ⟨[], []⟩) (f := false) (fun e => absurd e (by decide)) hv
            have hok : ∀ c, NestedRead true c → (!(c.cores.isEmpty && c.streams.isEmpty)) = true := by
              intro c hc
              rw [hc rfl, Bool.not_false]
            have hall := hload.filter hok
            rwa [Bool.and_true] at hall
        · rw [Bool.not_eq_true] at hn
          simp only [hn, Bool.not_false, Bool.false_eq_true, if_false, if_true] at h ⊢
          exact (loadImportCoreEntry_of_validate getenv h).map fun _ _ => trivial

end Options

section Forms

variable [ConfigNumber N] (getenv : Bytes → Option Bytes)

theorem loadOnRule_of_validate {env : Env N Unit} {n : ℕ} {items : List (Value N)}
    (h : validateOnRule env n items = some true) : ∃ r, loadOnRule items = some r := by
  match items, h with
  | .string filter :: rest, h =>
    simp only [validateOnRule] at h
    simp only [loadOnRule]
    cases hbody : rest.getLast? with
    | none =>
      rw [hbody] at h
      cases h
    | some body =>
      rw [hbody] at h
      cases hopt : onOptions false rest.dropLast with
      | none =>
        rw [hopt] at h
        cases h
      | some reentrant => exact ⟨_, rfl⟩

/-- What a form adds to the configuration. -/
structure FormRead (form : Value N) (p p' : LoadedSource N) : Prop where
  bridge : p'.bridge.isSome = (p.bridge.isSome || isExportForm form)
  importer : p'.importer.isSome = (p.importer.isSome || isImportForm form)
  lvc : p'.lvc = p.lvc ++ lvcTexts getenv form

/-- A validated form is loaded unless a number does not fit or it comes twice. -/
theorem loadOnForm_of_validate {env : Env N Unit} {n : ℕ} {form : Value N}
    (h : (validateOnForm env getenv n form).2 = some true) (p : LoadedSource N) :
    LoadsIf (formFits form && !(isExportForm form && p.bridge.isSome) &&
        !(isImportForm form && p.importer.isSome))
      (FormRead getenv form p) (loadOnForm getenv p form) := by
  match form, h with
  | .list (.symbol head :: items), h =>
    rw [isExportForm_list, isImportForm_list]
    have hlvc : head ≠ lit "lvc" → lvcTexts getenv (.list (.symbol head :: items)) = [] := by
      intro hne
      simp only [lvcTexts, lvcFilterValues, if_neg hne, List.filterMap_nil]
    simp only [validateOnForm] at h
    simp only [loadOnForm, formFits]
    by_cases hl : head = lit "lvc"
    · subst hl
      have he : isExportConfigHead (lit "lvc") = false := by decide
      have hi : (lit "lvc" == lit "import") = false := by decide
      rw [if_pos rfl] at h
      rw [if_pos rfl, loadLvcForm_of_validate getenv (Option.some.inj h), he, hi]
      exact .of_some ⟨by simp [isExportForm_list, he], by simp [isImportForm_list, hi], rfl⟩
    · rw [if_neg hl] at h
      rw [if_neg hl]
      by_cases hb : isExportConfigHead head = true
      · rw [if_pos hb] at h
        have hi : (head == lit "import") = false := by
          rw [beq_eq_false_iff_ne]
          rintro rfl
          exact absurd hb (by decide)
        rw [if_pos hb, if_pos hb, hb, hi, Bool.true_and, Bool.false_and, Bool.not_false,
          Bool.and_true]
        cases hp : p.bridge with
        | some c => 
          rw [Option.isSome_some, Bool.not_true, Bool.and_false]
          exact ⟨fun e => absurd e (by decide), fun _ => rfl⟩
        | none =>
          rw [Option.isSome_none, Bool.not_false, Bool.and_true]
          apply (loadBridgeForm_of_validate getenv (Option.some.inj h)).map
          intro c _
          exact ⟨by simp [isExportForm_list, hb], by simp [isImportForm_list, hi],
            by rw [hlvc hl, List.append_nil]⟩
      · rw [if_neg hb] at h
        rw [if_neg hb, if_neg hb]
        rw [Bool.not_eq_true] at hb
        rw [hb]
        by_cases hi : head = lit "import"
        · rw [if_pos hi] at h
          have hi' : (head == lit "import") = true := beq_iff_eq.mpr hi
          rw [if_pos hi, if_pos hi, hi', Bool.true_and, Bool.false_and, Bool.not_false,
            Bool.and_true]
          cases hp : p.importer with
          | some c =>
            rw [Option.isSome_some, Bool.not_true, Bool.and_false]
            exact ⟨fun e => absurd e (by decide), fun _ => rfl⟩
          | none =>
            rw [Option.isSome_none, Bool.not_false, Bool.and_true]
            apply (loadImportForm_of_validate getenv (Option.some.inj h)).map
            intro c _
            exact ⟨by simp [isExportForm_list, hb], by simp [isImportForm_list, hi'],
              by rw [hlvc hl, List.append_nil]⟩
        · rw [if_neg hi] at h
          have hi' : (head == lit "import") = false := beq_eq_false_iff_ne.mpr hi
          have hgood : ∀ p' : LoadedSource N, p'.bridge = p.bridge → p'.importer = p.importer →
              p'.lvc = p.lvc → FormRead getenv (.list (.symbol head :: items)) p p' := by
            intro p' h₁ h₂ h₃
            exact ⟨by rw [h₁, isExportForm_list, hb, Bool.or_false],
              by rw [h₂, isImportForm_list, hi', Bool.or_false],
              by rw [h₃, hlvc hl, List.append_nil]⟩
          rw [if_neg hi, if_neg hi, hi']
          by_cases hon : head = lit "on"
          · rw [if_pos hon] at h
            obtain ⟨r, hr⟩ := loadOnRule_of_validate h
            rw [if_pos hon, hr]
            exact .of_some (hgood _ rfl rfl rfl)
          · rw [if_neg hon]
            exact .of_some (hgood _ rfl rfl rfl)

/-- One more form of a kind that may come once. -/
theorem once_step (present e : Bool) (n : ℕ) :
    (!(e && present) && decide ((present || e).toNat + n ≤ 1)) =
      decide (present.toNat + (n + if e = true then 1 else 0) ≤ 1) := by
  cases present <;> cases e <;> simp

theorem loadForms_of_validate {env : Env N Unit} (forms : List (Value N)) :
    ∀ n p, validateForms env getenv n forms = some true →
      LoadsIf (forms.all formFits &&
          (decide (p.bridge.isSome.toNat + forms.countP isExportForm ≤ 1) &&
            decide (p.importer.isSome.toNat + forms.countP isImportForm ≤ 1)))
        (fun p' => p'.lvc = p.lvc ++ forms.flatMap (lvcTexts getenv))
        (forms.foldlM (loadOnForm getenv) p) := by
  induction forms with
  | nil =>
    intro n p _
    have hone : ∀ b : Bool, decide (b.toNat + 0 ≤ 1) = true := by decide
    rw [List.countP_nil, List.countP_nil, hone, hone]
    exact .of_some (by simp)
  | cons form forms ih =>
    intro n p h
    have hsplit : (validateOnForm env getenv n form).2 = some true ∧
        validateForms env getenv (validateOnForm env getenv n form).1 forms = some true := by
      rw [validateForms] at h
      simp only [Option.bind_eq_bind, Option.bind_eq_some_iff, Option.some.injEq,
        Bool.and_eq_true] at h
      obtain ⟨a, ha, b, hb, rfl, rfl⟩ := h
      exact ⟨ha, hb⟩
    have hform := loadOnForm_of_validate getenv hsplit.1 p
    rw [List.foldlM_cons, List.all_cons, List.countP_cons, List.countP_cons, ← once_step,
      ← once_step]
    have hrest : ∀ p', FormRead getenv form p p' →
        LoadsIf (forms.all formFits &&
            (decide ((p.bridge.isSome || isExportForm form).toNat + forms.countP isExportForm ≤ 1) &&
              decide ((p.importer.isSome || isImportForm form).toNat +
                forms.countP isImportForm ≤ 1)))
          (fun p' => p'.lvc = p.lvc ++ (form :: forms).flatMap (lvcTexts getenv))
          (forms.foldlM (loadOnForm getenv) p') := by
      intro p' hp'
      rw [← hp'.bridge, ← hp'.importer]
      apply (ih _ p' hsplit.2).imp
      intro q hq
      rw [hq, hp'.lvc, List.flatMap_cons, List.append_assoc]
    have hall := hform.bind hrest
    convert hall using 1
    · ac_rfl
    · rfl

theorem configureLvc_ok (r : Router) (filters : List Bytes) :
    (configureLvc .succeeds r filters).2 = true ↔ ∀ f ∈ filters, subjectValid f true = true := by
  unfold configureLvc
  by_cases he : filters.isEmpty = true
  · rw [if_pos he]
    rw [List.isEmpty_iff] at he
    simp [he]
  · rw [if_neg he]
    by_cases hv : filters.any (fun f => !subjectValid f true) = true
    · rw [if_pos hv]
      obtain ⟨f, hf, hbad⟩ := List.any_eq_true.mp hv
      constructor
      · intro h
        cases h
      · intro h
        rw [h f hf] at hbad
        cases hbad
    · rw [if_neg hv]
      rw [Bool.not_eq_true, List.any_eq_false] at hv
      constructor
      · intro _ f hf
        simpa using hv f hf
      · intro _
        simp [Alloc.succeeds]

/-- A validated source loads exactly where it is loadable. -/
theorem validated_loads {env : Env N Unit} {forms : List (Value N)}
    (h : validateSource env getenv forms = some true) (r : Router) :
    (∃ p, loadSource getenv forms = some p ∧ (configureLvc .succeeds r p.2.lvc).2 = true) ↔
      Loadable getenv forms := by
  have hload := loadForms_of_validate getenv forms 0 LoadedSource.zero h
  have hzero : ∀ n : ℕ, false.toNat + n = n := Nat.zero_add
  change LoadsIf (forms.all formFits && (decide (false.toNat + _ ≤ 1) && decide (false.toNat + _ ≤ 1)))
    (fun p' => p'.lvc = [] ++ _) (loadForms getenv forms) at hload
  rw [hzero, hzero] at hload
  have hfilters : (∀ f ∈ forms.flatMap (lvcTexts getenv), subjectValid f true = true) ↔
      ∀ form ∈ forms, ∀ v ∈ lvcFilterValues form, ∀ t,
        loadConfigString getenv v = some t → subjectValid t true = true := by
    simp only [List.mem_flatMap, lvcTexts, List.mem_filterMap]
    constructor
    · intro hf form hform v hv t ht
      exact hf t ⟨form, hform, v, hv, ht⟩
    · rintro hf t ⟨form, hform, v, hv, ht⟩
      exact hf form hform v hv t ht
  constructor
  · rintro ⟨p, hp, hlvc⟩
    rw [loadSource, Option.map_eq_some_iff] at hp
    obtain ⟨q, hq, rfl⟩ := hp
    cases hfits : forms.all formFits && (decide (forms.countP isExportForm ≤ 1) &&
        decide (forms.countP isImportForm ≤ 1)) with
    | false =>
      rw [hload.fails hfits] at hq
      cases hq
    | true =>
      obtain ⟨q', hq', hfl⟩ := hload.loads hfits
      rw [hq] at hq'
      cases hq'
      rw [configureLvc_ok, hfl, List.nil_append, hfilters] at hlvc
      rw [Bool.and_eq_true, Bool.and_eq_true, List.all_eq_true, decide_eq_true_eq,
        decide_eq_true_eq] at hfits
      exact ⟨hfits.1, hfits.2.1, hfits.2.2, hlvc⟩
  · intro hl
    have hfits : (forms.all formFits && (decide (forms.countP isExportForm ≤ 1) &&
        decide (forms.countP isImportForm ≤ 1))) = true := by
      rw [Bool.and_eq_true, Bool.and_eq_true, List.all_eq_true, decide_eq_true_eq,
        decide_eq_true_eq]
      exact ⟨hl.numbers, hl.oneExport, hl.oneImport⟩
    obtain ⟨q, hq, hfl⟩ := hload.loads hfits
    refine ⟨_, by rw [loadSource, hq, Option.map_some], ?_⟩
    rw [configureLvc_ok, hfl, List.nil_append, hfilters]
    exact hl.filters

end Forms

/-- A cast of a rational drops its fraction. -/
instance : ConfigNumber ℚ :=
  { (inferInstance : Number ℚ) with
    toI64 := fun a => if 0 ≤ a then ⌊a⌋ else ⌈a⌉
    ofI64 := fun n => n }

/-- Every allocation succeeds; there are no variables to read. -/
def plainEnv : Env ℚ Unit := ⟨fun _ => true, fun _ => none, writtenOver, payloadDrawn, fun w _ _ => (w, true), 8⟩

def exportForm (server : String) : Value ℚ :=
  .list [.symbol (lit "export"), .keyword (lit "servers"), .string (lit server)]

theorem two_exports_do_not_load :
    validateSource plainEnv (fun _ => none) [exportForm "a", exportForm "b"] = some true ∧
      ¬ ∃ p, loadSource (fun _ => none) [exportForm "a", exportForm "b"] = some p ∧
        (configureLvc .succeeds routerInit p.2.lvc).2 = true := by
  have hnone : (loadSource (fun _ => none) [exportForm "a", exportForm "b"]).isNone = true := by
    decide +kernel
  refine ⟨by decide +kernel, ?_⟩
  rintro ⟨p, hp, -⟩
  rw [hp] at hnone
  cases hnone

theorem validated_loads_lvc :
    ∃ p, loadSource (fun _ => none) [.list [.symbol (lit "lvc"), .string (lit "a.>")],
        (exportForm "a")] = some p ∧ (configureLvc .succeeds routerInit p.2.lvc).2 = true := by
  refine (@validated_loads ℚ _ (fun _ => none) plainEnv _ (by decide +kernel) routerInit).mpr
    ⟨by decide +kernel, by decide +kernel, by decide +kernel, ?_⟩
  have hfilters : ∀ v ∈ [Value.list [.symbol (lit "lvc"), .string (lit "a.>")], exportForm "a"].flatMap
      lvcFilterValues, ∀ t ∈ loadConfigString (fun _ => none) v, subjectValid t true = true := by
    decide +kernel
  intro form hform v hv t ht
  exact hfilters v (List.mem_flatMap.mpr ⟨form, hform, hv⟩) t ht

end Monoblok.Patchbay
