import Monoblok.Source.Config

/-!
# Loading a source

`load_source` of `pb_program.c` after the parser: the top-level forms one after
another into a program and its configuration, up to the first that is rejected.
-/

namespace Monoblok.Patchbay

open Number

variable {N : Type}

/-- What `load_source` leaves. -/
structure LoadedSource (N : Type) where
  rules : List (RuleSource N)
  lvc : List Bytes
  bridge : Option BridgeConfig
  importer : Option ImportsConfig

def LoadedSource.zero : LoadedSource N := ⟨[], [], none, none⟩

section Forms

variable [ConfigNumber N] (getenv : Bytes → Option Bytes)

def loadLvcForm (filters : List Bytes) : List (Value N) → Option (List Bytes)
  | [] => none
  | [.vector items] =>
    if items.isEmpty then none else (items.mapM (loadConfigString getenv)).map (filters ++ ·)
  | items => (items.mapM (loadConfigString getenv)).map (filters ++ ·)

/-- The number of options is checked before the first of them is read. -/
def loadBridgeForm (present : Option BridgeConfig) (options : List (Value N)) :
    Option BridgeConfig :=
  if present.isSome then none
  else if options.length < 2 ∨ options.length % 2 = 1 then none
  else
    (loadOptions (loadBridgeOption getenv) .zero options).filter fun c => !c.servers.isEmpty

/-- `validate_import_core` -/
def importCoreOk (c : ImportConfig) : Bool := !c.servers.isEmpty && !c.subjects.isEmpty

def loadImportCoreEntry (options : List (Value N)) : Option ImportConfig :=
  if options.length = 0 ∨ options.length % 2 = 1 then none
  else (loadOptions (loadImportCommonOption getenv) .zero options).filter importCoreOk

def importStreamOk (c : ImportStreamConfig) : Bool :=
  importCoreOk c.source && decide (c.source.subjects.length = 1) && c.stream.isSome &&
    c.consumer.isSome

def loadImportStreamEntry (options : List (Value N)) : Option ImportStreamConfig :=
  if options.length = 0 ∨ options.length % 2 = 1 then none
  else (loadOptions (loadImportStreamOption getenv) .zero options).filter importStreamOk

/-- The entries of `:core` and `:streams`. -/
def loadImportEntries {α : Type} (entry : List (Value N) → Option α) : Value N → Option (List α)
  | .vector items =>
    if items.isEmpty then none
    else
      items.mapM fun v =>
        match v with
        | .vector options => entry options
        | _ => none
  | _ => none

def importKeyIsNested (key : Bytes) : Bool := key == lit "core" || key == lit "streams"

/-- The keys of keyword and value pairs. -/
def optionKeys : List (Value N) → Option (List Bytes)
  | [] => some []
  | .keyword key :: _ :: rest => (optionKeys rest).map (key :: ·)
  | _ => none

def loadNestedOption (c : ImportsConfig) (key : Bytes) (v : Value N) : OptionResult ImportsConfig :=
  if key = lit "core" then
    .ofOption ((loadImportEntries (loadImportCoreEntry getenv) v).map fun xs =>
      { c with cores := c.cores ++ xs })
  else if key = lit "streams" then
    .ofOption ((loadImportEntries (loadImportStreamEntry getenv) v).map fun xs =>
      { c with streams := c.streams ++ xs })
  else .unknown

def loadImportForm (present : Option ImportsConfig) (options : List (Value N)) :
    Option ImportsConfig :=
  if present.isSome then none
  else if options.length < 2 ∨ options.length % 2 = 1 then none
  else
    match optionKeys options with
    | none => none
    | some keys =>
      if keys.any importKeyIsNested && keys.any (fun key => !importKeyIsNested key) then none
      else if keys.any importKeyIsNested then
        (loadOptions (loadNestedOption getenv) ⟨[], []⟩ options).filter fun c =>
          !(c.cores.isEmpty && c.streams.isEmpty)
      else (loadImportCoreEntry getenv options).map fun core => ⟨[core], []⟩

/-- The options of a rule between its filter and its body. -/
def onOptions (reentrant : Bool) : List (Value N) → Option Bool
  | [] => some reentrant
  | .keyword key :: .bool b :: rest => if key = lit "reentrant" then onOptions b rest else none
  | _ => none

def loadOnRule : List (Value N) → Option (RuleSource N)
  | .string filter :: rest =>
    match rest.getLast? with
    | none => none
    | some body => (onOptions false rest.dropLast).map fun reentrant => ⟨filter, body, reentrant⟩
  | _ => none

def isExportConfigHead (head : Bytes) : Bool := head == lit "bridge" || head == lit "export"

def loadOnForm (p : LoadedSource N) (form : Value N) : Option (LoadedSource N) :=
  match form with
  | .list (.symbol head :: items) =>
    if head = lit "lvc" then (loadLvcForm getenv p.lvc items).map fun x => { p with lvc := x }
    else if isExportConfigHead head then
      (loadBridgeForm getenv p.bridge items).map fun x => { p with bridge := some x }
    else if head = lit "import" then
      (loadImportForm getenv p.importer items).map fun x => { p with importer := some x }
    else if head = lit "on" then (loadOnRule items).map fun r => { p with rules := p.rules ++ [r] }
    else some p
  | _ => none

def loadForms (forms : List (Value N)) : Option (LoadedSource N) :=
  forms.foldlM (loadOnForm getenv) .zero

end Forms

/-! ## Clock forms -/

def valueHeadIs (names : List String) : Value N → Bool
  | .list (.symbol head :: _) => names.any fun name => head == lit name
  | _ => false

def callHasMsWindow : Value N → Bool
  | .list (_ :: .keyword k :: _ :: _) => k == lit "ms"
  | _ => false

def windowedForms : List String :=
  ["bar!", "bar", "moving-avg", "moving-sum", "moving-min", "moving-max", "median", "percentile",
    "stddev", "variance", "rate", "throttle"]

def clockForms : List String := ["on-silence", "dropout", "debounce!", "sample!", "aggregate!"]

def isClockForm (v : Value N) : Bool :=
  valueHeadIs windowedForms v && callHasMsWindow v || valueHeadIs clockForms v

mutual

/-- `scan_clock_forms`: whether a form needs the timer. -/
def scanClockForms : Value N → Bool
  | .list items => isClockForm (.list items) || scanClockItems items
  | .vector items => scanClockItems items
  | _ => false

def scanClockItems : List (Value N) → Bool
  | [] => false
  | v :: vs => scanClockForms v || scanClockItems vs

end

/-- The program and its configuration. -/
def loadSource [ConfigNumber N] (getenv : Bytes → Option Bytes) (forms : List (Value N)) :
    Option (Program N × LoadedSource N) :=
  (loadForms getenv forms).map fun p => (loadProgram p.rules (scanClockItems forms), p)

end Monoblok.Patchbay
