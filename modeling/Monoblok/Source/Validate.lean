import Monoblok.Source.Load

/-!
# Validating a source

`pb_validate_file` after the parser: the top-level forms one after another, all of
them also after one that is rejected. It checks options by itself, without the
loader, and evaluates the body of each rule once on a state of its own.
-/

namespace Monoblok.Patchbay

open Number

variable {N : Type}

def keyIn (names : List String) (key : Bytes) : Bool := names.any fun name => key == lit name

def isBool : Value N → Bool
  | .bool _ => true
  | _ => false

def isNumber : Value N → Bool
  | .number _ => true
  | _ => false

section Options

variable (getenv : Bytes → Option Bytes)

def envValueNonempty (name : Bytes) : Bool :=
  match getenv (cString name) with
  | some value => !(cString value).isEmpty
  | none => false

def validateConfigString (v : Value N) : Bool :=
  match v with
  | .string text => !text.isEmpty
  | _ =>
    match valueEnvForm v with
    | some (.string name) => !name.isEmpty && envValueNonempty getenv name
    | _ => false

def validateConfigStringList (v : Value N) : Bool :=
  match v with
  | .string _ => validateConfigString getenv v
  | .vector items => !items.isEmpty && items.all (validateConfigString getenv)
  | .list items =>
    if valueIsEnvForm v then validateConfigString getenv v
    else !items.isEmpty && items.all (validateConfigString getenv)
  | _ => false

def configStringListHasOne (v : Value N) : Bool :=
  match v with
  | .string _ => true
  | .vector items => items.length == 1
  | .list items => valueIsEnvForm v || items.length == 1
  | _ => false

/-- The loop over keyword and value pairs. -/
def validateOptions {F : Type} (option : F → Bytes → Value N → Option F) :
    F → List (Value N) → Option F
  | f, [] => some f
  | f, .keyword key :: v :: rest => (option f key v).bind fun f => validateOptions option f rest
  | _, _ => none

def remoteStrings : List String :=
  ["name", "creds", "user", "password", "token", "tls-ca", "tls-cert", "tls-key"]

def remoteNumbers : List String :=
  ["connect-timeout-ms", "ping-interval-ms", "reconnect-wait-ms", "max-reconnect"]

/-- The options of an entry that have been seen. -/
structure EntryOptions where
  hasServers : Bool
  hasSubjects : Bool
  hasStream : Bool
  hasConsumer : Bool

def validateImportOption (streamEntry : Bool) (f : EntryOptions) (key : Bytes) (v : Value N) :
    Option EntryOptions :=
  if keyIn ["servers", "subject", "subjects"] key then
    if key = lit "servers" then
      if validateConfigStringList getenv v then some { f with hasServers := true } else none
    else if streamEntry && !configStringListHasOne v then none
    else if validateConfigStringList getenv v then some { f with hasSubjects := true }
    else none
  else if keyIn ["tls", "tls-skip-verify", "origin-header", "catch-up"] key then
    if !streamEntry && key == lit "catch-up" then none
    else if isBool v then some f
    else none
  else if keyIn (remoteNumbers ++ ["max-pending"]) key then if isNumber v then some f else none
  else if keyIn remoteStrings key || streamEntry && keyIn ["stream", "consumer"] key then
    if !validateConfigString getenv v then none
    else if key = lit "stream" then some { f with hasStream := true }
    else if key = lit "consumer" then some { f with hasConsumer := true }
    else some f
  else none

def validateImportEntryOptions (streamEntry : Bool) (options : List (Value N)) : Bool :=
  if options.length = 0 ∨ options.length % 2 = 1 then false
  else
    match validateOptions (validateImportOption getenv streamEntry) ⟨false, false, false, false⟩
      options with
    | none => false
    | some f =>
      f.hasServers && f.hasSubjects && (!streamEntry || f.hasStream && f.hasConsumer)

def validateImportEntries (streamEntry : Bool) : Value N → Bool
  | .vector items =>
    !items.isEmpty && items.all fun v =>
      match v with
      | .vector options => validateImportEntryOptions getenv streamEntry options
      | _ => false
  | _ => false

def validateLvcForm : List (Value N) → Bool
  | [] => false
  | [.vector items] => !items.isEmpty && items.all (validateConfigString getenv)
  | items => items.all (validateConfigString getenv)

/-- The flag is whether there were servers. -/
def validateBridgeOption (hasServers : Bool) (key : Bytes) (v : Value N) : Option Bool :=
  if keyIn ["servers", "export"] key then
    if validateConfigStringList getenv v then some (hasServers || key == lit "servers") else none
  else if keyIn ["tls", "tls-skip-verify", "origin-header", "replay-header"] key then
    if isBool v then some hasServers else none
  else if keyIn remoteNumbers key then if isNumber v then some hasServers else none
  else if keyIn remoteStrings key then
    if validateConfigString getenv v then some hasServers else none
  else none

def validateBridgeForm (options : List (Value N)) : Bool :=
  if options.length < 2 ∨ options.length % 2 = 1 then false
  else (validateOptions (validateBridgeOption getenv) false options).getD false

/-- The flag is whether there was an entry. -/
def validateNestedOption (_ : Bool) (key : Bytes) (v : Value N) : Option Bool :=
  if key = lit "core" then if validateImportEntries getenv false v then some true else none
  else if key = lit "streams" then if validateImportEntries getenv true v then some true else none
  else none

def validateImportForm (options : List (Value N)) : Bool :=
  if options.length < 2 ∨ options.length % 2 = 1 then false
  else
    match optionKeys options with
    | none => false
    | some keys =>
      if keys.any importKeyIsNested && keys.any (fun key => !importKeyIsNested key) then false
      else if !keys.any importKeyIsNested then validateImportEntryOptions getenv false options
      else (validateOptions (validateNestedOption getenv) false options).getD false

end Options

/-! ## Rules -/

section Rules

variable [Number N] (env : Env N Unit)

/-- Nothing is published; reserved and invalid subjects are refused. -/
def discardPublish (subject _payload : Slice) : MachineM N Unit Bool := do
  let m ← get
  pure (publishSubjectValid (m.read env.rewritten subject))

def validationCtx (ruleId : ℕ) : Ctx N Unit where
  alloc := env.alloc
  readJson := env.readJson
  rewritten := env.rewritten
  drawn := env.drawn ruleId
  subjectAt := .held (lit "x.y.z")
  payloadAt := .held (lit "1")
  ruleId := ruleId
  nowMs := 0
  wallMs := 0
  replaying := false
  subject := lit "x.y.z"
  payload := lit "1"
  publish := discardPublish env

/-- A fresh state for the rule under its number. -/
def validationMachine (ruleId : ℕ) : Machine N Unit :=
  ⟨⟨List.replicate (ruleId + 1) (RuleSource.load ⟨[], .nil, false⟩), [], [], false⟩, ()⟩

/-- Whether one evaluation of the body goes through; `none` where the depth is too
small. -/
def validateBody (ruleId : ℕ) (body : Value N) : Option Bool :=
  (succeeds (eval env.fuel (validationCtx env ruleId) body) (validationMachine ruleId)).map Prod.fst

def validateOnRule (ruleId : ℕ) : List (Value N) → Option Bool
  | .string _ :: rest =>
    match rest.getLast? with
    | none => some false
    | some body =>
      if (onOptions false rest.dropLast).isNone then some false else validateBody env ruleId body
  | _ => some false

variable (getenv : Bytes → Option Bytes)

/-- With the number of rules so far. -/
def validateOnForm (ruleCount : ℕ) : Value N → ℕ × Option Bool
  | .list (.symbol head :: items) =>
    if head = lit "lvc" then (ruleCount, some (validateLvcForm getenv items))
    else if isExportConfigHead head then (ruleCount, some (validateBridgeForm getenv items))
    else if head = lit "import" then (ruleCount, some (validateImportForm getenv items))
    else if head = lit "on" then (ruleCount + 1, validateOnRule env ruleCount items)
    else (ruleCount, some true)
  | _ => (ruleCount, some false)

/-- `pb_validate_file` from the rule count on: whether every form is accepted. -/
def validateForms : ℕ → List (Value N) → Option Bool
  | _, [] => some true
  | ruleCount, form :: forms => do
    let (ruleCount, ok) := validateOnForm env getenv ruleCount form
    let a ← ok
    let b ← validateForms ruleCount forms
    some (a && b)

def validateSource (forms : List (Value N)) : Option Bool := validateForms env getenv 0 forms

end Rules

end Monoblok.Patchbay
