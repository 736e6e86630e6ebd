import Monoblok.Patchbay.Program

/-!
# Configuration values

What the loader of `pb_program.c` reads from the value of an option: strings,
from the source or from the environment, lists of them, switches and whole
numbers. A form that does not fit ends the load; what is printed about it is left
out. Memory does not run out.
-/

namespace Monoblok.Patchbay

open Number

/-- What the loader asks of a `double` besides: the casts to and from `int64_t`. -/
class ConfigNumber (N : Type) extends Number N where
  toI64 : N → ℤ
  ofI64 : ℤ → N

open ConfigNumber

variable {N : Type}

/-- The bytes of a C string. -/
def cString (s : Bytes) : Bytes := s.takeWhile (· != 0)

/-! ## Strings -/

/-- The second item of `(env NAME)`. -/
def valueEnvForm : Value N → Option (Value N)
  | .list [.symbol head, v] => if head = lit "env" then some v else none
  | _ => none

def valueIsEnvForm (v : Value N) : Bool := (valueEnvForm v).isSome

/-- The name in an `(env "NAME")`. -/
def envName (v : Value N) : Option Bytes :=
  match valueEnvForm v with
  | some (.string name) => if name.isEmpty then none else some name
  | _ => none

/-- A variable that is not set reads as the empty string. -/
def loadConfigString (getenv : Bytes → Option Bytes) (v : Value N) : Option Bytes :=
  let text := match v with
    | .string text => some text
    | _ => (envName v).map fun name => cString ((getenv (cString name)).getD [])
  text.filter fun t => !t.isEmpty

def loadRemoteList (getenv : Bytes → Option Bytes) (out : List Bytes) (v : Value N) :
    Option (List Bytes) :=
  match v with
  | .string _ => (loadConfigString getenv v).map fun s => out ++ [s]
  | .vector items =>
    if items.isEmpty then none else (items.mapM (loadConfigString getenv)).map (out ++ ·)
  | .list items =>
    if valueIsEnvForm v then (loadConfigString getenv v).map fun s => out ++ [s]
    else if items.isEmpty then none
    else (items.mapM (loadConfigString getenv)).map (out ++ ·)
  | _ => none

/-! ## Switches and numbers -/

def loadRemoteBool : Value N → Option Bool
  | .bool b => some b
  | _ => none

section Numbers

variable [ConfigNumber N]

def loadRemoteI64 : Value N → Option ℤ
  | .number x => if feq (ofI64 (toI64 x)) x then some (toI64 x) else none
  | _ => none

def loadRemoteInt (v : Value N) : Option ℤ :=
  (loadRemoteI64 v).filter fun n => decide (-2 ^ 31 ≤ n ∧ n ≤ 2 ^ 31 - 1)

def loadRemoteSize (v : Value N) : Option ℕ :=
  ((loadRemoteI64 v).filter fun n => decide (0 < n)).map Int.toNat

end Numbers

/-! ## Options -/

/-- The options that exports and imports have in common. -/
structure RemoteConfig where
  servers : List Bytes
  name : Option Bytes
  creds : Option Bytes
  user : Option Bytes
  password : Option Bytes
  token : Option Bytes
  tls : Bool
  tlsCa : Option Bytes
  tlsCert : Option Bytes
  tlsKey : Option Bytes
  tlsSkipVerify : Bool
  originHeader : Bool
  connectTimeoutMs : Option ℤ
  pingIntervalMs : Option ℤ
  reconnectWaitMs : Option ℤ
  maxReconnect : Option ℤ
  deriving Repr

structure BridgeConfig extends RemoteConfig where
  exports : List Bytes
  replayHeader : Bool
  deriving Repr

structure ImportConfig extends RemoteConfig where
  subjects : List Bytes
  maxPending : Option ℕ
  deriving Repr

structure ImportStreamConfig where
  source : ImportConfig
  stream : Option Bytes
  consumer : Option Bytes
  catchUp : Bool
  deriving Repr

structure ImportsConfig where
  cores : List ImportConfig
  streams : List ImportStreamConfig
  deriving Repr

def RemoteConfig.zero : RemoteConfig :=
  ⟨[], none, none, none, none, none, false, none, none, none, false, false, none, none, none, none⟩

def BridgeConfig.zero : BridgeConfig := { RemoteConfig.zero with exports := [], replayHeader := false }

def ImportConfig.zero : ImportConfig := { RemoteConfig.zero with subjects := [], maxPending := none }

def ImportStreamConfig.zero : ImportStreamConfig := ⟨.zero, none, none, true⟩

/-- What comes of one option: its key is unknown, its value does not fit, or it is
in the configuration. -/
inductive OptionResult (α : Type) where
  | unknown
  | fail
  | ok (config : α)

namespace OptionResult

variable {α β : Type}

def ofOption : Option α → OptionResult α
  | none => fail
  | some a => ok a

def map (f : α → β) : OptionResult α → OptionResult β
  | unknown => unknown
  | fail => fail
  | ok a => ok (f a)

/-- The caller's own options when the key is unknown. -/
def orElse (r : OptionResult α) (other : OptionResult α) : OptionResult α :=
  match r with
  | unknown => other
  | r => r

def toOption : OptionResult α → Option α
  | ok a => some a
  | _ => none

end OptionResult

section Options

variable [ConfigNumber N] (getenv : Bytes → Option Bytes)

open OptionResult

/-- The options of `load_bridge_form` and `load_import_common_option` that are the
same in both. -/
def loadRemoteOption (c : RemoteConfig) (key : Bytes) (v : Value N) : OptionResult RemoteConfig :=
  if key = lit "servers" then
    ofOption ((loadRemoteList getenv c.servers v).map fun x => { c with servers := x })
  else if key = lit "name" then
    ofOption ((loadConfigString getenv v).map fun x => { c with name := some x })
  else if key = lit "creds" then
    ofOption ((loadConfigString getenv v).map fun x => { c with creds := some x })
  else if key = lit "user" then
    ofOption ((loadConfigString getenv v).map fun x => { c with user := some x })
  else if key = lit "password" then
    ofOption ((loadConfigString getenv v).map fun x => { c with password := some x })
  else if key = lit "token" then
    ofOption ((loadConfigString getenv v).map fun x => { c with token := some x })
  else if key = lit "tls" then
    ofOption ((loadRemoteBool v).map fun x => { c with tls := x })
  else if key = lit "tls-ca" then
    ofOption ((loadConfigString getenv v).map fun x => { c with tlsCa := some x })
  else if key = lit "tls-cert" then
    ofOption ((loadConfigString getenv v).map fun x => { c with tlsCert := some x })
  else if key = lit "tls-key" then
    ofOption ((loadConfigString getenv v).map fun x => { c with tlsKey := some x })
  else if key = lit "tls-skip-verify" then
    ofOption ((loadRemoteBool v).map fun x => { c with tlsSkipVerify := x })
  else if key = lit "origin-header" then
    ofOption ((loadRemoteBool v).map fun x => { c with originHeader := x })
  else if key = lit "connect-timeout-ms" then
    ofOption ((loadRemoteI64 v).map fun x => { c with connectTimeoutMs := some x })
  else if key = lit "ping-interval-ms" then
    ofOption ((loadRemoteI64 v).map fun x => { c with pingIntervalMs := some x })
  else if key = lit "reconnect-wait-ms" then
    ofOption ((loadRemoteI64 v).map fun x => { c with reconnectWaitMs := some x })
  else if key = lit "max-reconnect" then
    ofOption ((loadRemoteInt v).map fun x => { c with maxReconnect := some x })
  else unknown

def loadBridgeOption (c : BridgeConfig) (key : Bytes) (v : Value N) : OptionResult BridgeConfig :=
  if key = lit "export" then
    ofOption ((loadRemoteList getenv c.exports v).map fun x => { c with exports := x })
  else if key = lit "replay-header" then
    ofOption ((loadRemoteBool v).map fun x => { c with replayHeader := x })
  else (loadRemoteOption getenv c.toRemoteConfig key v).map fun x => { c with toRemoteConfig := x }

def loadImportCommonOption (c : ImportConfig) (key : Bytes) (v : Value N) :
    OptionResult ImportConfig :=
  if key = lit "subject" ∨ key = lit "subjects" then
    ofOption ((loadRemoteList getenv c.subjects v).map fun x => { c with subjects := x })
  else if key = lit "max-pending" then
    ofOption ((loadRemoteSize v).map fun x => { c with maxPending := some x })
  else (loadRemoteOption getenv c.toRemoteConfig key v).map fun x => { c with toRemoteConfig := x }

def loadImportStreamOption (c : ImportStreamConfig) (key : Bytes) (v : Value N) :
    OptionResult ImportStreamConfig :=
  ((loadImportCommonOption getenv c.source key v).map fun x => { c with source := x }).orElse <|
    if key = lit "stream" then
      ofOption ((loadConfigString getenv v).map fun x => { c with stream := some x })
    else if key = lit "consumer" then
      ofOption ((loadConfigString getenv v).map fun x => { c with consumer := some x })
    else if key = lit "catch-up" then
      ofOption ((loadRemoteBool v).map fun x => { c with catchUp := x })
    else unknown

end Options

/-- The loop over keyword and value pairs; an unknown key ends the load. -/
def loadOptions {α : Type} (option : α → Bytes → Value N → OptionResult α) :
    α → List (Value N) → Option α
  | c, [] => some c
  | c, .keyword key :: v :: rest => (option c key v).toOption.bind fun c => loadOptions option c rest
  | _, _ => none

end Monoblok.Patchbay
