import Monoblok.Lib.Tokens
import Monoblok.Patchbay.State

/-!
# Forms without state

The forms of `pb_form_numbers.c`, `pb_form_text.c` and `pb_form_json.c`. They
read their evaluated arguments and the bindings of the message. A form that
publishes says here what it wants to publish, in order; the publishing itself is
the evaluator's, and what it evaluates may change the subject that the next request
is made from.

`print!` writes to standard error, which nothing reads; here it returns its
value.
-/

namespace Monoblok.Patchbay

open Number

/-- The bindings of one evaluation: where its subject and its payload lie, and what
was last read there. -/
structure Bindings (N : Type) where
  alloc : EvalAlloc → Bool
  readJson : Bytes → Option (Json N)
  rewritten : Bytes → Bytes → Bytes
  /-- Where the subject and the payload of a message come from that is published. -/
  drawn : Bytes → Bytes → TextOrigin × TextOrigin
  subjectAt : Slice
  payloadAt : Slice
  ruleId : ℕ
  nowMs : UInt64
  wallMs : ℤ
  replaying : Bool
  subject : Bytes
  payload : Bytes

variable {N : Type} [Number N]

abbrev FormResult (N : Type) := Except EvalError (Value N)

/-- A message to publish, an error in its place, or nothing. -/
abbrev Request := Except EvalError (Option (Bytes × Bytes))

/-- A request that is made up when its turn has come. -/
abbrev LateRequest (N : Type) := Bindings N → Request

/-! ## Numbers, comparisons and the wall clock -/

structure Tm where
  year : ℤ
  mon : ℤ
  mday : ℤ
  hour : ℤ
  min : ℤ

/-- `gmtime_r` on the proleptic Gregorian calendar; years are counted from March
so that the leap day comes last. -/
def gmtime (sec : ℤ) : Tm :=
  let z := sec / 86400 + 719468
  let era := z / 146097
  let doe := z - era * 146097
  let yoe := (doe - doe / 1460 + doe / 36524 - doe / 146096) / 365
  let doy := doe - (365 * yoe + yoe / 4 - yoe / 100)
  let mp := (5 * doy + 2) / 153
  let mon := if mp < 10 then mp + 3 else mp - 9
  { year := yoe + era * 400 + (if mon ≤ 2 then 1 else 0)
    mon := mon
    mday := doy - (153 * mp + 2) / 5 + 1
    hour := sec % 86400 / 3600
    min := sec % 3600 / 60 }

/-- `%0*d` -/
def padded (width : ℕ) (n : ℤ) : Bytes :=
  let digits := lit (toString n.natAbs)
  if n < 0 then lit "-" ++ List.replicate (width - 1 - digits.length) 0x30 ++ digits
  else List.replicate (width - digits.length) 0x30 ++ digits

def tmDate (t : Tm) : Bytes :=
  padded 4 t.year ++ lit "-" ++ padded 2 t.mon ++ lit "-" ++ padded 2 t.mday

def tmHour (t : Tm) : Bytes := tmDate t ++ lit "T" ++ padded 2 t.hour

def tmMinute (t : Tm) : Bytes := tmHour t ++ padded 2 t.min

def callNow (ctx : Bindings N) : List (Value N) → FormResult N
  | [.keyword unit] =>
    let t := gmtime (ctx.wallMs.tdiv 1000)
    let text :=
      if unit = lit "date" then some (tmDate t)
      else if unit = lit "hour" then some (tmHour t)
      else if unit = lit "minute" then some (tmMinute t)
      else none
    match text with
    | none => .error .unknownSymbol
    | some text =>
      if 18 ≤ text.length then .error .type
      else if !ctx.alloc .arena then .error .oom
      else .ok (.string text)
  | _ => .error .arity

def callNot : List (Value N) → FormResult N
  | [v] => .ok (.bool !v.truthy)
  | _ => .error .arity

def callEq : List (Value N) → FormResult N
  | v :: w :: vs => .ok (.bool ((w :: vs).all (valueEq v)))
  | _ => .error .arity

def cmpChain (pass : N → N → Bool) : List (Value N) → FormResult N
  | v :: w :: vs =>
    match asNumber v, asNumber w with
    | some a, some b => if pass a b then cmpChain pass (w :: vs) else .ok (.bool false)
    | _, _ => .error .type
  | _ => .ok (.bool true)

def callCmp (pass : N → N → Bool) (args : List (Value N)) : FormResult N :=
  if args.length < 2 then .error .arity else cmpChain pass args

def foldNumbers (f : N → N → N) : N → List (Value N) → FormResult N
  | acc, [] => .ok (.number acc)
  | acc, v :: vs =>
    match asNumber v with
    | some x => foldNumbers f (f acc x) vs
    | none => .error .type

/-- `call_arith` and `call_minmax`; one argument alone is treated by `single`. -/
def callFold (f : N → N → N) (single : N → N) : List (Value N) → FormResult N
  | [] => .error .arity
  | v :: vs =>
    match asNumber v with
    | none => .error .type
    | some x => if vs.isEmpty then .ok (.number (single x)) else foldNumbers f x vs

def callRound : List (Value N) → FormResult N
  | [p, v] =>
    match asNumber p, asNumber v with
    | some places, some x =>
      if flt places (ofNat 0) || !feq (ffloor places) places then .error .type
      else
        let factor := fpow (ofNat 10) places
        .ok (.number (fdiv (fround (fmul x factor)) factor))
    | _, _ => .error .type
  | _ => .error .arity

def callQuantize : List (Value N) → FormResult N
  | [s, v] =>
    match asNumber s, asNumber v with
    | some step, some x =>
      if fle step (ofNat 0) then .error .type
      else .ok (.number (fmul (fround (fdiv x step)) step))
    | _, _ => .error .type
  | _ => .error .arity

def callClamp : List (Value N) → FormResult N
  | [l, h, v] =>
    match asNumber l, asNumber h, asNumber v with
    | some lo, some hi, some x =>
      let x := if flt x lo then lo else x
      .ok (.number (if flt hi x then hi else x))
    | _, _, _ => .error .type
  | _ => .error .arity

def callNumber (f : N → N) : List (Value N) → FormResult N
  | [v] =>
    match asNumber v with
    | some x => .ok (.number (f x))
    | none => .error .type
  | _ => .error .arity

def sign (x : N) : N :=
  if flt (ofNat 0) x then ofNat 1 else if flt x (ofNat 0) then fneg (ofNat 1) else ofNat 0

/-! ## Text and subjects -/

def callStrConcat (ctx : Bindings N) (args : List (Value N)) : FormResult N :=
  match args.mapM Value.asString with
  | none => .error .type
  | some parts => if ctx.alloc .arena then .ok (.string parts.flatten) else .error .oom

def callContains : List (Value N) → FormResult N
  | [.vector items, v] => .ok (.bool (items.any (valueEq · v)))
  | [h, n] =>
    match h.asString, n.asString with
    | some hay, some needle => .ok (.bool (hay.tails.any (needle.isPrefixOf ·)))
    | _, _ => .error .type
  | _ => .error .arity

/-- `starts-with?` and `ends-with?`; `cut` takes the end to compare. -/
def callAffix (cut : Bytes → ℕ → Bytes) : List (Value N) → FormResult N
  | [v, a] =>
    match v.asString, a.asString with
    | some s, some affix =>
      .ok (.bool (decide (affix.length ≤ s.length) && cut s affix.length == affix))
    | _, _ => .error .type
  | _ => .error .arity

def takeEnd (s : Bytes) (n : ℕ) : Bytes := s.drop (s.length - n)

def subjectJoin (ctx : Bindings N) (suffix : Bytes) : Bytes := ctx.subject ++ dot :: suffix

def callSubjectAppend (ctx : Bindings N) : List (Value N) → FormResult N
  | [v] =>
    match v.asString with
    | none => .error .type
    | some suffix =>
      if ctx.alloc .arena then .ok (.string (subjectJoin ctx suffix)) else .error .oom
  | _ => .error .arity

def subjectTokenAt (subject : Bytes) (n : N) : Value N :=
  match (subject.splitOn dot)[(toU64 n).toNat]? with
  | some tok => .string tok
  | none => .nil

def callSubjectToken (ctx : Bindings N) : List (Value N) → FormResult N
  | .number n :: rest =>
    if flt n (ofNat 0) || !feq (ffloor n) n then .error .arity
    else
      match rest with
      | [] => .ok (subjectTokenAt ctx.subject n)
      | [v] =>
        match v.asString with
        | some subject => .ok (subjectTokenAt subject n)
        | none => .error .type
      | _ => .error .arity
  | _ => .error .arity

def joinDots : List Bytes → Bytes
  | [] => []
  | [p] => p
  | p :: ps => p ++ dot :: joinDots ps

def callSubjectWith (ctx : Bindings N) (args : List (Value N)) : FormResult N :=
  let toks := match args with
    | [.vector items] => items
    | _ => args
  if toks.isEmpty then .error .arity
  else if !ctx.alloc .arena then .error .oom
  else
    match toks.mapM (fun v => (coercePayload ctx.alloc v).filter fun p => !p.isEmpty) with
    | none => .error .type
    | some parts =>
      if publishSubjectValid (joinDots parts) then .ok (.string (joinDots parts))
      else .error .invalidSubject

def callPrint : List (Value N) → FormResult N
  | [v] => .ok v
  | [label, v] => if label.asString.isSome then .ok v else .error .type
  | _ => .error .arity

/-! ## Publishing -/

def parseDecimalPlaces (v : Value N) : Option ℕ :=
  match asNumber v with
  | none => none
  | some places =>
    if flt places (ofNat 0) || flt (ofNat 15) places || !feq (ffloor places) places then none
    else some (toU64 places).toNat

/-- The request of `publish!`, once its value and decimal places are known. -/
def publishRequest (ctx : Bindings N) (subject value : Value N) (places : Option ℕ) : Request :=
  if value.isNil then .ok none
  else
    match subject.asString with
    | none => .error .type
    | some subject =>
      let payload := match places, value with
        | none, _ => coercePayload ctx.alloc value
        | some p, .number n => if ctx.alloc .arena then some (fmtF p n) else none
        | some _, _ => none
      match payload with
      | none => .error .type
      | some payload =>
        if publishSubjectValid subject then .ok (some (subject, payload))
        else .error .invalidSubject

def callPublish (ctx : Bindings N) : List (Value N) → Request
  | [s, v] => publishRequest ctx s v none
  | [s, a, b, c] =>
    if a.keywordEq "dp" then
      match parseDecimalPlaces b with
      | none => .error .type
      | some p => publishRequest ctx s c (some p)
    else if b.keywordEq "dp" then
      match parseDecimalPlaces c with
      | none => .error .type
      | some p => publishRequest ctx s a (some p)
    else .error .arity
  | _ => .error .arity

/-! ## JSON -/

/-- The next token of a path and what follows it. -/
def pathToken (path : Bytes) : Option (Bytes × Bytes) :=
  let tok := path.takeWhile (· != dot)
  if tok.isEmpty then none else some (tok, (path.drop tok.length).drop 1)

/-- A decimal index; `size_t` wraps. -/
def tokenIndex (s : Bytes) : Option ℕ :=
  if s.isEmpty || s.any (fun b => b < 0x30 || 0x39 < b) then none
  else some (s.foldl (fun n b => (n * 10 + (b.toNat - 0x30)) % 2 ^ 64) 0)

def jsonChild (cur : Json N) (tok : Bytes) : Option (Json N) :=
  match cur with
  | .obj members => (members.find? fun m => m.1 == tok).map Prod.snd
  | .arr items => (tokenIndex tok).bind fun i => items[i]?
  | _ => none

def jsonLookupFrom : ℕ → Json N → Bytes → Option (Json N)
  | 0, _, _ => none
  | fuel + 1, cur, path =>
    match pathToken path with
    | none => if path.isEmpty then some cur else none
    | some (tok, rest) => (jsonChild cur tok).bind fun next => jsonLookupFrom fuel next rest

/-- Every round reads at least one byte of the path. -/
def jsonLookup (root : Json N) (path : Bytes) : Option (Json N) :=
  jsonLookupFrom (path.length + 1) root path

def jsonPathValid (path : Bytes) : Bool :=
  let toks := path.splitOn dot
  toks.all (fun t => !t.isEmpty) && decide (toks.length ≤ 4)

def jsonScalarValue (ctx : Bindings N) : Option (Json N) → FormResult N
  | some (.bool b) => .ok (.bool b)
  | some (.num n) => .ok (.number n)
  | some (.str s) => if ctx.alloc .arena then .ok (.string s) else .error .oom
  | _ => .ok .nil

def callJsonGet (ctx : Bindings N) : List (Value N) → FormResult N
  | [p, d] =>
    match p.asString, d.asString with
    | some path, some payload =>
      if !jsonPathValid path then .error .type
      else
        match ctx.readJson payload with
        | none => .ok .nil
        | some root => jsonScalarValue ctx (jsonLookup root path)
    | _, _ => .error .type
  | _ => .error .arity

def pathLeaf (path : Bytes) : Bytes := (path.splitOn dot).getLast?.getD []

/-- An explicit `[path suffix]` pair. -/
def demuxOverrideSpec : Value N → Option (Bytes × Bytes)
  | .vector [p, s] => if p.isText && s.isText then some (p.text, s.text) else none
  | _ => none

def demuxSpec (spec : Value N) (leaf : Bool) : Option (Bytes × Bytes) :=
  let pair :=
    if spec.isText then some (spec.text, if leaf then pathLeaf spec.text else spec.text)
    else demuxOverrideSpec spec
  pair.filter fun x => jsonPathValid x.1 && !x.2.isEmpty

def publishJsonDemuxOne (ctx : Bindings N) (root : Json N) (leaf : Bool) (spec : Value N) :
    Request :=
  match demuxSpec spec leaf with
  | none => .error .type
  | some (path, suffix) =>
    match jsonScalarValue ctx (jsonLookup root path) with
    | .error e => .error e
    | .ok .nil => .ok none
    | .ok v =>
      if !ctx.alloc .arena then .error .oom
      else if !publishSubjectValid (subjectJoin ctx suffix) then .error .invalidSubject
      else
        match coercePayload ctx.alloc v with
        | none => .error .type
        | some payload => .ok (some (subjectJoin ctx suffix, payload))

/-- The specs of `json-demux!`: one vector of them, or the arguments themselves. -/
def demuxSpecs : List (Value N) → List (Value N)
  | [.vector items] => if (demuxOverrideSpec (.vector items)).isSome then [.vector items] else items
  | specs => specs

def callJsonDemux (ctx : Bindings N) (args : List (Value N)) : List (LateRequest N) :=
  if args.length < 2 then [fun _ => .error .arity]
  else
    match args.getLast?.bind Value.asString with
    | none => [fun _ => .error .type]
    | some payload =>
      let body := args.dropLast
      let leaf := (body.head?.map Value.isKeyword).getD false
      if leaf && !((body.head?.map fun v => v.text == lit "leaf").getD false) then
        [fun _ => .error .unknownSymbol]
      else
        let specs := if leaf then body.tail else body
        if specs.isEmpty then [fun _ => .error .arity]
        else
          match ctx.readJson payload with
          | none => []
          | some root => (demuxSpecs specs).map fun spec ctx => publishJsonDemuxOne ctx root leaf spec

end Monoblok.Patchbay
