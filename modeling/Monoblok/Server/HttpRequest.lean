import Monoblok.Proto.Parse

/-!
# HTTP requests

The parsing half of `http.c`: where the header ends, the request line and the
header fields, the subject in a path, and the credentials.
-/

namespace Monoblok.Http

def maxHeader : ℕ := 8 * 1024
def maxTarget : ℕ := 1024

/-! ## Slices -/

def isOws (c : UInt8) : Bool := c == space || c == tab

/-- Blanks at both ends go, and a `\r` at the right end. -/
def trimOws (s : Bytes) : Bytes :=
  ((s.dropWhile isOws).reverse.dropWhile fun c => isOws c || c == cr).reverse

def toLower (c : UInt8) : UInt8 := if 0x41 ≤ c ∧ c ≤ 0x5a then c + 32 else c

def startsCi (s l : Bytes) : Bool :=
  decide (l.length ≤ s.length) && (s.take l.length).map toLower == l.map toLower

def eqCi (s l : Bytes) : Bool := decide (s.length = l.length) && s.map toLower == l.map toLower

def mediaTypeIs (value mediaType : Bytes) : Bool :=
  let value := trimOws value
  startsCi value mediaType &&
    match value.drop mediaType.length with
    | [] => true
    | c :: _ => c == 0x3b || isOws c

def contentTypeAllowed (value : Bytes) : Bool :=
  mediaTypeIs value (lit "text/plain") || mediaTypeIs value (lit "application/json")

def parseUsizeSlice (s : Bytes) : Option ℕ := parseUsize (trimOws s)

/-! ## The header -/

/-- The position behind the first occurrence of a pattern. -/
def findAfter (pat : Bytes) : ℕ → Bytes → Option ℕ
  | _, [] => none
  | i, c :: cs => if pat.isPrefixOf (c :: cs) then some (i + pat.length) else findAfter pat (i + 1) cs

/-- `find_header_end`: an empty line anywhere, the one with `\r` preferred. -/
def findHeaderEnd (buf : Bytes) : Option ℕ :=
  match findAfter [cr, lf, cr, lf] 0 buf with
  | some n => some n
  | none => findAfter [lf, lf] 0 buf

/-- A line without its line end, and what follows it. -/
def nextLine (rest : Bytes) : Option (Bytes × Bytes) :=
  if rest.isEmpty then none
  else
    let line := rest.takeWhile (· != lf)
    let line' := if line.getLast? = some cr then line.dropLast else line
    some (line', rest.drop (line.length + 1))

def nextToken (rest : Bytes) : Option (Bytes × Bytes) :=
  let rest := trimOws rest
  if rest.isEmpty then none
  else some (rest.takeWhile (!isOws ·), rest.dropWhile (!isOws ·))

inductive Method where
  | get
  | post
  deriving DecidableEq, Repr

structure Request where
  method : Method
  target : Bytes
  authorization : Option Bytes
  contentType : Option Bytes
  contentLength : Option ℕ
  hasTransferEncoding : Bool
  deriving DecidableEq, Repr

def parseMethod (m : Bytes) : Option Method :=
  if m == lit "GET" then some .get else if m == lit "POST" then some .post else none

def slash : UInt8 := 0x2f
def colon : UInt8 := 0x3a

def targetOk (target : Bytes) : Bool :=
  !target.isEmpty && decide (target.length ≤ maxTarget) && target.head? == some slash &&
    target.all fun c => !(c == 0x3f || c == 0x23)

def parseRequestLine (line : Bytes) : Option Request := do
  let (method, rest) ← nextToken line
  let (target, rest) ← nextToken rest
  let (version, rest) ← nextToken rest
  if (nextToken rest).isSome then none
  else
    let method ← parseMethod method
    if version != lit "HTTP/1.1" && version != lit "HTTP/1.0" then none
    else if !targetOk target then none
    else some ⟨method, target, none, none, none, false⟩

/-- One header field; of a repeated field the last one counts, except that the
length may stand once only. -/
def parseField (req : Request) (line : Bytes) : Option Request :=
  if !line.contains colon then none
  else
    let name := trimOws (line.takeWhile (· != colon))
    let value := trimOws (line.drop ((line.takeWhile (· != colon)).length + 1))
    if name.isEmpty then none
    else if eqCi name (lit "authorization") then some { req with authorization := some value }
    else if eqCi name (lit "content-type") then some { req with contentType := some value }
    else if eqCi name (lit "content-length") then
      match req.contentLength, parseUsizeSlice value with
      | none, some n => some { req with contentLength := some n }
      | _, _ => none
    else if eqCi name (lit "transfer-encoding") then some { req with hasTransferEncoding := true }
    else some req

/-- Every line takes a byte at least, so the length of the header bounds the
rounds. -/
def parseFields : ℕ → Request → Bytes → Option Request
  | 0, req, _ => some req
  | fuel + 1, req, rest =>
    match nextLine rest with
    | none => some req
    | some (line, rest) =>
      if line.isEmpty then parseFields fuel req rest
      else
        match parseField req line with
        | none => none
        | some req => parseFields fuel req rest

def parseHeaders (header : Bytes) : Option Request :=
  match nextLine header with
  | none => none
  | some (line, rest) =>
    match parseRequestLine line with
    | none => none
    | some req => parseFields rest.length req rest

/-- There is memory for `k` more bytes behind the first `n`. -/
def hasRoom (ok : ℕ → Bool) : ℕ → ℕ → Bool
  | _, 0 => true
  | n, k + 1 => ok n && hasRoom ok (n + 1) k

/-! ## Paths -/

def hexValue (c : UInt8) : Option UInt8 :=
  if 0x30 ≤ c ∧ c ≤ 0x39 then some (c - 0x30)
  else if 0x61 ≤ c ∧ c ≤ 0x66 then some (c - 0x61 + 10)
  else if 0x41 ≤ c ∧ c ≤ 0x46 then some (c - 0x41 + 10)
  else none

/-- `append_decoded_path_byte`; `ok` answers the request for memory by the
length of the buffer. -/
def appendDecodedPathByte (ok : ℕ → Bool) (out : Bytes) (c : UInt8) : Option Bytes :=
  if c == 0 || c == slash || c == dot || decide (c ≤ 0x20) || c == 0x7f then none
  else if maxControlLine ≤ out.length then none
  else if ok out.length then some (out ++ [c]) else none

def decodePathLoop (ok : ℕ → Bool) : Bytes → Bool → Bytes → Option Bytes
  | out, tokenHasBytes, [] => if tokenHasBytes then some out else none
  | out, tokenHasBytes, c :: cs =>
    if c == slash then
      if !tokenHasBytes || decide (maxControlLine ≤ out.length) then none
      else if ok out.length then decodePathLoop ok (out ++ [dot]) false cs else none
    else if c == 0x25 then
      match cs with
      | h :: l :: cs =>
        match hexValue h, hexValue l with
        | some hi, some lo =>
          match appendDecodedPathByte ok out (hi <<< 4 ||| lo) with
          | some out => decodePathLoop ok out true cs
          | none => none
        | _, _ => none
      | _ => none
    else
      match appendDecodedPathByte ok out c with
      | some out => decodePathLoop ok out true cs
      | none => none

/-- The subject a path names below `pre`. -/
def decodeSubjectPath (ok : ℕ → Bool) (target pre : Bytes) (allowWildcards : Bool) : Option Bytes :=
  if target.length ≤ pre.length || target.take pre.length != pre then none
  else
    match decodePathLoop ok [] false (target.drop pre.length) with
    | none => none
    | some subject => if subjectValid subject allowWildcards then some subject else none

/-! ## Credentials -/

def base64Value (c : UInt8) : Option UInt32 :=
  if 0x41 ≤ c ∧ c ≤ 0x5a then some (c - 0x41).toUInt32
  else if 0x61 ≤ c ∧ c ≤ 0x7a then some ((c - 0x61).toUInt32 + 26)
  else if 0x30 ≤ c ∧ c ≤ 0x39 then some ((c - 0x30).toUInt32 + 52)
  else if c == 0x2b then some 62
  else if c == 0x2f then some 63
  else none

def base64Loop (ok : ℕ → Bool) : UInt32 → ℕ → Bool → Bytes → Bytes → Option Bytes
  | _, _, _, out, [] => some out
  | acc, bits, padded, out, c :: cs =>
    if c == 0x3d then base64Loop ok acc bits true out cs
    else
      match base64Value c with
      | none => none
      | some v =>
        if padded then none
        else
          let acc := ((acc <<< 6) ||| v) &&& 0xffffff
          let bits := bits + 6
          if 8 ≤ bits then
            let bits := bits - 8
            if !ok out.length then none
            else
              let out := out ++ [(acc >>> UInt32.ofNat bits).toUInt8]
              base64Loop ok (acc &&& ((1 <<< UInt32.ofNat bits) - 1)) bits padded out cs
          else base64Loop ok acc bits padded out cs

def base64Decode (ok : ℕ → Bool) (s : Bytes) : Option Bytes := base64Loop ok 0 0 false [] s

inductive AuthMode where
  | none
  | token
  | userPass
  deriving DecidableEq, Repr

structure AuthConfig where
  mode : AuthMode
  token : Option Bytes
  user : Option Bytes
  pass : Option Bytes
  deriving DecidableEq, Repr

def secretMatchesSlice (expected : Option Bytes) (got : Bytes) : Bool := expected == some got

def authTokenMatches (auth : AuthConfig) (token : Bytes) : Bool :=
  auth.mode == .token && secretMatchesSlice auth.token token

def authUserPassMatches (auth : AuthConfig) (user pass : Bytes) : Bool :=
  auth.mode == .userPass && secretMatchesSlice auth.user user && secretMatchesSlice auth.pass pass

def authBearer (auth : AuthConfig) (value : Bytes) : Bool :=
  startsCi value (lit "Bearer") &&
    let value := trimOws (value.drop 6)
    !value.isEmpty && authTokenMatches auth value

def authBasic (ok : ℕ → Bool) (auth : AuthConfig) (value : Bytes) : Bool :=
  startsCi value (lit "Basic") &&
    let value := trimOws (value.drop 5)
    !value.isEmpty &&
      match base64Decode ok value with
      | none => false
      | some decoded =>
        let user := decoded.takeWhile (· != colon)
        decoded.contains colon && authUserPassMatches auth user (decoded.drop (user.length + 1))

def requestAuthorized (ok : ℕ → Bool) (auth : AuthConfig) (req : Request) : Bool :=
  match auth.mode, req.authorization with
  | .none, _ => true
  | .token, some value => authBearer auth value
  | .userPass, some value => authBasic ok auth value
  | _, none => false

def authHeader (auth : AuthConfig) : Bytes :=
  match auth.mode with
  | .userPass => lit "WWW-Authenticate: Basic realm=\"monoblok\"\r\n"
  | .token => lit "WWW-Authenticate: Bearer\r\n"
  | .none => []

end Monoblok.Http
