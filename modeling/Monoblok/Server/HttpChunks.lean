import Monoblok.Server.HttpRuns

/-!
# Requests in chunks

What the server does first with a request that arrives in any number of reads. The
header ends where `find_header_end` says, and that answer changes when the pattern
it prefers comes after the other one.
-/

namespace Monoblok.Http

/-! ## Patterns -/

section Patterns

variable {pat p q : Bytes} {i n : ℕ}

theorem findAfter_bounds (h : findAfter pat i p = some n) :
    i + pat.length ≤ n ∧ n ≤ i + p.length := by
  induction p generalizing i with
  | nil => cases h
  | cons c cs ih =>
    unfold findAfter at h
    split_ifs at h with hpat
    · cases h
      have hle := (List.isPrefixOf_iff_prefix.mp hpat).length_le
      omega
    · obtain ⟨hlow, hhigh⟩ := ih h
      rw [List.length_cons]
      omega

theorem findAfter_append (h : findAfter pat i p = some n) : findAfter pat i (p ++ q) = some n := by
  induction p generalizing i with
  | nil => cases h
  | cons c cs ih =>
    unfold findAfter at h
    rw [List.cons_append]
    unfold findAfter
    split_ifs at h with hpat
    · have hmore : pat.isPrefixOf (c :: (cs ++ q)) = true := by
        apply List.isPrefixOf_iff_prefix.mpr
        exact (List.isPrefixOf_iff_prefix.mp hpat).trans (List.prefix_append (c :: cs) q)
      rw [if_pos hmore]
      exact h
    · have hlow := (findAfter_bounds h).1
      by_cases hmore : pat.isPrefixOf (c :: (cs ++ q)) = true
      · -- the pattern reaches into what is appended, so that it ends later than the one found
        exfalso
        apply hpat
        apply List.isPrefixOf_iff_prefix.mpr
        have hhigh := (findAfter_bounds h).2
        refine List.prefix_of_prefix_length_le (List.isPrefixOf_iff_prefix.mp hmore)
          (List.prefix_append (c :: cs) q) ?_
        rw [List.length_cons]
        omega
      · rw [if_neg hmore]
        exact ih h

/-- What is found before the end is found without the rest. -/
theorem findAfter_of_append (hpat : pat ≠ []) (h : findAfter pat i (p ++ q) = some n)
    (hn : n ≤ i + p.length) : findAfter pat i p = some n := by
  induction p generalizing i with
  | nil =>
    have hlow := (findAfter_bounds h).1
    have hpos := List.length_pos_of_ne_nil hpat
    rw [List.length_nil] at hn
    omega
  | cons c cs ih =>
    rw [List.cons_append] at h
    unfold findAfter at h ⊢
    split_ifs at h with hmore
    · have hle : pat.length ≤ (c :: cs).length := by
        cases h
        omega
      have hhere : pat.isPrefixOf (c :: cs) = true :=
        List.isPrefixOf_iff_prefix.mpr (List.prefix_of_prefix_length_le
          (List.isPrefixOf_iff_prefix.mp hmore) (List.prefix_append (c :: cs) q) hle)
      rw [if_pos hhere]
      exact h
    · have hhere : ¬ pat.isPrefixOf (c :: cs) = true := by
        intro hhere
        apply hmore
        apply List.isPrefixOf_iff_prefix.mpr
        exact (List.isPrefixOf_iff_prefix.mp hhere).trans (List.prefix_append (c :: cs) q)
      rw [if_neg hhere]
      apply ih h
      rw [List.length_cons] at hn
      omega

end Patterns

/-! ## The end of the header -/

def crlfEnd (r : Bytes) : Option ℕ := findAfter [cr, lf, cr, lf] 0 r

def lfEnd (r : Bytes) : Option ℕ := findAfter [lf, lf] 0 r

/-- No empty line with `\r` follows an empty line without. -/
def CrlfFirst (r : Bytes) : Prop := ∀ i j, lfEnd r = some i → crlfEnd r = some j → j ≤ i

/-- Once the end of the header has been found it stays. -/
def HeaderEndStable (r : Bytes) : Prop :=
  ∀ p q, p <+: q → q <+: r → ∀ n, findHeaderEnd p = some n → findHeaderEnd q = some n

theorem findHeaderEnd_eq_some_iff {r : Bytes} {n : ℕ} :
    findHeaderEnd r = some n ↔ crlfEnd r = some n ∨ crlfEnd r = none ∧ lfEnd r = some n := by
  unfold findHeaderEnd crlfEnd lfEnd
  cases findAfter [cr, lf, cr, lf] 0 r with
  | some m => simp
  | none => simp

theorem CrlfFirst.of_prefix {q r : Bytes} (h : CrlfFirst r) (hq : q <+: r) : CrlfFirst q := by
  obtain ⟨s, rfl⟩ := hq
  intro i j hi hj
  exact h i j (findAfter_append hi) (findAfter_append hj)

theorem CrlfFirst.stable {r : Bytes} (h : CrlfFirst r) : HeaderEndStable r := by
  rintro p q ⟨s, rfl⟩ hq n hn
  have hq := h.of_prefix hq
  rcases findHeaderEnd_eq_some_iff.mp hn with hcrlf | ⟨hnone, hlf⟩
  · exact findHeaderEnd_eq_some_iff.mpr (.inl (findAfter_append hcrlf))
  · apply findHeaderEnd_eq_some_iff.mpr
    have hlf' : lfEnd (p ++ s) = some n := findAfter_append hlf
    cases hcrlf : crlfEnd (p ++ s) with
    | none => exact .inr ⟨rfl, hlf'⟩
    | some j =>
      exfalso
      have hj := hq n j hlf' hcrlf
      have hle := (findAfter_bounds hlf).2
      have hearly : crlfEnd p = some j := findAfter_of_append (by decide) hcrlf (by omega)
      rw [hnone] at hearly
      cases hearly

/-- The first byte after the earlier empty line is where the answer has changed. -/
theorem crlfFirst_of_stable {r : Bytes} (h : HeaderEndStable r) : CrlfFirst r := by
  intro i j hi hj
  by_contra hlate
  have hbounds := findAfter_bounds hi
  have hsplit : r.take i ++ r.drop i = r := List.take_append_drop i r
  have hlength : (r.take i).length = i := by
    rw [List.length_take]
    omega
  have hlf : lfEnd (r.take i) = some i := by
    apply findAfter_of_append (q := r.drop i) (by decide)
    · rw [hsplit]
      exact hi
    · omega
  have hnone : crlfEnd (r.take i) = none := by
    cases hcrlf : crlfEnd (r.take i) with
    | none => rfl
    | some k =>
      have hk := (findAfter_bounds hcrlf).2
      have hsame : crlfEnd r = some k := by
        rw [← hsplit]
        exact findAfter_append hcrlf
      rw [hj] at hsame
      cases hsame
      omega
  have hfound : findHeaderEnd (r.take i) = some i :=
    findHeaderEnd_eq_some_iff.mpr (.inr ⟨hnone, hlf⟩)
  have hend := h (r.take i) r (List.take_prefix i r) List.prefix_rfl i hfound
  have hpreferred : findHeaderEnd r = some j := findHeaderEnd_eq_some_iff.mpr (.inl hj)
  rw [hend] at hpreferred
  cases hpreferred
  exact hlate le_rfl

theorem headerEndStable_iff {r : Bytes} : HeaderEndStable r ↔ CrlfFirst r :=
  ⟨crlfFirst_of_stable, CrlfFirst.stable⟩

/-- An end that lies within what has arrived has been found. -/
theorem findHeaderEnd_isSome_of_le {p q : Bytes} {n : ℕ} (h : findHeaderEnd (p ++ q) = some n)
    (hn : n ≤ p.length) : (findHeaderEnd p).isSome = true := by
  have hpos : ∀ {pat : Bytes}, pat ≠ [] → findAfter pat 0 (p ++ q) = some n →
      findAfter pat 0 p = some n := by
    intro pat hpat hfind
    apply findAfter_of_append hpat hfind
    omega
  rcases findHeaderEnd_eq_some_iff.mp h with hcrlf | ⟨-, hlf⟩
  · rw [findHeaderEnd_eq_some_iff.mpr (.inl (hpos (by decide) hcrlf))]
    rfl
  · have hlf' : lfEnd p = some n := hpos (by decide) hlf
    cases hcrlf : crlfEnd p with
    | none =>
      rw [findHeaderEnd_eq_some_iff.mpr (.inr ⟨hcrlf, hlf'⟩)]
      rfl
    | some j =>
      rw [findHeaderEnd_eq_some_iff.mpr (.inl hcrlf)]
      rfl

/-! ## Actions -/

/-- What the server does with a request. -/
inductive Action where
  | wait
  | respond (r : Response)
  | publish (subject body : Bytes)
  | subscribe (subject : Bytes)
  deriving DecidableEq, Repr

section Actions

variable (cfg : Config) (router : Router)

def latestAction (req : Request) : Action :=
  match decodeSubjectPath (fun _ => true) req.target (lit "/latest/") false with
  | none => .respond (badRequest "invalid latest path\n")
  | some subject =>
    if subjectHasLvcPrefix subject then .respond (badRequest "use the unprefixed subject\n")
    else if !cfg.lvcEnabled then .respond lvcDisabled
    else
      match lvcLatest router subject with
      | none => .respond ⟨404, lit "Not Found", [], lit "not cached\n"⟩
      | some payload => .respond ⟨200, lit "OK", lit "Cache-Control: no-cache\r\n", payload⟩

def getAction (req : Request) : Action :=
  if req.contentLength.getD 0 ≠ 0 then .respond (badRequest "GET body is not supported\n")
  else if !requestAuthorized (fun _ => true) cfg.auth req then .respond (unauthorized cfg)
  else if sliceHasPrefix req.target (lit "/latest/") then latestAction cfg router req
  else if !sliceHasPrefix req.target (lit "/sub/") then
    .respond (badRequest "invalid GET path\n")
  else
    match decodeSubjectPath (fun _ => true) req.target (lit "/sub/") true with
    | none => .respond (badRequest "invalid subscription path\n")
    | some subject =>
      if subjectHasLvcPrefix subject && !cfg.lvcEnabled then .respond lvcDisabled
      else .subscribe subject

def postAction (req : Request) (body : Bytes) : Action :=
  if !requestAuthorized (fun _ => true) cfg.auth req then .respond (unauthorized cfg)
  else if !(req.contentType.map contentTypeAllowed).getD false then
    .respond ⟨415, lit "Unsupported Media Type", [], lit "use text/plain or application/json\n"⟩
  else
    match decodeSubjectPath (fun _ => true) req.target (lit "/pub/") false with
    | none => .respond (badRequest "invalid publish path\n")
    | some subject =>
      if sliceHasNul body then .respond (badRequest "binary payloads are not supported\n")
      else .publish subject body

/-- What is done with a header and the bytes after it. -/
def headerAction (header rest : Bytes) : Action :=
  match parseHeaders header with
  | none => .respond (badRequest "bad request\n")
  | some req =>
    if req.hasTransferEncoding then
      .respond (badRequest "transfer encoding is not supported\n")
    else
      match req.method, req.contentLength with
      | .get, _ => getAction cfg router req
      | .post, none =>
        .respond ⟨411, lit "Length Required", [], lit "Content-Length is required\n"⟩
      | .post, some n =>
        if maxPayload < n then
          .respond ⟨413, lit "Payload Too Large", [], lit "payload too large\n"⟩
        else if rest.length < n then .wait
        else postAction cfg req (rest.take n)

/-- What `process_request` decides, with memory, from the input so far. -/
def requestAction (rx : Bytes) : Action :=
  match findHeaderEnd rx with
  | none => if maxHeader < rx.length then .respond headersTooLarge else .wait
  | some headerEnd =>
    if maxHeader < headerEnd then .respond headersTooLarge
    else headerAction cfg router (rx.take headerEnd) (rx.drop headerEnd)

end Actions

/-- What comes of the decision. -/
def perform (cfg : Config) (env : Env) (S : Server) (c : ConnId) (h : HttpConn) : Action → Server
  | .wait => S.setHttp c h
  | .respond r => respondAndClose env S c h r
  | .publish subject body =>
    let S := S.setHttp c { h with published := h.published + 1 }
    let (S, status) := clientPublish cfg env S ⟨subject, body, []⟩
    respondAndClose env S c (reload S c h) (publishResponse status)
  | .subscribe subject => openStream env S c h subject

section Performed

variable {env : Env} (hmem : ∀ m, env.mem m = true) (cfg : Config) (S : Server) (c : ConnId)
  (h : HttpConn)

include hmem

theorem subjectOf_eq (req : Request) (pre : Bytes) (allowWildcards : Bool) :
    subjectOf env req pre allowWildcards =
      decodeSubjectPath (fun _ => true) req.target pre allowWildcards := by
  have hok : (fun i => env.mem (.path i)) = fun _ => true := funext fun i => hmem _
  rw [subjectOf, hok]

theorem authorized_eq (req : Request) :
    authorized cfg env req = requestAuthorized (fun _ => true) cfg.auth req := by
  have hok : (fun i => env.mem (.base64 i)) = fun _ => true := funext fun i => hmem _
  rw [authorized, hok]

theorem handleLatest_eq_perform (req : Request) :
    handleLatest cfg env S c h req =
      perform cfg env S c h (latestAction cfg S.world.router req) := by
  unfold handleLatest latestAction
  rw [subjectOf_eq hmem]
  cases decodeSubjectPath (fun _ => true) req.target (lit "/latest/") false with
  | none => rfl
  | some subject =>
    dsimp only
    split_ifs
    · rfl
    · rfl
    · cases lvcLatest S.world.router subject with
      | none => rfl
      | some payload => rfl

theorem handleGet_eq_perform (req : Request) :
    handleGet cfg env S c h req = perform cfg env S c h (getAction cfg S.world.router req) := by
  unfold handleGet getAction
  rw [authorized_eq hmem, subjectOf_eq hmem]
  split_ifs
  · rfl
  · rfl
  · exact handleLatest_eq_perform hmem cfg S c h req
  · rfl
  · cases decodeSubjectPath (fun _ => true) req.target (lit "/sub/") true with
    | none => rfl
    | some subject =>
      dsimp only
      split_ifs
      · rfl
      · rfl

theorem handlePost_eq_perform (req : Request) (body : Bytes) :
    handlePost cfg env S c h req body = perform cfg env S c h (postAction cfg req body) := by
  unfold handlePost postAction
  rw [authorized_eq hmem, subjectOf_eq hmem]
  cases decodeSubjectPath (fun _ => true) req.target (lit "/pub/") false with
  | none =>
    dsimp only
    split_ifs
    · rfl
    · rfl
    · rfl
  | some subject =>
    dsimp only
    split_ifs
    · rfl
    · rfl
    · rfl
    · rfl

theorem processRequest_eq_perform :
    processRequest cfg env S c h =
      perform cfg env S c h (requestAction cfg S.world.router h.rx) := by
  unfold processRequest requestAction
  cases findHeaderEnd h.rx with
  | none =>
    dsimp only
    split_ifs
    · rfl
    · rfl
  | some headerEnd =>
    dsimp only
    split_ifs
    · rfl
    · unfold headerAction
      cases parseHeaders (h.rx.take headerEnd) with
      | none => rfl
      | some req =>
        dsimp only
        split_ifs
        · rfl
        · cases hmethod : req.method with
          | get =>
            exact handleGet_eq_perform hmem cfg S c h req
          | post =>
            cases hlength : req.contentLength with
            | none => rfl
            | some n =>
              dsimp only
              rw [List.length_drop]
              split_ifs
              · rfl
              · rfl
              · exact handlePost_eq_perform hmem cfg S c h req _

end Performed

/-! ## Reads -/

section Stable

variable {cfg : Config} {router : Router}

theorem headerAction_append (header rest more : Bytes) :
    headerAction cfg router header rest = .wait ∨
      headerAction cfg router header (rest ++ more) = headerAction cfg router header rest := by
  unfold headerAction
  cases parseHeaders header with
  | none => exact .inr rfl
  | some req =>
    dsimp only
    split_ifs
    · exact .inr rfl
    · cases req.method with
      | get => exact .inr rfl
      | post =>
        cases req.contentLength with
        | none => exact .inr rfl
        | some n =>
          dsimp only
          by_cases hlarge : maxPayload < n
          · rw [if_pos hlarge, if_pos hlarge]
            exact .inr rfl
          · rw [if_neg hlarge, if_neg hlarge]
            by_cases hmissing : rest.length < n
            · rw [if_pos hmissing]
              exact .inl rfl
            · have hthere : ¬(rest ++ more).length < n := by
                rw [List.length_append]
                omega
              rw [if_neg hmissing, if_neg hthere, List.take_append_of_le_length (by omega)]
              exact .inr rfl

/-- Where the end of the header stays, so does the first action. -/
theorem requestAction_append {p q : Bytes} (h : CrlfFirst (p ++ q)) :
    requestAction cfg router p = .wait ∨
      requestAction cfg router (p ++ q) = requestAction cfg router p := by
  have hstable : ∀ n, findHeaderEnd p = some n → findHeaderEnd (p ++ q) = some n :=
    h.stable p (p ++ q) (List.prefix_append p q) List.prefix_rfl
  unfold requestAction
  cases hend : findHeaderEnd p with
  | none =>
    dsimp only
    by_cases hlong : maxHeader < p.length
    · right
      rw [if_pos hlong]
      cases hend' : findHeaderEnd (p ++ q) with
      | none =>
        dsimp only
        rw [if_pos]
        rw [List.length_append]
        omega
      | some n =>
        -- what is found only with more bytes ends behind those before
        have hlate : ¬ n ≤ p.length := by
          intro hn
          have hsome := findHeaderEnd_isSome_of_le hend' hn
          rw [hend] at hsome
          cases hsome
        dsimp only
        rw [if_pos]
        omega
    · rw [if_neg hlong]
      exact .inl rfl
  | some n =>
    have hn : n ≤ p.length := by
      rcases findHeaderEnd_eq_some_iff.mp hend with hcrlf | ⟨-, hlf⟩
      · have := (findAfter_bounds hcrlf).2
        omega
      · have := (findAfter_bounds hlf).2
        omega
    rw [hstable n hend]
    dsimp only
    split_ifs
    · exact .inr rfl
    · rw [List.take_append_of_le_length hn, List.drop_append_of_le_length hn]
      exact headerAction_append _ _ _

end Stable

/-- What a read makes the server do. -/
def readAction (cfg : Config) (S : Server) (c : ConnId) (chunk : Bytes) : Action :=
  match S.peers c with
  | .http h =>
    if h.closing || h.sse || chunk.isEmpty then .wait
    else if maxRx < h.rx.length + chunk.length then
      .respond ⟨413, lit "Payload Too Large", [], lit "request too large\n"⟩
    else requestAction cfg S.world.router (h.rx ++ chunk)
  | _ => .wait

/-- The first thing the server does in a run of reads, if it does anything. -/
def firstAction (cfg : Config) (env : Env) (c : ConnId) : Server → List Bytes → Option Action
  | _, [] => none
  | S, chunk :: chunks =>
    match readAction cfg S c chunk with
    | .wait => firstAction cfg env c (readCb cfg env S c chunk) chunks
    | a => some a

/-- The first action does not depend on how the request is split, and the end of its
header stays. -/
structure ChunkIndependent (cfg : Config) (env : Env) (S : Server) (c : ConnId) (r : Bytes) :
    Prop where
  action : ∀ chunks chunks' : List Bytes, chunks.flatten = r → chunks'.flatten = r →
    firstAction cfg env c S chunks = firstAction cfg env c S chunks'
  headerEnd : HeaderEndStable r

section Reads

variable {cfg : Config} {env : Env} {S : Server} {c : ConnId} {h : HttpConn}

/-- A connection that has not been answered yet. -/
structure Receiving (S : Server) (c : ConnId) (h : HttpConn) : Prop where
  conn : S.peers c = .http h
  closing : h.closing = false
  sse : h.sse = false

theorem Receiving.read (hmem : ∀ m, env.mem m = true) (hconn : Receiving S c h) (chunk : Bytes)
    (hne : chunk.isEmpty = false) (hcap : h.rx.length + chunk.length ≤ maxRx) :
    readAction cfg S c chunk = requestAction cfg S.world.router (h.rx ++ chunk) ∧
      readCb cfg env S c chunk =
        perform cfg env S c { h with rx := h.rx ++ chunk }
          (requestAction cfg S.world.router (h.rx ++ chunk)) := by
  constructor
  · unfold readAction
    rw [hconn.conn]
    dsimp only
    rw [hconn.closing, hconn.sse, hne, Bool.or_self, Bool.or_self, if_neg Bool.false_ne_true,
      if_neg (not_lt.mpr hcap)]
  · unfold readCb
    rw [hconn.conn]
    dsimp only
    rw [hconn.closing, hne, Bool.or_self, if_neg Bool.false_ne_true, hconn.sse,
      if_neg Bool.false_ne_true, if_neg (not_lt.mpr hcap), hmem, Bool.not_true,
      if_neg Bool.false_ne_true]
    exact processRequest_eq_perform hmem cfg S c _

theorem Receiving.waits (hconn : Receiving S c h) (rx : Bytes) :
    Receiving (S.setHttp c { h with rx := rx }) c { h with rx := rx } := by
  constructor
  · exact Function.update_self _ _ _
  · exact hconn.closing
  · exact hconn.sse

/-- While the server waits, the input is what has been read. -/
theorem firstAction_eq (hmem : ∀ m, env.mem m = true) (chunks : List Bytes) :
    ∀ {S : Server} {h : HttpConn}, Receiving S c h →
      (h.rx ++ chunks.flatten).length ≤ maxRx → CrlfFirst (h.rx ++ chunks.flatten) →
      requestAction cfg S.world.router h.rx = .wait →
      firstAction cfg env c S chunks =
        match requestAction cfg S.world.router (h.rx ++ chunks.flatten) with
        | .wait => none
        | a => some a := by
  induction chunks with
  | nil =>
    intro S h _ _ _ hwait
    rw [List.flatten_nil, List.append_nil, hwait]
    rfl
  | cons chunk chunks ih =>
    intro S h hconn hcap hfirst hwait
    rw [List.flatten_cons, ← List.append_assoc] at hcap hfirst ⊢
    unfold firstAction
    cases hne : chunk.isEmpty with
    | true =>
      have hnil : chunk = [] := List.isEmpty_iff.mp hne
      have hignored : readAction cfg S c chunk = .wait ∧ readCb cfg env S c chunk = S := by
        unfold readAction readCb
        rw [hconn.conn]
        dsimp only
        rw [hne, Bool.or_true, Bool.or_true, if_pos rfl, if_pos rfl]
        exact ⟨rfl, rfl⟩
      rw [hignored.1, hignored.2]
      dsimp only
      rw [hnil, List.append_nil] at hcap hfirst ⊢
      exact ih hconn hcap hfirst hwait
    | false =>
      have hroom : h.rx.length + chunk.length ≤ maxRx := by
        rw [List.length_append, List.length_append] at hcap
        omega
      obtain ⟨haction, hread⟩ := @Receiving.read cfg _ _ _ _ hmem hconn chunk hne hroom
      rw [haction, hread]
      by_cases hwaits : requestAction cfg S.world.router (h.rx ++ chunk) = .wait
      · rw [hwaits]
        exact ih (hconn.waits (h.rx ++ chunk)) hcap hfirst hwaits
      · rw [(requestAction_append hfirst).resolve_left hwaits]
        generalize requestAction cfg S.world.router (h.rx ++ chunk) = a at hwaits ⊢
        cases a with
        | wait => exact absurd rfl hwaits
        | _ => rfl

/-- A request within the cap is read the same in all chunks exactly if no empty line
with `\r` follows one without. -/
theorem chunkIndependent_iff (hmem : ∀ m, env.mem m = true) (hconn : S.peers c = .http newConn)
    {r : Bytes} (hr : r.length ≤ maxRx) : ChunkIndependent cfg env S c r ↔ CrlfFirst r := by
  constructor
  · intro h
    exact headerEndStable_iff.mp h.headerEnd
  · intro hfirst
    refine ⟨?_, hfirst.stable⟩
    have hwhole : ∀ chunks : List Bytes, chunks.flatten = r →
        firstAction cfg env c S chunks =
          match requestAction cfg S.world.router r with
          | .wait => none
          | a => some a := by
      rintro chunks rfl
      exact firstAction_eq hmem chunks ⟨hconn, rfl, rfl⟩ hr hfirst rfl
    intro chunks chunks' hflat hflat'
    rw [hwhole chunks hflat, hwhole chunks' hflat']

end Reads

/-- `POST /pub/a` with lines that end in `\n` and the body `hi`. -/
def plainPost : Bytes :=
  lit "POST /pub/a HTTP/1.1\nContent-Type: text/plain\nContent-Length: 2\n\nhi"

def acceptingServer : Server := step openConfig idleServer (.accept 0 true)

/-- Two empty lines after the body turn the whole request into a header if they come
with it, and come too late if they come after it. -/
theorem trailing_lines_lose_message :
    firstAction openConfig plainEnv 0 acceptingServer [plainPost, lit "\r\n\r\n"] =
        some (.publish (lit "a") (lit "hi")) ∧
      firstAction openConfig plainEnv 0 acceptingServer [plainPost ++ lit "\r\n\r\n"] =
        some (.respond (badRequest "bad request\n")) ∧
      ¬ ChunkIndependent openConfig plainEnv acceptingServer 0 (plainPost ++ lit "\r\n\r\n") := by
  have hlate : firstAction openConfig plainEnv 0 acceptingServer [plainPost, lit "\r\n\r\n"] =
      some (.publish (lit "a") (lit "hi")) := by
    decide +kernel
  have hearly : firstAction openConfig plainEnv 0 acceptingServer
      [plainPost ++ lit "\r\n\r\n"] = some (.respond (badRequest "bad request\n")) := by
    decide +kernel
  refine ⟨hlate, hearly, fun h => ?_⟩
  have hsame := h.action [plainPost, lit "\r\n\r\n"] [plainPost ++ lit "\r\n\r\n"] rfl rfl
  rw [hlate, hearly] at hsame
  cases hsame

theorem chunkIndependent_post :
    ChunkIndependent openConfig plainEnv acceptingServer 0 postRequest := by
  apply (chunkIndependent_iff (fun _ => rfl) rfl (by decide +kernel)).mpr
  intro i j hi
  have hnone : lfEnd postRequest = none := by
    decide +kernel
  rw [hnone] at hi
  cases hi

end Monoblok.Http
