import Monoblok.Source.Yaml

/-!
# Trees into forms

The second half of `pb_yaml.c`: the sugar of the YAML front end. A key is looked up in a
map as the first pair that has it. Memory does not run out, so that what a lowering
function does not accept is all that ends it.
-/

namespace Monoblok.Patchbay.Yaml

variable {N : Type}

/-- `map_find` -/
def mapFind (key : String) : List (Bytes × Node N) → Option (Node N)
  | [] => none
  | (k, v) :: rest => if k = lit key then some v else mapFind key rest

/-- `scalar_is_bound` -/
def isBound (s : Bytes) : Bool :=
  ["subject", "payload", "payload-float", "payload-int", "replaying?"].any fun name => s == lit name

/-- `lower_scalar` -/
def lowerScalar (expr : Bool) : Scalar N → Value N
  | .null => .nil
  | .bool b => .bool b
  | .number n => .number n
  | .text s =>
    match s with
    | c :: d :: name =>
      if c = Sexpr.colon then .keyword (d :: name)
      else if expr && isBound s then .symbol s
      else .string s
    | _ => if expr && isBound s then .symbol s else .string s

/-! ## Bodies -/

mutual

/-- `lower_expr`, which `lower_body` comes to as well -/
def lowerExpr : Node N → Option (Value N)
  | .scalar _ v => some (lowerScalar true v)
  | .list _ items => lowerCall items
  | .map _ pairs =>
    match lowerThreadAt pairs with
    | some r => r
    | none =>
      match lowerWhenAt pairs with
      | some r => r
      | none =>
        match lowerDoAt pairs with
        | some r => r
        | none =>
          match lowerExprAt "form" pairs with
          | some r => r
          | none => (lowerExprAt "body" pairs).getD none

def lowerExprs : List (Node N) → Option (List (Value N))
  | [] => some []
  | n :: ns => (lowerExpr n).bind fun v => (lowerExprs ns).map (v :: ·)

/-- `lower_call` -/
def lowerCall : List (Node N) → Option (Value N)
  | .scalar _ (.text head) :: args =>
    (lowerExprs args).map fun vs => .list (.symbol head :: vs)
  | _ => none

/-- `lower_thread` -/
def lowerThread : Node N → Option (Value N)
  | .list _ (start :: steps) =>
    (lowerExpr start).bind fun seed =>
      (lowerExprs steps).map fun vs => .list (.symbol (lit "->") :: seed :: vs)
  | .map _ pairs =>
    match lowerExprAt "from" pairs, lowerStepsAt pairs with
    | some start, some steps =>
      start.bind fun seed => steps.map fun vs => .list (.symbol (lit "->") :: seed :: vs)
    | _, _ => none
  | _ => none

/-- `lower_when` -/
def lowerWhen : Node N → Option (Value N)
  | .map _ pairs =>
    match lowerExprAt "test" pairs, lowerExprAt "then" pairs with
    | some test, some body =>
      test.bind fun t => body.map fun b => .list [.symbol (lit "when"), t, b]
    | _, _ => none
  | _ => none

/-- `lower_do` -/
def lowerDo : Node N → Option (Value N)
  | .list _ items => (lowerExprs items).map fun vs => .list (.symbol (lit "do") :: vs)
  | _ => none

/-- `lower_expr` of what `map_find` finds, and so on below. -/
def lowerExprAt (key : String) : List (Bytes × Node N) → Option (Option (Value N))
  | [] => none
  | (k, v) :: rest => if k = lit key then some (lowerExpr v) else lowerExprAt key rest

def lowerStepsAt : List (Bytes × Node N) → Option (Option (List (Value N)))
  | [] => none
  | (k, .list _ items) :: rest =>
    if k = lit "steps" then some (lowerExprs items) else lowerStepsAt rest
  | (k, _) :: rest => if k = lit "steps" then some none else lowerStepsAt rest

def lowerThreadAt : List (Bytes × Node N) → Option (Option (Value N))
  | [] => none
  | (k, v) :: rest => if k = lit "thread" then some (lowerThread v) else lowerThreadAt rest

def lowerWhenAt : List (Bytes × Node N) → Option (Option (Value N))
  | [] => none
  | (k, v) :: rest => if k = lit "when" then some (lowerWhen v) else lowerWhenAt rest

def lowerDoAt : List (Bytes × Node N) → Option (Option (Value N))
  | [] => none
  | (k, v) :: rest => if k = lit "do" then some (lowerDo v) else lowerDoAt rest

end

/-! ## Configuration -/

/-- `lower_env_config_value` on the value of the only key -/
def lowerEnv : Node N → Option (Value N)
  | .scalar _ (.text name) =>
    if name.isEmpty then none else some (.list [.symbol (lit "env"), .string name])
  | _ => none

mutual

/-- `lower_config_value` -/
def lowerConfig : Node N → Option (Value N)
  | .scalar _ v => some (lowerScalar false v)
  | .list _ items => (lowerConfigs items).map .vector
  | .map _ [(key, v)] =>
    if key = lit "env" then lowerEnv v
    else (lowerConfig v).map fun value => .vector [.keyword key, value]
  | .map _ pairs => (lowerConfigPairs pairs).map .vector

def lowerConfigs : List (Node N) → Option (List (Value N))
  | [] => some []
  | n :: ns => (lowerConfig n).bind fun v => (lowerConfigs ns).map (v :: ·)

/-- The options of a map. -/
def lowerConfigPairs : List (Bytes × Node N) → Option (List (Value N))
  | [] => some []
  | (key, v) :: rest =>
    (lowerConfig v).bind fun value =>
      (lowerConfigPairs rest).map fun vs => .keyword key :: value :: vs

end

/-- `lower_lvc` -/
def lowerLvc (n : Node N) : Option (Value N) :=
  (lowerConfig n).map fun v => .list [.symbol (lit "lvc"), v]

/-- `lower_config_form` -/
def lowerConfigForm (name : Bytes) : Node N → Option (Value N)
  | .map _ pairs => (lowerConfigPairs pairs).map fun vs => .list (.symbol name :: vs)
  | _ => none

/-! ## Rules -/

/-- The option between the filter and the body. -/
def lowerReentrant (pairs : List (Bytes × Node N)) : Option (List (Value N)) :=
  match mapFind "reentrant" pairs with
  | none => some []
  | some (.scalar _ (.bool b)) => some [.keyword (lit "reentrant"), .bool b]
  | some _ => none

/-- `lower_on_rule` -/
def lowerOnRule : Node N → Option (Value N)
  | .map offset pairs =>
    match mapFind "sub" pairs with
    | some (.scalar _ (.text filter)) =>
      (lowerReentrant pairs).bind fun options =>
        (lowerExpr (.map offset pairs)).map fun body =>
          .list ([.symbol (lit "on"), .string filter] ++ options ++ [body])
    | _ => none
  | _ => none

/-- `lower_on` -/
def lowerOn : Node N → Option (List (Value N))
  | .list _ items => items.mapM lowerOnRule
  | _ => none

def isConfigKey (key : Bytes) : Bool :=
  key == lit "export" || key == lit "bridge" || key == lit "import"

/-- The forms of one pair of the top-level map. -/
def lowerSection (key : Bytes) (v : Node N) : Option (List (Value N)) :=
  if key = lit "on" then lowerOn v
  else if key = lit "lvc" then (lowerLvc v).map fun form => [form]
  else if isConfigKey key then (lowerConfigForm key v).map fun form => [form]
  else none

/-- `lower_root` -/
def lowerRoot : Node N → Option (List (Value N))
  | .map _ pairs => (pairs.mapM fun p => lowerSection p.1 p.2).map List.flatten
  | _ => none

/-- `pb_parse_yaml_patchbay` -/
def parseYamlPatchbay [Number N] (src : Bytes) : Option (ParseResult N) :=
  match collectLines 0 (src.splitOn lf) with
  | .error offset => some (.error (.invalidYaml, offset))
  | .ok [] => some (.ok [])
  | .ok (line :: lines) =>
    (parseTree src.length (line :: lines)).map fun r =>
      match r with
      | .error offset => .error (.invalidYaml, offset)
      | .ok root =>
        match lowerRoot root with
        | some forms => .ok forms
        | none => .error (.invalidYaml, root.offset)

/-! ## What is found in a map -/

theorem mapFind_some {key : String} {pairs : List (Bytes × Node N)} {v : Node N}
    (h : mapFind key pairs = some v) : (lit key, v) ∈ pairs := by
  induction pairs with
  | nil => cases h
  | cons p pairs ih =>
    obtain ⟨k, w⟩ := p
    rw [mapFind] at h
    split_ifs at h with hk
    · cases h
      rw [hk]
      exact List.mem_cons_self
    · exact List.mem_cons_of_mem _ (ih h)

/-- A function that looks for a key and goes on with its value. -/
theorem map_mapFind {α : Type} {key : String} {f : Node N → α}
    {g : List (Bytes × Node N) → Option α} (hnil : g [] = none)
    (hcons : ∀ k v rest, g ((k, v) :: rest) = if k = lit key then some (f v) else g rest)
    (pairs : List (Bytes × Node N)) : g pairs = (mapFind key pairs).map f := by
  induction pairs with
  | nil => exact hnil
  | cons p pairs ih =>
    rw [hcons, mapFind, ih]
    split_ifs <;> rfl

theorem lowerExprAt_eq (key : String) (pairs : List (Bytes × Node N)) :
    lowerExprAt key pairs = (mapFind key pairs).map lowerExpr :=
  map_mapFind (by rw [lowerExprAt]) (fun k v rest => by rw [lowerExprAt]) pairs

theorem lowerThreadAt_eq (pairs : List (Bytes × Node N)) :
    lowerThreadAt pairs = (mapFind "thread" pairs).map lowerThread :=
  map_mapFind (by rw [lowerThreadAt]) (fun k v rest => by rw [lowerThreadAt]) pairs

theorem lowerWhenAt_eq (pairs : List (Bytes × Node N)) :
    lowerWhenAt pairs = (mapFind "when" pairs).map lowerWhen :=
  map_mapFind (by rw [lowerWhenAt]) (fun k v rest => by rw [lowerWhenAt]) pairs

theorem lowerDoAt_eq (pairs : List (Bytes × Node N)) :
    lowerDoAt pairs = (mapFind "do" pairs).map lowerDo :=
  map_mapFind (by rw [lowerDoAt]) (fun k v rest => by rw [lowerDoAt]) pairs

/-- The steps of a thread that is written as a map. -/
def lowerSteps : Node N → Option (List (Value N))
  | .list _ items => lowerExprs items
  | _ => none

theorem lowerStepsAt_eq (pairs : List (Bytes × Node N)) :
    lowerStepsAt pairs = (mapFind "steps" pairs).map lowerSteps := by
  apply map_mapFind
  · rw [lowerStepsAt]
  · intro k v rest
    cases v with
    | scalar offset v => rfl
    | list offset items =>
      rw [lowerStepsAt]
      rfl
    | map offset inner => rfl

/-! ## Lists are calls -/

theorem shaped_lowerScalar (expr : Bool) (v : Scalar N) : (lowerScalar expr v).Shaped := by
  have htext : ∀ s : Bytes,
      (if expr && isBound s then .symbol s else .string s : Value N).Shaped := by
    intro s
    split_ifs
    · exact shaped_symbol s
    · exact shaped_string s
  cases v with
  | null => exact shaped_nil
  | bool b => exact shaped_bool b
  | number n => exact shaped_number n
  | text s =>
    unfold lowerScalar
    dsimp only
    split
    · split_ifs
      · exact shaped_keyword _
      · exact shaped_symbol _
      · exact shaped_string _
    · exact htext _

theorem allShaped_cons {v : Value N} {vs : List (Value N)} (hv : v.Shaped) (hvs : AllShaped vs) :
    AllShaped (v :: vs) :=
  List.forall_mem_cons.mpr ⟨hv, hvs⟩

/-- What a node is lowered to, under whatever key it stands, has the shape. -/
structure LowersShaped (n : Node N) : Prop where
  expr : ∀ v, lowerExpr n = some v → v.Shaped
  thread : ∀ v, lowerThread n = some v → v.Shaped
  when : ∀ v, lowerWhen n = some v → v.Shaped
  «do» : ∀ v, lowerDo n = some v → v.Shaped
  steps : ∀ vs, lowerSteps n = some vs → AllShaped vs

/-- What is found under a key is one of the values. -/
theorem of_mapFind {α : Type} {P : Node N → Prop} {pairs : List (Bytes × Node N)}
    (hpairs : ∀ p ∈ pairs, P p.2) {key : String} {f : Node N → α} {a : α}
    (h : (mapFind key pairs).map f = some a) : ∃ n, P n ∧ f n = a := by
  obtain ⟨n, hn, rfl⟩ := Option.map_eq_some_iff.mp h
  exact ⟨n, hpairs _ (mapFind_some hn), rfl⟩

mutual

theorem shaped_lowerExpr : ∀ (n : Node N) (v : Value N), lowerExpr n = some v → v.Shaped
  | .scalar _ s => fun v h => by
    cases h
    exact shaped_lowerScalar true s
  | .list _ items => fun v h => shaped_lowerCall items v h
  | .map _ pairs => fun v h => by
    have hpairs := lowersShaped_values pairs
    rw [lowerExpr, lowerThreadAt_eq, lowerWhenAt_eq, lowerDoAt_eq, lowerExprAt_eq,
      lowerExprAt_eq] at h
    split at h
    · rename_i r hr
      obtain ⟨n, hn, rfl⟩ := of_mapFind hpairs hr
      exact hn.thread v h
    · split at h
      · rename_i r hr
        obtain ⟨n, hn, rfl⟩ := of_mapFind hpairs hr
        exact hn.when v h
      · split at h
        · rename_i r hr
          obtain ⟨n, hn, rfl⟩ := of_mapFind hpairs hr
          exact hn.do v h
        · split at h
          · rename_i r hr
            obtain ⟨n, hn, rfl⟩ := of_mapFind hpairs hr
            exact hn.expr v h
          · cases hr : (mapFind "body" pairs).map lowerExpr with
            | none =>
              rw [hr] at h
              cases h
            | some r =>
              rw [hr] at h
              obtain ⟨n, hn, rfl⟩ := of_mapFind hpairs hr
              exact hn.expr v h

theorem shaped_lowerExprs :
    ∀ (ns : List (Node N)) (vs : List (Value N)), lowerExprs ns = some vs → AllShaped vs
  | [] => fun vs h => by
    cases h
    exact List.forall_mem_nil _
  | n :: ns => fun vs h => by
    rw [lowerExprs] at h
    obtain ⟨v, hv, h⟩ := Option.bind_eq_some_iff.mp h
    obtain ⟨ws, hws, rfl⟩ := Option.map_eq_some_iff.mp h
    exact allShaped_cons (shaped_lowerExpr n v hv) (shaped_lowerExprs ns ws hws)

theorem shaped_lowerCall :
    ∀ (items : List (Node N)) (v : Value N), lowerCall items = some v → v.Shaped
  | .scalar _ (.text head) :: args => fun v h => by
    rw [lowerCall] at h
    obtain ⟨vs, hvs, rfl⟩ := Option.map_eq_some_iff.mp h
    exact shaped_call.mpr (shaped_lowerExprs args vs hvs)
  | [] => fun v h => by cases h
  | .scalar _ (.number _) :: _ => fun v h => by cases h
  | .scalar _ (.bool _) :: _ => fun v h => by cases h
  | .scalar _ .null :: _ => fun v h => by cases h
  | .list _ _ :: _ => fun v h => by cases h
  | .map _ _ :: _ => fun v h => by cases h

theorem shaped_lowerThread : ∀ (n : Node N) (v : Value N), lowerThread n = some v → v.Shaped
  | .list _ (start :: steps) => fun v h => by
    rw [lowerThread] at h
    obtain ⟨seed, hseed, h⟩ := Option.bind_eq_some_iff.mp h
    obtain ⟨vs, hvs, rfl⟩ := Option.map_eq_some_iff.mp h
    exact shaped_call.mpr
      (allShaped_cons (shaped_lowerExpr start seed hseed) (shaped_lowerExprs steps vs hvs))
  | .map _ pairs => fun v h => by
    have hpairs := lowersShaped_values pairs
    rw [lowerThread, lowerExprAt_eq, lowerStepsAt_eq] at h
    split at h
    · rename_i start steps hstart hlist
      obtain ⟨seed, rfl, h⟩ := Option.bind_eq_some_iff.mp h
      obtain ⟨vs, rfl, rfl⟩ := Option.map_eq_some_iff.mp h
      obtain ⟨n, hn, hseed⟩ := of_mapFind hpairs hstart
      obtain ⟨m, hm, hsteps⟩ := of_mapFind hpairs hlist
      exact shaped_call.mpr (allShaped_cons (hn.expr seed hseed) (hm.steps vs hsteps))
    · cases h
  | .scalar _ _ => fun v h => by cases h
  | .list _ [] => fun v h => by cases h

theorem shaped_lowerWhen : ∀ (n : Node N) (v : Value N), lowerWhen n = some v → v.Shaped
  | .map _ pairs => fun v h => by
    have hpairs := lowersShaped_values pairs
    rw [lowerWhen, lowerExprAt_eq, lowerExprAt_eq] at h
    split at h
    · rename_i test body hcond hbody
      obtain ⟨t, rfl, h⟩ := Option.bind_eq_some_iff.mp h
      obtain ⟨b, rfl, rfl⟩ := Option.map_eq_some_iff.mp h
      obtain ⟨n, hn, htest⟩ := of_mapFind hpairs hcond
      obtain ⟨m, hm, hthen⟩ := of_mapFind hpairs hbody
      exact shaped_call.mpr
        (allShaped_cons (hn.expr t htest) (allShaped_cons (hm.expr b hthen) (List.forall_mem_nil _)))
    · cases h
  | .scalar _ _ => fun v h => by cases h
  | .list _ _ => fun v h => by cases h

theorem shaped_lowerDo : ∀ (n : Node N) (v : Value N), lowerDo n = some v → v.Shaped
  | .list _ items => fun v h => by
    rw [lowerDo] at h
    obtain ⟨vs, hvs, rfl⟩ := Option.map_eq_some_iff.mp h
    exact shaped_call.mpr (shaped_lowerExprs items vs hvs)
  | .scalar _ _ => fun v h => by cases h
  | .map _ _ => fun v h => by cases h

theorem shaped_lowerSteps :
    ∀ (n : Node N) (vs : List (Value N)), lowerSteps n = some vs → AllShaped vs
  | .list _ items => fun vs h => shaped_lowerExprs items vs h
  | .scalar _ _ => fun vs h => by cases h
  | .map _ _ => fun vs h => by cases h

theorem lowersShaped_values : ∀ (pairs : List (Bytes × Node N)), ∀ p ∈ pairs, LowersShaped p.2
  | [] => List.forall_mem_nil _
  | (_, n) :: rest => List.forall_mem_cons.mpr
    ⟨⟨shaped_lowerExpr n, shaped_lowerThread n, shaped_lowerWhen n, shaped_lowerDo n,
      shaped_lowerSteps n⟩, lowersShaped_values rest⟩

end

theorem shaped_lowerEnv {n : Node N} {v : Value N} (h : lowerEnv n = some v) : v.Shaped := by
  unfold lowerEnv at h
  split at h
  · split_ifs at h
    cases h
    exact shaped_call.mpr (allShaped_cons (shaped_string _) (List.forall_mem_nil _))
  · cases h

mutual

theorem shaped_lowerConfig : ∀ (n : Node N) (v : Value N), lowerConfig n = some v → v.Shaped
  | .scalar _ s => fun v h => by
    cases h
    exact shaped_lowerScalar false s
  | .list _ items => fun v h => by
    rw [lowerConfig] at h
    obtain ⟨vs, hvs, rfl⟩ := Option.map_eq_some_iff.mp h
    exact shaped_vector.mpr (shaped_lowerConfigs items vs hvs)
  | .map _ [] => fun v h => by
    cases h
    exact shaped_vector.mpr (List.forall_mem_nil _)
  | .map _ [(key, n)] => fun v h => by
    rw [lowerConfig] at h
    split_ifs at h
    · exact shaped_lowerEnv h
    · obtain ⟨value, hvalue, rfl⟩ := Option.map_eq_some_iff.mp h
      exact shaped_vector.mpr (allShaped_cons (shaped_keyword key)
        (allShaped_cons (shaped_lowerConfig n value hvalue) (List.forall_mem_nil _)))
  | .map _ (a :: b :: rest) => fun v h => by
    change (lowerConfigPairs (a :: b :: rest)).map .vector = some v at h
    obtain ⟨vs, hvs, rfl⟩ := Option.map_eq_some_iff.mp h
    exact shaped_vector.mpr (shaped_lowerConfigPairs (a :: b :: rest) vs hvs)

theorem shaped_lowerConfigs :
    ∀ (ns : List (Node N)) (vs : List (Value N)), lowerConfigs ns = some vs → AllShaped vs
  | [] => fun vs h => by
    cases h
    exact List.forall_mem_nil _
  | n :: ns => fun vs h => by
    rw [lowerConfigs] at h
    obtain ⟨v, hv, h⟩ := Option.bind_eq_some_iff.mp h
    obtain ⟨ws, hws, rfl⟩ := Option.map_eq_some_iff.mp h
    exact allShaped_cons (shaped_lowerConfig n v hv) (shaped_lowerConfigs ns ws hws)

theorem shaped_lowerConfigPairs : ∀ (pairs : List (Bytes × Node N)) (vs : List (Value N)),
    lowerConfigPairs pairs = some vs → AllShaped vs
  | [] => fun vs h => by
    cases h
    exact List.forall_mem_nil _
  | (key, n) :: rest => fun vs h => by
    rw [lowerConfigPairs] at h
    obtain ⟨v, hv, h⟩ := Option.bind_eq_some_iff.mp h
    obtain ⟨ws, hws, rfl⟩ := Option.map_eq_some_iff.mp h
    exact allShaped_cons (shaped_keyword key)
      (allShaped_cons (shaped_lowerConfig n v hv) (shaped_lowerConfigPairs rest ws hws))

end

theorem shaped_lowerOnRule {n : Node N} {v : Value N} (h : lowerOnRule n = some v) : v.Shaped := by
  unfold lowerOnRule at h
  split at h
  · split at h
    · rename_i filter _
      obtain ⟨options, hoptions, h⟩ := Option.bind_eq_some_iff.mp h
      obtain ⟨body, hbody, rfl⟩ := Option.map_eq_some_iff.mp h
      have hoptions' : AllShaped options := by
        unfold lowerReentrant at hoptions
        split at hoptions
        · cases hoptions
          exact List.forall_mem_nil _
        · cases hoptions
          exact allShaped_cons (shaped_keyword _)
            (allShaped_cons (shaped_bool _) (List.forall_mem_nil _))
        · cases hoptions
      apply shaped_call.mpr
      apply allShaped_cons (shaped_string filter)
      exact List.forall_mem_append.mpr
        ⟨hoptions', allShaped_cons (shaped_lowerExpr _ body hbody) (List.forall_mem_nil _)⟩
    · cases h
  · cases h

theorem allShaped_mapM {α : Type} {f : α → Option (Value N)}
    (hf : ∀ a v, f a = some v → v.Shaped) {as : List α} {vs : List (Value N)}
    (h : as.mapM f = some vs) : AllShaped vs := by
  induction as generalizing vs with
  | nil =>
    cases h
    exact List.forall_mem_nil _
  | cons a as ih =>
    rw [List.mapM_cons] at h
    obtain ⟨v, hv, h⟩ := Option.bind_eq_some_iff.mp h
    obtain ⟨ws, hws, h⟩ := Option.bind_eq_some_iff.mp h
    cases h
    exact allShaped_cons (hf a v hv) (ih hws)

theorem shaped_lowerSection {key : Bytes} {n : Node N} {vs : List (Value N)}
    (h : lowerSection key n = some vs) : AllShaped vs := by
  unfold lowerSection at h
  split_ifs at h
  · unfold lowerOn at h
    split at h
    · exact allShaped_mapM (fun n v => shaped_lowerOnRule) h
    · cases h
  · obtain ⟨form, hform, rfl⟩ := Option.map_eq_some_iff.mp h
    obtain ⟨v, hv, rfl⟩ := Option.map_eq_some_iff.mp hform
    have hlvc : (Value.list [.symbol (lit "lvc"), v]).Shaped :=
      shaped_call.mpr (allShaped_cons (shaped_lowerConfig n v hv) (List.forall_mem_nil _))
    exact allShaped_cons hlvc (List.forall_mem_nil _)
  · obtain ⟨form, hform, rfl⟩ := Option.map_eq_some_iff.mp h
    unfold lowerConfigForm at hform
    split at hform
    · obtain ⟨ws, hws, rfl⟩ := Option.map_eq_some_iff.mp hform
      exact allShaped_cons (shaped_call.mpr (shaped_lowerConfigPairs _ ws hws))
        (List.forall_mem_nil _)
    · cases hform

theorem allShaped_sections {pairs : List (Bytes × Node N)} {sections : List (List (Value N))}
    (h : (pairs.mapM fun p => lowerSection p.1 p.2) = some sections) :
    AllShaped sections.flatten := by
  induction pairs generalizing sections with
  | nil =>
    cases h
    exact List.forall_mem_nil _
  | cons pair pairs ih =>
    rw [List.mapM_cons] at h
    obtain ⟨vs, hvs, h⟩ := Option.bind_eq_some_iff.mp h
    obtain ⟨rest, hrest, h⟩ := Option.bind_eq_some_iff.mp h
    cases h
    rw [List.flatten_cons]
    exact List.forall_mem_append.mpr ⟨shaped_lowerSection hvs, ih hrest⟩

theorem shaped_lowerRoot {n : Node N} {vs : List (Value N)} (h : lowerRoot n = some vs) :
    AllShaped vs := by
  unfold lowerRoot at h
  split at h
  · obtain ⟨sections, hsections, rfl⟩ := Option.map_eq_some_iff.mp h
    exact allShaped_sections hsections
  · cases h

theorem shaped_parseYamlPatchbay [Number N] {src : Bytes} {forms : List (Value N)}
    (h : parseYamlPatchbay src = some (.ok forms)) : AllShaped forms := by
  unfold parseYamlPatchbay at h
  split at h
  · cases h
  · cases h
    exact List.forall_mem_nil _
  · obtain ⟨r, -, h⟩ := Option.map_eq_some_iff.mp h
    split at h
    · cases h
    · split at h
      · rename_i hlower
        cases h
        exact shaped_lowerRoot hlower
      · cases h

end Monoblok.Patchbay.Yaml
