import Monoblok.Source.Agree
import Monoblok.Source.JsonForms
import Monoblok.Source.Lowering

/-!
# The three front ends

`pb_parse_patchbay_source` takes the notation from the name of the file, or from the first
byte of a source that has none. Whatever it accepts, the evaluator only ever comes to lists
that begin with a symbol.
-/

namespace Monoblok.Patchbay

open Number

variable {N W : Type}

def looksYaml (path : Bytes) : Bool :=
  (lit ".yml").isSuffixOf path || (lit ".yaml").isSuffixOf path

def firstIsJson : Bytes → Bool
  | [] => false
  | c :: s => if Sexpr.isSpace c then firstIsJson s else c == Sexpr.lbracket || c == 0x7b

def looksJson (path src : Bytes) : Bool := (lit ".json").isSuffixOf path || firstIsJson src

/-- `pb_parse_patchbay_source`; `memory` is what the readers of words ask for, and `readJson`
the reader of JSON documents. -/
def parsePatchbaySource [Number N] (memory : Bytes → Bool) (readJson : Bytes → Except ℕ (Json N))
    (path src : Bytes) : Option (ParseResult N) :=
  if looksYaml path then Yaml.parseYamlPatchbay src
  else if looksJson path src then some (JsonForms.parseJsonPatchbay readJson src)
  else Sexpr.parseAll memory src

theorem allShaped_parsePatchbaySource [Number N] {memory : Bytes → Bool}
    {readJson : Bytes → Except ℕ (Json N)} {path src : Bytes} {forms : List (Value N)}
    (h : parsePatchbaySource memory readJson path src = some (.ok forms)) : AllShaped forms := by
  unfold parsePatchbaySource at h
  split_ifs at h
  · exact Yaml.shaped_parseYamlPatchbay h
  · exact JsonForms.shaped_parseJsonPatchbay (Option.some.inj h)
  · exact Sexpr.shaped_parseAll h

/-! ## The rules of a source -/

theorem loadOnRule_body {items : List (Value N)} {r : RuleSource N}
    (h : loadOnRule items = some r) : r.body ∈ items := by
  unfold loadOnRule at h
  split at h
  · rename_i filter rest
    split at h
    · cases h
    · rename_i body hlast
      obtain ⟨reentrant, -, rfl⟩ := Option.map_eq_some_iff.mp h
      exact List.mem_cons_of_mem _ (List.mem_of_getLast? hlast)
  · cases h

variable [ConfigNumber N] {getenv : Bytes → Option Bytes}

/-- A form adds a rule at most, and its body is one of the items of the form. -/
theorem loadOnForm_rules {p p' : LoadedSource N} {form : Value N}
    (h : loadOnForm getenv p form = some p') :
    ∀ r ∈ p'.rules, r ∈ p.rules ∨ ∃ items, form = .list items ∧ r.body ∈ items := by
  unfold loadOnForm at h
  split at h
  · rename_i head items
    split_ifs at h
    · obtain ⟨x, -, rfl⟩ := Option.map_eq_some_iff.mp h
      exact fun r hr => .inl hr
    · obtain ⟨x, -, rfl⟩ := Option.map_eq_some_iff.mp h
      exact fun r hr => .inl hr
    · obtain ⟨x, -, rfl⟩ := Option.map_eq_some_iff.mp h
      exact fun r hr => .inl hr
    · obtain ⟨rule, hrule, rfl⟩ := Option.map_eq_some_iff.mp h
      intro r hr
      rcases List.mem_append.mp hr with hr | hr
      · exact .inl hr
      · rw [List.mem_singleton.mp hr]
        exact .inr ⟨_, rfl, List.mem_cons_of_mem _ (loadOnRule_body hrule)⟩
    · cases h
      exact fun r hr => .inl hr
  · cases h

/-- What holds of the items of all forms holds of the bodies. -/
theorem bodies_of_items {P : Value N → Prop} {forms : List (Value N)}
    (hforms : ∀ items, .list items ∈ forms → ∀ v ∈ items, P v) {p p' : LoadedSource N}
    (hp : ∀ r ∈ p.rules, P r.body) (h : forms.foldlM (loadOnForm getenv) p = some p') :
    ∀ r ∈ p'.rules, P r.body := by
  induction forms generalizing p with
  | nil =>
    cases h
    exact hp
  | cons form forms ih =>
    rw [List.foldlM_cons] at h
    obtain ⟨p₁, hload, h⟩ := Option.bind_eq_some_iff.mp h
    apply ih (fun items hitems => hforms items (List.mem_cons_of_mem _ hitems)) _ h
    intro r hr
    rcases loadOnForm_rules hload r hr with hr | ⟨items, rfl, hbody⟩
    · exact hp r hr
    · exact hforms items List.mem_cons_self r.body hbody

theorem shaped_bodies {forms : List (Value N)} (hforms : AllShaped forms) {p p' : LoadedSource N}
    (hp : ∀ r ∈ p.rules, r.body.Shaped) (h : forms.foldlM (loadOnForm getenv) p = some p') :
    ∀ r ∈ p'.rules, r.body.Shaped :=
  bodies_of_items (fun _ hitems => (shaped_list.mp (hforms _ hitems)).2) hp h

/-! ## What is evaluated -/

/-- Whether the evaluator may take the text of the first item for a name. -/
def headIsSymbol : Value N → Bool
  | .list (.symbol _ :: _) => true
  | .list _ => false
  | _ => true

omit [ConfigNumber N] in
theorem headIsSymbol_of_shaped (v : Value N) (h : v.Shaped) : headIsSymbol v = true := by
  cases v with
  | list items =>
    obtain ⟨head, args, rfl⟩ := (shaped_list.mp h).1
    rfl
  | _ => rfl

/-- Every list of an accepted source is a call, and so are the lists the thread form puts
together; an evaluator that refuses every other list does the same in every run. -/
theorem every_list_is_a_call {memory : Bytes → Bool} {readJson : Bytes → Except ℕ (Json N)}
    {path src : Bytes} {forms : List (Value N)}
    (h : parsePatchbaySource memory readJson path src = some (.ok forms)) :
    (∀ form ∈ forms, ∀ items, PartOf (.list items) form → IsCall items) ∧
    (∀ form ∈ forms, ∀ step, PartOf step form → ∀ x : Value N, x.Evaluated →
      (∀ name, step = .symbol name → (Value.list [.symbol name, x]).Shaped) ∧
      ∀ items, step = .list items → (Value.list (items ++ [x])).Shaped) ∧
    ∀ getenv program loaded, loadSource getenv forms = some (program, loaded) →
      ∀ m : Machine N W, Reached loaded.rules program.usesClockTimer m →
        ∀ (env : Env N W) (t : Moment),
          let ev := guardedEval headIsSymbol env.fuel
          (∀ subject payload,
            evalPublish env t subject payload m = publishWith ev env t subject payload m) ∧
          tick env t m = tickWith ev env t m ∧ tickUntil env t m = tickUntilWith ev env t m := by
  have hshaped := allShaped_parsePatchbaySource h
  refine ⟨hshaped, ?_, ?_⟩
  · intro form hform step hpart x hx
    have hstep : step.Shaped := fun items hitems => hshaped form hform items (hitems.trans hpart)
    constructor
    · rintro name rfl
      exact shaped_call.mpr (List.forall_mem_singleton.mpr hx.shaped)
    · rintro items rfl
      obtain ⟨⟨name, args, rfl⟩, hitems⟩ := shaped_list.mp hstep
      refine shaped_list.mpr ⟨⟨name, args ++ [x], rfl⟩, ?_⟩
      exact List.forall_mem_append.mpr ⟨hitems, List.forall_mem_singleton.mpr hx.shaped⟩
  · intro getenv program loaded hload m hm env t
    obtain ⟨p, hp, heq⟩ := Option.map_eq_some_iff.mp hload
    cases heq
    have hbodies : ∀ r ∈ loaded.rules, r.body.Shaped :=
      shaped_bodies (p := .zero) hshaped (fun r hr => by cases hr) hp
    have hkeeping := hm.keeping discipline_shaped hbodies
    have hprogram := @bodies_loadProgram _ _ _ (scanClockItems forms) hbodies
    have hsteps := @sameSteps_keeping N W _ (AllShaped (N := N))
      (loadProgram loaded.rules (scanClockItems forms))
    have hev := sameRecs_guardedEval (W := W)
      (S := OfProgram (loadProgram loaded.rules (scanClockItems forms))) discipline_shaped
      headIsSymbol_of_shaped env.fuel
    rw [← tickWith_eval, ← tickUntilWith_eval]
    refine ⟨fun subject payload => ?_, ?_, ?_⟩
    · rw [← publishWith_eval]
      exact (coincide_publish hsteps hev hprogram t subject payload m hkeeping).1
    · exact (coincide_tick hsteps hev hprogram t discipline_shaped m hkeeping).1
    · exact (coincide_tickUntil hsteps hev hprogram t discipline_shaped m hkeeping).1

/-- A rule with a thread in it. -/
theorem every_list_is_a_call_thread : ∃ forms : List (Value ℚ),
    parsePatchbaySource (fun _ => true) (fun _ => .error 0) (lit "a.edn")
      (lit "(on \"a.*\" (-> payload (contains? \"x\")))") = some (.ok forms) ∧ forms.length = 1 ∧
    ∀ form ∈ forms, ∀ items, PartOf (.list items) form → IsCall items := by
  have hread : (parsePatchbaySource (N := ℚ) (fun _ => true) (fun _ => .error 0) (lit "a.edn")
      (lit "(on \"a.*\" (-> payload (contains? \"x\")))")).map
        (fun r => r.toOption.map List.length) = some (some 1) := by
    decide +kernel
  obtain ⟨r, hr, hlength⟩ := Option.map_eq_some_iff.mp hread
  obtain ⟨forms, hforms, hlength⟩ := Option.map_eq_some_iff.mp hlength
  cases r with
  | error e => cases hforms
  | ok forms' =>
    cases hforms
    exact ⟨forms, hr, Option.some.inj hlength, (@every_list_is_a_call ℚ Unit _ _ _ _ _ _ hr).1⟩

end Monoblok.Patchbay
