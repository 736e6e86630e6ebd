import Monoblok.Snapshot.Positioned

/-!
# Loading stays in bounds

Whatever the bytes are, the loader reads inside the file, no position passes its end,
every record moves the position on, and so the loop ends. The rings that have been
added fit their arrays.
-/

namespace Monoblok.Snapshot.Positioned

open Cursor Cursor.Prog Patchbay
open Patchbay.Number

/-! ## Readers -/

theorem subSize_eq {a b : ℕ} (ha : a ≤ sizeMax) (h : b ≤ a) : subSize a b = a - b := by
  rw [sizeMax] at ha
  unfold subSize
  omega

theorem plusSize_eq {a b : ℕ} (h : a + b ≤ sizeMax) : plusSize a b = a + b := by
  rw [sizeMax] at h
  unfold plusSize
  omega

section Readers

variable {σ : Type} {f : File}

theorem plusSize_of_le {a b : ℕ} (h : a + b ≤ f.len) : plusSize a b = a + b :=
  plusSize_eq (h.trans f.fits)

/-- What is left of the file decides whether `n` bytes can be taken. -/
theorem room {pos n : ℕ} (hpos : pos ≤ f.len) (h : ¬ subSize f.len pos < n) :
    pos + n ≤ f.len := by
  have hsub : subSize f.len pos = f.len - pos := subSize_eq f.fits hpos
  omega

theorem mem_range' {pos n i : ℕ} (h : pos + n ≤ f.len) (hi : i ∈ List.range' pos n) :
    i < f.len := by
  obtain ⟨j, hj, rfl⟩ := List.mem_range'.mp hi
  omega

theorem ahead_readU8 : Ahead f.len 1 (readU8 f : Prog σ UInt8) := by
  intro J t hb hJ
  apply (Meets.position hb hJ).bind
  rintro _ _ - - - ⟨rfl, rfl⟩
  apply Meets.ite
  · exact fun _ => .fail hb hJ
  · intro hlt
    apply (Meets.look hb hJ fun i hi => ?_).bind
    · rintro _ u hu hJu - ⟨hpos, hdata⟩
      have hmove := plusSize_of_le (f := f) (a := t.pos) (b := 1) (by omega)
      apply (Meets.move hu hJu (by omega) (by omega)).bind
      rintro _ v hv hJv - ⟨hvpos, hvdata⟩
      exact .pure hv hJv ⟨by omega, hvdata.trans hdata⟩
    · rw [List.mem_singleton.mp hi]
      omega

/-- A number moves the position by its length. -/
theorem meets_readNumber {J : σ → Prop} {t : Tape σ} {n : ℕ} (hb : InBounds f.len t)
    (hJ : J t.data) : Meets f.len J t (readNumber f n) fun _ t' =>
      t'.pos = t.pos + n ∧ t'.data = t.data := by
  apply (Meets.position hb hJ).bind
  rintro _ _ - - - ⟨rfl, rfl⟩
  apply Meets.ite
  · exact fun _ => .fail hb hJ
  · intro hroom
    have hle := room hb.pos hroom
    apply (Meets.look hb hJ fun i hi => mem_range' hle hi).bind
    rintro _ u hu hJu - ⟨hpos, hdata⟩
    rw [plusSize_of_le hle]
    apply (Meets.move hu hJu (by omega) hle).bind
    rintro _ v hv hJv - ⟨hvpos, hvdata⟩
    exact .pure hv hJv ⟨hvpos, hvdata.trans hdata⟩

theorem ahead_readU32 : Ahead f.len 4 (readU32 f : Prog σ ℕ) := by
  intro J t hb hJ
  apply (meets_readNumber hb hJ).mono
  rintro _ t' - ⟨hpos, hdata⟩
  exact ⟨hpos.ge, hdata⟩

theorem ahead_readU64 : Ahead f.len 8 (readU64 f : Prog σ UInt64) := by
  intro J t hb hJ
  apply (meets_readNumber hb hJ).bind
  rintro _ t' hb' hJ' - ⟨hpos, hdata⟩
  exact .pure hb' hJ' ⟨hpos.ge, hdata⟩

theorem ahead_readF64 {N : Type} [Number N] : Ahead f.len 8 (readF64 f : Prog σ N) :=
  ahead_readU64.bind fun _ => .pure _

/-- A skip moves the position by exactly the bytes skipped. -/
theorem meets_skipBytes {J : σ → Prop} {t : Tape σ} {n : ℕ} (hb : InBounds f.len t)
    (hJ : J t.data) : Meets f.len J t (skipBytes f n) fun _ t' =>
      t'.pos = t.pos + n ∧ t'.data = t.data := by
  apply (Meets.position hb hJ).bind
  rintro _ _ - - - ⟨rfl, rfl⟩
  apply Meets.ite
  · exact fun _ => .fail hb hJ
  · intro hroom
    have hle := room hb.pos hroom
    rw [plusSize_of_le hle]
    exact .move hb hJ (by omega) hle

theorem ahead_skipBytes (n : ℕ) : Ahead f.len n (skipBytes f n : Prog σ Unit) := by
  intro J t hb hJ
  apply (meets_skipBytes hb hJ).mono
  rintro _ t' - ⟨hpos, hdata⟩
  exact ⟨hpos.ge, hdata⟩

theorem ahead_readLenPrefixed : Ahead f.len 4 (readLenPrefixed f : Prog σ Bytes) := by
  have hrest : ∀ n, Ahead f.len 0 (do
      let pos ← position
      if snapMaxField < n ∨ subSize f.len pos < n then fail
      else do
        look (List.range' pos n)
        move (plusSize pos n)
        pure (f.slice pos n) : Prog σ Bytes) := by
    intro n J t hb hJ
    apply (Meets.position hb hJ).bind
    rintro _ _ - - - ⟨rfl, rfl⟩
    apply Meets.ite
    · exact fun _ => .fail hb hJ
    · intro hno
      have hle := room hb.pos (not_or.mp hno).2
      apply (Meets.look hb hJ fun i hi => mem_range' hle hi).bind
      rintro _ u hu hJu - ⟨hpos, hdata⟩
      rw [plusSize_of_le hle]
      apply (Meets.move hu hJu (by omega) hle).bind
      rintro _ v hv hJv - ⟨hvpos, hvdata⟩
      exact .pure hv hJv ⟨by omega, hvdata.trans hdata⟩
  exact ahead_readU32.bind hrest

theorem ahead_readHead : Ahead f.len 13 (readHead f : Prog σ (ℕ × Bytes × Bytes × UInt8)) := by
  refine Ahead.mono ?_ (show 13 ≤ 4 + (4 + (4 + (1 + 0))) by omega)
  apply ahead_readU32.bind
  intro idx
  apply ahead_readLenPrefixed.bind
  intro filter
  apply ahead_readLenPrefixed.bind
  intro key
  exact ahead_readU8.bind fun variant => .pure _

theorem ahead_skipCountRing : Ahead f.len 0 (skipCountRing f : Prog σ Unit) := by
  refine Ahead.mono ?_ (Nat.zero_le (4 + (0 + (0 + (4 + (0 + (0 + (4 + (0 + 0)))))))))
  apply ahead_readU32.bind
  intro cap
  apply (Ahead.ofOption _).bind
  intro capBytes
  apply ((ahead_skipBytes _).mono (Nat.zero_le _)).bind
  intro _
  apply ahead_readU32.bind
  intro maxLen
  apply (Ahead.ofOption _).bind
  intro maxBytes
  apply ((ahead_skipBytes _).mono (Nat.zero_le _)).bind
  intro _
  apply ahead_readU32.bind
  intro minLen
  apply (Ahead.ofOption _).bind
  intro minBytes
  exact (ahead_skipBytes _).mono (Nat.zero_le _)

theorem ahead_skipTimeRing : Ahead f.len 0 (skipTimeRing f : Prog σ Unit) := by
  refine Ahead.mono ?_ (Nat.zero_le (8 + (4 + (0 + 0))))
  apply (ahead_skipBytes 8).bind
  intro _
  apply ahead_readU32.bind
  intro n
  apply (Ahead.ofOption _).bind
  intro sampleBytes
  exact (ahead_skipBytes _).mono (Nat.zero_le _)

theorem ahead_skipVariant (variant : UInt8) :
    Ahead f.len 0 (skipVariant f variant : Prog σ Unit) := by
  unfold skipVariant
  apply Ahead.ite (.pure ())
  apply Ahead.ite ((ahead_readLenPrefixed.bind fun _ => .pure ()).mono (Nat.zero_le _))
  apply Ahead.ite ((ahead_skipBytes 8).mono (Nat.zero_le _))
  apply Ahead.ite ahead_skipCountRing
  apply Ahead.ite ((ahead_skipBytes _).mono (Nat.zero_le _))
  exact .ite ahead_skipTimeRing .fail

theorem ahead_skipRuleState : Ahead f.len 0 (skipRuleState f : Prog σ Unit) :=
  (ahead_readHead.bind fun head => ahead_skipVariant head.2.2.2).mono (Nat.zero_le _)

end Readers

/-! ## Slots -/

variable {N : Type} [Number N]

/-- A ring starts at its first element and fits the arrays it has. -/
def Added.RingOk (a : Added N) : Prop :=
  a.entry.kind = .ring → a.entry.ringStart = 0 ∧ a.entry.ringLen ≤ a.entry.ringCap ∧
    a.entry.ringCap ≤ a.values.length ∧ a.entry.ringValues = arrayAt (ofNat 0) a.values ∧
    (a.entry.ringTimeWindow = true →
      a.entry.ringCap ≤ a.times.length ∧ a.entry.ringTimes = arrayAt 0 a.times)

/-- The slots of a rule. -/
def slotsOf (p : Option (Program N)) (i : ℕ) : List (StateEntry N) :=
  ((p.bind fun p => p.rules[i]?).map fun rule => rule.state.items).getD []

/-- The new slots that belong to a rule. -/
def slotsIn (new : List (Added N)) (i : ℕ) : List (StateEntry N) :=
  (new.filter fun a => a.entry.ruleId == i).map Added.entry

/-- The slots that have been added since `d₀`. -/
structure Grew (d₀ d : LoadData N) (new : List (Added N)) : Prop where
  added : d.added = d₀.added ++ new
  slots : ∀ i, slotsOf d.program i = slotsOf d₀.program i ++ slotsIn new i
  rings : ∀ a ∈ new, a.RingOk

def Grown (d₀ d : LoadData N) : Prop := ∃ new, Grew d₀ d new

/-- The slot added last belongs to rule `idx` and is still zeroed. -/
def Ready (d₀ : LoadData N) (idx : ℕ) (d : LoadData N) : Prop :=
  ∃ new k, k.ruleId = idx ∧ Grew d₀ d (new ++ [⟨freshEntry k, [], []⟩])

theorem grown_refl (d : LoadData N) : Grown d d :=
  ⟨[], (List.append_nil _).symm, fun _ => (List.append_nil _).symm, fun _ h => nomatch h⟩

theorem Ready.grown {d₀ d : LoadData N} {idx : ℕ} (h : Ready d₀ idx d) : Grown d₀ d := by
  obtain ⟨new, k, -, hgrew⟩ := h
  exact ⟨_, hgrew⟩

theorem Grew.congr {d₀ d d' : LoadData N} {new : List (Added N)} (h : Grew d₀ d new)
    (hprogram : d'.program = d.program) (hadded : d'.added = d.added) : Grew d₀ d' new := by
  constructor
  · rw [hadded, h.added]
  · intro i
    rw [hprogram, h.slots]
  · exact h.rings

theorem ringOk_of_kind {a : Added N} (h : a.entry.kind ≠ .ring) : a.RingOk := fun hr => absurd hr h

omit [Number N] in
theorem slotsIn_append (new : List (Added N)) (a : Added N) (i : ℕ) :
    slotsIn (new ++ [a]) i = slotsIn new i ++ if a.entry.ruleId = i then [a.entry] else [] := by
  unfold slotsIn
  rw [List.filter_append, List.map_append]
  by_cases h : a.entry.ruleId = i
  · simp [h]
  · simp [h]

omit [Number N] in
theorem slotsOf_growRule (p : Option (Program N)) (idx cap i : ℕ) :
    slotsOf (p.map (growRule · idx cap)) i = slotsOf p i := by
  cases p with
  | none => rfl
  | some p =>
    unfold slotsOf growRule
    simp only [Option.map_some, Option.bind_some, List.getElem?_modify]
    cases p.rules[i]? with
    | none => simp
    | some rule => by_cases h : idx = i <;> simp [h]

omit [Number N] in
theorem slotsOf_pushEntry {p : Option (Program N)} {idx : ℕ} {rule : Rule N}
    (h : (p.bind fun p => p.rules[idx]?) = some rule) (e : StateEntry N) (i : ℕ) :
    slotsOf (p.map (pushEntry · idx e)) i = slotsOf p i ++ if idx = i then [e] else [] := by
  cases p with
  | none => cases h
  | some p =>
    unfold slotsOf pushEntry
    simp only [Option.map_some, Option.bind_some, List.getElem?_modify] at h ⊢
    by_cases hi : idx = i
    · subst hi
      simp [h]
    · cases p.rules[i]? with
      | none => simp [hi]
      | some rule => simp [hi]

omit [Number N] in
/-- A rule whose last slot is known gets another one in its place. -/
theorem slotsOf_setLastEntry {p : Option (Program N)} {idx : ℕ} {l : List (StateEntry N)}
    {x : StateEntry N} (h : slotsOf p idx = l ++ [x]) (e : StateEntry N) (i : ℕ) :
    slotsOf (p.map (setLastEntry · idx e)) i = if idx = i then l ++ [e] else slotsOf p i := by
  cases p with
  | none => simp [slotsOf] at h
  | some p =>
    unfold slotsOf setLastEntry at *
    simp only [Option.map_some, Option.bind_some, List.getElem?_modify] at h ⊢
    by_cases hi : idx = i
    · subst hi
      cases hr : p.rules[idx]? with
      | none => simp [hr] at h
      | some rule =>
        rw [hr] at h
        simp only [Option.map_some, Option.getD_some] at h
        simp [h]
    · simp [hi]

section Loading

variable {n : ℕ} {d₀ : LoadData N} {t : Tape (LoadData N)} {mem : Memory} {idx : ℕ}

omit [Number N] in
theorem meets_ask (hb : InBounds n t) {J : LoadData N → Prop}
    (hJ : ∀ d : LoadData N, d.program = t.data.program → d.added = t.data.added → J d) :
    Meets n J t (ask mem) fun _ t' =>
      t'.data.program = t.data.program ∧ t'.data.added = t.data.added := by
  apply (Meets.getData hb (hJ _ rfl rfl)).bind
  rintro _ _ - - - ⟨rfl, rfl⟩
  apply (Meets.modifyData hb (hJ _ rfl rfl)).bind
  rintro _ u hu hJu - ⟨-, hdata⟩
  exact .pure hu hJu ⟨by rw [hdata], by rw [hdata]⟩

omit [Number N] in
theorem meets_askBoth (hb : InBounds n t) {J : LoadData N → Prop}
    (hJ : ∀ d : LoadData N, d.program = t.data.program → d.added = t.data.added → J d) :
    Meets n J t (askBoth mem) fun _ t' =>
      t'.data.program = t.data.program ∧ t'.data.added = t.data.added := by
  apply (meets_ask hb hJ).bind
  rintro ok u hu hJu - ⟨hp, ha⟩
  apply Meets.ite
  · intro _
    apply (meets_ask hu fun d hdp hda => hJ d (hdp.trans hp) (hda.trans ha)).mono
    rintro _ v - ⟨hvp, hva⟩
    exact ⟨hvp.trans hp, hva.trans ha⟩
  · exact fun _ => .pure hu hJu ⟨hp, ha⟩

theorem meets_complete (hb : InBounds n t) (hready : Ready d₀ idx t.data)
    {fill : StateEntry N → StateEntry N} {values : List N} {times : List UInt64}
    (hrule : ∀ k, (fill (freshEntry k)).ruleId = k.ruleId)
    (hring : ∀ k, Added.RingOk ⟨fill (freshEntry k), values, times⟩) :
    Meets n (Grown d₀) t (complete idx fill values times) fun _ _ => True := by
  obtain ⟨new, k, rfl, hgrew⟩ := hready
  refine (Meets.modifyData hb ⟨new ++ [⟨fill (freshEntry k), values, times⟩], ?_⟩).mono
    fun _ _ _ _ => trivial
  have hlast : t.data.added.getLast? = some ⟨freshEntry k, [], []⟩ := by
    rw [hgrew.added, ← List.append_assoc, List.getLast?_concat]
  have hfresh : (freshEntry k : StateEntry N).ruleId = k.ruleId := rfl
  have hslot : slotsOf t.data.program k.ruleId =
      (slotsOf d₀.program k.ruleId ++ slotsIn new k.ruleId) ++ [freshEntry k] := by
    rw [hgrew.slots, slotsIn_append, if_pos hfresh, List.append_assoc]
  simp only [hlast]
  constructor
  · rw [hgrew.added, ← List.append_assoc, List.dropLast_concat, List.append_assoc]
  · intro i
    rw [slotsOf_setLastEntry hslot, slotsIn_append, hrule]
    by_cases hi : k.ruleId = i
    · rw [if_pos hi, if_pos hi, ← hi, List.append_assoc]
    · rw [if_neg hi, if_neg hi, hgrew.slots, slotsIn_append, hfresh, if_neg hi]
  · intro a ha
    rcases List.mem_append.mp ha with ha | ha
    · exact hgrew.rings a (List.mem_append_left _ ha)
    · rw [List.mem_singleton.mp ha]
      exact hring k

/-- A new slot is zeroed and belongs to its rule. -/
theorem meets_appendState (hb : InBounds n t) (hJ : Grown d₀ t.data) (filter key : Bytes) :
    Meets n (Grown d₀) t (appendState mem idx filter key) fun b t' =>
      b = true → Ready d₀ idx t'.data := by
  obtain ⟨new, hgrew⟩ := hJ
  have hJ : Grown d₀ t.data := ⟨new, hgrew⟩
  have hkeep : ∀ {u : Tape (LoadData N)}, Grew d₀ u.data new → ∀ d : LoadData N,
      d.program = u.data.program → d.added = u.data.added → Grown d₀ d :=
    fun hu d hp ha => ⟨new, hu.congr hp ha⟩
  apply (Meets.getData hb hJ).bind
  rintro _ _ - - - ⟨rfl, rfl⟩
  split
  · rename_i rule op subject hrule _
    apply Meets.ite
    · exact fun _ => .pure hb hJ nofun
    · intro _
      apply (meets_ask hb (hkeep hgrew)).bind
      rintro ok u hu hJu - ⟨hp, ha⟩
      split
      · exact .pure hu hJu nofun
      · rename_i st _
        -- the rule has got more room
        have hgrow : ∀ d : LoadData N, d.program = u.data.program.map (growRule · idx st.cap) →
            d.added = u.data.added → Grew d₀ d new := by
          intro d hdp hda
          constructor
          · rw [hda, ha, hgrew.added]
          · intro i
            rw [hdp, slotsOf_growRule, hp, hgrew.slots]
          · exact hgrew.rings
        apply (Meets.modifyData hu ⟨new, hgrow _ rfl rfl⟩).bind
        rintro _ v hv hJv - ⟨-, hvdata⟩
        have hgv : Grew d₀ v.data new := hgrow _ (by rw [hvdata]) (by rw [hvdata])
        apply (meets_askBoth hv (hkeep hgv)).bind
        rintro copied x hx hJx - ⟨hxp, hxa⟩
        have hgx : Grew d₀ x.data new := hgv.congr hxp hxa
        apply Meets.ite
        · intro _
          have hrx : (x.data.program.bind fun p => p.rules[idx]?) =
              some { rule with state.cap := st.cap } := by
            rw [hxp, hvdata, hp]
            cases hprog : t.data.program with
            | none =>
              rw [hprog] at hrule
              cases hrule
            | some p =>
              rw [hprog] at hrule
              simp only [Option.bind_some] at hrule
              simp [growRule, hrule]
          have hpush : Grew d₀ { x.data with
              program := x.data.program.map (pushEntry · idx (freshEntry ⟨idx, op, subject⟩))
              added := x.data.added ++ [⟨freshEntry ⟨idx, op, subject⟩, [], []⟩] }
              (new ++ [⟨freshEntry ⟨idx, op, subject⟩, [], []⟩]) := by
            constructor
            · rw [hgx.added, List.append_assoc]
            · intro i
              rw [slotsOf_pushEntry hrx, slotsIn_append, hgx.slots, List.append_assoc]
              rfl
            · intro a ha
              rcases List.mem_append.mp ha with ha | ha
              · exact hgx.rings a ha
              · rw [List.mem_singleton.mp ha]
                exact ringOk_of_kind (by simp [freshEntry])
          apply (Meets.modifyData hx ⟨_, hpush⟩).bind
          rintro _ y hy hJy - ⟨-, hydata⟩
          exact .pure hy hJy fun _ => ⟨new, ⟨idx, op, subject⟩, rfl, hydata ▸ hpush⟩
        · exact fun _ => .pure hx hJx nofun
  · exact .pure hb hJ nofun

end Loading

/-! ## Records -/

section Records

variable {f : File} {d₀ : LoadData N} {t : Tape (LoadData N)} {mem : Memory} {idx : ℕ}

/-- Reading leaves a slot as it is. -/
theorem Ahead.ready {α : Type} {k : ℕ} {p : Prog (LoadData N) α} (h : Ahead f.len k p)
    (hb : InBounds f.len t) {entry : Bool} (hJ : Grown d₀ t.data)
    (hready : entry = true → Ready d₀ idx t.data) :
    Meets f.len (Grown d₀) t p fun _ t' => entry = true → Ready d₀ idx t'.data := by
  apply (h (Grown d₀) t hb hJ).mono
  rintro _ t' - ⟨-, hdata⟩
  rw [hdata]
  exact hready

/-- The slot gets its contents, if there is one. -/
theorem meets_completeIf (hb : InBounds f.len t) {entry : Bool} (hJ : Grown d₀ t.data)
    (hready : entry = true → Ready d₀ idx t.data) {fill : StateEntry N → StateEntry N}
    {values : List N} {times : List UInt64}
    (hrule : ∀ k, (fill (freshEntry k)).ruleId = k.ruleId)
    (hring : ∀ k, Added.RingOk ⟨fill (freshEntry k), values, times⟩) :
    Meets f.len (Grown d₀) t (if entry then complete idx fill values times else pure ())
      fun _ _ => True := by
  apply Meets.ite
  · exact fun he => meets_complete hb (hready he) hrule hring
  · exact fun _ => .pure hb hJ trivial

theorem Ready.asked {d d' : LoadData N} (h : Ready d₀ idx d) (hp : d'.program = d.program)
    (ha : d'.added = d.added) : Ready d₀ idx d' := by
  obtain ⟨new, k, hk, hgrew⟩ := h
  exact ⟨new, k, hk, hgrew.congr hp ha⟩

theorem meets_askReady (hb : InBounds f.len t) (hready : Ready d₀ idx t.data) :
    Meets f.len (Grown d₀) t (ask mem) fun _ t' => Ready d₀ idx t'.data := by
  apply (meets_ask hb fun d hp ha => (hready.asked hp ha).grown).mono
  rintro _ t' - ⟨hp, ha⟩
  exact hready.asked hp ha

theorem length_callocArray {α : Type} (zero : α) (m : ℕ) : m ≤ (callocArray zero m).length := by
  unfold callocArray
  rw [List.length_replicate]
  split_ifs <;> omega

theorem meets_fillValues {J : LoadData N → Prop} (hb : InBounds f.len t) (hJ : J t.data)
    (start m i : ℕ) (values : List N) (hend : start + (i + m) * 8 ≤ f.len) :
    Meets f.len J t (fillValues f start m i values) fun xs t' =>
      xs.length = values.length ∧ t'.data = t.data := by
  induction m generalizing i values t with
  | zero => exact .pure hb hJ ⟨rfl, rfl⟩
  | succ m ih =>
    have hplus : plusSize start (i * 8) = start + i * 8 := plusSize_of_le (f := f) (by omega)
    have hread := @Meets.from_ _ _ _ _ _ _ (readF64 f : Prog (LoadData N) N) _ hb
      (ahead_readF64 J _ (inBounds_moved hb (p := plusSize start (i * 8)) (by omega)) hJ)
    apply hread.bind
    rintro x u hu hJu - ⟨-, v, ⟨-, hv⟩, huv⟩
    have hdata : u.data = t.data := huv.trans hv
    apply (ih hu hJu (i + 1) (values.set i x) (by omega)).mono
    rintro xs w - ⟨hlen, hw⟩
    exact ⟨by rw [hlen, List.length_set], hw.trans hdata⟩

theorem ahead_readSample : Ahead f.len 16 (readSample f : Prog (LoadData N) (N × UInt64)) :=
  ahead_readF64.bind fun _ => ahead_readU64.bind fun _ => .pure _

theorem meets_fillSamples {J : LoadData N → Prop} (hb : InBounds f.len t) (hJ : J t.data)
    (start m i : ℕ) (values : List N) (times : List UInt64) (sum : N)
    (hend : start + (i + m) * 16 ≤ f.len) :
    Meets f.len J t (fillSamples f start m i values times sum) fun r t' =>
      r.1.length = values.length ∧ r.2.1.length = times.length ∧ t'.data = t.data := by
  induction m generalizing i values times sum t with
  | zero => exact .pure hb hJ ⟨rfl, rfl, rfl⟩
  | succ m ih =>
    have hplus : plusSize start (i * 16) = start + i * 16 := plusSize_of_le (f := f) (by omega)
    have hread := @Meets.from_ _ _ _ _ _ _ (readSample f : Prog (LoadData N) (N × UInt64)) _ hb
      (ahead_readSample J _ (inBounds_moved hb (p := plusSize start (i * 16)) (by omega)) hJ)
    apply hread.bind
    rintro s u hu hJu - ⟨-, v, ⟨-, hv⟩, huv⟩
    have hdata : u.data = t.data := huv.trans hv
    apply (ih hu hJu (i + 1) (values.set i s.1) (times.set i s.2) (fadd sum s.1) (by omega)).mono
    rintro r w - ⟨hvalues, htimes, hw⟩
    exact ⟨by rw [hvalues, List.length_set], by rw [htimes, List.length_set], hw.trans hdata⟩

theorem meets_loadBytes (hb : InBounds f.len t) {entry : Bool} (hJ : Grown d₀ t.data)
    (hready : entry = true → Ready d₀ idx t.data) :
    Meets f.len (Grown d₀) t (loadBytes f mem idx entry) fun _ _ => True := by
  apply (Ahead.ready ahead_readLenPrefixed hb hJ hready).bind
  intro data u hu hJu _ hready
  apply Meets.ite
  · intro he
    apply (meets_askReady hu (hready he)).bind
    intro ok v hv hJv _ hready
    apply Meets.ite
    · exact fun _ => meets_complete hv hready (fun _ => rfl)
        fun _ => ringOk_of_kind (by simp)
    · exact fun _ => .fail hv hJv
  · exact fun _ => .pure hu hJu trivial

theorem meets_loadNumber (hb : InBounds f.len t) {entry : Bool} (hJ : Grown d₀ t.data)
    (hready : entry = true → Ready d₀ idx t.data) :
    Meets f.len (Grown d₀) t (loadNumber f idx entry) fun _ _ => True := by
  apply (Ahead.ready ahead_readF64 hb hJ hready).bind
  intro x u hu hJu _ hready
  exact meets_completeIf hu hJu hready (fun _ => rfl) fun _ => ringOk_of_kind (by simp)

theorem meets_loadCountRing (hb : InBounds f.len t) {entry : Bool} (hJ : Grown d₀ t.data)
    (hready : entry = true → Ready d₀ idx t.data) :
    Meets f.len (Grown d₀) t (loadCountRing f mem idx entry) fun _ _ => True := by
  apply (Ahead.ready ahead_readU32 hb hJ hready).bind
  intro cap t hb hJ _ hready
  apply (Ahead.ready ahead_readU64 hb hJ hready).bind
  intro savedLen t hb hJ _ hready
  apply (Ahead.ready ahead_readF64 hb hJ hready).bind
  intro sum t hb hJ _ hready
  have hfield : ∀ m, checkedFieldBytes cap 8 = some m → m = cap * 8 := by
    intro m hm
    unfold checkedFieldBytes at hm
    split at hm
    · cases hm
    · exact (Option.some.inj hm).symm
  apply (Meets.ofOption (Q := fun m t' => m = cap * 8 ∧ t = t') hb hJ
    fun m hm => ⟨hfield m hm, rfl⟩).bind
  rintro _ _ hb hJ - ⟨rfl, rfl⟩
  apply Meets.ite
  · exact fun _ => .fail hb hJ
  intro hlen
  apply (Meets.position hb hJ).bind
  rintro _ _ - - - ⟨rfl, rfl⟩
  -- the values lie before what is skipped
  apply (meets_skipBytes hb hJ).bind
  intro _ u hu hJu _ hskip
  have hvalues : t.pos + cap * 8 ≤ f.len := by
    rw [← hskip.1]
    exact hu.pos
  have hready : entry = true → Ready d₀ idx u.data := by
    rw [hskip.2]
    exact hready
  apply (Ahead.ready ahead_readU32 hu hJu hready).bind
  intro maxLen u hu hJu _ hready
  apply (Ahead.ready (ahead_skipBytes _) hu hJu hready).bind
  intro _ u hu hJu _ hready
  apply (Ahead.ready ahead_readU32 hu hJu hready).bind
  intro minLen u hu hJu _ hready
  apply (Ahead.ready (ahead_skipBytes _) hu hJu hready).bind
  intro _ u hu hJu _ hready
  apply Meets.ite
  · intro he
    apply (meets_askReady hu (hready he)).bind
    intro ok v hv hJv _ hready
    apply Meets.ite
    · intro _
      apply (meets_fillValues hv hJv t.pos savedLen.toNat 0 _ (by omega)).bind
      rintro xs w hw hJw - ⟨hxs, hwdata⟩
      rw [← hwdata] at hready
      refine meets_complete hw hready (fun _ => rfl) fun k _ => ⟨rfl, by simpa using hlen, ?_, rfl, nofun⟩
      change cap ≤ xs.length
      rw [hxs]
      exact length_callocArray _ cap
    · exact fun _ => .fail hv hJv
  · exact fun _ => .pure hu hJu trivial

theorem meets_loadBar (hb : InBounds f.len t) {entry : Bool} (hJ : Grown d₀ t.data)
    (hready : entry = true → Ready d₀ idx t.data) :
    Meets f.len (Grown d₀) t (loadBar f idx entry) fun _ _ => True := by
  apply (Ahead.ready ahead_readF64 hb hJ hready).bind
  intro op t hb hJ _ hready
  apply (Ahead.ready ahead_readF64 hb hJ hready).bind
  intro high t hb hJ _ hready
  apply (Ahead.ready ahead_readF64 hb hJ hready).bind
  intro low t hb hJ _ hready
  apply (Ahead.ready ahead_readU32 hb hJ hready).bind
  intro count t hb hJ _ hready
  apply (Ahead.ready ahead_readU32 hb hJ hready).bind
  intro cap t hb hJ _ hready
  apply (Ahead.ready ahead_readU64 hb hJ hready).bind
  intro windowMs t hb hJ _ hready
  apply (Ahead.ready ahead_readU64 hb hJ hready).bind
  intro windowStartMs t hb hJ _ hready
  apply (Ahead.ready ahead_readF64 hb hJ hready).bind
  intro lastClose t hb hJ _ hready
  exact meets_completeIf hb hJ hready (fun _ => rfl) fun _ => ringOk_of_kind (by simp)

theorem meets_loadTimeRing (hb : InBounds f.len t) {entry : Bool} (hJ : Grown d₀ t.data)
    (hready : entry = true → Ready d₀ idx t.data) :
    Meets f.len (Grown d₀) t (loadTimeRing f mem idx entry) fun _ _ => True := by
  apply (Ahead.ready ahead_readU64 hb hJ hready).bind
  intro windowMs t hb hJ _ hready
  apply (Ahead.ready ahead_readU32 hb hJ hready).bind
  intro m t hb hJ _ hready
  apply (Meets.position hb hJ).bind
  rintro _ _ - - - ⟨rfl, rfl⟩
  apply (meets_skipBytes hb hJ).bind
  intro _ u hu hJu _ hskip
  have hsamples : t.pos + m * 16 ≤ f.len := by
    rw [← hskip.1]
    exact hu.pos
  have hready : entry = true → Ready d₀ idx u.data := by
    rw [hskip.2]
    exact hready
  apply Meets.ite
  · intro he
    apply (meets_askReady hu (hready he)).bind
    intro valuesOk v hv hJv _ hready
    apply (meets_askReady hv hready).bind
    intro timesOk v hv hJv _ hready
    apply Meets.ite
    · intro _
      apply (meets_fillSamples hv hJv t.pos m 0 _ _ _ (by omega)).bind
      rintro r w hw hJw - ⟨hvalues, htimes, hwdata⟩
      rw [← hwdata] at hready
      refine meets_complete hw hready (fun _ => rfl) fun k _ => ⟨rfl, le_rfl, ?_, rfl, fun _ => ⟨?_, rfl⟩⟩
      · change m ≤ r.1.length
        rw [hvalues]
        exact length_callocArray _ m
      · change m ≤ r.2.1.length
        rw [htimes]
        exact length_callocArray _ m
    · exact fun _ => .fail hv hJv
  · exact fun _ => .pure hu hJu trivial

theorem meets_loadVariant (hb : InBounds f.len t) {entry : Bool} (hJ : Grown d₀ t.data)
    (hready : entry = true → Ready d₀ idx t.data) (variant : UInt8) :
    Meets f.len (Grown d₀) t (loadVariant f mem idx variant entry) fun _ _ => True := by
  unfold loadVariant
  apply Meets.ite
  · exact fun _ => meets_completeIf hb hJ hready (fun _ => rfl) fun _ => ringOk_of_kind (by simp)
  intro _
  apply Meets.ite fun _ => meets_loadBytes hb hJ hready
  intro _
  apply Meets.ite fun _ => meets_loadNumber hb hJ hready
  intro _
  apply Meets.ite fun _ => meets_loadCountRing hb hJ hready
  intro _
  apply Meets.ite fun _ => meets_loadBar hb hJ hready
  intro _
  apply Meets.ite fun _ => meets_loadTimeRing hb hJ hready
  exact fun _ => .fail hb hJ

theorem meets_loadRuleState (hb : InBounds f.len t) (hJ : Grown d₀ t.data) :
    Meets f.len (Grown d₀) t (loadRuleState f mem) fun _ _ => True := by
  apply (ahead_readHead (Grown d₀) t hb hJ).bind
  intro head u hu hJu _ _
  apply (meets_appendState hu hJu head.2.1 head.2.2.1).bind
  intro entry v hv hJv _ hready
  exact meets_loadVariant hv hJv hready head.2.2.2

theorem meets_loadLvc (hb : InBounds f.len t) (hJ : Grown d₀ t.data) :
    Meets f.len (Grown d₀) t (loadLvc f mem) fun _ _ => True := by
  apply (ahead_readLenPrefixed (Grown d₀) t hb hJ).bind
  intro subject u hu hJu _ _
  apply (ahead_readLenPrefixed (Grown d₀) u hu hJu).bind
  intro payload u hu hJu _ _
  apply (Meets.getData hu hJu).bind
  rintro _ _ - - - ⟨rfl, rfl⟩
  have hkeep : ∀ {d d' : LoadData N}, Grown d₀ d → d'.program = d.program →
      d'.added = d.added → Grown d₀ d' := by
    rintro d d' ⟨new, hgrew⟩ hp ha
    exact ⟨new, hgrew.congr hp ha⟩
  apply (Meets.modifyData hu (hkeep hJu rfl rfl)).bind
  intro _ v hv hJv _ _
  apply Meets.ite
  · intro _
    exact (Meets.modifyData hv (hkeep hJv rfl rfl)).mono fun _ _ _ _ => trivial
  · exact fun _ => .fail hv hJv

/-- A record moves the position on. -/
theorem meets_loadRecord (hb : InBounds f.len t) (hJ : Grown d₀ t.data) :
    Meets f.len (Grown d₀) t (loadRecord f mem) fun _ t' => t.pos < t'.pos := by
  apply (ahead_readU8 (Grown d₀) t hb hJ).bind
  rintro kind u hu hJu - ⟨hpos, -⟩
  have hrest : ∀ {p : Prog (LoadData N) Unit},
      Meets f.len (Grown d₀) u p (fun _ _ => True) →
      Meets f.len (Grown d₀) u p fun _ t' => t.pos < t'.pos := by
    rintro p ⟨hb', hJ', hle, -⟩
    exact ⟨hb', hJ', hle, fun _ _ => by omega⟩
  apply Meets.ite
  · exact fun _ => hrest (meets_loadLvc hu hJu)
  intro _
  apply Meets.ite
  · intro _
    apply (Meets.getData hu hJu).bind
    rintro _ _ - - - ⟨rfl, rfl⟩
    apply Meets.ite
    · intro _
      exact hrest ((ahead_skipRuleState (Grown d₀) u hu hJu).mono fun _ _ _ _ => trivial)
    · exact fun _ => hrest (meets_loadRuleState hu hJu)
  · exact fun _ => .fail hu hJu

/-! ## The whole file -/

/-- The loop ends, in bounds, after at most as many rounds as there are bytes left. -/
theorem loadLoop_ends (t : Tape (LoadData N)) (hb : InBounds f.len t) (hJ : Grown d₀ t.data) :
    ∃ ok t', InBounds f.len t' ∧ Grown d₀ t'.data ∧
      ∀ fuel, f.len - t.pos ≤ fuel → loadLoop f mem fuel t = some (ok, t') := by
  by_cases hlt : t.pos < f.len
  · obtain ⟨hb', hJ', -, hpost⟩ := @meets_loadRecord _ _ f _ _ mem hb hJ
    cases hrec : loadRecord f mem t with
    | mk o u =>
      rw [hrec] at hb' hJ' hpost
      cases o with
      | none =>
        refine ⟨false, u, hb', hJ', fun fuel hfuel => ?_⟩
        obtain ⟨fuel, rfl⟩ := Nat.exists_eq_succ_of_ne_zero (show fuel ≠ 0 by omega)
        rw [loadLoop, if_pos hlt]
        simp only [hrec]
      | some x =>
        have hpos : t.pos < u.pos := hpost x rfl
        obtain ⟨ok, t', hbt, hJt, hrun⟩ := loadLoop_ends u hb' hJ'
        refine ⟨ok, t', hbt, hJt, fun fuel hfuel => ?_⟩
        obtain ⟨fuel, rfl⟩ := Nat.exists_eq_succ_of_ne_zero (show fuel ≠ 0 by omega)
        rw [loadLoop, if_pos hlt]
        simp only [hrec]
        exact hrun fuel (by omega)
  · refine ⟨true, t, hb, hJ, fun fuel _ => ?_⟩
    unfold loadLoop
    rw [if_neg hlt]
termination_by f.len - t.pos

end Records

/-- **Loading is total and in bounds.** Whatever the bytes and the memory, the load
returns `true` or `false`; every index it has read is inside the file and no position has
passed the end; the slots added are the ones behind the old slots of each rule, their rings
start at the first element and fit their arrays; and every record that is consumed, loaded
or skipped, moves the position on. -/
theorem load_total_in_bounds (f : File) (mem : Memory) (r : Router) (p : Option (Program N)) :
    (∃ ok t new,
      (∀ fuel, f.len ≤ fuel → snapshotLoad f mem fuel r p = some (ok, t)) ∧
      t.pos ≤ f.len ∧ (∀ i ∈ t.reads, i < f.len) ∧ (∀ q ∈ t.marks, q ≤ f.len) ∧
      (∀ i, slotsOf t.data.program i = slotsOf p i ++ slotsIn new i) ∧
      ∀ a ∈ new, a.RingOk) ∧
    ∀ t : Tape (LoadData N), InBounds f.len t → (loadRecord f mem t).1 = some () →
      t.pos < (loadRecord f mem t).2.pos := by
  constructor
  · generalize hd : (⟨r, p, ⟨0, 0⟩, [], 0⟩ : LoadData N) = d
    have hprogram : d.program = p := by rw [← hd]
    -- the load ends in a tape in bounds
    have hload : ∃ ok t, (∀ fuel, f.len ≤ fuel → snapshotLoad f mem fuel r p = some (ok, t)) ∧
        InBounds f.len t ∧ Grown d t.data := by
      unfold snapshotLoad
      rw [hd]
      by_cases hshort : f.len < 8
      · refine ⟨true, ⟨0, [], [], d⟩, fun fuel _ => if_pos hshort, ?_, grown_refl d⟩
        exact ⟨Nat.zero_le _, nofun, nofun⟩
      · have hreads : ∀ i ∈ [0, 1, 2, 3, 4], i < f.len := by
          intro i hi
          have : i ≤ 4 := by
            simp only [List.mem_cons, List.not_mem_nil, or_false] at hi
            omega
          omega
        by_cases hheader : headerOk f.bytes = true
        · have hb : InBounds f.len (⟨8, [0, 1, 2, 3, 4], [8], d⟩ : Tape (LoadData N)) := by
            refine ⟨by simpa using hshort, hreads, fun q hq => ?_⟩
            rw [List.mem_singleton.mp hq]
            omega
          obtain ⟨ok, t, hbt, hJt, hrun⟩ := @loadLoop_ends _ _ f _ mem _ hb (grown_refl d)
          refine ⟨ok, t, fun fuel hfuel => ?_, hbt, hJt⟩
          rw [if_neg hshort]
          dsimp only
          rw [if_neg (by simp [hheader])]
          exact hrun fuel (by omega)
        · refine ⟨true, ⟨0, [0, 1, 2, 3, 4], [], d⟩, fun fuel _ => ?_, ?_, grown_refl d⟩
          · rw [if_neg hshort]
            dsimp only
            rw [if_pos (by simpa using hheader)]
          · exact ⟨Nat.zero_le _, hreads, nofun⟩
    obtain ⟨ok, t, hrun, hb, new, hgrew⟩ := hload
    refine ⟨ok, t, new, hrun, hb.pos, hb.reads, hb.marks, fun i => ?_, hgrew.rings⟩
    rw [hgrew.slots, hprogram]
  · intro t hb hrec
    exact (meets_loadRecord hb (grown_refl t.data)).post () hrec

end Monoblok.Snapshot.Positioned
