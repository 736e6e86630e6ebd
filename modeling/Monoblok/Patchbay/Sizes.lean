import Monoblok.Patchbay.WindowForms

/-!
# Window forms on a slot they did not make

A slot keeps the size of its window from the evaluation that made it. A form that
finds such a slot follows its own size, in every run, exactly where the two sizes
agree: for the throttle over a stretch of time a larger stretch will do, because it
evicts by its own, and a window whose oldest sample can no longer be outlived does
not tell.
-/

namespace Monoblok.Patchbay

open Circular Number Sliding

variable {N : Type} [Number N]

/-! ## What a form should hold -/

namespace Window

/-- The samples that are not too old for the window. -/
def keep (w : Window) (now : UInt64) (held : List (UInt64 × N)) : List (UInt64 × N) :=
  if w.timeWindow then held.dropWhile (old w.ms now) else held

def add (w : Window) (held new : List (UInt64 × N)) : List (UInt64 × N) :=
  if w.timeWindow then held ++ new else (held ++ new).rtake w.count

end Window

/-- A slot, and the samples the form would hold by its own size. -/
structure Measured (N : Type) where
  entry : StateEntry N
  held : List (UInt64 × N)

namespace WindowForm

def track (f : WindowForm N) (t : Measured N) : FormEvent N → Measured N
  | .message A now x v =>
    let s := f.sample A now x v t.entry
    ⟨s.1, f.window.add (f.window.keep now t.held) ((s.2.getD []).map (now, ·))⟩
  | .tick A now => ⟨(tickEntry A now t.entry).entry, f.window.keep now t.held⟩

def tracks (f : WindowForm N) (t : Measured N) (events : List (FormEvent N)) : Measured N :=
  events.foldl f.track t

omit [Number N] in
/-- The first array of a tick throttle is used without a look at whether there is
one, so that its runs need memory. -/
def Served (f : WindowForm N) : FormEvent N → Prop
  | .message A _ _ _ =>
    match f with
    | stat _ => True
    | throttle w _ => w.timeWindow = false → ∀ site, A site = true
  | .tick _ _ => True

/-- In every run each message finds the samples that the size of the form asks for,
and only a lack of memory makes it fail. -/
def Follows (f : WindowForm N) (e : StateEntry N) : Prop :=
  ∀ (events : List (FormEvent N)) (A : EvalAlloc → Bool) (now : UInt64) (x : N) (v : Value N),
    ((events ++ [FormEvent.message A now x v]).map FormEvent.now).Pairwise (· ≤ ·) →
    (∀ event ∈ events ++ [.message A now x v], f.Served event) →
    let t := f.tracks ⟨e, e.samples⟩ events
    let t' := f.track t (.message A now x v)
    ((∀ site, A site = true) → (f.sample A now x v t.entry).2.isSome = true) ∧
      t'.entry.ringList = t'.held.map Prod.snd

/-- The sizes are at least one, as the forms check. -/
def Checked : WindowForm N → Prop
  | stat w => w.timeWindow = false → 0 < w.count
  | throttle w max => (w.timeWindow = false → 0 < w.count) ∧ 0 < (toU64 max).toNat

/-- The oldest sample stays in the smaller of two windows up to the last time there
is. -/
def Lasting (e : StateEntry N) (ms : UInt64) : Prop :=
  ∃ s, e.samples.head? = some s ∧ 2 ^ 64 ≤ s.1.toNat + min e.ringWindowMs.toNat ms.toNat + 1

/-- The size of the slot and the size of the form. -/
def SizeAgrees (f : WindowForm N) (e : StateEntry N) : Prop :=
  match f with
  | stat w =>
    if w.timeWindow then e.ringWindowMs = w.ms ∨ Lasting e w.ms
    else e.ringCap = w.count ∨ e.ringCap = 0
  | throttle w _ =>
    if w.timeWindow then w.ms ≤ e.ringWindowMs ∨ Lasting e w.ms
    else e.ringCap = w.count

end WindowForm

/-! ## Evaluations that find their slot -/

section Found

variable {f : WindowForm N} {A : EvalAlloc → Bool} {now : UInt64} {e : StateEntry N}

theorem sample_congr {e' : StateEntry N} (h : windowSlot A f.window e = windowSlot A f.window e')
    (x : N) (v : Value N) : f.sample A now x v e = f.sample A now x v e' := by
  cases f with
  | stat w =>
    have h' : windowSlot A w e = windowSlot A w e' := h
    unfold WindowForm.sample windowSample
    dsimp only
    rw [h']
  | throttle w max =>
    have h' : windowSlot A w e = windowSlot A w e' := h
    have hstep : throttle A w now max v e = throttle A w now max v e' := by
      unfold throttle
      rw [h']
    unfold WindowForm.sample
    dsimp only
    rw [hstep]

theorem ringPushTime_isSome (hA : ∀ site, A site = true) (e : StateEntry N) (x : N) (t : UInt64) :
    ∃ e', e.ringPushTime A x t = some e' := by
  unfold StateEntry.ringPushTime
  dsimp only
  split
  · obtain ⟨e', he'⟩ := ringReserve_isSome hA e (if e.ringCap = 0 then 16 else e.ringCap * 2) true
    rw [he']
    exact ⟨_, rfl⟩
  · exact ⟨_, rfl⟩

/-- With memory only a slot of another kind makes an evaluation fail. -/
theorem sample_isSome_iff (hA : ∀ site, A site = true) (x : N) (v : Value N) :
    (f.sample A now x v e).2.isSome = true ↔
      e.kind = .empty ∨ e.kind = .ring ∧ e.ringTimeWindow = f.window.timeWindow := by
  have hslot : (windowSlot A f.window e).2 = true ↔
      e.kind = .empty ∨ e.kind = .ring ∧ e.ringTimeWindow = f.window.timeWindow := by
    constructor
    · intro h
      by_cases hempty : e.kind = .empty
      · exact .inl hempty
      · unfold windowSlot at h
        rw [if_neg hempty, Bool.and_eq_true, decide_eq_true_eq, beq_iff_eq] at h
        exact .inr h
    · exact windowSlot_ok hA
  rw [← hslot]
  cases f with
  | stat w =>
    unfold WindowForm.sample windowSample WindowForm.window
    dsimp only
    generalize windowSlot A w e = r
    obtain ⟨e₁, ok⟩ := r
    cases ok with
    | false => simp
    | true =>
      have hpush := windowPush_ok hA e₁ w.timeWindow w.count w.ms now x
      dsimp only
      generalize e₁.windowPush A w.timeWindow w.count w.ms now x = r at hpush ⊢
      obtain ⟨e₂, ok⟩ := r
      cases hpush
      simp
  | throttle w max =>
    have hresult : (∃ u, (throttle A w now max v e).result = .ok u) ↔
        (windowSlot A w e).2 = true := by
      unfold throttle
      generalize windowSlot A w e = r
      obtain ⟨e₁, ok⟩ := r
      cases ok with
      | false => simp [SlotStep.fail]
      | true =>
        dsimp only
        obtain ⟨e₂, he₂⟩ := ringPushTime_isSome hA
          (e₁.ringEvictTime (StateEntry.cutoff now w.ms)) (ofNat 1) now
        split_ifs
        · simp [SlotStep.suppress]
        · rw [he₂]
          simp [SlotStep.done]
        all_goals simp
    unfold WindowForm.sample WindowForm.window
    dsimp only
    rw [← hresult]
    cases (throttle A w now max v e).result <;> simp

end Found

/-! ## Windows of time -/

section Time

variable {f : WindowForm N} {A : EvalAlloc → Bool} {now now' : UInt64} {e : StateEntry N}
  {t : Measured N}

omit [Number N] in
theorem old_mono {ms ms' : UInt64} (hms : ms' ≤ ms) (hnow : now ≤ now') {s : UInt64 × N}
    (h : old ms now s = true) : old ms' now' s = true := by
  rw [old, decide_eq_true_eq] at h ⊢
  rw [UInt64.le_iff_toNat_le] at hms hnow
  omega

omit [Number N] in
/-- A window whose oldest sample lasts loses nothing. -/
theorem dropWhile_old_of_head {l : List (UInt64 × N)} {s : UInt64 × N} {ms : UInt64}
    (h : l.head? = some s) (hnow : now.toNat ≤ s.1.toNat + ms.toNat) :
    l.dropWhile (old ms now) = l := by
  cases l with
  | nil => rfl
  | cons s' l =>
    cases h
    rw [List.dropWhile_cons, if_neg]
    rw [old, decide_eq_true_eq]
    omega

/-- The slot of a form whose size agrees: it holds what it should, after samples that
the next evaluation will drop, or all samples last. -/
inductive KeepsUp (f : WindowForm N) (now : UInt64) (t : Measured N) : Prop
  | empty (kind : t.entry.kind = .empty) (cap : t.entry.ringCap = 0) (len : t.entry.ringLen = 0)
      (held : t.held = [])
  | agrees (ring : TimeRing t.entry) (reads : f.msFor t.entry = f.window.ms)
      (le : f.window.ms ≤ t.entry.ringWindowMs) (gone : List (UInt64 × N))
      (samples : t.entry.samples = gone ++ t.held) (old : ∀ s ∈ gone, old f.window.ms now s = true)
  | lasts (ring : TimeRing t.entry) (samples : t.entry.samples = t.held)
      (lasting : WindowForm.Lasting t.entry f.window.ms)

omit [Number N] in
theorem KeepsUp.inRing (h : KeepsUp f now t) : InRing t.entry := by
  cases h with
  | empty _ hcap hlen _ => exact ⟨hlen.trans_le (Nat.zero_le _), fun hne => absurd hcap hne⟩
  | agrees ring => exact ring.inRing
  | lasts ring => exact ring.inRing

omit [Number N] in
theorem KeepsUp.kind (h : KeepsUp f now t) :
    t.entry.kind = .empty ∨ t.entry.kind = .ring ∧ t.entry.ringTimeWindow = true := by
  cases h with
  | empty hkind => exact .inl hkind
  | agrees ring => exact .inr ⟨ring.kind, ring.timeWindow⟩
  | lasts ring => exact .inr ⟨ring.kind, ring.timeWindow⟩

omit [Number N] in
theorem add_keep (hw : f.window.timeWindow = true) (now : UInt64) (l new : List (UInt64 × N)) :
    f.window.add (f.window.keep now l) new = l.dropWhile (old f.window.ms now) ++ new := by
  rw [Window.add, Window.keep, if_pos hw, if_pos hw]

theorem keepsUp_message_agrees (hw : f.window.timeWindow = true) (hnow : now ≤ now')
    (ring : TimeRing t.entry) (reads : f.msFor t.entry = f.window.ms)
    (le : f.window.ms ≤ t.entry.ringWindowMs) {gone : List (UInt64 × N)}
    (samples : t.entry.samples = gone ++ t.held) (hgone : ∀ s ∈ gone, old f.window.ms now s = true)
    (x : N) (v : Value N) :
    KeepsUp f now' (f.track t (.message A now' x v)) ∧
      (f.track t (.message A now' x v)).entry.samples =
        (f.track t (.message A now' x v)).held := by
  obtain ⟨hring', hms', hlist⟩ := @timedStep_sample _ _ A now' _ _ ring hw x v
  have hsame : (f.sample A now' x v t.entry).1.samples =
      f.window.add (f.window.keep now' t.held)
        (((f.sample A now' x v t.entry).2.getD []).map (now', ·)) := by
    rw [add_keep hw, hlist, reads, samples, List.dropWhile_append_of_pos]
    intro s hs
    exact old_mono (UInt64.le_refl _) hnow (hgone s hs)
  exact ⟨.agrees hring' ((msFor_congr hms').trans reads) (hms' ▸ le) [] hsame (by simp), hsame⟩

theorem keepsUp_message (hw : f.window.timeWindow = true) (h : KeepsUp f now t) (hnow : now ≤ now')
    (x : N) (v : Value N) :
    KeepsUp f now' (f.track t (.message A now' x v)) ∧
      (f.track t (.message A now' x v)).entry.samples =
        (f.track t (.message A now' x v)).held := by
  cases h with
  | empty hkind hcap hlen hheld =>
    obtain ⟨e, held⟩ := t
    dsimp only at hkind hcap hlen hheld
    subst hheld
    -- the slot that the evaluation makes of it
    have hopen : windowSlot A f.window e =
        ({ e with kind := .ring, ringTimeWindow := true, ringWindowMs := f.window.ms }, true) := by
      unfold windowSlot
      rw [if_pos hkind, hw]
      rfl
    have hring : TimeRing
        { e with kind := .ring, ringTimeWindow := true, ringWindowMs := f.window.ms } :=
      ⟨rfl, rfl, hlen.trans_le (Nat.zero_le _), fun hne => absurd hcap hne⟩
    have hsame := @sample_congr _ _ _ _ now' _ _ (hopen.trans (hring.windowSlot hw).symm) x v
    have hreads : f.msFor { e with
        kind := .ring, ringTimeWindow := true, ringWindowMs := f.window.ms } = f.window.ms := by
      cases f with
      | stat w =>
        unfold WindowForm.msFor WindowForm.window
        exact ite_self _
      | throttle w max => rfl
    have hstep := @keepsUp_message_agrees _ _ _ A now _
      ⟨{ e with kind := .ring, ringTimeWindow := true, ringWindowMs := f.window.ms }, []⟩
      hw hnow hring hreads (UInt64.le_refl _) [] (samples_eq_nil hlen) (by simp) x v
    have htrack : f.track ⟨e, []⟩ (.message A now' x v) =
        f.track ⟨{ e with
          kind := .ring, ringTimeWindow := true, ringWindowMs := f.window.ms }, []⟩
          (.message A now' x v) := by
      unfold WindowForm.track
      dsimp only
      rw [hsame]
    rw [htrack]
    exact hstep
  | agrees hring hreads hle gone hsamples hgone =>
    exact keepsUp_message_agrees hw hnow hring hreads hle hsamples hgone x v
  | lasts hring hsamples hlasting =>
    obtain ⟨hring', hms', hlist⟩ := @timedStep_sample _ _ A now' _ _ hring hw x v
    obtain ⟨s, hhead, hroom⟩ := hlasting
    have hbound : now'.toNat < 2 ^ 64 := UInt64.toNat_lt now'
    have hreads : min t.entry.ringWindowMs.toNat f.window.ms.toNat ≤ (f.msFor t.entry).toNat := by
      cases f with
      | stat w =>
        unfold WindowForm.msFor WindowForm.window
        dsimp only
        split_ifs
        · exact min_le_right _ _
        · exact min_le_left _ _
      | throttle w max => exact min_le_right _ _
    have hmin := min_le_right t.entry.ringWindowMs.toNat f.window.ms.toNat
    have hsame : (f.sample A now' x v t.entry).1.samples =
        t.entry.samples ++ ((f.sample A now' x v t.entry).2.getD []).map (now', ·) := by
      rw [hlist, dropWhile_old_of_head hhead (by omega)]
    have hheld : f.window.add (f.window.keep now' t.held)
        (((f.sample A now' x v t.entry).2.getD []).map (now', ·)) =
        t.entry.samples ++ ((f.sample A now' x v t.entry).2.getD []).map (now', ·) := by
      rw [add_keep hw, ← hsamples, dropWhile_old_of_head hhead (by omega)]
    refine ⟨.lasts hring' (hsame.trans hheld.symm) ⟨s, ?_, ?_⟩, hsame.trans hheld.symm⟩
    · change (f.sample A now' x v t.entry).1.samples.head? = some s
      rw [hsame, List.head?_append, hhead]
      rfl
    · rw [show (f.track t (.message A now' x v)).entry.ringWindowMs = t.entry.ringWindowMs from hms']
      exact hroom

theorem keepsUp_tick (hw : f.window.timeWindow = true) (h : KeepsUp f now t) (hnow : now ≤ now') :
    KeepsUp f now' (f.track t (.tick A now')) := by
  have hkeep : ∀ l : List (UInt64 × N), f.window.keep now' l = l.dropWhile (old f.window.ms now') := by
    intro l
    rw [Window.keep, if_pos hw]
  cases h with
  | empty hkind hcap hlen hheld =>
    have htick : (tickEntry A now' t.entry).entry = t.entry := by
      apply tickEntry_idle
      all_goals
        rw [hkind]
        decide
    unfold WindowForm.track
    dsimp only
    rw [htick, hheld, hkeep]
    exact .empty hkind hcap hlen rfl
  | agrees hring hreads hle gone hsamples hgone =>
    obtain ⟨hring', hms', hlist⟩ := @TimeRing.tick _ _ A now' _ hring
    have hsplit : ∃ gone', t.entry.samples.dropWhile (old t.entry.ringWindowMs now') =
        gone' ++ t.held.dropWhile (old f.window.ms now') ∧
          ∀ s ∈ gone', old f.window.ms now' s = true := by
      have hmore : t.entry.samples.dropWhile (old f.window.ms now') =
          t.held.dropWhile (old f.window.ms now') := by
        rw [hsamples, List.dropWhile_append_of_pos]
        intro s hs
        exact old_mono (UInt64.le_refl _) hnow (hgone s hs)
      rw [← hmore]
      apply dropWhile_split
      intro s hs
      exact old_mono hle (UInt64.le_refl _) hs
    obtain ⟨gone', hgone', hold⟩ := hsplit
    refine .agrees hring' ((msFor_congr hms').trans hreads) (hms'.symm ▸ hle) gone' ?_ hold
    change (tickEntry A now' t.entry).entry.samples = gone' ++ f.window.keep now' t.held
    rw [hlist, hkeep, hgone']
  | lasts hring hsamples hlasting =>
    obtain ⟨hring', hms', hlist⟩ := @TimeRing.tick _ _ A now' _ hring
    obtain ⟨s, hhead, hroom⟩ := hlasting
    have hbound : now'.toNat < 2 ^ 64 := UInt64.toNat_lt now'
    have hleft := min_le_left t.entry.ringWindowMs.toNat f.window.ms.toNat
    have hright := min_le_right t.entry.ringWindowMs.toNat f.window.ms.toNat
    have hsame : (tickEntry A now' t.entry).entry.samples = t.entry.samples := by
      rw [hlist, dropWhile_old_of_head hhead (by omega)]
    refine .lasts hring' ?_ ⟨s, ?_, ?_⟩
    · change (tickEntry A now' t.entry).entry.samples = f.window.keep now' t.held
      rw [hsame, hkeep, ← hsamples, dropWhile_old_of_head hhead (by omega)]
    · change (tickEntry A now' t.entry).entry.samples.head? = some s
      rw [hsame]
      exact hhead
    · rw [show (f.track t (.tick A now')).entry.ringWindowMs = t.entry.ringWindowMs from hms']
      exact hroom

theorem tracks_concat (f : WindowForm N) (t : Measured N) (events : List (FormEvent N))
    (event : FormEvent N) : f.tracks t (events ++ [event]) = f.track (f.tracks t events) event :=
  List.foldl_concat f.track t event events

theorem keepsUp_tracks (hw : f.window.timeWindow = true) {events : List (FormEvent N)}
    {last : FormEvent N} (h : KeepsUp f now t)
    (htimes : (now :: (events ++ [last]).map FormEvent.now).Pairwise (· ≤ ·)) :
    ∃ now', now' ≤ last.now ∧ KeepsUp f now' (f.tracks t events) := by
  induction events generalizing now t with
  | nil => exact ⟨now, List.rel_of_pairwise_cons htimes List.mem_cons_self, h⟩
  | cons event events ih =>
    have hnow : now ≤ event.now := List.rel_of_pairwise_cons htimes List.mem_cons_self
    apply ih _ htimes.of_cons
    cases event with
    | message A now' x v => exact (keepsUp_message hw h hnow x v).1
    | tick A now' => exact keepsUp_tick hw h hnow

omit [Number N] in
theorem served_of_memory (f : WindowForm N) (now : UInt64) (x : N) (v : Value N) :
    f.Served (.message (fun _ => true) now x v) := by
  cases f with
  | stat w => trivial
  | throttle w max => exact fun _ _ => rfl

omit [Number N] in
theorem length_samples (e : StateEntry N) : e.samples.length = e.ringLen := by
  rw [StateEntry.samples, window, List.length_map, List.length_range]

/-- The first sample of an empty window finds room. -/
theorem sample_first (hf : f.Checked) (hw : f.window.timeWindow = true) (ring : TimeRing e)
    (hnil : e.samples = []) (now : UInt64) (x : N) (v : Value N) :
    ∃ y, (f.sample (fun _ => true) now x v e).2 = some [y] := by
  have hsome := (@sample_isSome_iff _ _ f _ now _ (fun _ => rfl) x v).mpr
    (.inr ⟨ring.kind, ring.timeWindow.trans hw.symm⟩)
  cases f with
  | stat w =>
    unfold WindowForm.sample at hsome ⊢
    dsimp only at hsome ⊢
    generalize windowSample (fun _ => true) w now x e = r at hsome ⊢
    obtain ⟨e', ok⟩ := r
    cases ok with
    | false => cases hsome
    | true => exact ⟨x, rfl⟩
  | throttle w max =>
    have hw' : w.timeWindow = true := hw
    obtain ⟨hring, -, hlist⟩ := ring.evict now w.ms
    have hlen : (e.ringEvictTime (StateEntry.cutoff now w.ms)).ringLen = 0 := by
      rw [← length_samples, hlist, hnil]
      rfl
    obtain ⟨e', he'⟩ := ringPushTime_isSome (fun _ => rfl)
      (e.ringEvictTime (StateEntry.cutoff now w.ms)) (ofNat 1) now
    have hstep : throttle (fun _ => true) w now max v e = .done e' v := by
      unfold throttle
      rw [ring.windowSlot hw']
      dsimp only
      rw [hw', if_pos rfl, hlen, if_neg (not_le.mpr hf.2), he']
    unfold WindowForm.sample
    dsimp only
    rw [hstep]
    exact ⟨ofNat 1, rfl⟩

/-- The event at which a window of another size shows: right after the smaller of the
two has let the oldest sample go. -/
theorem sizes_show (hw : f.window.timeWindow = true) (ring : TimeRing t.entry)
    (samples : t.entry.samples = t.held) {s : UInt64 × N} (hhead : t.held.head? = some s)
    (hsize : t.entry.ringWindowMs < f.window.ms ∨
      f.window.ms < t.entry.ringWindowMs ∧ f.msFor t.entry = t.entry.ringWindowMs)
    (hnow : now.toNat = s.1.toNat + min t.entry.ringWindowMs.toNat f.window.ms.toNat + 1)
    (x : N) (v : Value N) :
    (f.track (f.track t (.tick A now)) (.message A now x v)).entry.ringList.length ≠
      (f.track (f.track t (.tick A now)) (.message A now x v)).held.length := by
  obtain ⟨ring₁, hms₁, hlist₁⟩ := @TimeRing.tick _ _ A now _ ring
  obtain ⟨ring₂, -, hlist₂⟩ := @timedStep_sample _ _ A now _ _ ring₁ hw x v
  rw [msFor_congr hms₁, hlist₁, samples] at hlist₂
  have hheld : (f.track (f.track t (.tick A now)) (.message A now x v)).held =
      (t.held.dropWhile (old f.window.ms now)).dropWhile (old f.window.ms now) ++
        ((f.sample A now x v (tickEntry A now t.entry).entry).2.getD []).map (now, ·) := by
    unfold WindowForm.track
    dsimp only
    rw [add_keep hw, Window.keep, if_pos hw]
  have hentry : (f.track (f.track t (.tick A now)) (.message A now x v)).entry.ringList.length =
      (f.sample A now x v (tickEntry A now t.entry).entry).1.samples.length := by
    rw [length_samples, length_ringList]
    rfl
  rw [hentry, hlist₂, hheld, List.length_append, List.length_append]
  -- the oldest sample is too old for the smaller window only
  have hgone : ∀ ms : UInt64, s.1.toNat + ms.toNat < now.toNat →
      (t.held.dropWhile (old ms now)).length < t.held.length := by
    intro ms hlt
    cases hl : t.held with
    | nil =>
      rw [hl] at hhead
      cases hhead
    | cons s' l =>
      rw [hl] at hhead
      obtain rfl : s' = s := Option.some.inj hhead
      have hpos : old ms now s' = true := decide_eq_true hlt
      rw [List.dropWhile_cons_of_pos hpos, List.length_cons]
      have hle := (List.dropWhile_suffix (l := l) (old ms now)).length_le
      omega
  rcases hsize with hlt | ⟨hlt, hreads⟩
  · rw [UInt64.lt_iff_toNat_lt] at hlt
    rw [min_eq_left hlt.le] at hnow
    have hfewer := hgone t.entry.ringWindowMs (by omega)
    have hle := (List.dropWhile_suffix (l := t.held.dropWhile (old t.entry.ringWindowMs now))
      (old (f.msFor t.entry) now)).length_le
    have hall : t.held.dropWhile (old f.window.ms now) = t.held :=
      dropWhile_old_of_head hhead (by omega)
    rw [hall, hall]
    omega
  · rw [UInt64.lt_iff_toNat_lt] at hlt
    rw [min_eq_right hlt.le] at hnow
    have hfewer := hgone f.window.ms (by omega)
    have hle := (List.dropWhile_suffix (l := t.held.dropWhile (old f.window.ms now))
      (old f.window.ms now)).length_le
    have hall : t.held.dropWhile (old t.entry.ringWindowMs now) = t.held :=
      dropWhile_old_of_head hhead (by omega)
    rw [hreads, hall, hall]
    omega

theorem sizeAgrees_of_follows (hf : f.Checked) (hw : f.window.timeWindow = true)
    (ring : TimeRing e) (h : f.Follows e) : f.SizeAgrees e := by
  by_contra hsize
  -- what is wrong with the size
  have hdiffer : (e.ringWindowMs < f.window.ms ∨
      f.window.ms < e.ringWindowMs ∧ f.msFor e = e.ringWindowMs) ∧
      ¬ WindowForm.Lasting e f.window.ms := by
    cases f with
    | stat w =>
      have hw' : w.timeWindow = true := hw
      unfold WindowForm.SizeAgrees at hsize
      dsimp only at hsize
      rw [if_pos hw', not_or] at hsize
      refine ⟨?_, hsize.2⟩
      rcases UInt64.lt_or_lt_of_ne hsize.1 with hlt | hlt
      · exact .inl hlt
      · refine .inr ⟨hlt, ?_⟩
        unfold WindowForm.msFor
        dsimp only
        rw [if_neg]
        intro hzero
        rw [hzero] at hlt
        exact absurd (UInt64.lt_iff_toNat_lt.mp hlt) (Nat.not_lt_zero _)
    | throttle w max =>
      have hw' : w.timeWindow = true := hw
      unfold WindowForm.SizeAgrees at hsize
      dsimp only at hsize
      rw [if_pos hw', not_or] at hsize
      exact ⟨.inl (UInt64.not_le.mp hsize.1), hsize.2⟩
  obtain ⟨hsizes, hlasting⟩ := hdiffer
  -- a run up to a time at which there is an oldest sample that does not last
  have hrun : ∃ (events : List (FormEvent N)) (s : UInt64 × N) (now : UInt64),
      (∀ event ∈ events, event.now ≤ now ∧ f.Served event) ∧
      (events.map FormEvent.now).Pairwise (· ≤ ·) ∧
      TimeRing (f.tracks ⟨e, e.samples⟩ events).entry ∧
      (f.tracks ⟨e, e.samples⟩ events).entry.ringWindowMs = e.ringWindowMs ∧
      (f.tracks ⟨e, e.samples⟩ events).entry.samples = (f.tracks ⟨e, e.samples⟩ events).held ∧
      (f.tracks ⟨e, e.samples⟩ events).held.head? = some s ∧
      now.toNat = s.1.toNat + min e.ringWindowMs.toNat f.window.ms.toNat + 1 := by
    have htime : ∀ n : ℕ, n < 2 ^ 64 → ∃ now : UInt64, now.toNat = n := by
      intro n hn
      exact ⟨UInt64.ofNat n, by rw [UInt64.toNat_ofNat', Nat.mod_eq_of_lt hn]⟩
    cases hhead : e.samples.head? with
    | some s =>
      have hroom : ¬ 2 ^ 64 ≤ s.1.toNat + min e.ringWindowMs.toNat f.window.ms.toNat + 1 :=
        fun hroom => hlasting ⟨s, hhead, hroom⟩
      obtain ⟨now, hnow⟩ := htime _ (not_le.mp hroom)
      exact ⟨[], s, now, by simp, List.Pairwise.nil, ring, rfl, rfl, hhead, hnow⟩
    | none =>
      have hnil := List.head?_eq_none_iff.mp hhead
      obtain ⟨y, hy⟩ := sample_first hf hw ring hnil 0 (ofNat 1) .nil
      obtain ⟨ring', hms', hlist'⟩ :=
        @timedStep_sample _ _ (fun _ => true) 0 _ _ ring hw (ofNat 1) .nil
      rw [hy, hnil] at hlist'
      have hsmaller : min e.ringWindowMs.toNat f.window.ms.toNat < 2 ^ 64 - 1 := by
        have h₁ := UInt64.toNat_lt e.ringWindowMs
        have h₂ := UInt64.toNat_lt f.window.ms
        rcases hsizes with hlt | ⟨hlt, -⟩
        · rw [UInt64.lt_iff_toNat_lt] at hlt
          omega
        · rw [UInt64.lt_iff_toNat_lt] at hlt
          omega
      obtain ⟨now, hnow⟩ := htime (0 + min e.ringWindowMs.toNat f.window.ms.toNat + 1) (by omega)
      have hheld : (f.tracks ⟨e, e.samples⟩
          [.message (fun _ => true) 0 (ofNat 1) .nil]).held = [(0, y)] := by
        change f.window.add (f.window.keep 0 e.samples) _ = _
        rw [add_keep hw, hnil, hy]
        rfl
      refine ⟨[.message (fun _ => true) 0 (ofNat 1) .nil], (0, y), now, ?_, ?_, ring', hms', ?_,
        by rw [hheld]; rfl, hnow⟩
      · intro event hevent
        rw [List.mem_singleton.mp hevent]
        exact ⟨UInt64.zero_le, served_of_memory f _ _ _⟩
      · exact List.pairwise_singleton _ _
      · rw [hheld]
        exact hlist'
  obtain ⟨events, s, now, hevents, htimes, ring', hms', hsame, hhead, hnow⟩ := hrun
  have hshow := sizes_show (A := fun _ => true) hw ring' hsame hhead
    (by rw [hms', msFor_congr hms']; exact hsizes) (by rw [hms']; exact hnow) (ofNat 1) .nil
  apply hshow
  have hafter : ((events ++ [FormEvent.tick (fun _ => true) now] ++
      [FormEvent.message (fun _ => true) now (ofNat 1) .nil]).map FormEvent.now).Pairwise (· ≤ ·) := by
    rw [List.append_assoc, List.map_append, List.pairwise_append]
    refine ⟨htimes, List.pairwise_pair.mpr (UInt64.le_refl now), ?_⟩
    intro t ht t' ht'
    obtain ⟨event, hevent, rfl⟩ := List.mem_map.mp ht
    have hlast : t' = now := by simpa [FormEvent.now] using ht'
    rw [hlast]
    exact (hevents event hevent).1
  have hserved : ∀ event ∈ events ++ [.tick (fun _ => true) now] ++
      [.message (fun _ => true) now (ofNat 1) .nil], f.Served event := by
    intro event hevent
    rw [List.append_assoc, List.mem_append] at hevent
    rcases hevent with hevent | hevent
    · exact (hevents event hevent).2
    · rcases List.mem_cons.mp hevent with rfl | hevent
      · trivial
      · rw [List.mem_singleton.mp hevent]
        exact served_of_memory f _ _ _
  obtain ⟨-, hcontents⟩ := h _ _ now (ofNat 1) .nil hafter hserved
  rw [tracks_concat] at hcontents
  rw [hcontents, List.length_map]

end Time

/-! ## Windows of samples -/

section Last

variable {f : WindowForm N} {A : EvalAlloc → Bool} {now : UInt64} {e : StateEntry N} {t : Measured N}

/-- The slot of a form whose size agrees, after the given samples. -/
structure CountStep (f : WindowForm N) (t : Measured N) (pushed : List N) : Prop where
  last : HoldsLast (fun _ _ _ => True) f.window.count f.window.count t.entry pushed
  held : t.held.map Prod.snd = pushed.rtake f.window.count
  array : ∀ w max, f = .throttle w max → t.entry.kind = .ring → t.entry.ringCap = w.count

omit [Number N] in
/-- What is held after more samples. -/
theorem map_add_keep (hw : f.window.timeWindow = false) (hn : 0 < f.window.count)
    {held : List (UInt64 × N)} {pushed : List N}
    (h : held.map Prod.snd = pushed.rtake f.window.count) (now : UInt64) (ys : List N)
    (hys : ys.length ≤ 1) :
    (f.window.add (f.window.keep now held) (ys.map (now, ·))).map Prod.snd =
      (pushed ++ ys).rtake f.window.count := by
  have hsnd : (ys.map fun y => (now, y)).map Prod.snd = ys := by
    rw [List.map_map]
    exact List.map_id ys
  rw [Window.add, Window.keep, hw, if_neg Bool.false_ne_true, if_neg Bool.false_ne_true, List.rtake,
    List.map_drop, List.map_append, hsnd, h]
  have hlength : (held ++ ys.map fun y => (now, y)).length = (pushed.rtake f.window.count ++ ys).length := by
    rw [List.length_append, List.length_map, List.length_append, ← h, List.length_map]
  rw [hlength]
  change (pushed.rtake f.window.count ++ ys).rtake f.window.count = _
  match ys, hys with
  | [], _ => rw [List.append_nil, List.append_nil, rtake_rtake_of_le _ le_rfl]
  | [y], _ => exact rtake_concat_window pushed y hn

omit [Number N] in
/-- With memory an evaluation finds its array. -/
theorem windowSlot_array (hA : ∀ site, A site = true) {w : Window} (hw : w.timeWindow = false)
    (hn : 0 < w.count) {T : N → List N → List N → Prop} {pushed : List N}
    (h : HoldsLast T w.count w.count e pushed)
    (harray : e.kind = .ring → e.ringCap = w.count) :
    ∃ e₁, windowSlot A w e = (e₁, true) ∧ HoldsLast T w.count w.count e₁ pushed ∧
      e₁.kind = .ring ∧ e₁.ringTimeWindow = false ∧ e₁.ringCap = w.count := by
  unfold windowSlot
  rcases h.slot with ⟨hkind, hcap⟩ | ⟨hkind, htime⟩
  · rw [if_pos hkind]
    have hring : HoldsLast T w.count w.count
        { e with kind := .ring, ringTimeWindow := w.timeWindow, ringWindowMs := w.ms } pushed :=
      ⟨.inr ⟨rfl, hw⟩, h.inRing, h.cap, h.values, h.sum⟩
    obtain ⟨e₁, he₁⟩ := ringReserve_isSome hA
      { e with kind := .ring, ringTimeWindow := w.timeWindow, ringWindowMs := w.ms } w.count false
    obtain ⟨hready, hkind', hcap'⟩ := hring.reserve hn rfl hw hcap he₁
    refine ⟨e₁, ?_, hready, hkind', (ringReserve_timeWindow he₁).trans hw, hcap'⟩
    dsimp only
    rw [hw, if_neg Bool.false_ne_true]
    rw [hw] at he₁
    rw [he₁]
  · have hne : e.kind ≠ .empty := by
      rw [hkind]
      decide
    rw [if_neg hne, hkind, htime, hw]
    exact ⟨e, rfl, h, hkind, htime, harray hkind⟩

/-- An evaluation that finds its array pushes one sample. -/
theorem sample_push (hw : f.window.timeWindow = false) (hkind : e.kind = .ring)
    (htime : e.ringTimeWindow = false) (harray : ∀ w, f = .stat w → e.ringCap ≠ 0)
    (x : N) (v : Value N) : ∃ y, f.sample A now x v e = (e.ringPushCount y, some [y]) := by
  have hslot : windowSlot A f.window e = (e, true) := by
    have hne : e.kind ≠ .empty := by
      rw [hkind]
      decide
    unfold windowSlot
    rw [if_neg hne, hkind, htime, hw]
    rfl
  cases f with
  | stat w =>
    have hw' : w.timeWindow = false := hw
    have hslot' : windowSlot A w e = (e, true) := hslot
    have hpush : windowSample A w now x e = (e.ringPushCount x, true) := by
      unfold windowSample
      rw [hslot']
      dsimp only
      unfold StateEntry.windowPush
      rw [hw', if_neg Bool.false_ne_true, if_neg (harray w rfl)]
    unfold WindowForm.sample
    dsimp only
    rw [hpush]
    exact ⟨x, rfl⟩
  | throttle w max =>
    have hw' : w.timeWindow = false := hw
    have hslot' : windowSlot A w e = (e, true) := hslot
    let pass := flt e.ringSum (ofNat (toU64 max).toNat)
    let y : N := if pass = true then ofNat 1 else ofNat 0
    have hstep : throttle A w now max v e =
        ⟨e.ringPushCount y, !pass, .ok (if pass = true then v else .nil)⟩ := by
      unfold throttle
      rw [hslot']
      dsimp only
      rw [hw', if_neg Bool.false_ne_true]
    refine ⟨y, ?_⟩
    unfold WindowForm.sample
    dsimp only
    rw [hstep, hw']
    dsimp only [y]
    cases pass <;> rfl

theorem countStep_message (hf : f.Checked) (hw : f.window.timeWindow = false) {pushed : List N}
    (h : CountStep f t pushed) {x : N} {v : Value N} (hserved : f.Served (.message A now x v)) :
    ∃ pushed', CountStep f (f.track t (.message A now x v)) pushed' := by
  cases f with
  | stat w =>
    have hw' : w.timeWindow = false := hw
    have hn : 0 < w.count := hf hw'
    have hlast := holdsLast_windowSample (A := A) sumLaw_true hn hw' h.last now x
    have hsample : (WindowForm.stat w).sample A now x v t.entry =
        ((windowSample A w now x t.entry).1,
          if (windowSample A w now x t.entry).2 = true then some [x] else none) := by
      unfold WindowForm.sample
      dsimp only
      generalize windowSample A w now x t.entry = r
      obtain ⟨e', ok⟩ := r
      cases ok <;> rfl
    refine ⟨recorded pushed x (windowSample A w now x t.entry).2, ?_, ?_, ?_⟩
    · unfold WindowForm.track
      dsimp only
      rw [hsample]
      exact hlast
    · unfold WindowForm.track
      dsimp only
      rw [hsample, map_add_keep hw hn h.held]
      · cases (windowSample A w now x t.entry).2 with
        | true => rfl
        | false => rw [if_neg Bool.false_ne_true, Option.getD_none, List.append_nil]; rfl
      · cases (windowSample A w now x t.entry).2 <;> simp
    · intro w' max he
      cases he
  | throttle w max =>
    have hw' : w.timeWindow = false := hw
    have hn : 0 < w.count := hf.1 hw'
    obtain ⟨e₁, hslot, hready, hkind, htime, hcap⟩ :=
      windowSlot_array (hserved hw') hw' hn h.last (h.array w max rfl)
    have hne : e₁.kind ≠ .empty := by
      rw [hkind]
      decide
    have hfound : windowSlot A w t.entry = windowSlot A w e₁ := by
      rw [hslot]
      unfold windowSlot
      rw [if_neg hne, hkind, htime, hw']
      rfl
    have hsame := @sample_congr _ _ (.throttle w max) _ now _ _ hfound x v
    obtain ⟨y, hpush⟩ := @sample_push _ _ (.throttle w max) A now _ hw hkind htime
      (by intro w' he; cases he) x v
    have hsample : (WindowForm.throttle w max).sample A now x v t.entry =
        (e₁.ringPushCount y, some [y]) := hsame.trans hpush
    refine ⟨pushed ++ [y], ?_, ?_, ?_⟩
    · unfold WindowForm.track
      dsimp only
      rw [hsample]
      exact hready.push sumLaw_true hn hkind htime hcap y
    · unfold WindowForm.track
      dsimp only
      rw [hsample]
      exact map_add_keep hw hn h.held now [y] le_rfl
    · intro w' max' he _
      cases he
      unfold WindowForm.track
      dsimp only
      rw [hsample]
      exact (@ringPushCount_spec _ _ _ sumLaw_true _ [] y hready.inRing (by omega) trivial).2.1.trans
        hcap

theorem countStep_tick (hw : f.window.timeWindow = false) {pushed : List N}
    (h : CountStep f t pushed) : CountStep f (f.track t (.tick A now)) pushed := by
  have htick := tickEntry_last (A := A) h.last now
  have hkeep : f.window.keep now t.held = t.held := by
    unfold Window.keep
    rw [hw, if_neg Bool.false_ne_true]
  unfold WindowForm.track
  dsimp only
  rw [htick, hkeep]
  exact h

theorem countStep_tracks (hf : f.Checked) (hw : f.window.timeWindow = false)
    {events : List (FormEvent N)} (hserved : ∀ event ∈ events, f.Served event)
    (h : ∃ pushed, CountStep f t pushed) : ∃ pushed, CountStep f (f.tracks t events) pushed := by
  induction events generalizing t with
  | nil => exact h
  | cons event events ih =>
    apply ih
    · intro event' hevent
      exact hserved event' (List.mem_cons_of_mem _ hevent)
    · obtain ⟨pushed, h⟩ := h
      cases event with
      | message A now x v => exact countStep_message hf hw h (hserved _ List.mem_cons_self)
      | tick A now => exact ⟨pushed, countStep_tick hw h⟩

omit [Number N] in
theorem length_ringPushCount [Number N] (e : StateEntry N) (y : N) (hin : e.ringLen ≤ e.ringCap) :
    (e.ringPushCount y).ringLen = min (e.ringLen + 1) e.ringCap ∧
      (e.ringPushCount y).ringCap = e.ringCap := by
  unfold StateEntry.ringPushCount
  split_ifs with hroom
  · exact ⟨(min_eq_left hroom).symm, rfl⟩
  · refine ⟨?_, rfl⟩
    dsimp only
    omega

/-- A slot of another size, and what it should hold, after so many samples. -/
structure CountsTo (f : WindowForm N) (cap len : ℕ) (t : Measured N) : Prop where
  kind : t.entry.kind = .ring
  timeWindow : t.entry.ringTimeWindow = false
  size : t.entry.ringCap = cap
  length : t.entry.ringLen = min len cap

theorem countsTo_messages (hw : f.window.timeWindow = false)
    (harray : ∀ w, f = .stat w → e.ringCap ≠ 0) (hkind : e.kind = .ring)
    (htime : e.ringTimeWindow = false) (hin : e.ringLen ≤ e.ringCap) (x : N) (v : Value N) (m : ℕ) :
    CountsTo f e.ringCap (e.ringLen + m)
        (f.tracks ⟨e, e.samples⟩ (List.replicate m (.message A now x v))) ∧
      (0 < m → (f.tracks ⟨e, e.samples⟩ (List.replicate m (.message A now x v))).held.length =
        min (e.ringLen + m) f.window.count) := by
  induction m with
  | zero => exact ⟨⟨hkind, htime, rfl, (min_eq_left hin).symm⟩, fun h => absurd h (lt_irrefl 0)⟩
  | succ m ih =>
    obtain ⟨hcounts, hheld⟩ := ih
    rw [List.replicate_succ', tracks_concat]
    have hstart : m = 0 →
        (f.tracks ⟨e, e.samples⟩ (List.replicate m (.message A now x v))).held.length = e.ringLen := by
      rintro rfl
      exact length_samples e
    generalize f.tracks ⟨e, e.samples⟩ (List.replicate m (.message A now x v)) = t
      at hcounts hheld hstart ⊢
    obtain ⟨y, hpush⟩ := @sample_push _ _ _ A now _ hw hcounts.kind hcounts.timeWindow
      (by intro w hw; rw [hcounts.size]; exact harray w hw) x v
    have hroom : t.entry.ringLen ≤ t.entry.ringCap := by
      rw [hcounts.size, hcounts.length]
      exact min_le_right _ _
    obtain ⟨hlen, hcap⟩ := length_ringPushCount t.entry y hroom
    have htrack : f.track t (.message A now x v) =
        ⟨t.entry.ringPushCount y, (t.held ++ [(now, y)]).rtake f.window.count⟩ := by
      unfold WindowForm.track
      dsimp only
      rw [hpush]
      unfold Window.add Window.keep
      rw [hw, if_neg Bool.false_ne_true, if_neg Bool.false_ne_true]
      rfl
    rw [htrack]
    constructor
    · constructor
      · exact (sameTimers_ringPushCount t.entry y).kind.trans hcounts.kind
      · exact (ringPushCount_timeWindow y).trans hcounts.timeWindow
      · exact hcap.trans hcounts.size
      · rw [hlen, hcounts.size, hcounts.length]
        omega
    · intro _
      rw [List.rtake, List.length_drop, List.length_append, List.length_singleton]
      omega

/-- A size that differs shows once both windows are full. -/
theorem countAgrees_of_follows (hf : f.Checked) (hw : f.window.timeWindow = false)
    (hkind : e.kind = .ring) (htime : e.ringTimeWindow = false) (hin : InRing e)
    (h : f.Follows e) : f.SizeAgrees e := by
  by_contra hsize
  have hdiffer : e.ringCap ≠ f.window.count ∧ ∀ w, f = .stat w → e.ringCap ≠ 0 := by
    cases f with
    | stat w =>
      have hw' : w.timeWindow = false := hw
      unfold WindowForm.SizeAgrees at hsize
      dsimp only at hsize
      rw [hw', if_neg Bool.false_ne_true, not_or] at hsize
      exact ⟨hsize.1, fun _ _ => hsize.2⟩
    | throttle w max =>
      have hw' : w.timeWindow = false := hw
      unfold WindowForm.SizeAgrees at hsize
      dsimp only at hsize
      rw [hw', if_neg Bool.false_ne_true] at hsize
      exact ⟨hsize, fun _ he => by cases he⟩
  let m := max e.ringCap f.window.count
  obtain ⟨hcounts, hheld⟩ := @countsTo_messages _ _ _ (fun _ => true) 0 _ hw hdiffer.2 hkind
    htime hin.1 (ofNat 1) .nil (m + 1)
  obtain ⟨-, hcontents⟩ := h (List.replicate m (.message (fun _ => true) 0 (ofNat 1) .nil))
    (fun _ => true) 0 (ofNat 1) .nil
    (by
      rw [← List.replicate_succ', List.map_replicate]
      exact List.pairwise_replicate.mpr (.inr (UInt64.le_refl _)))
    (by
      intro event hevent
      rw [← List.replicate_succ'] at hevent
      rw [List.eq_of_mem_replicate hevent]
      exact served_of_memory f _ _ _)
  rw [← tracks_concat, ← List.replicate_succ'] at hcontents
  have hlength := congrArg List.length hcontents
  rw [length_ringList, hcounts.length, List.length_map, hheld (Nat.succ_pos m)] at hlength
  apply hdiffer.1
  have hcap : e.ringCap ≤ m := le_max_left _ _
  have hcount : f.window.count ≤ m := le_max_right _ _
  omega

end Last

/-! ## Sizes -/

omit [Number N] in
theorem keepsUp_start {f : WindowForm N} {e : StateEntry N} (hw : f.window.timeWindow = true)
    (hin : InRing e) (hempty : e.kind = .empty → e.ringCap = 0)
    (h : e.kind = .empty ∨ e.kind = .ring ∧ e.ringTimeWindow = f.window.timeWindow ∧ f.SizeAgrees e) :
    KeepsUp f 0 ⟨e, e.samples⟩ := by
  rcases h with hkind | ⟨hkind, htime, hsize⟩
  · have hcap := hempty hkind
    have hlen : e.ringLen = 0 := Nat.le_zero.mp (hcap ▸ hin.1)
    exact .empty hkind hcap hlen (samples_eq_nil hlen)
  · have ring : TimeRing e := ⟨hkind, htime.trans hw, hin⟩
    cases f with
    | stat w =>
      have hw' : w.timeWindow = true := hw
      unfold WindowForm.SizeAgrees at hsize
      dsimp only at hsize
      rw [if_pos hw'] at hsize
      rcases hsize with hms | hlasting
      · refine .agrees ring ?_ (hms ▸ UInt64.le_refl _) [] rfl (by simp)
        unfold WindowForm.msFor WindowForm.window
        dsimp only
        rw [hms, ite_self]
      · exact .lasts ring rfl hlasting
    | throttle w max =>
      have hw' : w.timeWindow = true := hw
      unfold WindowForm.SizeAgrees at hsize
      dsimp only at hsize
      rw [if_pos hw'] at hsize
      rcases hsize with hms | hlasting
      · exact .agrees ring rfl hms [] rfl (by simp)
      · exact .lasts ring rfl hlasting

theorem countStep_start {f : WindowForm N} {e : StateEntry N} (hf : f.Checked)
    (hw : f.window.timeWindow = false) (hin : InRing e) (hempty : e.kind = .empty → e.ringCap = 0)
    (h : e.kind = .empty ∨ e.kind = .ring ∧ e.ringTimeWindow = f.window.timeWindow ∧ f.SizeAgrees e) :
    ∃ pushed, CountStep f ⟨e, e.samples⟩ pushed := by
  rcases h with hkind | ⟨hkind, htime, hsize⟩
  · have hcap := hempty hkind
    have hlen : e.ringLen = 0 := Nat.le_zero.mp (hcap ▸ hin.1)
    have hnil : e.ringList = [] := List.eq_nil_of_length_eq_zero ((length_ringList e).trans hlen)
    refine ⟨[], ⟨.inl ⟨hkind, hcap⟩, hin, .inr ⟨hcap, rfl, rfl⟩, hnil.trans (List.rtake_nil _).symm,
      trivial⟩, ?_, ?_⟩
    · rw [samples_eq_nil hlen]
      exact (List.rtake_nil _).symm
    · intro w max _ hring
      rw [hkind] at hring
      cases hring
  · have hcap : (e.ringCap = f.window.count ∨ e.ringCap = 0) ∧
        ∀ w max, f = .throttle w max → e.ringCap = w.count := by
      cases f with
      | stat w =>
        have hw' : w.timeWindow = false := hw
        unfold WindowForm.SizeAgrees at hsize
        dsimp only at hsize
        rw [hw', if_neg Bool.false_ne_true] at hsize
        exact ⟨hsize, fun _ _ he => by cases he⟩
      | throttle w max =>
        have hw' : w.timeWindow = false := hw
        unfold WindowForm.SizeAgrees at hsize
        dsimp only at hsize
        rw [hw', if_neg Bool.false_ne_true] at hsize
        refine ⟨.inl hsize, ?_⟩
        intro w' max' he
        cases he
        exact hsize
    have hshort : e.ringList.length ≤ f.window.count := by
      rw [length_ringList]
      have hlen := hin.1
      omega
    have hlist : e.ringList = e.ringList.rtake f.window.count := (rtake_of_length_le hshort).symm
    refine ⟨e.ringList, ⟨.inr ⟨hkind, htime.trans hw⟩, hin, ?_, hlist, trivial⟩, ?_, ?_⟩
    · rcases hcap.1 with hfull | hzero
      · exact .inl hfull
      · refine .inr ⟨hzero, List.eq_nil_of_length_eq_zero ?_, rfl⟩
        rw [length_ringList]
        exact Nat.le_zero.mp (hzero ▸ hin.1)
    · rw [← ringList_eq_samples hin]
      exact hlist
    · intro w max he _
      exact hcap.2 w max he

/-- A form follows its own size in every run exactly on a new slot and on one of its
kind with a size that agrees. -/
theorem follows_iff {f : WindowForm N} {e : StateEntry N} (hf : f.Checked) (hin : InRing e)
    (hempty : e.kind = .empty → e.ringCap = 0) :
    f.Follows e ↔ e.kind = .empty ∨
      e.kind = .ring ∧ e.ringTimeWindow = f.window.timeWindow ∧ f.SizeAgrees e := by
  constructor
  · intro h
    obtain ⟨hsome, -⟩ := h [] (fun _ => true) 0 (ofNat 1) .nil (List.pairwise_singleton _ _) (by
      intro event hevent
      rw [List.mem_singleton.mp hevent]
      exact served_of_memory f _ _ _)
    rcases (sample_isSome_iff (fun _ => rfl) _ _).mp (hsome fun _ => rfl) with hkind | ⟨hkind, htime⟩
    · exact .inl hkind
    · refine .inr ⟨hkind, htime, ?_⟩
      have htime' : e.ringTimeWindow = f.window.timeWindow := htime
      cases hw : f.window.timeWindow with
      | true => exact sizeAgrees_of_follows hf hw ⟨hkind, htime'.trans hw, hin⟩ h
      | false => exact countAgrees_of_follows hf hw hkind (htime'.trans hw) hin h
  · intro hagrees events A now x v htimes hserved
    cases hw : f.window.timeWindow with
    | true =>
      obtain ⟨now', hnow, hstep⟩ := keepsUp_tracks hw (keepsUp_start hw hin hempty hagrees)
        (List.pairwise_cons.mpr ⟨fun _ _ => UInt64.zero_le, htimes⟩)
      have hnow' : now' ≤ now := hnow
      obtain ⟨hstep', hsame⟩ := keepsUp_message (A := A) hw hstep hnow' x v
      constructor
      · intro hA
        apply (sample_isSome_iff hA x v).mpr
        rw [hw]
        exact hstep.kind
      · rw [ringList_eq_samples hstep'.inRing, hsame]
    | false =>
      obtain ⟨pushed, hstep⟩ := countStep_tracks hf hw
        (fun event hevent => hserved event (List.mem_append_left _ hevent))
        (countStep_start hf hw hin hempty hagrees)
      obtain ⟨pushed', hstep'⟩ := countStep_message hf hw hstep
        (hserved _ (List.mem_append_right _ List.mem_cons_self))
      constructor
      · intro hA
        apply (sample_isSome_iff hA x v).mpr
        rcases hstep.last.slot with ⟨hkind, -⟩ | ⟨hkind, htime⟩
        · exact .inl hkind
        · exact .inr ⟨hkind, htime.trans hw.symm⟩
      · exact hstep'.last.values.trans hstep'.held.symm

end Monoblok.Patchbay
