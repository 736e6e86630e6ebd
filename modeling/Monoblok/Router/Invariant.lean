import Monoblok.Router.Publish

/-!
# What holds of every reachable router

Subscriptions are followed together with the key of their bucket (`placed`).
Every operation adds one such pair, drops some, or changes counters that the
invariant does not read; the invariant is preserved for any answers of the
allocator.
-/

namespace Monoblok

open OpenAddressing SwapRemove

/-- The subscriptions of a table with the key of their bucket. -/
def BucketTable.placed (t : BucketTable) : List (Bytes × Subscription) :=
  t.buckets.flatMap fun b => b.subs.map (b.key, ·)

theorem BucketTable.map_placed (t : BucketTable) : t.placed.map Prod.snd = t.subs := by
  simp [placed, subs, List.map_flatMap, Function.comp_def]

/-- A table whose index is right. -/
def BucketTable.Ok (t : BucketTable) : Prop := Indexed sliceHash t.keys t.index

/-! ## Tables -/

theorem bucketFind_eq_none {t : BucketTable} (h : t.Ok) {key : Bytes} :
    bucketFind t key = none ↔ key ∉ t.keys :=
  indexFind_eq_none h key

theorem bucketFind_eq_some {t : BucketTable} (h : t.Ok) {key : Bytes} {i : ℕ} :
    bucketFind t key = some i ↔ ∃ b, t.buckets[i]? = some b ∧ b.key = key := by
  rw [bucketFind, indexFind_iff h, BucketTable.keys, List.getElem?_map, Option.map_eq_some_iff]

/-- Cuts a table at one of its buckets. -/
theorem split_at {α : Type*} {l : List α} {i : ℕ} {a : α} (h : l[i]? = some a) :
    ∃ l₁ l₂, l = l₁ ++ a :: l₂ ∧ l₁.length = i := by
  obtain ⟨hi, rfl⟩ := List.getElem?_eq_some_iff.mp h
  refine ⟨l.take i, l.drop (i + 1), ?_, by simp; omega⟩
  rw [List.getElem_cons_drop, List.take_append_drop]

theorem modify_append_cons {α : Type*} (l₁ l₂ : List α) (a : α) (f : α → α) :
    (l₁ ++ a :: l₂).modify l₁.length f = l₁ ++ f a :: l₂ := by
  rw [List.modify_eq_take_cons_drop (by simp)]
  simp

structure CreateSpec (t t' : BucketTable) (key : Bytes) (pos : Option ℕ) : Prop where
  ok : t'.Ok
  placed : t'.placed = t.placed
  found : ∀ i, pos = some i → ∃ b, t'.buckets[i]? = some b ∧ b.key = key

theorem bucketCreate_spec (A : Alloc) {t : BucketTable} (h : t.Ok) (key : Bytes) :
    CreateSpec t (bucketCreate A t key).1 key (bucketCreate A t key).2 := by
  unfold bucketCreate
  split
  · rename_i i hi
    refine ⟨h, rfl, fun j hj => ?_⟩
    cases hj
    exact (bucketFind_eq_some h).mp hi
  · rename_i hnone
    have hnew := (bucketFind_eq_none h).mp hnone
    split
    · exact ⟨h, rfl, by simp⟩
    · rename_i index he
      have hins := Indexed.insert h key (by simpa [BucketTable.keys] using he)
      dsimp only
      split_ifs
      · exact ⟨hins.1, rfl, by simp⟩
      · exact ⟨hins.1, rfl, by simp⟩
      · refine ⟨?_, by simp [BucketTable.placed], fun j hj => ?_⟩
        · simpa [BucketTable.Ok, BucketTable.keys] using hins.2 hnew
        · cases hj
          exact ⟨⟨key, []⟩, by simp, rfl⟩

theorem BucketTable.Ok.modify {t : BucketTable} (h : t.Ok) (i : ℕ) {f : Bucket → Bucket}
    (hkey : ∀ b, (f b).key = b.key) : BucketTable.Ok { t with buckets := t.buckets.modify i f } := by
  have hkeys : (t.buckets.modify i f).map Bucket.key = t.buckets.map Bucket.key := by
    refine List.ext_getElem? fun j => ?_
    rw [List.getElem?_map, List.getElem?_map, List.getElem?_modify]
    cases t.buckets[j]? with
    | none => rfl
    | some b => by_cases hij : i = j <;> simp [hij, hkey]
  rw [BucketTable.Ok, BucketTable.keys, hkeys]
  exact h

theorem bucketAppend_spec (A : Alloc) {t : BucketTable} (h : t.Ok) (key : Bytes)
    (sub : Subscription) :
    (bucketAppend A t key sub).1.Ok ∧
      (bucketAppend A t key sub).1.placed.Perm
        (if (bucketAppend A t key sub).2 then (key, sub) :: t.placed else t.placed) := by
  have hspec := bucketCreate_spec A h key
  unfold bucketAppend
  cases hcreate : bucketCreate A t key with
  | mk t' pos =>
    rw [hcreate] at hspec
    obtain ⟨hok, hplaced, hfound⟩ := hspec
    dsimp only at hok hplaced hfound
    cases pos with
    | none => exact ⟨hok, by simp [hplaced]⟩
    | some i =>
      cases hitems : A .subItems with
      | false => exact ⟨hok, by simp [hplaced]⟩
      | true =>
        refine ⟨hok.modify i fun b => rfl, ?_⟩
        obtain ⟨b, hb, rfl⟩ := hfound i rfl
        obtain ⟨l₁, l₂, hl, rfl⟩ := split_at hb
        simp only [if_true]
        rw [← hplaced]
        simp only [BucketTable.placed, hl, modify_append_cons, List.flatMap_append,
          List.flatMap_cons, List.map_append, List.map_cons, List.map_nil, List.append_assoc,
          List.cons_append, List.nil_append]
        exact (List.Perm.append_left _ List.perm_middle).trans List.perm_middle

/-! ## Sweeping -/

theorem placed_sweepTable (f : Subscription → Option Subscription) (t : BucketTable) :
    (sweepTable f t).placed.Perm
      (t.placed.filterMap fun x => (f x.2).map (x.1, ·)) := by
  have hsweep := (sweep_perm (sweepBucket f) t.buckets).flatMap_right
    fun b => b.subs.map (b.key, ·)
  refine hsweep.trans ?_
  rw [BucketTable.placed]
  -- bucket by bucket: an emptied bucket has no pair left either way
  induction t.buckets with
  | nil => exact .refl _
  | cons b bs ih =>
    have hb : ((sweepSubs f b.subs).map (b.key, ·)).Perm
        ((b.subs.map (b.key, ·)).filterMap fun x => (f x.2).map (x.1, ·)) := by
      refine ((sweep_perm f b.subs).map _).trans ?_
      rw [List.filterMap_map, List.map_filterMap]
      exact .refl _
    rw [List.flatMap_cons, List.filterMap_append]
    cases hsb : sweepBucket f b with
    | none =>
      rw [List.filterMap_cons_none hsb]
      have hnil : sweepSubs f b.subs = [] := by
        unfold sweepBucket at hsb
        dsimp only at hsb
        split_ifs at hsb with he
        exact List.isEmpty_iff.mp he
      rw [hnil, List.map_nil] at hb
      rw [hb.symm.eq_nil]
      exact ih
    | some b' =>
      rw [List.filterMap_cons_some hsb, List.flatMap_cons]
      have hb' : b' = { b with subs := sweepSubs f b.subs } := by
        unfold sweepBucket at hsb
        dsimp only at hsb
        split_ifs at hsb
        exact (Option.some.inj hsb).symm
      subst hb'
      exact hb.append ih

theorem key_sweepBucket {f : Subscription → Option Subscription} {b b' : Bucket}
    (h : sweepBucket f b = some b') : b'.key = b.key := by
  unfold sweepBucket at h
  dsimp only at h
  split_ifs at h
  rw [← Option.some.inj h]

/-- The buckets that are left had their keys before, in the order of the array. -/
theorem keys_filterMap_sublist (f : Subscription → Option Subscription) (bs : List Bucket) :
    ((bs.filterMap (sweepBucket f)).map Bucket.key).Sublist (bs.map Bucket.key) := by
  induction bs with
  | nil => exact .refl _
  | cons b bs ih =>
    cases hsb : sweepBucket f b with
    | none =>
      rw [List.filterMap_cons_none hsb, List.map_cons]
      exact ih.cons _
    | some b' =>
      rw [List.filterMap_cons_some hsb, List.map_cons, List.map_cons, key_sweepBucket hsb]
      exact ih.cons_cons _

/-- If no bucket is removed, the keys are the same array. -/
theorem keys_sweep_of_length {f : Subscription → Option Subscription} {bs : List Bucket}
    (h : bs.length ≤ (sweep (sweepBucket f) bs).length) :
    (sweep (sweepBucket f) bs).map Bucket.key = bs.map Bucket.key := by
  have hall := sweep_of_length h
  rw [hall]
  apply (keys_filterMap_sublist f bs).eq_of_length
  have hle := List.length_filterMap_le (sweepBucket f) bs
  rw [hall] at h
  simp only [List.length_map]
  omega

theorem BucketTable.Ok.sweep {t : BucketTable} (h : t.Ok) (f : Subscription → Option Subscription) :
    (sweepTable f t).Ok := by
  have hperm : ((SwapRemove.sweep (sweepBucket f) t.buckets).map Bucket.key).Perm
      ((t.buckets.filterMap (sweepBucket f)).map Bucket.key) := (sweep_perm _ _).map _
  have hsub := keys_filterMap_sublist f t.buckets
  unfold sweepTable
  dsimp only
  split_ifs with hshort
  · exact Indexed.refresh h (hperm.nodup_iff.mpr (hsub.nodup h.nodup))
      (hperm.length_eq.trans_le hsub.length_le)
  · -- no bucket was removed, so the index is still that of the keys
    rw [BucketTable.Ok, BucketTable.keys, keys_sweep_of_length (Nat.le_of_not_lt hshort)]
    exact h

/-! ## Tables that place their subscriptions -/

/-- A table with a right index whose buckets hold only subjects that belong to
their key. -/
structure TableInv (at' : Bytes → Bytes → Prop) (t : BucketTable) : Prop where
  ok : t.Ok
  placed : ∀ x ∈ t.placed, at' x.1 x.2.subject

section TableInv

variable {at' : Bytes → Bytes → Prop} {t : BucketTable}

theorem tableInv_nil : TableInv at' ⟨[], []⟩ := ⟨indexed_nil sliceHash, by simp [BucketTable.placed]⟩

theorem TableInv.append (h : TableInv at' t) (A : Alloc) {key : Bytes} {sub : Subscription}
    (hsub : at' key sub.subject) : TableInv at' (bucketAppend A t key sub).1 := by
  obtain ⟨hok, hperm⟩ := bucketAppend_spec A h.ok key sub
  refine ⟨hok, fun x hx => ?_⟩
  rw [hperm.mem_iff] at hx
  split_ifs at hx
  · rcases List.mem_cons.mp hx with rfl | hx
    · exact hsub
    · exact h.placed x hx
  · exact h.placed x hx

theorem length_subs_bucketAppend (h : TableInv at' t) (A : Alloc) (key : Bytes)
    (sub : Subscription) :
    (bucketAppend A t key sub).1.subs.length =
      t.subs.length + if (bucketAppend A t key sub).2 then 1 else 0 := by
  have hlen := (bucketAppend_spec A h.ok key sub).2.length_eq
  rw [← BucketTable.map_placed, ← BucketTable.map_placed, List.length_map, List.length_map, hlen]
  split_ifs <;> simp

/-- A sweep step that does not touch the subject. -/
def KeepsSubject (f : Subscription → Option Subscription) : Prop :=
  ∀ s s', f s = some s' → s'.subject = s.subject

theorem TableInv.sweep (h : TableInv at' t) {f : Subscription → Option Subscription}
    (hf : KeepsSubject f) : TableInv at' (sweepTable f t) := by
  refine ⟨h.ok.sweep f, fun x hx => ?_⟩
  rw [(placed_sweepTable f t).mem_iff, List.mem_filterMap] at hx
  obtain ⟨y, hy, hmap⟩ := hx
  obtain ⟨s, hs, rfl⟩ := Option.map_eq_some_iff.mp hmap
  simpa [hf _ _ hs] using h.placed y hy

theorem subs_sweepTable (f : Subscription → Option Subscription) (t : BucketTable) :
    (sweepTable f t).subs.Perm (t.subs.filterMap f) := by
  have h := (placed_sweepTable f t).map Prod.snd
  rw [BucketTable.map_placed] at h
  refine h.trans ?_
  rw [List.map_filterMap, ← BucketTable.map_placed, List.filterMap_map]
  refine List.Perm.of_eq (congrArg (List.filterMap · _) ?_)
  funext x
  simp [Function.comp_def]

/-- The pairs of a table, those of one bucket in front. -/
theorem placed_setBucketSubs {i : ℕ} {b : Bucket} (hb : t.buckets[i]? = some b)
    (subs : List Subscription) :
    ∃ others, t.placed.Perm (b.subs.map (b.key, ·) ++ others) ∧
      (setBucketSubs t i subs).placed.Perm (subs.map (b.key, ·) ++ others) := by
  obtain ⟨l₁, l₂, hl, rfl⟩ := split_at hb
  refine ⟨(l₁ ++ l₂).flatMap fun b => b.subs.map (b.key, ·), ?_, ?_⟩
  · simp only [BucketTable.placed, hl, List.flatMap_append, List.flatMap_cons]
    exact List.perm_append_comm_assoc _ _ _
  · simp only [BucketTable.placed, setBucketSubs, hl, modify_append_cons, List.flatMap_append,
      List.flatMap_cons]
    exact List.perm_append_comm_assoc _ _ _

theorem TableInv.setSubs (h : TableInv at' t) {i : ℕ} {b : Bucket} {subs : List Subscription}
    (hb : t.buckets[i]? = some b)
    (hsubs : ∀ s ∈ subs, ∃ s₀ ∈ b.subs, s.subject = s₀.subject) :
    TableInv at' (setBucketSubs t i subs) := by
  obtain ⟨others, hold, hnew⟩ := placed_setBucketSubs hb subs
  refine ⟨h.ok.modify i fun _ => rfl, fun x hx => ?_⟩
  rw [hnew.mem_iff, List.mem_append, List.mem_map] at hx
  rcases hx with ⟨s, hs, rfl⟩ | hx
  · obtain ⟨s₀, hs₀, hsame⟩ := hsubs s hs
    have := h.placed (b.key, s₀) (hold.mem_iff.mpr (by simp [hs₀]))
    simpa [hsame] using this
  · exact h.placed x (hold.mem_iff.mpr (by simp [hx]))

theorem length_setBucketSubs {i : ℕ} {b : Bucket} (hb : t.buckets[i]? = some b)
    (subs : List Subscription) :
    (setBucketSubs t i subs).subs.length + b.subs.length = t.subs.length + subs.length := by
  obtain ⟨others, hold, hnew⟩ := placed_setBucketSubs hb subs
  have h₁ := hold.length_eq
  have h₂ := hnew.length_eq
  rw [← BucketTable.map_placed, ← BucketTable.map_placed, List.length_map, List.length_map]
  simp only [List.length_append, List.length_map] at h₁ h₂
  omega

theorem bucketSubs_eq {i : ℕ} {b : Bucket} (hb : t.buckets[i]? = some b) :
    bucketSubs t i = b.subs := by
  simp [bucketSubs, hb]

end TableInv

/-! ## The invariant -/

/-- Literal filters are kept under themselves. -/
def LiteralAt (key subject : Bytes) : Prop :=
  subject = key ∧ isLiteralFilter key = true ∧ subjectValid key true = true

/-- Wildcard filters with a literal first token are kept under that token. -/
def WildcardAt (key subject : Bytes) : Prop :=
  firstToken subject = key ∧ isWildcardToken key = false ∧ subjectValid subject true = true

def GlobalAt (subject : Bytes) : Prop :=
  isWildcardToken (firstToken subject) = true ∧ subjectValid subject true = true

structure RouterInv (r : Router) : Prop where
  literal : TableInv LiteralAt r.literal
  wildcard : TableInv WildcardAt r.wildcard
  global : ∀ s ∈ r.wildcardGlobal, GlobalAt s.subject
  count : (allSubs r).length = r.subCount
  kick : r.subCount ≤ r.kickCap
  close : r.subCount ≤ r.closeCap
  queue : r.subCount ≤ r.queueCap

theorem routerInv_init : RouterInv routerInit :=
  ⟨tableInv_nil, tableInv_nil, by simp [routerInit], rfl, le_rfl, le_rfl, le_rfl⟩

theorem RouterInv.sameRouting {r r' : Router} (h : RouterInv r) (hs : SameRouting r r') :
    RouterInv r' := by
  obtain ⟨h₁, h₂, h₃, h₄, h₅, h₆, h₇⟩ := h
  refine ⟨hs.literal ▸ h₁, hs.wildcard ▸ h₂, hs.wildcardGlobal ▸ h₃, ?_, ?_, ?_, ?_⟩
  · rw [allSubs, hs.literal, hs.wildcard, hs.wildcardGlobal, hs.subCount]
    exact h₄
  · rw [hs.subCount, hs.kickCap]
    exact h₅
  · rw [hs.subCount, hs.closeCap]
    exact h₆
  · rw [hs.subCount, hs.queueCap]
    exact h₇

theorem RouterInv.configureLvc {r : Router} (h : RouterInv r) (A : Alloc) (filters : List Bytes) :
    RouterInv (configureLvc A r filters).1 := by
  unfold Monoblok.configureLvc
  dsimp only
  split_ifs
  all_goals exact ⟨h.1, h.2, h.3, h.4, h.5, h.6, h.7⟩

theorem foldl_noteSubRemoved_router (l : List Subscription) (w : World) :
    (l.foldl noteSubRemoved w).router =
      { w.router with subCount := w.router.subCount - l.length } := by
  induction l generalizing w with
  | nil => rfl
  | cons s l ih =>
    rw [List.foldl_cons, ih, List.length_cons]
    simp only [noteSubRemoved, World.updateConn]
    congr 1
    omega

theorem length_filterMap_add_removed {α β : Type*} (f : α → Option β) (l : List α) :
    (l.filterMap f).length + (l.filter fun s => (f s).isNone).length = l.length := by
  induction l with
  | nil => rfl
  | cons a l ih =>
    cases hf : f a with
    | none =>
      rw [List.filterMap_cons_none hf, List.filter_cons_of_pos (by simp [hf])]
      simp only [List.length_cons]
      omega
    | some b =>
      rw [List.filterMap_cons_some hf, List.filter_cons_of_neg (by simp [hf])]
      simp only [List.length_cons]
      omega

theorem RouterInv.sweep {w : World} (h : RouterInv w.router)
    {f : Subscription → Option Subscription} (hf : KeepsSubject f) :
    RouterInv (sweepRouter f w).router := by
  unfold sweepRouter
  dsimp only
  rw [foldl_noteSubRemoved_router]
  have hsubs : (sweepTable f w.router.literal).subs.length +
      (sweepTable f w.router.wildcard).subs.length +
      (sweepSubs f w.router.wildcardGlobal).length = ((allSubs w.router).filterMap f).length := by
    rw [(subs_sweepTable f _).length_eq, (subs_sweepTable f _).length_eq, sweepSubs,
      (sweep_perm f _).length_eq, allSubs, List.filterMap_append, List.filterMap_append,
      List.length_append, List.length_append]
  have hcount := length_filterMap_add_removed f (allSubs w.router)
  have hold := h.count
  refine ⟨h.literal.sweep hf, h.wildcard.sweep hf, ?_, ?_, ?_, ?_, ?_⟩
  · intro s hs
    obtain ⟨s₀, hs₀, hfs⟩ := mem_sweep.mp hs
    rw [hf _ _ hfs]
    exact h.global s₀ hs₀
  · simp only [allSubs, List.length_append] at hsubs hcount hold ⊢
    omega
  · exact (Nat.sub_le _ _).trans h.kick
  · exact (Nat.sub_le _ _).trans h.close
  · exact (Nat.sub_le _ _).trans h.queue

theorem keepsSubject_removeForConn (conn : ConnId) : KeepsSubject (removeForConn conn) := by
  intro s s' h
  unfold removeForConn at h
  split_ifs at h
  rw [← Option.some.inj h]

theorem keepsSubject_unsubscribeOne (conn : ConnId) (sid : Bytes) (maxMsgs : Option ℕ) :
    KeepsSubject (unsubscribeOne conn sid maxMsgs) := by
  intro s s' h
  unfold unsubscribeOne at h
  split_ifs at h
  · rw [← Option.some.inj h]
  · split at h
    · cases h
    · split_ifs at h
      rw [← Option.some.inj h]

theorem RouterInv.removeAllFor {w : World} (h : RouterInv w.router) (conn : ConnId) :
    RouterInv (removeAllFor w conn).router :=
  h.sweep (keepsSubject_removeForConn conn)

theorem RouterInv.unsubscribe {w : World} (h : RouterInv w.router) (conn : ConnId) (sid : Bytes)
    (maxMsgs : Option ℕ) : RouterInv (unsubscribe w conn sid maxMsgs).router :=
  h.sweep (keepsSubject_unsubscribeOne conn sid maxMsgs)

/-! ## Subscribing -/

structure CapacitySpec (r : Router) (needed : ℕ) (r' : Router) (ok : Bool) : Prop where
  eq : r' = { r with kickCap := r'.kickCap, closeCap := r'.closeCap, queueCap := r'.queueCap }
  kick : r.kickCap ≤ r'.kickCap ∧ (ok = true → needed ≤ r'.kickCap)
  close : r.closeCap ≤ r'.closeCap ∧ (ok = true → needed ≤ r'.closeCap)
  queue : r.queueCap ≤ r'.queueCap ∧ (ok = true → needed ≤ r'.queueCap)

theorem ensurePublishCapacity_spec (A : Alloc) (r : Router) (needed : ℕ) :
    CapacitySpec r needed (ensurePublishCapacity A r needed).1
      (ensurePublishCapacity A r needed).2 := by
  unfold ensurePublishCapacity
  cases hk : arrayReserve (A .kickScratch) r.kickCap needed pointerSize 1 with
  | none => exact ⟨rfl, ⟨le_rfl, by simp⟩, ⟨le_rfl, by simp⟩, ⟨le_rfl, by simp⟩⟩
  | some k =>
    have hk := arrayReserve_ge hk
    cases hc : arrayReserve (A .closeScratch) r.closeCap needed pointerSize 1 with
    | none =>
      simp only [hc]
      exact ⟨rfl, ⟨hk.2, by simp⟩, ⟨le_rfl, by simp⟩, ⟨le_rfl, by simp⟩⟩
    | some c =>
      simp only [hc]
      have hc := arrayReserve_ge hc
      cases hq : arrayReserve (A .queueScratch) r.queueCap needed queueDeliverySize 1 with
      | none =>
        simp only
        exact ⟨rfl, ⟨hk.2, by simp⟩, ⟨hc.2, by simp⟩, ⟨le_rfl, by simp⟩⟩
      | some q =>
        simp only
        have hq := arrayReserve_ge hq
        exact ⟨rfl, ⟨hk.2, fun _ => hk.1⟩, ⟨hc.2, fun _ => hc.1⟩, ⟨hq.2, fun _ => hq.1⟩⟩

theorem RouterInv.capacity {r r' : Router} {needed : ℕ} {ok : Bool} (h : RouterInv r)
    (hs : CapacitySpec r needed r' ok) : RouterInv r' := by
  obtain ⟨heq, hk, hc, hq⟩ := hs
  rw [heq]
  exact ⟨h.1, h.2, h.3, h.4, h.kick.trans hk.1, h.close.trans hc.1, h.queue.trans hq.1⟩

/-- Storing a subscription adds it to one list, or to none. -/
theorem insertSub_spec (A : Alloc) {r : Router} (h : RouterInv r) (sub : Subscription)
    (hvalid : subjectValid sub.subject true = true) :
    ∃ literal wildcard global,
      (insertSub A r sub.subject sub).1 =
        { r with literal := literal, wildcard := wildcard, wildcardGlobal := global } ∧
      TableInv LiteralAt literal ∧ TableInv WildcardAt wildcard ∧
      (∀ s ∈ global, GlobalAt s.subject) ∧
      literal.subs.length + wildcard.subs.length + global.length =
        (allSubs r).length + if (insertSub A r sub.subject sub).2 then 1 else 0 := by
  have hall : (allSubs r).length =
      r.literal.subs.length + r.wildcard.subs.length + r.wildcardGlobal.length := by
    simp only [allSubs, List.length_append]
  unfold insertSub
  by_cases hlit : isLiteralFilter sub.subject = true
  · rw [if_pos hlit]
    refine ⟨_, r.wildcard, r.wildcardGlobal, rfl, ?_, h.wildcard, h.global, ?_⟩
    · exact h.literal.append A ⟨rfl, hlit, hvalid⟩
    · have := length_subs_bucketAppend h.literal A sub.subject sub
      simp only at this ⊢
      omega
  · rw [if_neg hlit]
    by_cases hwild : isWildcardToken (firstToken sub.subject) = true
    · rw [if_pos hwild]
      cases hitems : A .subItems with
      | false => exact ⟨r.literal, r.wildcard, r.wildcardGlobal, rfl, h.literal, h.wildcard,
          h.global, by simpa using hall.symm⟩
      | true =>
        refine ⟨r.literal, r.wildcard, r.wildcardGlobal ++ [sub], rfl, h.literal, h.wildcard, ?_,
          ?_⟩
        · intro s hs
          rcases List.mem_append.mp hs with hs | hs
          · exact h.global s hs
          · rw [List.mem_singleton.mp hs]
            exact ⟨hwild, hvalid⟩
        · simp only [List.length_append, List.length_singleton, if_true]
          omega
    · rw [if_neg hwild]
      refine ⟨r.literal, _, r.wildcardGlobal, rfl, h.literal, ?_, h.global, ?_⟩
      · exact h.wildcard.append A ⟨rfl, by simpa using hwild, hvalid⟩
      · have := length_subs_bucketAppend h.wildcard A (firstToken sub.subject) sub
        simp only at this ⊢
        omega

theorem RouterInv.subscribeQueue {w : World} (h : RouterInv w.router) (A : Alloc) (conn : ConnId)
    (subject queue sid : Bytes) :
    RouterInv (subscribeQueue A w conn subject queue sid).1.router := by
  unfold Monoblok.subscribeQueue
  dsimp only
  generalize hfilter : (if subjectHasLvcPrefix subject then lvcInnerSubject subject else subject) =
    filter
  split
  · exact h
  · split
    · exact h
    · rename_i hvalid
      have hvalid : subjectValid filter true = true := by
        simp only [Bool.or_eq_true, not_or, Bool.not_eq_true, Bool.not_eq_false'] at hvalid
        exact hvalid.1.1
      split
      · exact h
      · have hcap := ensurePublishCapacity_spec A w.router (w.router.subCount + 1)
        split
        · rename_i r heq
          rw [heq] at hcap
          exact h.capacity hcap
        · rename_i r heq
          rw [heq] at hcap
          have hr := h.capacity hcap
          split
          · exact hr
          · have hins := insertSub_spec A hr
              ⟨conn, filter, queue, sid, 0, 0, false, subjectHasLvcPrefix subject⟩ hvalid
            dsimp only at hins
            split
            · rename_i r₂ heq₂
              rw [heq₂] at hins
              obtain ⟨l, v, g, rfl, hl, hv, hg, hlen⟩ := hins
              rw [hr.count] at hlen
              refine ⟨hl, hv, hg, ?_, hr.kick, hr.close, hr.queue⟩
              simpa [allSubs, Nat.add_assoc] using hlen
            · rename_i r₂ heq₂
              rw [heq₂] at hins
              obtain ⟨l, v, g, rfl, hl, hv, hg, hlen⟩ := hins
              rw [hr.count] at hlen
              have hcount := congrArg Router.subCount hcap.eq
              dsimp only at hcount
              -- the router with the subscription counted
              have hdone : RouterInv { r with
                  literal := l
                  wildcard := v
                  wildcardGlobal := g
                  subCount := r.subCount + 1 } := by
                refine ⟨hl, hv, hg, ?_, ?_, ?_, ?_⟩
                · simpa [allSubs, Nat.add_assoc] using hlen
                · rw [hcount]
                  exact hcap.kick.2 rfl
                · rw [hcount]
                  exact hcap.close.2 rfl
                · rw [hcount]
                  exact hcap.queue.2 rfl
              split
              · split
                · refine RouterInv.unsubscribe ?_ conn sid none
                  exact hdone
                · split
                  · exact hdone
                  · refine RouterInv.unsubscribe ?_ conn sid none
                    exact hdone
              · exact hdone

/-! ## Publishing -/

@[simp] theorem queueConnClose_router (p : Pub) (c : ConnId) :
    (queueConnClose p c).1.world.router = p.world.router := by
  unfold queueConnClose
  dsimp only
  split_ifs <;> rfl

@[simp] theorem noteKick_router (p : Pub) (c : ConnId) :
    (noteKick p c).world.router = p.world.router := by
  unfold noteKick
  dsimp only
  split_ifs <;> rfl

theorem deliverToSub_router (A : Alloc) (p : Pub) (sub : Subscription) (m : Message) :
    (deliverToSub A p sub m).2.1.world.router = p.world.router ∧
      (deliverToSub A p sub m).1.subject = sub.subject := by
  unfold deliverToSub
  dsimp only
  split
  · exact ⟨rfl, rfl⟩
  · exact ⟨rfl, rfl⟩
  · split_ifs
    · exact ⟨queueConnClose_router p sub.conn, rfl⟩
    · exact ⟨rfl, rfl⟩
    · exact ⟨noteKick_router _ _, rfl⟩

theorem deliverLoop_router (A : Alloc) (m : Message) (checkFilter : Bool)
    (groups : List QueueDelivery) (i : ℕ) (subs : List Subscription) (p : Pub) :
    (deliverLoop A m checkFilter groups i subs p).2.1.world.router = p.world.router ∧
      (deliverLoop A m checkFilter groups i subs p).1.map Subscription.subject =
        subs.map Subscription.subject := by
  induction subs generalizing i p with
  | nil => exact ⟨rfl, rfl⟩
  | cons sub subs ih =>
    unfold deliverLoop
    split
    · obtain ⟨h₁, h₂⟩ := ih (i + 1) p
      exact ⟨h₁, by simp [h₂]⟩
    · obtain ⟨h₁, h₂⟩ := deliverToSub_router A p sub m
      split
      · rename_i sub' p' heq
        rw [heq] at h₁ h₂
        exact ⟨h₁, by simpa using h₂⟩
      · rename_i sub' p' heq
        rw [heq] at h₁ h₂
        obtain ⟨h₃, h₄⟩ := ih (i + 1) p'
        exact ⟨h₃.trans h₁, by simpa [h₄] using h₂⟩

/-- What delivering to a list does to the router apart from that list. -/
structure ListSpec (p : Pub) (subs : List Subscription) (r : List Subscription × Pub × Bool) :
    Prop where
  router : ∃ rng, r.2.1.world.router =
    { p.world.router with
      queueRng := rng
      subCount := p.world.router.subCount - (subs.length - r.1.length) }
  length : r.1.length ≤ subs.length
  subjects : ∀ s ∈ r.1, ∃ s₀ ∈ subs, s.subject = s₀.subject

theorem deliveredMax_eq_some {s s' : Subscription} (h : deliveredMax s = some s') : s' = s := by
  unfold deliveredMax at h
  split_ifs at h
  exact (Option.some.inj h).symm

theorem deliverMatchingList_spec (A : Alloc) (p : Pub) (subs : List Subscription) (m : Message)
    (checkFilter : Bool) : ListSpec p subs (deliverMatchingList A p subs m checkFilter) := by
  unfold deliverMatchingList
  split
  · rename_i rng _
    exact ⟨⟨rng, by simp⟩, le_rfl, fun s hs => ⟨s, hs, rfl⟩⟩
  · rename_i groups rng _
    dsimp only
    have hloop := deliverLoop_router A m checkFilter groups 0 subs { p with world.router.queueRng := rng }
    generalize deliverLoop A m checkFilter groups 0 subs { p with world.router.queueRng := rng } = r
      at hloop
    obtain ⟨subs', p', ok⟩ := r
    obtain ⟨hrouter, hsubjects⟩ := hloop
    dsimp only at hrouter hsubjects ⊢
    have hlen : subs'.length = subs.length := by simpa using congrArg List.length hsubjects
    have hsweep : (sweepSubs deliveredMax subs').length +
        (subs'.filter fun s => (deliveredMax s).isNone).length = subs'.length := by
      rw [sweepSubs, (sweep_perm _ _).length_eq]
      exact length_filterMap_add_removed _ _
    refine ⟨⟨rng, ?_⟩, ?_, ?_⟩
    · rw [removeDeliveredMax, foldl_noteSubRemoved_router, hrouter]
      dsimp only
      congr 1
      omega
    · dsimp only [removeDeliveredMax]
      omega
    · intro s hs
      obtain ⟨s₁, hs₁, hmax⟩ := mem_sweep.mp hs
      rw [deliveredMax_eq_some hmax]
      have hmem : s₁.subject ∈ subs.map Subscription.subject := by
        rw [← hsubjects]
        exact List.mem_map_of_mem hs₁
      obtain ⟨s₀, hs₀, hsame⟩ := List.mem_map.mp hmem
      exact ⟨s₀, hs₀, hsame.symm⟩

theorem RouterInv.deliverLiteral {p : Pub} (h : RouterInv p.world.router) (A : Alloc)
    (m : Message) : RouterInv (deliverLiteral A p m).1.world.router := by
  unfold Monoblok.deliverLiteral
  split
  · exact h
  · rename_i i hi
    obtain ⟨b, hb, -⟩ := (bucketFind_eq_some h.literal.ok).mp hi
    dsimp only
    rw [bucketSubs_eq hb]
    have hspec := deliverMatchingList_spec A p b.subs m false
    generalize deliverMatchingList A p b.subs m false = r at hspec
    obtain ⟨subs, p', ok⟩ := r
    obtain ⟨⟨rng, hrouter⟩, hlen, hsubjects⟩ := hspec
    dsimp only at hrouter hlen hsubjects ⊢
    rw [hrouter]
    have hset := length_setBucketSubs hb subs
    have hcount := h.count
    refine ⟨h.literal.setSubs hb hsubjects, h.wildcard, h.global, ?_,
      (Nat.sub_le _ _).trans h.kick, (Nat.sub_le _ _).trans h.close,
      (Nat.sub_le _ _).trans h.queue⟩
    simp only [allSubs, List.length_append] at hcount ⊢
    omega

theorem RouterInv.deliverWildcard {p : Pub} (h : RouterInv p.world.router) (A : Alloc)
    (m : Message) : RouterInv (deliverWildcard A p m).1.world.router := by
  unfold Monoblok.deliverWildcard
  split
  · exact h
  · rename_i i hi
    obtain ⟨b, hb, -⟩ := (bucketFind_eq_some h.wildcard.ok).mp hi
    dsimp only
    rw [bucketSubs_eq hb]
    have hspec := deliverMatchingList_spec A p b.subs m true
    generalize deliverMatchingList A p b.subs m true = r at hspec
    obtain ⟨subs, p', ok⟩ := r
    obtain ⟨⟨rng, hrouter⟩, hlen, hsubjects⟩ := hspec
    dsimp only at hrouter hlen hsubjects ⊢
    rw [hrouter]
    have hset := length_setBucketSubs hb subs
    have hcount := h.count
    refine ⟨h.literal, h.wildcard.setSubs hb hsubjects, h.global, ?_,
      (Nat.sub_le _ _).trans h.kick, (Nat.sub_le _ _).trans h.close,
      (Nat.sub_le _ _).trans h.queue⟩
    simp only [allSubs, List.length_append] at hcount ⊢
    omega

theorem RouterInv.deliverGlobal {p : Pub} (h : RouterInv p.world.router) (A : Alloc)
    (m : Message) : RouterInv (deliverGlobal A p m).1.world.router := by
  unfold Monoblok.deliverGlobal
  dsimp only
  have hspec := deliverMatchingList_spec A p p.world.router.wildcardGlobal m true
  generalize deliverMatchingList A p p.world.router.wildcardGlobal m true = r at hspec
  obtain ⟨subs, p', ok⟩ := r
  obtain ⟨⟨rng, hrouter⟩, hlen, hsubjects⟩ := hspec
  dsimp only at hrouter hlen hsubjects ⊢
  rw [hrouter]
  have hcount := h.count
  refine ⟨h.literal, h.wildcard, ?_, ?_, (Nat.sub_le _ _).trans h.kick,
    (Nat.sub_le _ _).trans h.close, (Nat.sub_le _ _).trans h.queue⟩
  · intro s hs
    obtain ⟨s₀, hs₀, hsame⟩ := hsubjects s hs
    rw [hsame]
    exact h.global s₀ hs₀
  · simp only [allSubs, List.length_append] at hcount ⊢
    omega

theorem RouterInv.deliverAll {p : Pub} (h : RouterInv p.world.router) (A : Alloc)
    (m : Message) : RouterInv (deliverAll A p m).1.world.router := by
  unfold Monoblok.deliverAll
  have h₁ := h.deliverLiteral A m
  split
  · rename_i p₁ heq
    rw [heq] at h₁
    exact h₁
  · rename_i p₁ heq
    rw [heq] at h₁
    have h₂ := RouterInv.deliverWildcard (p := p₁) h₁ A m
    split
    · rename_i p₂ heq₂
      rw [heq₂] at h₂
      exact h₂
    · rename_i p₂ heq₂
      rw [heq₂] at h₂
      exact RouterInv.deliverGlobal (p := p₂) h₂ A m

theorem RouterInv.publishWithReply {w : World} (h : RouterInv w.router) (A : Alloc)
    (m : Message) : RouterInv (publishWithReply A w m).world.router := by
  unfold Monoblok.publishWithReply
  have hstore := h.sameRouting (sameRouting_lvcStore A w.router m.subject m.payload)
  split
  · exact h
  · split
    · exact h
    · split
      · exact h
      · split
        · rename_i r heq
          rw [heq] at hstore
          exact hstore
        · rename_i r heq
          rw [heq] at hstore
          split
          · exact hstore
          · dsimp only
            refine RouterInv.deliverAll ?_ A m
            exact ⟨hstore.1, hstore.2, hstore.3, hstore.4, hstore.5, hstore.6, hstore.7⟩

/-! ## Reachable routers -/

/-- The server may change a connection between router calls: it drains or fills
the output, closes it, or installs other callbacks. -/
def ServerStep (conns conns' : ConnId → RouterConn) : Prop :=
  ∀ c, (conns' c).subCount = (conns c).subCount ∧
    (conns' c).kickSeenEpoch = (conns c).kickSeenEpoch ∧
    (conns' c).closeSeenEpoch = (conns c).closeSeenEpoch

/-- Worlds reached from an empty router by any calls, with any answers of the
allocator. -/
inductive Reachable : World → Prop
  | init (conns : ConnId → RouterConn) (h : ∀ c, (conns c).subCount = 0) :
      Reachable ⟨routerInit, conns⟩
  | configureLvc {w} (A : Alloc) (filters : List Bytes) :
      Reachable w → Reachable { w with router := (Monoblok.configureLvc A w.router filters).1 }
  | storeLvc {w} (A : Alloc) (subject payload : Bytes) :
      Reachable w → Reachable { w with router := (lvcStore A w.router subject payload).1 }
  | subscribe {w} (A : Alloc) (conn : ConnId) (subject queue sid : Bytes) :
      Reachable w → Reachable (subscribeQueue A w conn subject queue sid).1
  | unsubscribe {w} (conn : ConnId) (sid : Bytes) (maxMsgs : Option ℕ) :
      Reachable w → Reachable (Monoblok.unsubscribe w conn sid maxMsgs)
  | removeAllFor {w} (conn : ConnId) : Reachable w → Reachable (Monoblok.removeAllFor w conn)
  | publish {w} (A : Alloc) (m : Message) : Reachable w → Reachable (publishWithReply A w m).world
  | server {w} (conns : ConnId → RouterConn) :
      Reachable w → ServerStep w.conns conns → Reachable { w with conns := conns }

theorem Reachable.inv {w : World} (h : Reachable w) : RouterInv w.router := by
  induction h with
  | init conns h => exact routerInv_init
  | configureLvc A filters _ ih => exact ih.configureLvc A filters
  | storeLvc A subject payload _ ih => exact ih.sameRouting (sameRouting_lvcStore A _ _ _)
  | subscribe A conn subject queue sid _ ih => exact ih.subscribeQueue A conn subject queue sid
  | unsubscribe conn sid maxMsgs _ ih => exact ih.unsubscribe conn sid maxMsgs
  | removeAllFor conn _ ih => exact ih.removeAllFor conn
  | publish A m _ ih => exact ih.publishWithReply A m
  | server conns _ _ ih => exact ih

/-! ## Runs of calls -/

/-- A call of the router, or a change the server makes in between. -/
inductive RouterCall where
  | configureLvc (A : Alloc) (filters : List Bytes)
  | storeLvc (A : Alloc) (subject payload : Bytes)
  | subscribe (A : Alloc) (conn : ConnId) (subject queue sid : Bytes)
  | unsubscribe (conn : ConnId) (sid : Bytes) (maxMsgs : Option ℕ)
  | removeAllFor (conn : ConnId)
  | publish (A : Alloc) (m : Message)
  | server (conns : ConnId → RouterConn)

/-- The counters of a connection that only the router writes. -/
def RouterConn.withCountersOf (conn old : RouterConn) : RouterConn :=
  { conn with
    subCount := old.subCount
    kickSeenEpoch := old.kickSeenEpoch
    closeSeenEpoch := old.closeSeenEpoch }

def routerStep (w : World) : RouterCall → World
  | .configureLvc A filters => { w with router := (configureLvc A w.router filters).1 }
  | .storeLvc A subject payload => { w with router := (lvcStore A w.router subject payload).1 }
  | .subscribe A conn subject queue sid => (subscribeQueue A w conn subject queue sid).1
  | .unsubscribe conn sid maxMsgs => unsubscribe w conn sid maxMsgs
  | .removeAllFor conn => removeAllFor w conn
  | .publish A m => (publishWithReply A w m).world
  | .server conns => { w with conns := fun c => (conns c).withCountersOf (w.conns c) }

theorem Reachable.step {w : World} (h : Reachable w) (call : RouterCall) :
    Reachable (routerStep w call) := by
  cases call with
  | configureLvc A filters => exact .configureLvc A filters h
  | storeLvc A subject payload => exact .storeLvc A subject payload h
  | subscribe A conn subject queue sid => exact .subscribe A conn subject queue sid h
  | unsubscribe conn sid maxMsgs => exact .unsubscribe conn sid maxMsgs h
  | removeAllFor conn => exact .removeAllFor conn h
  | publish A m => exact .publish A m h
  | server conns => exact .server _ h fun c => ⟨rfl, rfl, rfl⟩

/-- What holds at the start and is kept by every call holds of every reachable
world. -/
theorem Reachable.invariant {P : World → Prop}
    (hinit : ∀ conns : ConnId → RouterConn, (∀ c, (conns c).subCount = 0) → P ⟨routerInit, conns⟩)
    (hstep : ∀ w call, Reachable w → P w → P (routerStep w call)) {w : World} (h : Reachable w) :
    P w := by
  induction h with
  | init conns h => exact hinit conns h
  | configureLvc A filters h ih => exact hstep _ (.configureLvc A filters) h ih
  | storeLvc A subject payload h ih => exact hstep _ (.storeLvc A subject payload) h ih
  | subscribe A conn subject queue sid h ih =>
    exact hstep _ (.subscribe A conn subject queue sid) h ih
  | unsubscribe conn sid maxMsgs h ih => exact hstep _ (.unsubscribe conn sid maxMsgs) h ih
  | removeAllFor conn h ih => exact hstep _ (.removeAllFor conn) h ih
  | publish A m h ih => exact hstep _ (.publish A m) h ih
  | server conns h hserver ih =>
    rename_i w
    have hconns : (fun c => (conns c).withCountersOf (w.conns c)) = conns := by
      funext c
      obtain ⟨h₁, h₂, h₃⟩ := hserver c
      rw [RouterConn.withCountersOf, ← h₁, ← h₂, ← h₃]
    have hnext := hstep w (.server conns) h ih
    rw [routerStep, hconns] at hnext
    exact hnext

theorem Reachable.run {w : World} (h : Reachable w) (calls : List RouterCall) :
    Reachable (calls.foldl routerStep w) := by
  induction calls generalizing w with
  | nil => exact h
  | cons call calls ih => exact ih (h.step call)

end Monoblok
