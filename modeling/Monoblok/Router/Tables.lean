import Monoblok.Router.Agreement
import Monoblok.Router.Cache

/-!
# Tables and their indexes over whole runs

What every operation on a bucket table keeps holds of the tables of every
reachable router. An index exists as soon as its table has had a key, so that
the lookups of the code, which do without a scan, find what a scan would. The
buckets a sweep removes go one by one, and the index is right after each.
-/

namespace Monoblok

open OpenAddressing SwapRemove

/-- A property of both tables of a router. -/
structure Router.Tables (P : BucketTable → Prop) (r : Router) : Prop where
  literal : P r.literal
  wildcard : P r.wildcard

/-- What the operations on tables keep. -/
structure TableKept (P : BucketTable → Prop) : Prop where
  nil : P ⟨[], []⟩
  append : ∀ A t key sub, P t → P (bucketAppend A t key sub).1
  sweep : ∀ f t, P t → P (sweepTable f t)
  setSubs : ∀ t i subs, P t → P (setBucketSubs t i subs)

section TableKept

variable {P : BucketTable → Prop}

theorem TableKept.sweepRouter (hP : TableKept P) {w : World} (h : w.router.Tables P)
    (f : Subscription → Option Subscription) : (sweepRouter f w).router.Tables P := by
  unfold Monoblok.sweepRouter
  dsimp only
  rw [foldl_noteSubRemoved_router]
  exact ⟨hP.sweep f _ h.literal, hP.sweep f _ h.wildcard⟩

theorem TableKept.insertSub (hP : TableKept P) {r : Router} (h : r.Tables P) (A : Alloc)
    (filter : Bytes) (sub : Subscription) : (insertSub A r filter sub).1.Tables P := by
  unfold Monoblok.insertSub
  split_ifs
  · exact ⟨hP.append A _ _ _ h.literal, h.wildcard⟩
  · exact ⟨h.literal, h.wildcard⟩
  · exact ⟨h.literal, h.wildcard⟩
  · exact ⟨h.literal, hP.append A _ _ _ h.wildcard⟩

theorem TableKept.subscribeQueue (hP : TableKept P) {w : World} (h : w.router.Tables P) (A : Alloc)
    (conn : ConnId) (subject queue sid : Bytes) :
    (subscribeQueue A w conn subject queue sid).1.router.Tables P := by
  unfold Monoblok.subscribeQueue
  dsimp only
  generalize (if subjectHasLvcPrefix subject then lvcInnerSubject subject else subject) = filter
  split
  · exact h
  · split
    · exact h
    · split
      · exact h
      · have hcap : (ensurePublishCapacity A w.router (w.router.subCount + 1)).1.Tables P := by
          rw [(ensurePublishCapacity_spec A w.router (w.router.subCount + 1)).eq]
          exact ⟨h.literal, h.wildcard⟩
        split
        · rename_i r heq
          rw [heq] at hcap
          exact hcap
        · rename_i r heq
          rw [heq] at hcap
          split
          · exact hcap
          · have hins := hP.insertSub hcap A filter
              ⟨conn, filter, queue, sid, 0, 0, false, subjectHasLvcPrefix subject⟩
            split
            · rename_i r₂ heq₂
              rw [heq₂] at hins
              exact hins
            · rename_i r₂ heq₂
              rw [heq₂] at hins
              have hdone : Router.Tables P { r₂ with subCount := r₂.subCount + 1 } :=
                ⟨hins.literal, hins.wildcard⟩
              split
              · split
                · apply hP.sweepRouter
                  exact hdone
                · split
                  · exact hdone
                  · apply hP.sweepRouter
                    exact hdone
              · exact hdone

theorem tables_deliverMatchingList (A : Alloc) {p : Pub} (h : p.world.router.Tables P)
    (subs : List Subscription) (m : Message) (checkFilter : Bool) :
    (deliverMatchingList A p subs m checkFilter).2.1.world.router.Tables P := by
  obtain ⟨rng, hrouter⟩ := (deliverMatchingList_spec A p subs m checkFilter).router
  rw [hrouter]
  exact ⟨h.literal, h.wildcard⟩

theorem TableKept.deliverAll (hP : TableKept P) (A : Alloc) {p : Pub} (h : p.world.router.Tables P)
    (m : Message) : (deliverAll A p m).1.world.router.Tables P := by
  have hlit : (deliverLiteral A p m).1.world.router.Tables P := by
    unfold deliverLiteral
    split
    · exact h
    · have hlist := tables_deliverMatchingList A h
      exact ⟨hP.setSubs _ _ _ (hlist _ m false).literal, (hlist _ m false).wildcard⟩
  unfold Monoblok.deliverAll
  split
  · rename_i p₁ heq₁
    rw [heq₁] at hlit
    exact hlit
  · rename_i p₁ heq₁
    rw [heq₁] at hlit
    have hwild : (deliverWildcard A p₁ m).1.world.router.Tables P := by
      unfold deliverWildcard
      split
      · exact hlit
      · have hlist := tables_deliverMatchingList A (p := p₁) hlit
        exact ⟨(hlist _ m true).literal, hP.setSubs _ _ _ (hlist _ m true).wildcard⟩
    split
    · rename_i p₂ heq₂
      rw [heq₂] at hwild
      exact hwild
    · rename_i p₂ heq₂
      rw [heq₂] at hwild
      have hglobal := tables_deliverMatchingList A (p := p₂) hwild p₂.world.router.wildcardGlobal m true
      exact ⟨hglobal.literal, hglobal.wildcard⟩

theorem tables_lvcStore {r : Router} (h : r.Tables P) (A : Alloc) (subject payload : Bytes) :
    (lvcStore A r subject payload).1.Tables P := by
  have hsame := sameRouting_lvcStore A r subject payload
  constructor
  · rw [hsame.literal]
    exact h.literal
  · rw [hsame.wildcard]
    exact h.wildcard

theorem TableKept.publishWithReply (hP : TableKept P) {w : World} (h : w.router.Tables P) (A : Alloc)
    (m : Message) : (publishWithReply A w m).world.router.Tables P := by
  unfold Monoblok.publishWithReply
  have hstore := tables_lvcStore h A m.subject m.payload
  split
  · exact h
  · split
    · exact h
    · split
      · exact h
      · split
        · rename_i r heq
          rw [heq] at hstore
          exact hstore
        · rename_i r heq
          rw [heq] at hstore
          split
          · exact hstore
          · apply hP.deliverAll
            exact ⟨hstore.literal, hstore.wildcard⟩

theorem TableKept.routerStep (hP : TableKept P) {w : World} (h : w.router.Tables P)
    (call : RouterCall) : (routerStep w call).router.Tables P := by
  cases call with
  | configureLvc A filters =>
    unfold Monoblok.routerStep configureLvc
    dsimp only
    split_ifs <;> exact ⟨h.literal, h.wildcard⟩
  | storeLvc A subject payload => exact tables_lvcStore h A subject payload
  | subscribe A conn subject queue sid => exact hP.subscribeQueue h A conn subject queue sid
  | unsubscribe conn sid maxMsgs => exact hP.sweepRouter h _
  | removeAllFor conn => exact hP.sweepRouter h _
  | publish A m => exact hP.publishWithReply h A m
  | server conns => exact h

/-- What the operations keep holds of the tables of every reachable router. -/
theorem Reachable.tables (hP : TableKept P) {w : World} (h : Reachable w) : w.router.Tables P :=
  h.invariant (P := fun w => w.router.Tables P) (fun _ _ => ⟨hP.nil, hP.nil⟩)
    fun _ call _ ih => hP.routerStep ih call

end TableKept

/-! ## Indexes that exist -/

/-- There is an index as soon as there has been a key. -/
structure BucketTable.Sound (t : BucketTable) : Prop where
  ok : t.Ok
  made : t.index = [] → t.buckets = []

theorem length_indexRefresh {α : Type*} (hash : α → UInt64) (index : Index) (keys : List α) :
    (indexRefresh hash index keys).length = index.length := by
  unfold indexRefresh
  split_ifs
  · rfl
  · exact length_build _ _

theorem BucketTable.Sound.create {t : BucketTable} (h : t.Sound) (A : Alloc) (key : Bytes) :
    (bucketCreate A t key).1.Sound := by
  refine ⟨(bucketCreate_spec A h.ok key).ok, ?_⟩
  unfold bucketCreate
  split
  · exact h.made
  · split
    · exact h.made
    · rename_i index he
      have hkeys : t.buckets.length = t.keys.length := by simp [BucketTable.keys]
      rw [hkeys] at he
      have hne := (Indexed.ready h.ok key he).2
      dsimp only
      split_ifs
      · exact fun hnil => absurd hnil hne
      · exact fun hnil => absurd hnil hne
      · intro hnil
        have hlen := congrArg List.length hnil
        simp only [length_insert, List.length_nil] at hlen
        exact absurd (List.length_eq_zero_iff.mp hlen) hne

theorem tableKept_sound : TableKept BucketTable.Sound := by
  constructor
  · exact ⟨indexed_nil sliceHash, fun _ => rfl⟩
  · intro A t key sub h
    refine ⟨(bucketAppend_spec A h.ok key sub).1, ?_⟩
    have hmade := (h.create A key).made
    unfold bucketAppend
    generalize bucketCreate A t key = r at hmade ⊢
    obtain ⟨t', pos⟩ := r
    cases pos with
    | none => exact hmade
    | some i =>
      dsimp only at hmade ⊢
      split_ifs
      · intro hnil
        simp [hmade hnil]
      · exact hmade
  · intro f t h
    refine ⟨h.ok.sweep f, ?_⟩
    intro hnil
    have hlen : (sweepTable f t).index.length = t.index.length := by
      unfold sweepTable
      dsimp only
      split_ifs
      · exact length_indexRefresh _ _ _
      · rfl
    have hindex : t.index = [] := by
      rw [hnil] at hlen
      exact List.length_eq_zero_iff.mp hlen.symm
    simp [sweepTable, h.made hindex, sweep, sweepLoop]
  · intro t i subs h
    refine ⟨h.ok.modify i fun _ => rfl, ?_⟩
    intro hnil
    simp [setBucketSubs, h.made hnil]

/-! ## Removing buckets one at a time -/

/-- `remove_literal_bucket_at` and `remove_wildcard_bucket_at`: the last bucket
takes the place of bucket `i`, and the index is rebuilt. -/
def removeBucketAt (t : BucketTable) (i : ℕ) : BucketTable :=
  let len := t.buckets.length - 1
  let moved :=
    match t.buckets[len]? with
    | some last => if i ≠ len then t.buckets.set i last else t.buckets
    | none => t.buckets
  { buckets := moved.take len
    index := indexRefresh sliceHash t.index ((moved.take len).map Bucket.key) }

/-- The loop over the buckets of `mb_router_unsubscribe` and
`mb_router_remove_all_for`, with the table after each round. -/
def sweepTrace (f : Subscription → Option Subscription) : ℕ → ℕ → BucketTable → List BucketTable
  | 0, _, _ => []
  | rounds + 1, i, t =>
    match t.buckets[i]? with
    | none => []
    | some b =>
      let subs := sweepSubs f b.subs
      let t := setBucketSubs t i subs
      let t := if subs.isEmpty then removeBucketAt t i else t
      t :: sweepTrace f rounds (if subs.isEmpty then i else i + 1) t

theorem removeBucketAt_eq (pre xs : List Bucket) (b : Bucket) (index : Index) :
    removeBucketAt ⟨pre ++ b :: xs, index⟩ pre.length =
      ⟨pre ++ lastFirst xs, indexRefresh sliceHash index ((pre ++ lastFirst xs).map Bucket.key)⟩ := by
  rcases List.eq_nil_or_concat xs with rfl | ⟨init, last, rfl⟩
  · simp [removeBucketAt, lastFirst]
  · have hlen : (pre ++ b :: (init ++ [last])).length - 1 = pre.length + (init.length + 1) := by
      simp only [List.length_append, List.length_cons, List.length_nil]
      omega
    have hget : (pre ++ b :: (init ++ [last]))[pre.length + (init.length + 1)]? = some last := by
      simp
    have hset : (pre ++ b :: (init ++ [last])).set pre.length last = pre ++ last :: (init ++ [last]) := by
      simp
    have htake : (pre ++ last :: (init ++ [last])).take (pre.length + (init.length + 1)) =
        pre ++ last :: init := by
      simp [List.take_append, List.take_of_length_le]
    have hne : pre.length ≠ pre.length + (init.length + 1) := by omega
    simp only [removeBucketAt, List.concat_eq_append, hlen, hget, hne, ne_eq, not_false_eq_true,
      if_true, hset, htake, lastFirst, List.getLast?_concat, List.dropLast_concat,
      Option.toList_some, List.singleton_append]

theorem BucketTable.Sound.removeBucketAt {t : BucketTable} (h : t.Sound) {i : ℕ} {b : Bucket}
    (hb : t.buckets[i]? = some b) : (removeBucketAt t i).Sound := by
  obtain ⟨pre, xs, hl, rfl⟩ := split_at hb
  obtain ⟨buckets, index⟩ := t
  dsimp only at hl
  subst hl
  rw [removeBucketAt_eq]
  have hperm : ((pre ++ lastFirst xs).map Bucket.key).Perm ((pre ++ xs).map Bucket.key) :=
    ((lastFirst_perm xs).append_left pre).map _
  have hsub : ((pre ++ xs).map Bucket.key).Sublist ((pre ++ b :: xs).map Bucket.key) :=
    ((List.sublist_cons_self b xs).append_left pre).map _
  constructor
  · apply Indexed.refresh h.ok
    · exact hperm.nodup_iff.mpr (hsub.nodup h.ok.nodup)
    · exact hperm.length_eq.trans_le hsub.length_le
  · intro hnil
    have hlen := length_indexRefresh sliceHash index ((pre ++ lastFirst xs).map Bucket.key)
    dsimp only at hnil
    rw [hnil] at hlen
    have hmade := h.made (List.length_eq_zero_iff.mp hlen.symm)
    simp at hmade

/-- The index is right after every round. -/
theorem sweepTrace_sound (f : Subscription → Option Subscription) (rounds i : ℕ) {t : BucketTable}
    (h : t.Sound) : ∀ t' ∈ sweepTrace f rounds i t, t'.Sound := by
  induction rounds generalizing i t with
  | zero => simp [sweepTrace]
  | succ rounds ih =>
    unfold sweepTrace
    cases hb : t.buckets[i]? with
    | none => simp
    | some b =>
      have hset := tableKept_sound.setSubs t i (sweepSubs f b.subs) h
      have hb' : (setBucketSubs t i (sweepSubs f b.subs)).buckets[i]? =
          some { b with subs := sweepSubs f b.subs } := by
        simp [setBucketSubs, hb]
      have hround : (if (sweepSubs f b.subs).isEmpty then
          removeBucketAt (setBucketSubs t i (sweepSubs f b.subs)) i
          else setBucketSubs t i (sweepSubs f b.subs)).Sound := by
        split_ifs
        · exact hset.removeBucketAt hb'
        · exact hset
      intro t' ht'
      rcases List.mem_cons.mp ht' with rfl | ht'
      · exact hround
      · exact ih _ hround t' ht'

/-- Refreshing again forgets the keys of the first time. -/
theorem indexRefresh_indexRefresh {α : Type*} (hash : α → UInt64) (index : Index)
    (keys keys' : List α) :
    indexRefresh hash (indexRefresh hash index keys) keys' = indexRefresh hash index keys' := by
  have hlen := length_indexRefresh hash index keys
  by_cases hnil : index.length = 0
  · simp [indexRefresh, hnil]
  · have hne : (indexRefresh hash index keys).length ≠ 0 := hlen ▸ hnil
    rw [indexRefresh, if_neg hne, hlen, indexRefresh, if_neg hnil]

/-- The table a sweep leaves behind is that of its last round. -/
theorem sweepTrace_last (f : Subscription → Option Subscription) (n : ℕ) (pre rest : List Bucket)
    (index : Index) (hn : rest.length = n) :
    (sweepTrace f n pre.length ⟨pre ++ rest, index⟩).getLastD ⟨pre ++ rest, index⟩ =
      { buckets := pre ++ sweep (sweepBucket f) rest
        index :=
          if (sweep (sweepBucket f) rest).length < rest.length then
            indexRefresh sliceHash index ((pre ++ sweep (sweepBucket f) rest).map Bucket.key)
          else index } := by
  induction n generalizing pre rest index with
  | zero =>
    have hnil : rest = [] := List.length_eq_zero_iff.mp hn
    subst hnil
    rfl
  | succ n ih =>
    cases rest with
    | nil => simp at hn
    | cons b xs =>
      rw [List.length_cons, Nat.succ_inj] at hn
      have hget : (pre ++ b :: xs)[pre.length]? = some b := by simp
      have hset : setBucketSubs ⟨pre ++ b :: xs, index⟩ pre.length (sweepSubs f b.subs) =
          ⟨pre ++ { b with subs := sweepSubs f b.subs } :: xs, index⟩ := by
        simp only [setBucketSubs, modify_append_cons]
      unfold sweepTrace
      simp only [hget, hset]
      by_cases hempty : (sweepSubs f b.subs).isEmpty = true
      · have hnone : sweepBucket f b = none := by simp [sweepBucket, hempty]
        have hlen : (lastFirst xs).length = n := (lastFirst_perm xs).length_eq.trans hn
        simp only [hempty, if_true, List.getLastD_cons, removeBucketAt_eq, ih _ _ _ hlen,
          sweep_cons_none hnone]
        have hle : (sweep (sweepBucket f) (lastFirst xs)).length ≤ xs.length := by
          rw [(sweep_perm _ _).length_eq, ← (lastFirst_perm xs).length_eq]
          exact List.length_filterMap_le _ _
        rw [List.length_cons, if_pos (Nat.lt_succ_of_le hle)]
        split_ifs with hshort
        · rw [indexRefresh_indexRefresh]
        · -- no other bucket is removed, so the refresh had the final keys
          rw [List.map_append, List.map_append, keys_sweep_of_length (Nat.le_of_not_lt hshort)]
      · have hsome : sweepBucket f b = some { b with subs := sweepSubs f b.subs } := by
          simp [sweepBucket, hempty]
        have hpre : pre.length + 1 = (pre ++ [{ b with subs := sweepSubs f b.subs }]).length := by simp
        have happ : pre ++ { b with subs := sweepSubs f b.subs } :: xs =
            pre ++ [{ b with subs := sweepSubs f b.subs }] ++ xs := by simp
        simp only [hempty, Bool.false_eq_true, if_false, List.getLastD_cons, hpre, happ,
          ih _ _ _ hn, sweep_cons_some hsome]
        simp

/-! ## The cache -/

/-- As for the tables: no index, no entries. -/
def LvcMade (r : Router) : Prop := r.lvcIndex = [] → r.lvc = []

theorem lvcMade_write {r : Router} (h : LvcMade r) (A : Alloc) (i base : ℕ) (payload : Bytes) :
    LvcMade (lvcWrite A r i base payload).1 := by
  unfold lvcWrite
  split
  all_goals
    intro hnil
    simp [h hnil]

theorem lvcMade_storeEntry {r : Router} (hinv : LvcInv r) (h : LvcMade r) (A : Alloc)
    (subject payload : Bytes) : LvcMade (lvcStoreEntry A r subject payload).1 := by
  have happend : ∀ base, LvcMade (lvcAppend A r subject base payload).1 := by
    intro base
    unfold lvcAppend
    split
    · exact h
    · split
      · exact h
      · rename_i index he
        have hkeys : r.lvc.length = (lvcKeys r).length := by simp [lvcKeys]
        rw [hkeys] at he
        have hne := (hinv.indexed.ready subject he).2
        dsimp only
        split_ifs
        · exact fun hnil => absurd hnil hne
        · exact fun hnil => absurd hnil hne
        · apply lvcMade_write
          intro hnil
          have hlen := congrArg List.length hnil
          simp only [length_insert, List.length_nil] at hlen
          exact absurd (List.length_eq_zero_iff.mp hlen) hne
  unfold lvcStoreEntry
  dsimp only
  split_ifs
  · exact h
  · exact h
  · exact h
  · split
    · exact lvcMade_write h A _ _ payload
    · exact happend _

theorem lvcMade_store {r : Router} (hinv : LvcInv r) (h : LvcMade r) (A : Alloc)
    (subject payload : Bytes) : LvcMade (lvcStore A r subject payload).1 := by
  unfold lvcStore
  split_ifs
  · exact h
  · exact h
  · exact lvcMade_storeEntry hinv h A subject payload
  · exact h
  · exact lvcMade_storeEntry hinv h A subject payload

theorem LvcMade.of_cache {r r' : Router} (h : LvcMade r) (hc : cacheOf r' = cacheOf r) : LvcMade r' := by
  have hentries : r'.lvc = r.lvc := congrArg Cache.entries hc
  have hindex : r'.lvcIndex = r.lvcIndex := congrArg Cache.index hc
  rw [LvcMade, hentries, hindex]
  exact h

theorem Reachable.lvcMade {w : World} (h : Reachable w) : LvcMade w.router := by
  apply h.invariant (P := fun w => LvcMade w.router)
  · intro conns _ _
    rfl
  · intro w call hreach ih
    have hinv := hreach.lvcInv
    cases call with
    | configureLvc A filters =>
      unfold Monoblok.routerStep Monoblok.configureLvc
      dsimp only
      split_ifs <;> exact ih
    | storeLvc A subject payload => exact lvcMade_store hinv ih A subject payload
    | subscribe A conn subject queue sid =>
      exact ih.of_cache (cacheOf_subscribeQueue A w conn subject queue sid)
    | unsubscribe conn sid maxMsgs => exact ih.of_cache (cacheOf_sweepRouter _ w)
    | removeAllFor conn => exact ih.of_cache (cacheOf_sweepRouter _ w)
    | publish A m =>
      rcases cacheOf_publish A w m with hc | hc
      · exact ih.of_cache hc
      · exact (lvcMade_store hinv ih A m.subject m.payload).of_cache hc
    | server conns => exact ih

/-! ## Agreement -/

/-- The index of a table agrees with its keys, is there when it is needed, and
stays right when it is made ready for the next key. -/
structure TableAgrees (keys : List Bytes) (index : Index) : Prop where
  agrees : Agrees sliceHash keys index
  made : index = [] → keys = []
  find : ∀ key, tableIndexFind sliceHash index keys key = keys.findIdx? fun k => decide (k = key)
  ready : ∀ ok index', indexEnsure sliceHash ok index keys (keys.length + 1) = some index' →
    Agrees sliceHash keys index' ∧ index' ≠ []

theorem Indexed.tableAgrees {keys : List Bytes} {index : Index} (h : Indexed sliceHash keys index)
    (hmade : index = [] → keys = []) : TableAgrees keys index := by
  constructor
  · exact h.agrees
  · exact hmade
  · exact h.tableScan hmade
  · exact fun ok index' he => h.ready [] he

theorem BucketTable.Sound.tableAgrees {t : BucketTable} (h : t.Sound) : TableAgrees t.keys t.index :=
  Indexed.tableAgrees h.ok fun hnil => by simp [BucketTable.keys, h.made hnil]

/-- The indexes of a reachable router agree with their arrays. They still do after
a bucket was looked up and perhaps created, whatever the allocator refused, and
after every round of a sweep, whose last round leaves the swept table. -/
theorem Reachable.indexes_agree {w : World} (h : Reachable w) :
    TableAgrees w.router.literal.keys w.router.literal.index ∧
      TableAgrees w.router.wildcard.keys w.router.wildcard.index ∧
      TableAgrees (lvcKeys w.router) w.router.lvcIndex ∧
      ∀ t ∈ [w.router.literal, w.router.wildcard],
        (∀ A key, TableAgrees (bucketCreate A t key).1.keys (bucketCreate A t key).1.index) ∧
        (∀ i < t.buckets.length, TableAgrees (removeBucketAt t i).keys (removeBucketAt t i).index) ∧
        ∀ f, (∀ t' ∈ sweepTrace f t.buckets.length 0 t, TableAgrees t'.keys t'.index) ∧
          (sweepTrace f t.buckets.length 0 t).getLastD t = sweepTable f t := by
  have hsound := h.tables tableKept_sound
  have htable : ∀ t : BucketTable, t.Sound →
      (∀ A key, TableAgrees (bucketCreate A t key).1.keys (bucketCreate A t key).1.index) ∧
      (∀ i < t.buckets.length, TableAgrees (removeBucketAt t i).keys (removeBucketAt t i).index) ∧
      ∀ f, (∀ t' ∈ sweepTrace f t.buckets.length 0 t, TableAgrees t'.keys t'.index) ∧
        (sweepTrace f t.buckets.length 0 t).getLastD t = sweepTable f t := by
    intro t ht
    refine ⟨?_, ?_, ?_⟩
    · exact fun A key => (ht.create A key).tableAgrees
    · exact fun i hi => (ht.removeBucketAt (List.getElem?_eq_getElem hi)).tableAgrees
    · intro f
      refine ⟨fun t' ht' => (sweepTrace_sound f _ _ ht t' ht').tableAgrees, ?_⟩
      exact sweepTrace_last f _ [] t.buckets t.index rfl
  refine ⟨hsound.literal.tableAgrees, hsound.wildcard.tableAgrees, ?_, ?_⟩
  · exact h.lvcInv.indexed.tableAgrees fun hnil => by simp [lvcKeys, h.lvcMade hnil]
  · intro t ht
    rcases List.mem_cons.mp ht with rfl | ht
    · exact htable _ hsound.literal
    · rw [List.mem_singleton.mp ht]
      exact htable _ hsound.wildcard

/-- A subscription whose bucket got an index and no key. -/
def keyRefusedWorld : World :=
  (subscribeQueue (fun site => decide (site ≠ .bucketKey))
    ⟨routerInit, fun _ => ⟨[], 0, 0, 0, false, none, none, true, true⟩⟩ 0 (lit "a.b") [] (lit "1")).1

theorem indexes_agree_key_refused :
    keyRefusedWorld.router.literal.index.length = 16 ∧
      TableAgrees keyRefusedWorld.router.literal.keys keyRefusedWorld.router.literal.index := by
  have hreach : Reachable keyRefusedWorld :=
    .subscribe _ 0 (lit "a.b") [] (lit "1") (.init _ fun _ => rfl)
  exact ⟨by decide +kernel, hreach.indexes_agree.1⟩

end Monoblok
