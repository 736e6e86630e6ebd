import Monoblok.Router.Lvc

/-!
# Subscribing and unsubscribing

A subscription goes into the bucket of its subject when the filter is a
literal, into the bucket of its first token when that is one, and into the
global list otherwise. Unsubscribing and removing a connection sweep all three
places; buckets that end up empty are removed and the index is rebuilt.
-/

namespace Monoblok

open OpenAddressing SwapRemove

/-- The router and the connections it appends to. -/
structure World where
  router : Router
  conns : ConnId → RouterConn

def World.updateConn (w : World) (c : ConnId) (f : RouterConn → RouterConn) : World :=
  { w with conns := Function.update w.conns c (f (w.conns c)) }

def BucketTable.keys (t : BucketTable) : List Bytes := t.buckets.map Bucket.key

def BucketTable.subs (t : BucketTable) : List Subscription := t.buckets.flatMap Bucket.subs

/-- Every stored subscription, bucket by bucket. -/
def allSubs (r : Router) : List Subscription :=
  r.literal.subs ++ r.wildcard.subs ++ r.wildcardGlobal

def bucketFind (t : BucketTable) (key : Bytes) : Option ℕ := indexFind sliceHash t.index t.keys key

/-- `literal_bucket` and `wildcard_bucket` with `create`: the position of the
bucket of a key, which is appended when it is missing. -/
def bucketCreate (A : Alloc) (t : BucketTable) (key : Bytes) : BucketTable × Option ℕ :=
  match bucketFind t key with
  | some i => (t, some i)
  | none =>
    match indexEnsure sliceHash (A .index) t.index t.keys (t.buckets.length + 1) with
    | none => (t, none)
    | some index =>
      let t := { t with index := index }
      if !A .buckets then (t, none)
      else if !A .bucketKey then (t, none)
      else
        ({ buckets := t.buckets ++ [⟨key, []⟩]
           index := insert t.index (sliceHash key) t.buckets.length }, some t.buckets.length)

/-- Appends to the bucket of the key, unless memory runs out. -/
def bucketAppend (A : Alloc) (t : BucketTable) (key : Bytes) (sub : Subscription) :
    BucketTable × Bool :=
  match bucketCreate A t key with
  | (t, none) => (t, false)
  | (t, some i) =>
    if A .subItems then
      ({ t with buckets := t.buckets.modify i fun b => { b with subs := b.subs ++ [sub] } }, true)
    else (t, false)

/-- `unsubscribe_from_list` and the other sweeps over one list. -/
def sweepSubs (f : Subscription → Option Subscription) (subs : List Subscription) :
    List Subscription :=
  sweep f subs

def sweepBucket (f : Subscription → Option Subscription) (b : Bucket) : Option Bucket :=
  let subs := sweepSubs f b.subs
  if subs.isEmpty then none else some { b with subs := subs }

/-- Sweeps the lists of a table and removes the buckets that are empty
afterwards. The code rebuilds the index at each removal; the last one counts. -/
def sweepTable (f : Subscription → Option Subscription) (t : BucketTable) : BucketTable :=
  let buckets := sweep (sweepBucket f) t.buckets
  { buckets := buckets
    index :=
      if buckets.length < t.buckets.length then indexRefresh sliceHash t.index (buckets.map Bucket.key)
      else t.index }

def noteSubRemoved (w : World) (sub : Subscription) : World :=
  { w with router := { w.router with subCount := w.router.subCount - 1 } }.updateConn sub.conn
    fun c => { c with subCount := c.subCount - 1 }

/-- The sweep over all buckets and the global list; `f` keeps, updates or
removes a subscription. -/
def sweepRouter (f : Subscription → Option Subscription) (w : World) : World :=
  let removed := (allSubs w.router).filter fun s => (f s).isNone
  removed.foldl noteSubRemoved
    { w with
      router := { w.router with
        literal := sweepTable f w.router.literal
        wildcard := sweepTable f w.router.wildcard
        wildcardGlobal := sweepSubs f w.router.wildcardGlobal } }

def removeForConn (conn : ConnId) (sub : Subscription) : Option Subscription :=
  if sub.conn ≠ conn then some sub else none

def removeAllFor (w : World) (conn : ConnId) : World := sweepRouter (removeForConn conn) w

def unsubscribeOne (conn : ConnId) (sid : Bytes) (maxMsgs : Option ℕ) (sub : Subscription) :
    Option Subscription :=
  if sub.conn ≠ conn ∨ !sliceEq sub.sid sid then some sub
  else
    match maxMsgs with
    | none => none
    | some n => if n ≤ sub.delivered then none else some { sub with maxMsgs := n, hasMaxMsgs := true }

def unsubscribe (w : World) (conn : ConnId) (sid : Bytes) (maxMsgs : Option ℕ) : World :=
  sweepRouter (unsubscribeOne conn sid maxMsgs) w

/-- Replays the cached values a new subscription matches, up to the first one
that does not fit; `i` counts the writes. -/
def emitCached (A : Alloc) (r : Router) (filter sid : Bytes) :
    ℕ → List LvcEntry → RouterConn → RouterConn × Bool
  | _, [], conn => (conn, true)
  | i, entry :: entries, conn =>
    if !lvcSubjectEnabled r entry.subject then emitCached A r filter sid (i + 1) entries conn
    else if !subjectMatches filter entry.subject then
      emitCached A r filter sid (i + 1) entries conn
    else
      match msgFrameLenPrefixedWithReply lvcPrefix.length entry.subject sid [] entry.payload with
      | none => (conn, false)
      | some frameLen =>
        if maxPending < conn.out.length ∨ maxPending - conn.out.length < frameLen then (conn, false)
        else if !A (.out i) then (conn, false)
        else
          match writeMsgPrefixedWithReply conn.out lvcPrefix entry.subject sid [] entry.payload with
          | none => (conn, false)
          | some out => emitCached A r filter sid (i + 1) entries { conn with out := out }

def queueDeliverySize : ℕ := 56
def pointerSize : ℕ := 8

/-- `ensure_publish_capacity`; the arrays that have grown stay grown when a
later one cannot. -/
def ensurePublishCapacity (A : Alloc) (r : Router) (needed : ℕ) : Router × Bool :=
  match arrayReserve (A .kickScratch) r.kickCap needed pointerSize 1 with
  | none => (r, false)
  | some kickCap =>
    let r := { r with kickCap := kickCap }
    match arrayReserve (A .closeScratch) r.closeCap needed pointerSize 1 with
    | none => (r, false)
    | some closeCap =>
      let r := { r with closeCap := closeCap }
      match arrayReserve (A .queueScratch) r.queueCap needed queueDeliverySize 1 with
      | none => (r, false)
      | some queueCap => ({ r with queueCap := queueCap }, true)

/-- Where a filter is stored. -/
def insertSub (A : Alloc) (r : Router) (filter : Bytes) (sub : Subscription) : Router × Bool :=
  if isLiteralFilter filter then
    let (t, ok) := bucketAppend A r.literal filter sub
    ({ r with literal := t }, ok)
  else if isWildcardToken (firstToken filter) then
    if A .subItems then ({ r with wildcardGlobal := r.wildcardGlobal ++ [sub] }, true)
    else (r, false)
  else
    let (t, ok) := bucketAppend A r.wildcard (firstToken filter) sub
    ({ r with wildcard := t }, ok)

def subscribeQueue (A : Alloc) (w : World) (conn : ConnId) (subject queue sid : Bytes) :
    World × Bool :=
  let isLvc := subjectHasLvcPrefix subject
  let filter := if isLvc then lvcInnerSubject subject else subject
  if isLvc && (!w.router.lvcEnabled || filter.isEmpty) then (w, false)
  else if !subjectValid filter true || !tokenValid sid ||
      (!queue.isEmpty && !tokenValid queue) then (w, false)
  else if maxSubsPerConn ≤ (w.conns conn).subCount ∨ maxSubsTotal ≤ w.router.subCount then
    (w, false)
  else
    match ensurePublishCapacity A w.router (w.router.subCount + 1) with
    | (r, false) => ({ w with router := r }, false)
    | (r, true) =>
      if !A .subSubject || (!queue.isEmpty && !A .subQueue) || !A .subSid then
        ({ w with router := r }, false)
      else
        match insertSub A r filter ⟨conn, filter, queue, sid, 0, 0, false, isLvc⟩ with
        | (r, false) => ({ w with router := r }, false)
        | (r, true) =>
          let w := { w with router := { r with subCount := r.subCount + 1 } }.updateConn conn
            fun c => { c with subCount := c.subCount + 1 }
          if isLvc then
            if !w.router.lvcEnabled then (unsubscribe w conn sid none, false)
            else
              match emitCached A w.router filter sid 0 w.router.lvc (w.conns conn) with
              | (c, true) => (w.updateConn conn fun _ => c, true)
              | (c, false) => (unsubscribe (w.updateConn conn fun _ => c) conn sid none, false)
          else (w, true)

end Monoblok
