import Monoblok.Router.Subs

/-!
# Publishing

`mb_router_publish_with_reply_and_options`: a message is stored in the cache,
then delivered to the literal bucket of its subject, to the wildcard bucket of
its first token and to the global list. In each list one member per queue group
is chosen before anything is delivered.

The connections to close and to kick are returned; the callbacks run after the
deliveries and do not publish. The bridge callback does not touch the router.
-/

namespace Monoblok

open OpenAddressing SwapRemove

/-- The xorshift generator of the router: its next state and the number drawn. -/
def queueRandom (rng : UInt64) : UInt64 × UInt64 :=
  let x := rng ^^^ (rng >>> 12)
  let x := x ^^^ (x <<< 25)
  let x := x ^^^ (x >>> 27)
  let rng := if x = 0 then queueRngSeed else x
  (rng, rng * 2685821657736338717)

structure QueueDelivery where
  subject : Bytes
  queue : Bytes
  selected : ℕ
  seen : ℕ
  isLvc : Bool
  deriving DecidableEq, Repr

def queueGroupEq (group : QueueDelivery) (sub : Subscription) : Bool :=
  group.isLvc == sub.isLvc && sliceEq group.subject sub.subject && sliceEq group.queue sub.queue

/-- One more member of a group; each member seen so far is equally likely to
stay selected. -/
def QueueDelivery.see (group : QueueDelivery) (rng : UInt64) (index : ℕ) :
    QueueDelivery × UInt64 :=
  let group := { group with seen := group.seen + 1 }
  if group.seen = 1 then ({ group with selected := index }, rng)
  else
    let (rng, x) := queueRandom rng
    if x.toNat % group.seen = 0 then ({ group with selected := index }, rng) else (group, rng)

def collectQueueDelivery (queueCap : ℕ) (groups : List QueueDelivery) (rng : UInt64)
    (sub : Subscription) (index : ℕ) : Option (List QueueDelivery × UInt64) :=
  match groups.findIdx? (queueGroupEq · sub) with
  | some i =>
    match groups[i]? with
    | none => none
    | some group =>
      let (group, rng) := group.see rng index
      some (groups.set i group, rng)
  | none =>
    if queueCap ≤ groups.length then none
    else
      let (group, rng) := QueueDelivery.see ⟨sub.subject, sub.queue, index, 0, sub.isLvc⟩ rng index
      some (groups ++ [group], rng)

def queueSelected (groups : List QueueDelivery) (sub : Subscription) (index : ℕ) : Bool :=
  sub.queue.isEmpty || groups.any fun g => g.selected == index && queueGroupEq g sub

/-- The message on its way, with the connections noted so far and the number of
frames written. -/
structure Pub where
  world : World
  kicked : List ConnId
  closed : List ConnId
  writes : ℕ

structure Message where
  subject : Bytes
  payload : Bytes
  replyTo : Bytes
  deriving DecidableEq, Repr

def subDeliverable (w : World) (sub : Subscription) (subject : Bytes) (checkFilter : Bool) : Bool :=
  if (w.conns sub.conn).closed then false
  else if checkFilter && !subjectMatches sub.subject subject then false
  else !sub.isLvc || lvcSubjectEnabled w.router subject

def queueConnClose (p : Pub) (c : ConnId) : Pub × Bool :=
  let conn := p.world.conns c
  let epoch := p.world.router.kickEpoch
  if conn.closed then (p, true)
  else
    let p := { p with world := p.world.updateConn c fun conn => { conn with closed := true } }
    if !conn.hasCloseFn || conn.closeSeenEpoch == epoch then (p, true)
    else if p.world.router.closeCap ≤ p.closed.length then (p, false)
    else
      ({ p with
          world := p.world.updateConn c fun conn => { conn with closeSeenEpoch := epoch }
          closed := p.closed ++ [c] }, true)

def subPrefix (sub : Subscription) : Bytes := if sub.isLvc then lvcPrefix else []

def measureMsg (conn : RouterConn) (sub : Subscription) (m : Message) : Option ℕ :=
  match conn.msgLenFn with
  | some f => f (subPrefix sub) m.subject sub.sid m.replyTo m.payload
  | none =>
    msgFrameLenPrefixedWithReply (subPrefix sub).length m.subject sub.sid m.replyTo m.payload

/-- The `i`-th message written by a publish. -/
def writeMsgTo (A : Alloc) (i : ℕ) (conn : RouterConn) (sub : Subscription) (m : Message) :
    Bytes × Bool :=
  match conn.writeMsgFn with
  | some f =>
    f (fun j => A (.write i j)) conn.out (subPrefix sub) m.subject sub.sid m.replyTo m.payload
  | none =>
    if !A (.out i) then (conn.out, false)
    else
      match writeMsgPrefixedWithReply conn.out (subPrefix sub) m.subject sub.sid m.replyTo
          m.payload with
      | some out => (out, true)
      | none => (conn.out, false)

/-- A connection is kicked once per publish. -/
def noteKick (p : Pub) (c : ConnId) : Pub :=
  let conn := p.world.conns c
  let epoch := p.world.router.kickEpoch
  if conn.hasKickFn && conn.kickSeenEpoch != epoch then
    { p with
      world := p.world.updateConn c fun conn => { conn with kickSeenEpoch := epoch }
      kicked := p.kicked ++ [c] }
  else p

def deliverToSub (A : Alloc) (p : Pub) (sub : Subscription) (m : Message) :
    Subscription × Pub × Bool :=
  let conn := p.world.conns sub.conn
  match measureMsg conn sub m with
  | none => (sub, p, false)
  | some 0 => ({ sub with delivered := sub.delivered + 1 }, p, true)
  | some frameLen =>
    if maxPending < conn.out.length ∨ maxPending - conn.out.length < frameLen then
      let (p, ok) := queueConnClose p sub.conn
      (sub, p, ok)
    else
      let (out, wrote) := writeMsgTo A p.writes conn sub m
      let p := { p with
        world := p.world.updateConn sub.conn fun conn => { conn with out := out }
        writes := p.writes + 1 }
      if !wrote then (sub, p, false)
      else ({ sub with delivered := sub.delivered + 1 }, noteKick p sub.conn, true)

def collectLoop (w : World) (subject : Bytes) (checkFilter : Bool) :
    ℕ → List Subscription → List QueueDelivery → UInt64 → List QueueDelivery × UInt64 × Bool
  | _, [], groups, rng => (groups, rng, true)
  | i, sub :: subs, groups, rng =>
    if sub.queue.isEmpty || !subDeliverable w sub subject checkFilter then
      collectLoop w subject checkFilter (i + 1) subs groups rng
    else
      match collectQueueDelivery w.router.queueCap groups rng sub i with
      | none => (groups, rng, false)
      | some (groups, rng) => collectLoop w subject checkFilter (i + 1) subs groups rng

def deliverLoop (A : Alloc) (m : Message) (checkFilter : Bool) (groups : List QueueDelivery) :
    ℕ → List Subscription → Pub → List Subscription × Pub × Bool
  | _, [], p => ([], p, true)
  | i, sub :: subs, p =>
    if !subDeliverable p.world sub m.subject checkFilter || !queueSelected groups sub i then
      let (subs, p, ok) := deliverLoop A m checkFilter groups (i + 1) subs p
      (sub :: subs, p, ok)
    else
      match deliverToSub A p sub m with
      | (sub, p, false) => (sub :: subs, p, false)
      | (sub, p, true) =>
        let (subs, p, ok) := deliverLoop A m checkFilter groups (i + 1) subs p
        (sub :: subs, p, ok)

def deliveredMax (sub : Subscription) : Option Subscription :=
  if sub.hasMaxMsgs && decide (sub.maxMsgs ≤ sub.delivered) then none else some sub

def removeDeliveredMax (p : Pub) (subs : List Subscription) : List Subscription × Pub :=
  (sweepSubs deliveredMax subs,
    { p with world := (subs.filter fun s => (deliveredMax s).isNone).foldl noteSubRemoved p.world })

def deliverMatchingList (A : Alloc) (p : Pub) (subs : List Subscription) (m : Message)
    (checkFilter : Bool) : List Subscription × Pub × Bool :=
  match collectLoop p.world m.subject checkFilter 0 subs [] p.world.router.queueRng with
  | (_, rng, false) => (subs, { p with world.router.queueRng := rng }, false)
  | (groups, rng, true) =>
    let p := { p with world.router.queueRng := rng }
    let (subs, p, ok) := deliverLoop A m checkFilter groups 0 subs p
    let (subs, p) := removeDeliveredMax p subs
    (subs, p, ok)

/-- The result of a publish: the world before the callbacks run, and whom they
are for. -/
structure PublishResult where
  world : World
  ok : Bool
  closed : List ConnId
  kicked : List ConnId

def setBucketSubs (t : BucketTable) (i : ℕ) (subs : List Subscription) : BucketTable :=
  { t with buckets := t.buckets.modify i fun b => { b with subs := subs } }

def bucketSubs (t : BucketTable) (i : ℕ) : List Subscription := (t.buckets[i]?.map Bucket.subs).getD []

def deliverLiteral (A : Alloc) (p : Pub) (m : Message) : Pub × Bool :=
  match bucketFind p.world.router.literal m.subject with
  | none => (p, true)
  | some i =>
    let (subs, p, ok) := deliverMatchingList A p (bucketSubs p.world.router.literal i) m false
    ({ p with world.router.literal := setBucketSubs p.world.router.literal i subs }, ok)

def deliverWildcard (A : Alloc) (p : Pub) (m : Message) : Pub × Bool :=
  match bucketFind p.world.router.wildcard (firstToken m.subject) with
  | none => (p, true)
  | some i =>
    let (subs, p, ok) := deliverMatchingList A p (bucketSubs p.world.router.wildcard i) m true
    ({ p with world.router.wildcard := setBucketSubs p.world.router.wildcard i subs }, ok)

def deliverGlobal (A : Alloc) (p : Pub) (m : Message) : Pub × Bool :=
  let (subs, p, ok) := deliverMatchingList A p p.world.router.wildcardGlobal m true
  ({ p with world.router.wildcardGlobal := subs }, ok)

def deliverAll (A : Alloc) (p : Pub) (m : Message) : Pub × Bool :=
  match deliverLiteral A p m with
  | (p, false) => (p, false)
  | (p, true) =>
    match deliverWildcard A p m with
    | (p, false) => (p, false)
    | (p, true) => deliverGlobal A p m

def nextKickEpoch (epoch : UInt64) : UInt64 := if epoch + 1 = 0 then 1 else epoch + 1

def publishWithReply (A : Alloc) (w : World) (m : Message) : PublishResult :=
  if !subjectValid m.subject false then ⟨w, false, [], []⟩
  else if !m.replyTo.isEmpty && !subjectValid m.replyTo false then ⟨w, false, [], []⟩
  else if subjectHasLvcPrefix m.subject then ⟨w, false, [], []⟩
  else
    match lvcStore A w.router m.subject m.payload with
    | (r, false) => ⟨{ w with router := r }, false, [], []⟩
    | (r, true) =>
      if r.kickCap < r.subCount ∨ r.closeCap < r.subCount ∨ r.queueCap < r.subCount then
        ⟨{ w with router := r }, false, [], []⟩
      else
        let w := { w with router := { r with kickEpoch := nextKickEpoch r.kickEpoch } }
        let (p, ok) := deliverAll A ⟨w, [], [], 0⟩ m
        ⟨p.world, ok, p.closed, p.kicked⟩

end Monoblok
