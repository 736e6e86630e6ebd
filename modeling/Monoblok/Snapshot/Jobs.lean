import Monoblok.Lib.Trace
import Monoblok.Snapshot.Format

/-!
# Snapshot jobs

The server writes its snapshots on a thread pool: `on_snapshot_timer` queues a
job, the pool runs it, and the loop hears of its end. When the server closes it
writes a last snapshot by itself. A step below is a callback of the loop, a part
of `mb_server_close`, or one call of a writer on the file system; loop and pool
take turns in any order.

The state that is written is changed by other callbacks of the loop, in any way.
-/

namespace Monoblok.Snapshot

open Patchbay Trace

/-! ## Writing a file -/

/-- The snapshot file and the file next to it that `mb_write_file_atomic` fills
first. -/
structure Disk where
  file : Option Bytes
  tmp : Option Bytes

inductive WriteStage where
  | ready
  | opened
  | filled
  | done (ok : Bool)

/-- The next call of `mb_write_file_atomic`: `fopen`, `fwrite` up to `fclose`, or
`rename`. A failure after the first removes the new file. -/
def writeStep (ok : Bool) (snapshot : Bytes) : WriteStage → Disk → WriteStage × Disk
  | .ready, disk =>
    if ok then (.opened, { disk with tmp := some [] }) else (.done false, disk)
  | .opened, disk =>
    if ok then (.filled, { disk with tmp := some snapshot })
    else (.done false, { disk with tmp := none })
  | .filled, disk =>
    match ok, disk.tmp with
    | true, some bytes => (.done true, ⟨some bytes, none⟩)
    | _, _ => (.done false, { disk with tmp := none })
  | .done result, disk => (.done result, disk)

/-! ## The server -/

inductive JobStage where
  | queued
  | running (stage : WriteStage)
  | canceled

/-- `mb_snapshot_job`; the path of the file is left out. -/
structure SnapshotJob where
  id : ℕ
  snapshot : Bytes
  stage : JobStage

/-- Where the main thread is. `draining` is the first `uv_run` of
`mb_server_close`, `looping` one of those in the loop after it, whose condition is
tested at `checking`. -/
inductive ServerPhase where
  | running
  | draining
  | checking
  | looping
  | finishing
  | writing (snapshot : Bytes) (stage : WriteStage)
  | closed (written : Option Bool)

variable {N : Type} [Number N]

structure SnapshotServer (N : Type) where
  router : Router
  program : Option (Program N)
  /-- A path is configured. -/
  snapshotPath : Bool
  snapshotWritePending : Bool
  snapshotWriteAgain : Bool
  closing : Bool
  snapshotJob : Option ℕ
  /-- The requests the thread pool has not reported back. -/
  pool : List SnapshotJob
  nextId : ℕ
  disk : Disk
  /-- `uv_stop` has been called and not yet been answered. -/
  stopped : Bool
  phase : ServerPhase

/-- What a timer callback is granted: memory for the job, for its path and for the
snapshot, and a place in the queue. -/
structure Grants where
  job : Bool
  path : Bool
  snapshot : Bool
  queue : Bool

/-- The bytes of the job that a timer callback starts, if it starts one. -/
def Grants.start (g : Grants) (r : Router) (p : Option (Program N)) : Option Bytes :=
  if g.job && g.path && g.snapshot && g.queue then snapshotBuild r p else none

inductive SnapshotEvent (N : Type) where
  /-- A timer callback while a job is outstanding. -/
  | deferred
  /-- A timer callback that builds a snapshot, with what it builds it from and the
  job it starts. -/
  | attempted (router : Router) (program : Option (Program N)) (started : Option Bytes)
  | completed (id : ℕ)

inductive SnapshotAction (N : Type) where
  | change (router : Router) (program : Option (Program N))
  | timer (g : Grants)
  | work (id : ℕ) (ok : Bool)
  | afterWork (id : ℕ) (g : Grants)
  | signal
  | close
  | runReturns (alive : Bool)
  | check
  | finalBuild (memory : Bool)
  | finalWrite (ok : Bool)

def SnapshotJob.isOver (job : SnapshotJob) : Bool :=
  match job.stage with
  | .canceled => true
  | .running (.done _) => true
  | _ => false

/-- `uv_cancel`, which comes too late for a job that runs. -/
def SnapshotJob.cancel (job : SnapshotJob) : SnapshotJob :=
  match job.stage with
  | .queued => { job with stage := .canceled }
  | _ => job

/-- The next step of a thread of the pool on a job. -/
def SnapshotJob.work (ok : Bool) (job : SnapshotJob) (disk : Disk) : SnapshotJob × Disk :=
  match job.stage with
  | .queued => ({ job with stage := .running .ready }, disk)
  | .running stage =>
    let r := writeStep ok job.snapshot stage disk
    ({ job with stage := .running r.1 }, r.2)
  | .canceled => (job, disk)

/-- The main thread is in `uv_run`. -/
def ServerPhase.inLoop : ServerPhase → Bool
  | .running => true
  | .draining => true
  | .looping => true
  | _ => false

namespace SnapshotServer

variable (s : SnapshotServer N)

/-- `on_snapshot_timer`. -/
def onSnapshotTimer (g : Grants) : List (SnapshotEvent N) × SnapshotServer N :=
  if s.closing || !s.snapshotPath then ([], s)
  else if s.snapshotWritePending then ([.deferred], { s with snapshotWriteAgain := true })
  else if !g.job then ([.attempted s.router s.program none], s)
  else if !g.path then ([.attempted s.router s.program none], s)
  else
    match if g.snapshot then snapshotBuild s.router s.program else none with
    | none => ([.attempted s.router s.program none], s)
    | some bytes =>
      if !g.queue then
        ([.attempted s.router s.program none],
          { s with snapshotWritePending := false, snapshotJob := none, nextId := s.nextId + 1 })
      else
        ([.attempted s.router s.program (some bytes)],
          { s with
            snapshotWritePending := true
            snapshotJob := some s.nextId
            pool := s.pool ++ [⟨s.nextId, bytes, .queued⟩]
            nextId := s.nextId + 1 })

/-- What `snapshot_after_work_cb` clears. -/
def clearJob (id : ℕ) : SnapshotServer N :=
  { s with
    pool := s.pool.filter fun job => job.id ≠ id
    snapshotJob := none
    snapshotWritePending := false }

/-- `snapshot_after_work_cb`. -/
def snapshotAfterWork (id : ℕ) (g : Grants) : List (SnapshotEvent N) × SnapshotServer N :=
  let s := s.clearJob id
  if !s.closing && s.snapshotWriteAgain then
    let r := { s with snapshotWriteAgain := false }.onSnapshotTimer g
    (.completed id :: r.1, r.2)
  else ([.completed id], s)

/-- `on_signal`. -/
def onSignal : SnapshotServer N :=
  { s with closing := true, snapshotWriteAgain := false, stopped := true }

/-- `mb_server_close` up to its first `uv_run`. -/
def beginClose : SnapshotServer N :=
  { s with
    closing := true
    snapshotWriteAgain := false
    pool := match s.snapshotJob with
      | none => s.pool
      | some id => s.pool.map fun job => if job.id = id then job.cancel else job
    phase := .draining }

/-- The start of the final `mb_snapshot_write`. -/
def finalBuild (memory : Bool) : SnapshotServer N :=
  if !s.snapshotPath then { s with phase := .closed none }
  else
    match if memory then snapshotBuild s.router s.program else none with
    | none => { s with phase := .closed (some false) }
    | some bytes => { s with phase := .writing bytes .ready }

def finalWrite (ok : Bool) (snapshot : Bytes) (stage : WriteStage) : SnapshotServer N :=
  let r := writeStep ok snapshot stage s.disk
  { s with
    disk := r.2
    phase := match r.1 with
      | .done result => .closed (some result)
      | stage => .writing snapshot stage }

/-- A step, with what it does; it has to be the turn of the step. The loop returns
from `uv_run` when it has been stopped, or when no request is left. -/
def step (a : SnapshotAction N) (s : SnapshotServer N) :
    Option (List (SnapshotEvent N) × SnapshotServer N) :=
  match a with
  | .change router program =>
    if s.phase.inLoop then some ([], { s with router := router, program := program }) else none
  | .timer g => if s.phase.inLoop then some (s.onSnapshotTimer g) else none
  | .work id ok =>
    match s.pool.find? fun job => job.id = id with
    | none => none
    | some job =>
      let r := job.work ok s.disk
      some ([], { s with
        pool := s.pool.map fun job => if job.id = id then r.1 else job
        disk := r.2 })
  | .afterWork id g =>
    match s.pool.find? fun job => job.id = id with
    | none => none
    | some job =>
      if s.phase.inLoop && job.isOver then some (s.snapshotAfterWork id g) else none
  | .signal => if s.phase.inLoop then some ([], s.onSignal) else none
  | .close =>
    match s.phase with
    | .running => some ([], s.beginClose)
    | _ => none
  | .runReturns alive =>
    if !s.stopped && !s.pool.isEmpty then none
    else
      match s.phase with
      | .draining => some ([], { s with stopped := false, phase := .checking })
      | .looping =>
        if s.stopped && (alive || !s.pool.isEmpty) then
          some ([], { s with stopped := false, phase := .checking })
        else some ([], { s with stopped := false, phase := .finishing })
      | _ => none
  | .check =>
    match s.phase with
    | .checking =>
      some ([], { s with phase := if s.snapshotJob.isSome then .looping else .finishing })
    | _ => none
  | .finalBuild memory =>
    match s.phase with
    | .finishing => some ([], s.finalBuild memory)
    | _ => none
  | .finalWrite ok =>
    match s.phase with
    | .writing snapshot stage => some ([], s.finalWrite ok snapshot stage)
    | _ => none

/-- A server that has been set up. -/
def start (router : Router) (program : Option (Program N)) (snapshotPath : Bool) (disk : Disk) :
    SnapshotServer N where
  router := router
  program := program
  snapshotPath := snapshotPath
  snapshotWritePending := false
  snapshotWriteAgain := false
  closing := false
  snapshotJob := none
  pool := []
  nextId := 0
  disk := disk
  stopped := false
  phase := .running

end SnapshotServer

end Monoblok.Snapshot
