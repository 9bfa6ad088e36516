import Mathlib
import Vyuh.Lib.FMap
import Vyuh.Lib.Table
import Vyuh.Tasks.Rate
import Vyuh.Tasks.Store.Transitions

/-! The state of the in-memory task store and the helpers that read it: deadlines, readiness,
    idempotency retention, initialization and node retirement (`store/memory/queries.rs`, and the
    state of `store/memory/store.rs`). -/

namespace Vyuh.Tasks.Memory
open Lib

/-- An outstanding all-settled group of one parent. -/
structure TaskWait where
  children : List TaskId
  remainingCompletions : ℤ
  deriving DecidableEq, Repr

/-- Ownership row of one locked lane. -/
structure MemoryLaneLock where
  ownerId : Option String
  ownerToken : Option String
  leasedUntil : Option DateTime
  phase : LaneOwnerPhase
  flushing : Bool
  emptySince : Option DateTime
  generation : ℤ
  hookRetryAt : Option DateTime
  lastHookError : Option String
  deriving DecidableEq, Repr

/-- Everything the store's mutex guards. A node maps to its start and its last heartbeat. -/
structure MemoryState where
  nodes : FMap Uuid (DateTime × DateTime)
  tasks : List TaskRecord
  conf : Option TaskStoreConf
  rates : FMap String RateBucket
  schedules : FMap String DateTime
  laneLocks : FMap String MemoryLaneLock
  waits : FMap TaskId TaskWait

/-! ### Statuses and readiness -/

def isActive (status : TaskStatus) : Bool :=
  status = .pending || status = .running || status = .suspended

def isReassignable (status : TaskStatus) : Bool := status = .pending || status = .suspended

/-- Ownerless pending work, or an abandoned running execution, whose time has come. -/
def isDue (task : TaskRecord) (now : DateTime) : Bool :=
  (task.status = .pending || task.status = .running) && task.nodeId.isNone &&
    task.readyAt.all (fun time => time ≤ now)

/-- Positions of a lane's due tasks. -/
def dueIndices (tasks : List TaskRecord) (lane : String) (now : DateTime) : List ℕ :=
  (List.range tasks.length).filter
    (fun index => tasks[index]?.any (fun task => task.lane = lane && isDue task now))

/-- Readiness and submission order of one candidate. -/
def readiness (task : TaskRecord) (now : DateTime) : DateTime × DateTime × TaskId :=
  (task.readyAt.getD now, task.createdAt, task.id)

/-- Lexicographic order of readiness keys; a missing row sorts first. -/
def readinessLe : Option (DateTime × DateTime × TaskId) → Option (DateTime × DateTime × TaskId) → Bool
  | none, _ => true
  | some _, none => false
  | some (a, b, c), some (a', b', c') =>
    a < a' || (a = a' && (b < b' || (b = b' && c.uuid ≤ c'.uuid)))

/-- `sort_by_key` on positions: stable, by readiness. -/
def sortByReadiness (tasks : List TaskRecord) (now : DateTime) (indices : List ℕ) : List ℕ :=
  indices.insertionSort (fun i j =>
    readinessLe (tasks[i]?.map (readiness · now)) (tasks[j]?.map (readiness · now)) = true)

/-! ### Deadlines -/

def chronoDuration (duration : Duration) : Except TaskRuntimeError Duration :=
  match fromStd duration with
  | some duration => .ok duration
  | none => .error (.invalidConfig "task duration exceeds supported timestamp range")

def checkedDeadline (now : DateTime) (delay : Duration) :
    Except TaskRuntimeError (Option DateTime) := do
  let delay ← chronoDuration delay
  match checkedAddSigned now delay with
  | some deadline => .ok (some deadline)
  | none => .error (.invalidConfig "task delay exceeds timestamp range")

/-- Releases or archives a key when its task reaches a terminal status. -/
def finalizeIdempotency (conf : TaskStoreConf) (now : DateTime) :
    Step TaskRecord TaskRuntimeError Unit := do
  let task ← Step.get
  if !task.status.terminal then pure ()
  else if task.idempotencyKey.isNone then pure ()
  else
    match conf.idempotencyFor task.name with
    | none => Step.fail (.invalidConfig ("task '" ++ task.name ++ "' has no idempotency policy"))
    | some .activeOnly => Step.modify (fun t => { t with idempotencyExpiresAt := none })
    | some (.retainFor duration) => do
      let expiry ← Step.lift (checkedDeadline now duration)
      Step.modify (fun t => { t with idempotencyExpiresAt := expiry })

/-- The earliest future readiness among ownerless pending or abandoned running tasks. -/
def taskDeadline (tasks : List TaskRecord) (lane : String) (now : DateTime) : Option Duration :=
  (tasks.filterMap (fun task =>
    if task.lane = lane ∧ (task.status = .pending ∨ task.status = .running) ∧ task.nodeId = none then
      match task.readyAt with
      | some deadline => if now < deadline then toStd (deadline - now) else none
      | none => none
    else none)).min?

/-- Combines future work and token readiness without polling a blocked lane early. -/
def effectiveLaneWake (rateBlocked : Bool) (rateWake taskWake : Option Duration) (hasFlows : Bool) :
    Option Duration :=
  if hasFlows then (rateWake.toList ++ taskWake.toList).min?
  else if rateBlocked then rateWake
  else taskWake.map (fun task => (rateWake.map (fun permit => max permit task)).getD task)

/-! ### Initialization -/

/-- Creates buckets only for lanes with configured global rate limits. -/
def initializeRates (state : MemoryState) (conf : TaskStoreConf) (now : DateTime) : MemoryState :=
  { state with
    rates := conf.lanes.foldl (fun rates lane =>
      match lane.globalRate with
      | some rate => rates.orInsert lane.lane.asStr (RateBucket.full rate now)
      | none => rates) state.rates }

/-- A row nobody has owned yet. -/
def MemoryLaneLock.initial : MemoryLaneLock where
  ownerId := none
  ownerToken := none
  leasedUntil := none
  phase := .active
  flushing := false
  emptySince := none
  generation := 0
  hookRetryAt := none
  lastHookError := none

/-- Adds missing lane-owner rows without resetting current lifecycle state. -/
def initializeLaneLocks (state : MemoryState) (conf : TaskStoreConf) : MemoryState :=
  let locked := conf.lanes.filter (·.laneLock.isSome)
  { state with
    laneLocks := locked.foldl
      (fun locks lane => locks.orInsert lane.lane.asStr MemoryLaneLock.initial) state.laneLocks }

/-- Prevents active work from silently falling into another configured lane. -/
def rejectOrphanedTasks (tasks : List TaskRecord) (conf : TaskStoreConf) :
    Except TaskRuntimeError Unit :=
  match tasks.find? (fun task =>
      isActive task.status && !conf.lanes.any (fun lane => lane.lane.asStr = task.lane)) with
  | some task => .error (.unknownLane task.lane)
  | none =>
    match tasks.find? (fun task =>
        isActive task.status && !conf.handlers.any (fun h => h.1 = task.name)) with
    | some task => .error (.taskNotFound task.name)
    | none => .ok ()

/-- Whether a heartbeat sweep by `node` removes the node `id`. -/
def retires (nodes : FMap Uuid (DateTime × DateTime)) (node : Uuid) (cutoff : DateTime)
    (id : Uuid) : Bool :=
  (nodes id).any (fun entry => !(id = node || cutoff ≤ entry.2))

/-- Removes stale nodes and clears the ownership of exactly the removed ones. -/
def retireNodes (state : MemoryState) (node : Uuid) (cutoff : DateTime) : MemoryState :=
  let retired := retires state.nodes node cutoff
  { state with
    nodes := fun id => if retired id then none else state.nodes id
    tasks := state.tasks.map (fun task =>
      if task.nodeId.any retired then { task with nodeId := none } else task) }

end Vyuh.Tasks.Memory
