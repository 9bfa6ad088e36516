import Vyuh.Lib.Table
import Vyuh.Tasks.Runner.Lanes
import Vyuh.Tasks.Store.Transitions

/-! The state of one task runner and the requests it makes to its store (`runner/engine.rs`, the
    requests of `runner/lanes.rs`). Semaphores and channels are shared with the futures a runner has
    started, so what is left of them is a reading, given as `Permits` to what looks at it. -/

namespace Vyuh.Tasks
open Lib

/-- What a runner reads of a registered handler. -/
structure RegisteredTask where
  name : String
  kind : TaskKind
  effectiveLane : TaskLane
  batch : Bool
  deriving DecidableEq, Repr

/-- The finalized configuration of a runner: lane names are distinct, and the batch and group limits
    passed `validate_capacity` and `validate_scalars`. -/
structure RunnerConf where
  concurrency : ℕ
  commitBatchSize : ℕ
  allLimit : ℕ
  ingressCapacity : ℕ
  leaseDuration : Duration
  pollInterval : Duration
  fallbackInterval : Duration
  heartbeatInterval : Duration
  lanes : List LaneConf
  tasks : List RegisteredTask
  batchInRange : 1 ≤ commitBatchSize ∧ commitBatchSize ≤ maxBatchSize
  allInRange : 1 ≤ allLimit ∧ allLimit ≤ maxBatchSize
  lanesDistinct : (lanes.map (·.lane)).Nodup

inductive RunMode where | running | draining | faulted | retired | dead | finished
  deriving DecidableEq, Repr

/-- One immutable store operation. -/
inductive DbRequest where
  | heartbeat
  | giveBack
  | claim (claims : List LaneClaim)
  | commit (commits : List TaskCommit) (capacity : ℕ) (cached : List Snapshot)
  | coordinate (lanes : List LaneClaim)

inductive DbResponse where
  | heartbeat (present : Bool)
  | returned
  | poll (poll : TaskPoll)
  | flushed (result : CommitResult)

inductive DbPhase where
  | running
  | recovering
  | retry (notBefore : Instant) (prepared : Option DbResponse)

/-- One unresolved operation. -/
structure InFlight where
  request : DbRequest
  phase : DbPhase

structure RunningInvocation where
  lane : TaskLane
  taskIds : List TaskId
  deriving DecidableEq, Repr

structure RunningLaneHook where
  token : String
  generation : ℤ
  action : LaneHookAction
  deriving DecidableEq, Repr

/-- What is left of the shared semaphores and of the ingress channel. -/
structure Permits where
  execution : ℕ
  lane : TaskLane → ℕ
  ingress : ℕ

/-- Lane-local inputs, spawned execution and one shared output queue. -/
structure TaskRunner where
  conf : RunnerConf
  lanes : List LaneState
  inFlight : Dict Uuid InFlight
  runningTasks : Dict TaskId Uuid
  runningInvocations : Dict Uuid RunningInvocation
  outputBuffer : List TaskCommit
  runningHooks : Dict TaskLane RunningLaneHook
  flushAfter : Instant
  heartbeatAfter : Option Instant
  deathAt : Option Instant
  mode : RunMode
  nodeId : Uuid

namespace LaneState

def name (lane : LaneState) : TaskLane := lane.conf.lane

/-- Whether the lane has crossed its queued-work refill watermark. -/
def needsRefill (lane : LaneState) : Bool :=
  saturatingMulUsize lane.tasks.length 2 < lane.conf.concurrency

/-- Bounds refills by executing, queued, and completed but uncommitted work. -/
def available (permits : Permits) (lane : LaneState) : ℕ :=
  if lane.needsRefill then
    min (lane.conf.concurrency
          - ((lane.conf.concurrency - permits.lane lane.name) + lane.tasks.length)
          - lane.uncommitted)
      lane.conf.claimBatchSize
  else 0

/-- The limit the local rate leaves, and the lane with its bucket refilled. -/
def claimLimit (limit : ℕ) (now : Instant) (lane : LaneState) : ℕ × LaneState :=
  match lane.localRate with
  | none => (limit, lane)
  | some rate =>
    let (permits, rate) := rate.available now
    (min limit permits, { lane with localRate := some rate })

def consumeLocalRate (permits : ℕ) (now : Instant) (lane : LaneState) : LaneState :=
  { lane with localRate := lane.localRate.map fun rate => rate.consume permits now }

def localRateWake (now : Instant) (lane : LaneState) : Option Duration × LaneState :=
  match lane.localRate with
  | none => (none, lane)
  | some rate =>
    let (wait, rate) := rate.nextPermit now
    (wait, { lane with localRate := some rate })

/-- Nothing of the lane is executing, queued or waiting for its commit. -/
def quiescent (permits : Permits) (lane : LaneState) : Bool :=
  lane.tasks.isEmpty && permits.lane lane.name = lane.conf.concurrency && lane.uncommitted = 0

/-- One owner-renewal request; `allowClaim` reserves claim budget. -/
def lockedClaim (allowClaim : Bool) (permits : Permits) (lane : LaneState) : LaneClaim where
  lane := lane.name
  limit := lane.conf.laneLock.elim 1 (·.batchSize)
  owner := some {
    token := lane.ownerToken
    quiescent := lane.quiescent permits
    allowClaim := allowClaim
    completedWork := lane.completedWork
    hook := lane.hookResult }

end LaneState

namespace TaskRunner

/-- Construction for one configuration and node. -/
def new (conf : RunnerConf) (node : Uuid) (now : Instant) : TaskRunner where
  conf := conf
  lanes := conf.lanes.map fun lane => LaneState.new lane now
  inFlight := ∅
  runningTasks := ∅
  runningInvocations := ∅
  outputBuffer := []
  runningHooks := ∅
  flushAfter := now
  heartbeatAfter := none
  deathAt := none
  mode := .running
  nodeId := node

/-! ### Queries -/

/-- The unresolved requests, in the order the map yields them. -/
def requests (runner : TaskRunner) : List DbRequest := runner.inFlight.toList.map (·.2.request)

def laneNamed (lane : TaskLane) (runner : TaskRunner) : Option LaneState :=
  runner.lanes.find? fun queue => queue.name = lane

/-- `lane_mut` followed by an update. -/
def modifyLane (lane : TaskLane) (f : LaneState → LaneState) (runner : TaskRunner) : TaskRunner :=
  { runner with lanes := modifyFirst (fun queue => queue.name = lane) f runner.lanes }

def locked (lane : TaskLane) (runner : TaskRunner) : Bool :=
  (runner.laneNamed lane).any (·.conf.laneLock.isSome)

/-- Whether an unresolved request still concerns a lane. -/
def laneBusy (lane : TaskLane) (runner : TaskRunner) : Bool :=
  runner.requests.any fun request =>
    match request with
    | .heartbeat | .giveBack => false
    | .claim claims | .coordinate claims => claims.any (·.lane = lane)
    | .commit commits _ _ => runner.locked lane && commits.any (·.lane? = some lane)

def laneRunning (lane : TaskLane) (runner : TaskRunner) : Bool :=
  runner.runningInvocations.toList.any fun entry => entry.2.lane = lane

def hasFlows (lane : TaskLane) (runner : TaskRunner) : Bool :=
  runner.conf.tasks.any fun task => task.kind = .flow && task.effectiveLane = lane

def isBatch (name : String) (runner : TaskRunner) : Bool :=
  (runner.conf.tasks.find? fun task => task.name = name).any (·.batch)

/-- Inputs that resident and reserved work leave room for. -/
def inputRoom (runner : TaskRunner) : ℕ :=
  let capacity := runner.conf.ingressCapacity + (runner.lanes.map (·.conf.concurrency)).sum
  let outstanding := runner.runningTasks.size
    + (runner.lanes.map fun lane => lane.tasks.length + lane.uncommitted).sum
  let reserved := (runner.requests.map fun request =>
    match request with
    | .claim claims => (claims.map (·.limit)).sum
    | .commit _ capacity _ => capacity
    | _ => 0).sum
  capacity - outstanding - reserved

/-- Work queued in the lanes. -/
def queued (runner : TaskRunner) : ℕ :=
  ((runner.lanes.flatMap (·.tasks)).filter fun task => task.record.kind = .work).length

/-- Execution slots that queued and claimed work leave. -/
def claimCapacity (permits : Permits) (runner : TaskRunner) : ℕ :=
  let reserved := (runner.requests.map fun request =>
    match request with
    | .claim claims => ((claims.filter (·.owner.isNone)).map (·.limit)).sum
    | _ => 0).sum
  permits.execution - runner.queued - reserved

def stopped (runner : TaskRunner) : Bool :=
  runner.mode = .retired || runner.mode = .dead || runner.mode = .faulted || runner.mode = .finished

def finished (runner : TaskRunner) : Bool :=
  runner.mode = .draining && runner.runningInvocations.size = 0 && runner.outputBuffer.isEmpty
    && runner.inFlight.size = 0

/-! ### Flushes -/

/-- Whether an owned lane with an unresolved request holds a commit back. -/
def blocked (runner : TaskRunner) (commit : TaskCommit) : Bool :=
  commit.lane?.any fun lane => runner.locked lane && runner.laneBusy lane

/-- Members of `output_buffer` a flush takes, given the weight already taken. -/
def flushCount (runner : TaskRunner) (budget : ℕ) : ℕ → List TaskCommit → ℕ
  | _, [] => 0
  | weight, commit :: commits =>
    if runner.blocked commit then 0
    else
      let weight := saturatingAddUsize weight commit.weight
      if weight ≤ budget then flushCount runner budget weight commits + 1 else 0

/-- Bounds the inputs a flush may bring and retains the cached flows for it. -/
def deliveryRequest (permits : Permits) (commits : List TaskCommit) (runner : TaskRunner) :
    DbRequest :=
  let cached := runner.lanes.flatMap fun lane => lane.flowCache.toList.map (·.2)
  let generated := saturatingAddUsize
    (commits.map fun commit =>
      match commit.outcome? with
      | some (.spawn ..) => 1
      | some (.all _ children) => children.length
      | _ => 0).sum
    (min cached.length commits.length)
  let capacity :=
    if runner.mode = .running then min (min runner.inputRoom permits.ingress) generated else 0
  .commit commits capacity cached

/-- The weight one flush may reach: a whole batch, or the largest group with its parent. -/
def flushBudget (runner : TaskRunner) : ℕ :=
  max runner.conf.commitBatchSize (saturatingAddUsize runner.conf.allLimit 1)

/-- How much of the output queue the next flush takes. -/
def flushSize (runner : TaskRunner) : ℕ :=
  runner.flushCount runner.flushBudget 0 (runner.outputBuffer.take runner.conf.commitBatchSize)

/-- Freezes one weighted prefix of the output queue, splitting no group and passing no owned lane. -/
def flushRequest (now : Instant) (permits : Permits) (runner : TaskRunner) :
    Option (DbRequest × TaskRunner) :=
  if now < runner.flushAfter || runner.outputBuffer.isEmpty then none
  else
    let count := runner.flushSize
    if count = 0 then none
    else
      let commits := runner.outputBuffer.take count
      let runner := { runner with
        outputBuffer := runner.outputBuffer.drop count
        flushAfter := now + runner.conf.pollInterval }
      some (runner.deliveryRequest permits commits, runner)

end TaskRunner

end Vyuh.Tasks
