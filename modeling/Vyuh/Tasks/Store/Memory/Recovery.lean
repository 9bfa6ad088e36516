import Vyuh.Tasks.Store.Memory.Workflow

/-! Recovery of a claim whose acknowledgement was lost (`store/memory/recovery.rs`). Recovery works on
    a copy of the state that replaces it only when everything succeeded. -/

namespace Vyuh.Tasks.Memory
open Lib

/-- Gives up a runner's executions in a lane it lost; counters and checkpoints stay. -/
def releaseLane (state : MemoryState) (node : Uuid) (lane : TaskLane) (now : DateTime) : MemoryState :=
  { state with
    tasks := state.tasks.map (fun task =>
      if task.nodeId = some node ∧ task.lane = lane.asStr ∧ task.status = .running then
        { task with nodeId := none, updatedAt := now }
      else task) }

/-- Restores live durable ownership and renews its lease. -/
def recoverOwner (state : MemoryState) (node : Uuid) (lane : TaskLane) (claim : Option LaneClaim)
    (prepared : TaskPoll) (now : DateTime) (lease : Duration) :
    Except TaskRuntimeError (Option LaneOwnerPoll × MemoryState) :=
  match claim.filter (fun claim => claim.owner.isSome) with
  | none => .ok (none, state)
  | some claim =>
    match state.laneLocks lane.asStr with
    | none => .error (.unknownLane lane.asStr)
    | some row =>
      let live := recoveryToken claim prepared row.ownerToken &&
        decide (row.ownerId = some (Uuid.render node)) && memoryOwnerLive row now
      let poll : LaneOwnerPoll :=
        { token := if live then row.ownerToken else none
          generation := row.generation
          phase := row.phase
          action := if live then memoryAction row.phase else none
          takeover := false }
      if live then do
        let deadline ← checkedDeadline now lease
        let row := { row with leasedUntil := deadline }
        .ok (some poll, { state with laneLocks := state.laneLocks.insert lane.asStr row })
      else .ok (some poll, state)

/-- Whether a stored row is still the execution a prepared snapshot describes. -/
def stillClaimed (node : Uuid) (expected task : TaskRecord) : Bool :=
  task.id = expected.id && task.attempts = expected.attempts && task.nodeId = some node &&
    task.status = .running

/-- What recovering a lane's snapshots accumulates. -/
structure Recovered where
  state : MemoryState
  tasks : List TaskRecord
  cancelled : List TaskCommit

/-- Recovers one prepared snapshot. -/
def recoverTask (node : Uuid) (owner : Option LaneOwnerPoll) (now : DateTime) (acc : Recovered)
    (expected : TaskRecord) : Recovered :=
  match acc.state.tasks.find? (stillClaimed node expected) with
  | none => acc
  | some task =>
    if owner.any (·.token.isNone) then
      { acc with state := { acc.state with
          tasks := modifyFirst (stillClaimed node expected)
            (fun task => { task with nodeId := none, updatedAt := now }) acc.state.tasks } }
    else if task.cancelled then { acc with cancelled := acc.cancelled ++ [.cancel task.id] }
    else { acc with tasks := acc.tasks ++ [task] }

/-- Recovers one prepared lane, accumulating the cancellations to commit. -/
def recoverLane (node : Uuid) (claims : List LaneClaim) (prepared : TaskPoll) (now : DateTime)
    (lease : Duration) (state : MemoryState) (cancelled : List TaskCommit) (lane : LanePoll) :
    Except TaskRuntimeError (MemoryState × List TaskCommit × LanePoll) := do
  let claim := claims.find? (fun claim => claim.lane = lane.lane)
  let (owner, state) ← recoverOwner state node lane.lane claim prepared now lease
  let state := if owner.any (·.token.isNone) then releaseLane state node lane.lane now else state
  let recovered := lane.tasks.foldl (recoverTask node owner now) ⟨state, [], cancelled⟩
  .ok (recovered.state, recovered.cancelled,
    { lane := lane.lane, tasks := recovered.tasks, owner := owner, reclaimed := 0, saturated := false,
      nextWakeIn := some 0 })

def recoverLanes (node : Uuid) (claims : List LaneClaim) (prepared : TaskPoll) (now : DateTime)
    (lease : Duration) : MemoryState → List TaskCommit → List LanePoll →
      Except TaskRuntimeError (MemoryState × List TaskCommit × List LanePoll)
  | state, cancelled, [] => .ok (state, cancelled, [])
  | state, cancelled, lane :: lanes => do
    let (state, cancelled, poll) ← recoverLane node claims prepared now lease state cancelled lane
    let (state, cancelled, polls) ← recoverLanes node claims prepared now lease state cancelled lanes
    .ok (state, cancelled, poll :: polls)

/-- Stages recovery alongside cancellation delivery; errors leave the complete state. -/
def recoverPoll [Serde] (batchSize : ℕ) (lease : Duration) (node : Uuid) (claims : List LaneClaim)
    (prepared : TaskPoll) (now : DateTime) : Step MemoryState TaskRuntimeError TaskPoll := fun state =>
  match recoverLanes node claims prepared now lease state [] prepared.lanes with
  | .error error => (.error error, state)
  | .ok (staged, cancelled, lanes) =>
    match atomicOperation none [] cancelled batchSize lease now staged with
    | (.error error, _) => (.error error, state)
    | (.ok (_, result), staged) =>
      (.ok { lanes, wakeLanes := mergeWakes prepared.wakeLanes result.wakeLanes }, staged)

end Vyuh.Tasks.Memory
