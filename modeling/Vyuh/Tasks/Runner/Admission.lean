import Vyuh.Tasks.Runner.Execution

/-! What a runner takes in and asks for (`runner/lanes.rs`): inputs, claims, the coordination of owned lanes with
    their hooks, and the answers of the store to them. -/

namespace Vyuh.Tasks
open Lib

/-- The store's next useful wake of a lane, on the runner's clock. -/
def laneDeadline (now : Instant) (saturated : Bool) (globalRate : Option TaskRate) (storeWake : Option Duration)
    (pollInterval fallbackInterval : Duration) : Instant :=
  if saturated then
    let short := now + pollInterval
    if globalRate.isSome then storeWake.elim short fun wake => max short (now + wake) else short
  else storeWake.elim (now + fallbackInterval) fun wake => now + wake

/-- The capacities the allocator gives the strings of a record that a store returned. -/
abbrev Allocator := TaskRecord → Capacities

namespace LaneState

def ownedLaneDeadline (permits : Permits) (rateDeadline : Instant) (lane : LaneState) : Instant :=
  if lane.ownerToken.isSome &&
      (permits.lane lane.name < lane.conf.concurrency || 0 < lane.uncommitted || !lane.tasks.isEmpty) then
    lane.ownerRenewAt.getD rateDeadline
  else rateDeadline

/-- Applies one lane's owned state, queue rows, and next useful central wake. -/
def applyLanePoll (alloc : Allocator) (permits : Permits) (conf : RunnerConf) (result : LanePoll) (now : Instant)
    (lane : LaneState) (effects : PollEffects) : LaneState × PollEffects :=
  let (lane, effects) :=
    match result.owner with
    | some owner => lane.applyOwnerPoll result.lane owner now conf.leaseDuration effects
    | none => (lane, effects)
  let lane := { lane with tasks := lane.tasks ++ result.tasks.map fun record => Snapshot.mk record (alloc record) }
  let storeDeadline := laneDeadline now result.saturated lane.conf.globalRate result.nextWakeIn conf.pollInterval
    conf.fallbackInterval
  ({ lane with pollAfter := lane.ownedLaneDeadline permits storeDeadline }, effects)

/-- One lane's answer, without clearing a hook result that is newer than what the request acknowledged. -/
def applyResult (alloc : Allocator) (permits : Permits) (conf : RunnerConf) (request : Option LaneClaim)
    (result : LanePoll) (now : Instant) (lane : LaneState) (effects : PollEffects) : LaneState × PollEffects :=
  let wake := lane.pollAfter
  let acknowledged := request.bind fun r => r.owner.bind (·.hook)
  let newer := lane.hookResult.any fun hook =>
    acknowledged.all fun old => old.generation ≠ hook.generation || old.action ≠ hook.action
  let pending := if newer then lane.hookResult else none
  let lane := if newer then { lane with hookResult := none } else lane
  let (lane, effects) := lane.applyLanePoll alloc permits conf result now effects
  let lane :=
    if lane.ownerToken.isSome then
      { lane with hookResult := pending.filter fun hook => hook.generation = lane.ownerGeneration }
    else lane
  ({ lane with pollAfter := max (min lane.pollAfter wake) (now + conf.pollInterval) }, effects)

end LaneState

/-- Per-lane evidence that does not answer the request. -/
def invalidLanePoll (lane : TaskLane) : TaskRuntimeError :=
  .taskExecutionError s!"task store returned invalid polling evidence for lane '{lane.asStr}'"

/-- Checks the answer to one claim. -/
def validateLanePoll (poll : TaskPoll) (claim : LaneClaim) : Except TaskRuntimeError Unit :=
  match poll.lanes.filter fun lane => lane.lane = claim.lane with
  | [] => .error (invalidLanePoll claim.lane)
  | lane :: others =>
    if others = [] ∧ lane.tasks.length ≤ claim.limit ∧ lane.reclaimed ≤ lane.tasks.length ∧
        (lane.tasks.all fun task => task.lane = claim.lane.asStr) = true then .ok ()
    else .error (invalidLanePoll claim.lane)

/-- Validates internal per-lane results before they enter scheduler queues. -/
def validatePoll (claims : List LaneClaim) (poll : TaskPoll) : Except TaskRuntimeError Unit :=
  if claims.length ≠ poll.lanes.length then
    .error (.taskExecutionError "task store returned incomplete per-lane polling evidence")
  else claims.forM (validateLanePoll poll)

/-- What a lifecycle hook reports when it ends. -/
structure HookCompletion where
  lane : TaskLane
  token : String
  result : LaneHookResult

namespace TaskRunner

/-- Applies authoritative snapshots without mutating a queued or executing task. -/
def acceptInput [RecordLayout] (snapshot : Snapshot) (runner : TaskRunner) : TaskRunner :=
  let record := snapshot.record
  let running := record.status = .running && record.nodeId = some runner.nodeId
  let duplicate := (runner.runningTasks.lookup record.id).isSome
  match runner.lanes.find? fun lane => lane.conf.lane.asStr = record.lane with
  | none => runner
  | some lane =>
    let runner :=
      if record.kind = .flow then runner.modifyLane lane.name fun queue => queue.rememberFlow snapshot else runner
    if ((runner.mode ≠ .running ∧ runner.mode ≠ .draining) ∨ running = false ∨ duplicate = true) then runner
    else
      runner.modifyLane lane.name fun queue =>
        if queue.tasks.any fun queued => queued.record.id = record.id then queue
        else { queue with tasks := queue.tasks ++ [snapshot] }

/-! ### Requests -/

/-- Whether a lane needs its owner renewed or has something to tell its store. -/
def coordinates (permits : Permits) (now : Instant) (runner : TaskRunner) (lane : LaneState) : Bool :=
  lane.ownerToken.isSome && !runner.laneBusy lane.name &&
    (lane.ownerRenewAt.any (· ≤ now) ||
      lane.pollAfter ≤ now && (lane.hookResult.isSome ||
        runner.mode = .draining && lane.tasks.isEmpty && lane.uncommitted = 0 &&
          permits.lane lane.name = lane.conf.concurrency))

/-- A claim of a lane that is not quiescent while an invocation of it runs. -/
def restless (running : Bool) (claim : LaneClaim) : LaneClaim :=
  if running then { claim with owner := claim.owner.map fun owner => { owner with quiescent := false } } else claim

/-- Selects one due maintenance request without consuming task execution capacity. -/
def coordinateRequest (permits : Permits) (now : Instant) (runner : TaskRunner) : Option (DbRequest × TaskRunner) :=
  (runner.lanes.find? (runner.coordinates permits now)).map fun selected =>
    let claim := restless (runner.laneRunning selected.name) (selected.lockedClaim false permits)
    (.coordinate [claim], runner.modifyLane selected.name fun queue =>
      { queue with pollAfter := now + runner.conf.fallbackInterval })

/-- Allocates ordinary capacity or the existing owned-lane cohort without duplicate requests. -/
def admitLane (permits : Permits) (capacity : ℕ) (now : Instant) (runner : TaskRunner) (lane : LaneState) :
    Option LaneClaim × LaneState :=
  if lane.conf.laneLock.isSome then
    let request := restless (runner.laneRunning lane.name) (lane.lockedClaim true permits)
    (if request.owner.any (·.quiescent) then some request else none, lane)
  else
    let flows := runner.hasFlows lane.name
    let available :=
      if flows then min (runner.inputRoom - (lane.tasks.length + lane.uncommitted)) lane.conf.claimBatchSize
      else min (lane.available permits) capacity
    let (limit, lane) := if flows then (available, lane) else lane.claimLimit available now
    (if 0 < limit then some { lane := lane.name, limit := limit, owner := none } else none, lane)

/-- The loop of `claim_request`: lanes take turns at the front, at most `rounds` of them. -/
def rotate (permits : Permits) (capacity : ℕ) (now : Instant) :
    ℕ → TaskRunner → Option DbRequest × TaskRunner
  | 0, runner => (none, runner)
  | rounds + 1, runner =>
    match runner.lanes with
    | [] => (none, runner)
    | lane :: rest =>
      let eligible := !runner.laneBusy lane.name && lane.pollAfter ≤ now
      -- the source has taken the lane out of the queue when it looks at the room that is left
      let (claim, lane) :=
        if eligible then { runner with lanes := rest }.admitLane permits capacity now lane else (none, lane)
      let lane := if claim.isSome then { lane with pollAfter := now + runner.conf.fallbackInterval } else lane
      let runner := { runner with lanes := rest ++ [lane] }
      match claim with
      | some claim => (some (.claim [claim]), runner)
      | none => rotate permits capacity now rounds runner

/-- Rotates attempted input lanes, with reservations derived from unresolved requests. -/
def claimRequest (permits : Permits) (now : Instant) (runner : TaskRunner) : Option DbRequest × TaskRunner :=
  if runner.mode ≠ .running then (none, runner)
  else
    let capacity := min (runner.claimCapacity permits) runner.inputRoom
    rotate permits capacity now runner.lanes.length runner

/-! ### Lost lanes and hooks -/

/-- Takes outcomes that must not be committed any more out of the output queue. -/
def dropPending (ids : List TaskId) (runner : TaskRunner) : TaskRunner :=
  let lost := runner.outputBuffer.filter fun commit => commit.taskId ∈ ids
  { runner with outputBuffer := runner.outputBuffer.filter fun commit => commit.taskId ∉ ids }.release lost

def dropLane (lane : TaskLane) (runner : TaskRunner) : TaskRunner :=
  let runner := { runner with runningHooks := runner.runningHooks.erase lane }
  let invocations := (runner.runningInvocations.toList.filter fun entry => entry.2.lane = lane).map (·.1)
  let runner := invocations.foldl (fun runner id => runner.abortInvocation id) runner
  let pending := (runner.outputBuffer.filter fun commit => commit.lane? = some lane).map (·.taskId)
  let runner := runner.dropPending pending
  runner.modifyLane lane fun queue => { queue with tasks := [] }

def hookFor (lane : TaskLane) (action : LaneHookAction) (runner : TaskRunner) : Option LaneHook :=
  (runner.laneNamed lane).bind fun queue => queue.conf.laneLock.bind fun laneLock =>
    match action with
    | .idle => laneLock.idleHook
    | .busy => laneLock.busyHook

def spawnHook (lane : TaskLane) (token : String) (generation : ℤ) (action : LaneHookAction) (runner : TaskRunner) :
    TaskRunner :=
  if (runner.runningHooks.lookup lane).any fun running =>
      running.token = token && running.generation = generation && running.action = action then runner
  else
    let runner := { runner with runningHooks := runner.runningHooks.erase lane }
    match runner.hookFor lane action with
    | none => runner
    | some _ => { runner with runningHooks := runner.runningHooks.insert lane ⟨token, generation, action⟩ }

/-- One entry of the effects of a poll: a hook to start, or a lane that is gone. -/
def applyHook (runner : TaskRunner) (entry : TaskLane × HookStart) : TaskRunner :=
  match entry with
  | (lane, none) => runner.dropLane lane
  | (lane, some (token, generation, action)) =>
    let completed := ((runner.laneNamed lane).bind (·.hookResult)).any fun result =>
      result.generation = generation && result.action = action
    if runner.mode = .running ∧ completed = false then runner.spawnHook lane token generation action else runner

/-- One lane of a poll. -/
def applyPollLane (alloc : Allocator) (permits : Permits) (requests : List LaneClaim) (now : Instant)
    (turn : TaskRunner × PollEffects) (result : LanePoll) : TaskRunner × PollEffects :=
  let (runner, effects) := turn
  match runner.laneNamed result.lane with
  | none => (runner, effects)
  | some lane =>
    let request := requests.find? fun request => request.lane = result.lane
    let (updated, effects) := lane.applyResult alloc permits runner.conf request result now effects
    (runner.modifyLane result.lane fun _ => updated, effects)

/-- Applies request-specific hook acknowledgement without clearing later completions or wakes. -/
def applyPoll (alloc : Allocator) (permits : Permits) (requests : List LaneClaim) (poll : TaskPoll) (now : Instant)
    (runner : TaskRunner) : TaskRunner :=
  let (runner, effects) := poll.lanes.foldl (applyPollLane alloc permits requests now) (runner, .default)
  let runner := effects.hooks.foldl applyHook runner
  poll.wakeLanes.foldl (fun runner lane => runner.wakeLane now lane) runner

/-- Takes the result of a hook that is still the one of its lane. -/
def acceptHook (now : Instant) (completion : HookCompletion) (runner : TaskRunner) : TaskRunner :=
  let matched := (runner.runningHooks.lookup completion.lane).any fun running =>
    running.token = completion.token && running.generation = completion.result.generation &&
      running.action = completion.result.action
  if matched = false then runner
  else
    let runner := { runner with runningHooks := runner.runningHooks.erase completion.lane }
    runner.modifyLane completion.lane fun queue =>
      if queue.ownerToken = some completion.token then
        { queue with hookResult := some completion.result, pollAfter := now + runner.conf.pollInterval }
      else queue

end TaskRunner

end Vyuh.Tasks
