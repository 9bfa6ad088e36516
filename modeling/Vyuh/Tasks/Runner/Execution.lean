import Vyuh.Tasks.Runner.Engine

/-! Invocations of one runner (`runner/execution.rs`, `outcome.rs`): what a turn takes off a lane, what runs, and
    how outcomes come back. A spawned invocation is a task of its own: its outcomes arrive later, or never. -/

namespace Vyuh.Tasks
open Lib

/-- `truncate_utf8`. -/
def truncateUtf8 (value : String) (limit : ℕ) : String := String.ofList (takeBytes limit value.toList)

def continuationTooLarge : TaskOutcome := .fail "Task continuation state exceeded the configured limit"

/-- Bounds handler-controlled lifecycle data before it reaches any store. -/
def normalizeOutcome [Serde] (outcome : TaskOutcome) (payloadLimit errorLimit : ℕ) : TaskOutcome :=
  match outcome with
  | .spawn state _ | .all state _ =>
    if payloadLimit < state.utf8ByteSize then continuationTooLarge else outcome
  | .completeWith output =>
    match validateOutput output with
    | .error _ => .fail "Task output was invalid JSON or exceeded the 32768-byte result limit"
    | .ok _ => outcome
  | .suspend state => if payloadLimit < state.utf8ByteSize then continuationTooLarge else outcome
  | .sleep state delay =>
    if payloadLimit < state.utf8ByteSize then continuationTooLarge
    else if maxTaskDelay < delay then .fail "Task sleep duration exceeded the configured limit"
    else outcome
  | .retry error => .retry (truncateUtf8 error errorLimit)
  | .fail error => .fail (truncateUtf8 error errorLimit)
  | .complete => outcome

/-- Limits of the data a handler may hand over. -/
structure OutcomeLimits where
  payload : ℕ
  error : ℕ

/-- One spawned invocation. -/
structure TaskExecution where
  nodeId : Uuid
  invocationId : Uuid
  records : List Snapshot
  lane : TaskLane
  limits : OutcomeLimits
  ownerToken : Option String

/-- What an invocation sends back. -/
structure Completion where
  invocationId : Uuid
  lane : TaskLane
  commits : List TaskCommit

/-- The commits of the outcomes an invocation ended with. -/
def taskCommits [Serde] (execution : TaskExecution) (results : List (TaskRecord × TaskOutcome)) : List TaskCommit :=
  results.map fun result =>
    .outcome execution.nodeId result.1.attempts result.1.id execution.lane
      (normalizeOutcome result.2 execution.limits.payload execution.limits.error) execution.ownerToken

/-- The message an invocation ends with. -/
def TaskExecution.completion [Serde] (execution : TaskExecution) (results : List (TaskRecord × TaskOutcome)) :
    Completion where
  invocationId := execution.invocationId
  lane := execution.lane
  commits := taskCommits execution results

/-- How many commits are for a lane. -/
def countLane (lane : TaskLane) (commits : List TaskCommit) : ℕ := commits.countP fun commit => commit.lane? = some lane

/-- Keeps flows runnable while works lack execution capacity or local rate permits. -/
def nextInvocation (permits : Permits) (now : Instant) (queue : LaneState) : Option ℕ × LaneState :=
  let (granted, queue) :=
    if 0 < permits.execution ∧ 0 < permits.lane queue.name then
      let (limit, queue) := queue.claimLimit 1 now
      (decide (0 < limit), queue)
    else (false, queue)
  if granted then (some 0, queue)
  else
    let next := queue.tasks.findIdx? fun task => task.record.kind = .flow
    if next.isSome then (next, queue)
    else
      let (wait, queue) := queue.localRateWake now
      match wait with
      | some wait => (next, { queue with pollAfter := now + wait })
      | none => (next, queue)

/-- The loop of `collect_invocation`: up to `room` tasks of one handler leave the queue, in order. -/
def takeNamed (name : String) : ℕ → List Snapshot → List Snapshot × List Snapshot
  | _, [] => ([], [])
  | room, task :: rest =>
    if 0 < room ∧ task.record.name = name then
      let (taken, left) := takeNamed name (room - 1) rest
      (task :: taken, left)
    else
      let (taken, left) := takeNamed name room rest
      (taken, task :: left)

namespace TaskRunner

/-- What one invocation executes: a task, or several of one batch handler. -/
def collectInvocation (runner : TaskRunner) (first : Snapshot) (limit : ℕ) (queue : LaneState) :
    List Snapshot × LaneState :=
  if limit ≤ 1 ∨ runner.isBatch first.record.name = false then ([first], queue)
  else
    let (taken, left) := takeNamed first.record.name (limit - 1) queue.tasks
    (first :: taken, { queue with tasks := left })

def setLane (index : ℕ) (queue : LaneState) (runner : TaskRunner) : TaskRunner :=
  { runner with lanes := runner.lanes.set index queue }

/-- Takes both permits without waiting; unsuccessful admission leaves input untouched. -/
def popLane (permits : Permits) (now : Instant) (index : ℕ) (runner : TaskRunner) :
    Option (TaskLane × Option String × List Snapshot) × TaskRunner :=
  match runner.lanes[index]? with
  | none => (none, runner)
  | some queue =>
    let (next, queue) := nextInvocation permits now queue
    match next.bind fun next => queue.tasks[next]?.map fun first => (next, first) with
    | none => (none, runner.setLane index queue)
    | some (next, first) =>
      let flow : Bool := first.record.kind = .flow
      if !flow && (permits.execution = 0 || permits.lane queue.name = 0) then (none, runner.setLane index queue)
      else
        let queue := { queue with tasks := queue.tasks.eraseIdx next }
        let count := saturatingAddUsize queue.tasks.length 1
        let (limit, queue) := if flow then (count, queue) else queue.claimLimit count now
        let (records, queue) := runner.collectInvocation first limit queue
        let queue := if flow then queue else queue.consumeLocalRate records.length now
        (some (queue.name, queue.ownerToken, records), runner.setLane index queue)

def abortInvocation (id : Uuid) (runner : TaskRunner) : TaskRunner :=
  match runner.runningInvocations.lookup id with
  | none => runner
  | some invocation =>
    { runner with
      runningInvocations := runner.runningInvocations.erase id
      runningTasks := invocation.taskIds.foldl (fun tasks taskId => tasks.erase taskId) runner.runningTasks }

def replaceDuplicates (taskIds : List TaskId) (runner : TaskRunner) : TaskRunner :=
  let duplicates := (taskIds.filterMap fun taskId => runner.runningTasks.lookup taskId).dedup
  duplicates.foldl (fun runner id => runner.abortInvocation id) runner

/-- Spawns one invocation; what runs of its tasks elsewhere in this process is replaced. -/
def spawnTask [RecordLayout] (limits : OutcomeLimits) (invocationId : Uuid) (lane : TaskLane)
    (ownerToken : Option String) (records : List Snapshot) (runner : TaskRunner) : TaskExecution × TaskRunner :=
  let taskIds := records.map fun task => task.record.id
  let runner := records.foldl (fun runner task => runner.modifyLane lane fun queue => queue.rememberFlow task) runner
  let execution : TaskExecution :=
    { nodeId := runner.nodeId, invocationId := invocationId, records := records, lane := lane, limits := limits
      ownerToken := ownerToken }
  let runner := runner.replaceDuplicates taskIds
  let runner := { runner with
    runningTasks := taskIds.foldl (fun tasks taskId => tasks.insert taskId invocationId) runner.runningTasks }
  (execution, { runner with
    runningInvocations := runner.runningInvocations.insert invocationId ⟨lane, taskIds⟩ })

/-- One round of the loop of `dispatch_ready` over the lanes: whether an invocation was spawned. -/
def dispatch [RecordLayout] (limits : OutcomeLimits) (permits : Permits) (now : Instant) (index : ℕ)
    (invocationId : Uuid) (runner : TaskRunner) : Option TaskExecution × TaskRunner :=
  if runner.mode ≠ .running then (none, runner)
  else
    match runner.popLane permits now index with
    | (none, runner) => (none, runner)
    | (some (lane, ownerToken, records), runner) =>
      let (execution, runner) := runner.spawnTask limits invocationId lane ownerToken records
      (some execution, runner)

/-- Preserves independent poll pacing when committed work or local submission wakes a lane. -/
def wakeLane (now : Instant) (lane : TaskLane) (runner : TaskRunner) : TaskRunner :=
  runner.modifyLane lane fun queue => { queue with pollAfter := min queue.pollAfter (now + runner.conf.pollInterval) }

def wakeLanes (now : Instant) (runner : TaskRunner) : TaskRunner :=
  { runner with lanes := runner.lanes.map fun queue =>
    { queue with pollAfter := min queue.pollAfter (now + runner.conf.pollInterval) } }

/-- What is left of a completion once the outcomes of replaced tasks are gone. -/
def kept (runner : TaskRunner) (completion : Completion) : List TaskCommit :=
  completion.commits.filter fun commit =>
    runner.runningTasks.lookup commit.taskId = some completion.invocationId

/-- Buffers accepted outcomes before releasing either invocation permit. -/
def acceptCompletion (now : Instant) (completion : Completion) (runner : TaskRunner) : TaskRunner :=
  match runner.runningInvocations.lookup completion.invocationId with
  | none => runner
  | some invocation =>
    let commits := runner.kept completion
    let runner := { runner with
      outputBuffer := runner.outputBuffer ++ commits
      runningTasks := invocation.taskIds.foldl (fun tasks taskId => tasks.erase taskId) runner.runningTasks
      runningInvocations := runner.runningInvocations.erase completion.invocationId }
    let runner := runner.modifyLane completion.lane fun queue =>
      { queue with uncommitted := saturatingAddUsize queue.uncommitted commits.length, completedWork := true }
    runner.wakeLane now completion.lane

/-- Lanes of a list of commits, each once. -/
def commitLanes (commits : List TaskCommit) : List TaskLane := (commits.filterMap (·.lane?)).dedup

/-- Takes commits off the count of their lanes. -/
def release (commits : List TaskCommit) (runner : TaskRunner) : TaskRunner :=
  (commitLanes commits).foldl (fun runner lane =>
    runner.modifyLane lane fun queue => { queue with uncommitted := queue.uncommitted - countLane lane commits }) runner

def acknowledgeCommits (commits : List TaskCommit) (runner : TaskRunner) : TaskRunner := runner.release commits

/-- Drops queued snapshots only after the store acknowledged terminal cancellation. -/
def cancelQueued [RecordLayout] (ids : List TaskId) (runner : TaskRunner) : TaskRunner :=
  { runner with lanes := runner.lanes.map fun queue => queue.cancelQueued ids }

def acceptsEvents (runner : TaskRunner) : Bool :=
  !runner.stopped && !runner.requests.any fun request => match request with | .giveBack => true | _ => false

def controlWake (now : Instant) (runner : TaskRunner) : TaskRunner :=
  if runner.mode = .running ∧ runner.acceptsEvents then runner.wakeLanes now else runner

end TaskRunner

/-- Control messages of a client. -/
inductive RunnerEvent where
  | wake
  | wakeLane (lane : TaskLane)
  | cancel (id : TaskId)
  | lagged
  deriving DecidableEq, Repr

/-- Handles a selected control event. -/
def TaskRunner.acceptEvent [RecordLayout] (now : Instant) (event : RunnerEvent) (runner : TaskRunner) : TaskRunner :=
  if runner.acceptsEvents = false then runner
  else
    match event with
    | .wake | .lagged => runner.controlWake now
    | .wakeLane lane => if runner.mode = .running then runner.wakeLane now lane else runner
    | .cancel id => (runner.cancelQueued [id]).controlWake now

end Vyuh.Tasks
