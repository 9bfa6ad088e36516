import Vyuh.Tasks.Runner.Admission

/-! The store operations of a runner (`runner/database.rs`, `admit` of `runner/engine.rs`). An operation keeps
    its request from start to answer; only an acknowledged answer, a foreign error or the deadline ends it. -/

namespace Vyuh.Tasks
open Lib

/-- What a store operation fails with: an error of the runtime, or one of the store, known by its code. -/
inductive OperationError where
  | runtime (error : TaskRuntimeError)
  | store (code : String)
  deriving DecidableEq, Repr

/-- Only classified operational failures are retried; permanent failures terminate safely. -/
def OperationError.retryable : OperationError → Bool
  | .runtime _ => false
  | .store code =>
    code ∈ ["connection_error", "timeout", "serialization_failure", "deadlock", "cancelled", "database_busy",
      "database_locked"]

/-- `StoreFailure<DbResponse>`: `prepared` is there when the fate of the commit is unknown. -/
structure DbFailure where
  error : OperationError
  prepared : Option DbResponse

/-- The outcomes a request hands to the store. -/
def DbRequest.commits : DbRequest → List TaskCommit
  | .commit commits _ _ => commits
  | _ => []

namespace TaskRunner

def returning (runner : TaskRunner) : Bool :=
  runner.requests.any fun request => match request with | .giveBack => true | _ => false

/-! ### Leaving -/

/-- Clears local evidence only on terminal exit, never as a persistence acknowledgement. -/
def discardWork (runner : TaskRunner) : TaskRunner :=
  { runner with
    deathAt := none
    runningInvocations := ∅
    runningTasks := ∅
    runningHooks := ∅
    inFlight := ∅
    outputBuffer := []
    heartbeatAfter := none
    lanes := runner.lanes.map LaneState.discard }

/-- Leaves for good, in the mode that says why. -/
def leave (mode : RunMode) (runner : TaskRunner) : TaskRunner := { runner with mode := mode }.discardWork

/-- Discards unacknowledged local work after confirmed loss of the durable node. -/
def retire (runner : TaskRunner) : TaskRunner := runner.leave .retired

/-- Enforces the terminal deadline before admission or acknowledgement can revive activity. -/
def expire (now : Instant) (runner : TaskRunner) : TaskRunner :=
  if !runner.stopped && runner.deathAt.any (· ≤ now) then runner.leave .dead else runner

def deathDeadline (now : Instant) (runner : TaskRunner) : Instant :=
  now + Duration.saturatingMul runner.conf.heartbeatInterval 6

def scheduleHeartbeat (now : Instant) (runner : TaskRunner) : TaskRunner :=
  { runner with heartbeatAfter := some (now + runner.conf.heartbeatInterval) }

/-! ### Starting and retrying -/

/-- Starts one immutable operation and arms contact liveness while it remains outstanding. -/
def startDatabase (now : Instant) (id : Uuid) (request : DbRequest) (runner : TaskRunner) : TaskRunner :=
  { runner with
    inFlight := runner.inFlight.insert id ⟨request, .running⟩
    deathAt := some (runner.deathAt.getD (runner.deathDeadline now)) }

/-- When an operation may be retried, for the ones that failed. -/
def retryAt (now : Instant) (entry : Uuid × InFlight) : Option (Instant × Uuid) :=
  match entry.2.phase with
  | .retry notBefore _ => if notBefore ≤ now then some (notBefore, entry.1) else none
  | _ => none

/-- The earlier of two retries, the smaller identifier of two at the same time. -/
def earlier (a b : Instant × Uuid) : Instant × Uuid :=
  if b.1 < a.1 ∨ b.1 = a.1 ∧ b.2 < a.2 then b else a

/-- Earliest eligible failure wins; failed retries move to the back by their deadline. -/
def retryDue (now : Instant) (runner : TaskRunner) : Option Uuid :=
  match runner.inFlight.toList.filterMap (retryAt now) with
  | [] => none
  | first :: others => some (others.foldl earlier first).2

/-- Sets the phase of an operation that is still unresolved. -/
def setPhase (id : Uuid) (phase : DbPhase) (runner : TaskRunner) : TaskRunner :=
  match runner.inFlight.lookup id with
  | none => runner
  | some entry => { runner with inFlight := runner.inFlight.insert id { entry with phase := phase } }

/-- Transfers retained evidence into a single retry without changing the operation's identity. -/
def retryDatabase (id : Uuid) (runner : TaskRunner) : TaskRunner :=
  match runner.inFlight.lookup id with
  | some ⟨_, .retry _ _⟩ => runner.setPhase id .recovering
  | _ => runner

def heartbeatRequest (now : Instant) (runner : TaskRunner) : Option DbRequest :=
  let beating := runner.requests.any fun request => match request with | .heartbeat => true | _ => false
  if !beating && runner.heartbeatAfter.any (· ≤ now) then some .heartbeat else none

/-- What the next operation asks for: contact first, owned lanes, outputs, then inputs. -/
def nextRequest (permits : Permits) (now : Instant) (runner : TaskRunner) : Option DbRequest × TaskRunner :=
  match runner.heartbeatRequest now with
  | some request => (some request, runner)
  | none =>
    match runner.coordinateRequest permits now with
    | some (request, runner) => (some request, runner)
    | none =>
      match runner.flushRequest now permits with
      | some (request, runner) => (some request, runner)
      | none => runner.claimRequest permits now

/-- One pass of the loop of `admit`, with a free database slot: whether the loop goes on. -/
def admitPass (permits : Permits) (now : Instant) (id : Uuid) (runner : TaskRunner) : Bool × TaskRunner :=
  if runner.returning then
    (false, (runner.retryDue now).elim runner fun retry => runner.retryDatabase retry)
  else
    match runner.retryDue now, runner.heartbeatRequest now with
    | some retry, none => (true, runner.retryDatabase retry)
    | _, _ =>
      match runner.nextRequest permits now with
      | (none, runner) => (false, runner)
      | (some request, runner) => (true, runner.startDatabase now id request)

/-- The loop of `admit`: one identifier for each free database slot. -/
def admitLoop (permits : Permits) (now : Instant) : List Uuid → TaskRunner → TaskRunner
  | [], runner => runner
  | id :: ids, runner =>
    match runner.admitPass permits now id with
    | (true, runner) => admitLoop permits now ids runner
    | (false, runner) => runner

/-- Admits eligible work without blocking on permits or creating a permit-waiter queue. -/
def admitReady (permits : Permits) (now : Instant) (ids : List Uuid) (runner : TaskRunner) : TaskRunner :=
  let runner := runner.expire now
  if runner.stopped then runner else admitLoop permits now ids runner

/-- Admits residual-claim return only after every operation and output has settled. -/
def giveBack (now : Instant) (id : Uuid) (runner : TaskRunner) : TaskRunner :=
  if runner.finished then runner.startDatabase now id .giveBack else runner

/-! ### Answers -/

/-- Releases acknowledged output pressure before delivering newly committed inputs. -/
def applyFlush [RecordLayout] (alloc : Allocator) (now : Instant) (commits : List TaskCommit) (result : CommitResult)
    (runner : TaskRunner) : TaskRunner :=
  let runner := runner.acknowledgeCommits commits
  let runner := result.tasks.foldl (fun runner record => runner.acceptInput ⟨record, alloc record⟩) runner
  (commits.filterMap (·.lane?) ++ result.wakeLanes).foldl (fun runner lane => runner.wakeLane now lane) runner

/-- The last answer of a runner that drained. -/
def returned (runner : TaskRunner) : TaskRunner :=
  { runner with
    inFlight := ∅
    deathAt := none
    lanes := runner.lanes.map fun lane => { lane with tasks := [] }
    mode := .finished }

/-- Correlates one response with its immutable operation, without replaying local effects. -/
def applyResponse [RecordLayout] (alloc : Allocator) (permits : Permits) (now : Instant) (request : DbRequest)
    (response : DbResponse) (runner : TaskRunner) : Except TaskRuntimeError TaskRunner :=
  match request, response with
  | .heartbeat, .heartbeat true => .ok (runner.scheduleHeartbeat now)
  | .heartbeat, .heartbeat false => .ok runner.retire
  | .giveBack, .returned => .ok runner.returned
  | .claim claims, .poll poll | .coordinate claims, .poll poll => do
    validatePoll claims poll
    return runner.applyPoll alloc permits claims poll now
  | .commit commits _ _, .flushed result => .ok (runner.applyFlush alloc now commits result)
  | _, _ => .error (.taskExecutionError "mismatched task store response")

/-- Ordinary database errors retry; protocol and programming errors terminate safely. -/
def databaseFailed (now : Instant) (id : Uuid) (failure : DbFailure) (runner : TaskRunner) : TaskRunner :=
  if failure.error.retryable then
    runner.setPhase id (.retry (now + runner.conf.pollInterval) failure.prepared)
  else runner.leave .faulted

/-- An operation that was acknowledged. -/
def resolved (now : Instant) (id : Uuid) (runner : TaskRunner) : TaskRunner :=
  let inFlight : Dict Uuid InFlight := runner.inFlight.erase id
  { runner with
    inFlight := inFlight
    deathAt := if inFlight.size = 0 then none else some (runner.deathDeadline now) }

/-- Applies only acknowledged responses; a success cannot revive an expired runner. -/
def applyDatabase [RecordLayout] (alloc : Allocator) (permits : Permits) (now : Instant) (id : Uuid)
    (answer : Except DbFailure DbResponse) (runner : TaskRunner) : TaskRunner :=
  let runner := runner.expire now
  if runner.stopped then runner
  else
    match runner.inFlight.lookup id, answer with
    | none, _ => runner
    | some _, .error failure => runner.databaseFailed now id failure
    | some entry, .ok response =>
      match runner.applyResponse alloc permits now entry.request response with
      | .error error => runner.databaseFailed now id ⟨.runtime error, none⟩
      | .ok runner => if runner.stopped then runner else runner.resolved now id

/-- The shutdown notification. -/
def shutdown (runner : TaskRunner) : TaskRunner :=
  if runner.stopped ∨ runner.mode = .draining then runner
  else { runner with mode := .draining, runningHooks := ∅ }

end TaskRunner

end Vyuh.Tasks
