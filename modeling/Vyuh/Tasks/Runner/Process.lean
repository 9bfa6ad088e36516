import Vyuh.Lib.Run
import Vyuh.Tasks.Runner.Database

/-! A whole runner (`run` of `runner/engine.rs`): its own state and the invocations it has spawned. The loop
    collects, dispatches, admits and waits; here each of these is a turn, and turns come in any order, at any
    clock, with any permits left. Invocations end when they like, also after they were aborted, and the store
    answers what it likes. A ledger beside the state notes what became of every outcome; no turn reads it. -/

namespace Vyuh.Tasks
open Lib

namespace TaskRunner

/-- Outcomes that are buffered or in an unresolved request. -/
def held (runner : TaskRunner) : List TaskCommit := runner.outputBuffer ++ runner.requests.flatMap (·.commits)

/-- The outcomes of a completion the runner takes. -/
def taken (completion : Completion) (runner : TaskRunner) : List TaskCommit :=
  if (runner.runningInvocations.lookup completion.invocationId).isSome then runner.kept completion else []

/-- The outcomes an answer acknowledges. -/
def acknowledges (now : Instant) (id : Uuid) (answer : Except DbFailure DbResponse) (runner : TaskRunner) :
    List TaskCommit :=
  if (runner.expire now).stopped then []
  else
    match runner.inFlight.lookup id, answer with
    | some ⟨.commit commits _ _, _⟩, .ok (.flushed _) => commits
    | _, _ => []

end TaskRunner

/-- The lanes an answer leaves without an owner. -/
def disowned : Except DbFailure DbResponse → List TaskLane
  | .ok (.poll poll) => (poll.lanes.filter fun result => result.owner.any (·.token.isNone)).map (·.lane)
  | _ => []

/-- What became of tasks and outcomes so far. -/
structure Ledger where
  started : List TaskId
  accepted : List TaskCommit
  acknowledged : List TaskCommit
  lost : List TaskLane

structure RunnerProcess where
  runner : TaskRunner
  executions : List TaskExecution
  ledger : Ledger

/-- One turn of the loop, or of what runs beside it. -/
inductive RunnerTurn where
  | input (snapshot : Snapshot)
  | control (event : RunnerEvent)
  | dispatch (index : ℕ) (invocationId : Uuid)
  | finish (index : ℕ) (outcomes : List TaskOutcome)
  | hook (completion : HookCompletion)
  | admission (ids : List Uuid)
  | giveBack (id : Uuid)
  | answer (id : Uuid) (answer : Except DbFailure DbResponse)
  | shutdown
  | expire

/-- The clock and the permits a turn reads. -/
structure Reading where
  now : Instant
  permits : Permits

namespace RunnerProcess

/-- The start of `run`: a clustered runner sends heartbeats. -/
def start (conf : RunnerConf) (node : Uuid) (now : Instant) (clustered : Bool) : RunnerProcess where
  runner :=
    if clustered then (TaskRunner.new conf node now).scheduleHeartbeat now else TaskRunner.new conf node now
  executions := []
  ledger := ⟨[], [], [], []⟩

/-- What an invocation sends when its handler ended with these outcomes, one for each record. -/
def completion [Serde] (execution : TaskExecution) (outcomes : List TaskOutcome) : Completion :=
  execution.completion ((execution.records.map (·.record)).zip outcomes)

/-- Whether a turn can come: the loop has not ended, identifiers are new, and outcomes fit the memory. -/
def Enabled (process : RunnerProcess) (turn : RunnerTurn) : Prop :=
  process.runner.stopped = false ∧
    match turn with
    | .input _ => process.runner.mode = .running ∧ 0 < process.runner.inputRoom
    | .dispatch _ id =>
      (∀ execution ∈ process.executions, execution.invocationId ≠ id) ∧
        process.runner.runningInvocations.lookup id = none
    | .finish index outcomes =>
      ∃ execution, process.executions[index]? = some execution ∧ outcomes.length = execution.records.length ∧
        process.runner.held.length + outcomes.length ≤ usizeMax
    | .admission ids => process.runner.finished = false ∧ ids.Nodup ∧ ∀ id ∈ ids, process.runner.inFlight.lookup id = none
    | .giveBack id => process.runner.inFlight.lookup id = none
    | _ => True

section

variable [RecordLayout] [Serde] (alloc : Allocator) (limits : OutcomeLimits) (reading : Reading)

/-- What a turn does. -/
def apply (process : RunnerProcess) : RunnerTurn → RunnerProcess
  | .input snapshot => { process with runner := process.runner.acceptInput snapshot }
  | .control event => { process with runner := process.runner.acceptEvent reading.now event }
  | .dispatch index id =>
    match process.runner.dispatch limits reading.permits reading.now index id with
    | (none, runner) => { process with runner := runner }
    | (some execution, runner) =>
      { runner := runner
        executions := process.executions ++ [execution]
        ledger := { process.ledger with
          started := process.ledger.started ++ execution.records.map (·.record.id) } }
  | .finish index outcomes =>
    match process.executions[index]? with
    | none => process
    | some execution =>
      let ended := completion execution outcomes
      { runner := process.runner.acceptCompletion reading.now ended
        executions := process.executions.eraseIdx index
        ledger := { process.ledger with accepted := process.ledger.accepted ++ process.runner.taken ended } }
  | .hook ended => { process with runner := process.runner.acceptHook reading.now ended }
  | .admission ids => { process with runner := process.runner.admitReady reading.permits reading.now ids }
  | .giveBack id => { process with runner := process.runner.giveBack reading.now id }
  | .answer id answer =>
    { process with
      runner := process.runner.applyDatabase alloc reading.permits reading.now id answer
      ledger := { process.ledger with
        acknowledged := process.ledger.acknowledged ++ process.runner.acknowledges reading.now id answer
        lost := process.ledger.lost ++ disowned answer } }
  | .shutdown => { process with runner := process.runner.shutdown }
  | .expire => { process with runner := process.runner.expire reading.now }

end

/-- One step of a run. -/
def Step [RecordLayout] [Serde] (alloc : Allocator) (limits : OutcomeLimits) (process : RunnerProcess)
    (label : Reading × RunnerTurn) (next : RunnerProcess) : Prop :=
  process.Enabled label.2 ∧ next = process.apply alloc limits label.1 label.2

end RunnerProcess

end Vyuh.Tasks
