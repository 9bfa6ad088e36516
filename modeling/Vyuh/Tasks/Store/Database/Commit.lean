import Vyuh.Tasks.Store.Transitions

/-! Outcome application of the database store (`database/commit.rs`, with the child preparation of
    `database/workflow.rs` and `database/submit.rs`): one accepted row and its command. The row is read
    under the transaction's lock and written when nothing failed; its two columns about a group's members
    are not touched here, so that a row is its record. The owners of idempotency keys are those the
    transaction reads after it has put in its own. -/

namespace Vyuh.Tasks.Database
open Lib

/-- The owner of one handler's key. -/
structure TaskIdempotencyRow where
  fingerprint : String
  taskId : Uuid
  deriving DecidableEq, Repr

/-! ### Deadlines -/

def addTime (now : DateTime) (duration : Duration) (label : String) : Except TaskRuntimeError DateTime :=
  match checkedAddSigned now duration with
  | some deadline => .ok deadline
  | none => .error (.taskExecutionError (label ++ " is outside the supported range"))

def chronoDuration (duration : Duration) : Except TaskRuntimeError Duration :=
  match fromStd duration with
  | some duration => .ok duration
  | none => .error (.taskExecutionError "task duration is outside the supported range")

/-- `add_time` after `chrono_duration`. -/
def deadline (now : DateTime) (duration : Duration) (label : String) : Except TaskRuntimeError DateTime := do
  let duration ← chronoDuration duration
  addTime now duration label

/-! ### One row -/

def finish (status : TaskStatus) (error : Option String) (now : DateTime) (row : TaskRecord) : TaskRecord :=
  { row with
    status := status
    lastResult := some (match error with
      | some error => failure row.id error
      | none => unitResult)
    readyAt := none
    completedAt := some now }

/-- Persists validated output, or contains invalid output as a terminal failure. -/
def completeOutput [Serde] (output : String) (now : DateTime) (row : TaskRecord) : TaskRecord :=
  match validateOutput output with
  | .ok () =>
    { row with
      status := .succeeded, readyAt := none, completedAt := some now, lastResult := some (success output) }
  | .error error => finish .failed (some error.render) now row

/-- Schedules another attempt or terminates a task at its retry bound. -/
def applyRetry (retry : TaskRetry) (error : String) (now : DateTime) (row : TaskRecord) :
    Except TaskRuntimeError TaskRecord := do
  if ← retry.exhausted row.stepAttempts then .ok (finish .failed (some error) now row)
  else
    let delay ← retry.delay row.stepAttempts
    let readyAt ← deadline now delay "task retry duration"
    .ok { row with status := .pending, lastResult := some (failure row.id error), readyAt := some readyAt }

/-- The outcome-specific part of `apply_outcome`. -/
def applyTransition [Serde] (outcome : TaskOutcome) (retry : TaskRetry) (now : DateTime) (row : TaskRecord) :
    Except TaskRuntimeError TaskRecord :=
  match outcome with
  | .complete => .ok (finish .succeeded none now row)
  | .completeWith output => .ok (completeOutput output now row)
  | .suspend state | .spawn state _ | .all state _ =>
    .ok { row with
      lastResult := none, stepAttempts := 0, status := .suspended, state := some state, readyAt := none }
  | .sleep state delay => do
    let readyAt ← deadline now delay "task sleep duration"
    .ok { row with
      lastResult := none, stepAttempts := 0, status := .pending, state := some state,
      readyAt := some readyAt }
  | .retry error => applyRetry retry error now row
  | .fail error => .ok (finish .failed (some error) now row)

/-- A retry keeps the input its next attempt resumes with. -/
def preserveResume : TaskOutcome → Bool
  | .retry .. => true
  | _ => false

/-- Applies one lifecycle transition; a cancelled row is cancelled whatever the outcome. -/
def applyOutcome [Serde] (outcome : TaskOutcome) (retry : TaskRetry) (now : DateTime) (row : TaskRecord) :
    Except TaskRuntimeError TaskRecord := do
  let outcome := if row.cancelled then cancellation else outcome
  let row ← applyTransition outcome retry now row
  .ok { row with
    resumeInput := if preserveResume outcome then row.resumeInput else none,
    nodeId := none, updatedAt := now }

/-! ### Children -/

def childWrite (row : TaskRecord) (child : TaskWrite) : TaskWrite :=
  { record := { child.record with
      parentId := some row.id, rootId := some (row.rootId.getD row.id), nodeId := none }
    ignoreConflicts := true
    initialDelay := child.initialDelay }

def normalizeWrite (now : DateTime) (write : TaskWrite) : Except TaskRuntimeError TaskWrite := do
  let readyAt ← match write.initialDelay with
    | some delay => deadline now delay "task initial delay"
    | none => .ok now
  .ok { write with record := { write.record with createdAt := now, updatedAt := now, readyAt := some readyAt } }

/-- Normalizes a write; a key needs its fingerprint. -/
def prepareWrite (now : DateTime) (write : TaskWrite) : Except TaskRuntimeError TaskWrite := do
  let write ← normalizeWrite now write
  if write.record.idempotencyKey.isSome && write.record.idempotencyFingerprint.isNone then
    .error (.taskExecutionError "idempotent task is missing its fingerprint")
  else .ok write

section

variable (owners : String → String → Option TaskIdempotencyRow)

/-- Who a key belongs to. -/
def resolveOwner (write : TaskWrite) : Except TaskRuntimeError TaskReceipt :=
  match write.record.idempotencyKey with
  | none => .ok (.queued write.record.id)
  | some key =>
    match owners write.record.name key with
    | none => .error (.taskExecutionError "idempotency owner was not stored")
    | some owner =>
      if owner.taskId = write.record.id.uuid then .ok (.queued write.record.id)
      else if write.record.idempotencyFingerprint = some owner.fingerprint then .ok (.existing ⟨owner.taskId⟩)
      else if write.ignoreConflicts then .ok (.ignored ⟨owner.taskId⟩)
      else .error (.idempotencyConflict ⟨owner.taskId⟩)

/-- The children of one parent that are new, and whether one of them is not. -/
def resolveChildren : List TaskWrite → Except TaskRuntimeError (List TaskRecord × Bool)
  | [] => .ok ([], false)
  | write :: writes => do
    let receipt ← resolveOwner owners write
    let (children, conflict) ← resolveChildren writes
    match receipt with
    | .queued _ => .ok (write.record :: children, conflict)
    | _ => .ok (children, true)

/-- Reserves the keys of one parent's children; a conflict drops them all. -/
def reserveChildren (now : DateTime) (writes : List TaskWrite) :
    Except TaskRuntimeError (List TaskRecord × Bool) := do
  let prepared ← writes.mapM (prepareWrite now)
  let (children, conflict) ← resolveChildren owners prepared
  .ok (if conflict then [] else children, conflict)

/-- The children one accepted command asks for, and whether they are refused. -/
def prepareChildren (conf : TaskStoreConf) (now : DateTime) (row : TaskRecord) (commit : TaskCommit) :
    Except TaskRuntimeError (List TaskRecord × Bool) :=
  if row.cancelled then .ok ([], false)
  else
    match commit.outcome? with
    | some (.all _ group) =>
      if row.kind ≠ .flow then .ok ([], true)
      else
        match validateGroup group conf with
        | .error _ => .ok ([], true)
        | .ok () => reserveChildren owners now (group.map (childWrite row))
    | some (.spawn state child) =>
      match capabilityError row.kind (.spawn state child) conf.handlers with
      | some _ => .ok ([], false)
      | none =>
        if child.ignoreConflicts then .error (.invalidOptions "spawn cannot ignore conflicts")
        else
          match conf.laneNamed child.record.lane with
          | none => .error (.unknownLane child.record.lane)
          | some _ => reserveChildren owners now [childWrite row child]
    | _ => .ok ([], false)

/-! ### The commit -/

/-- What a command really does to a row: capability first, then its children. -/
def rowOutcome (conf : TaskStoreConf) (row : TaskRecord) (outcome : TaskOutcome) (conflict : Bool) : TaskOutcome :=
  match if row.cancelled then none else capabilityError row.kind outcome conf.handlers with
  | some error => .fail error
  | none => if conflict then .fail "Child task identity conflicts with an existing task" else outcome

def queueDelivery (row : TaskRecord) (deliveries : List (TaskId × String)) :
    Except TaskRuntimeError (List (TaskId × String)) :=
  match row.parentId with
  | none => .ok deliveries
  | some parent => do
    match ← terminalResult row.status row.lastResult with
    | some result => .ok (deliveries ++ [(parent, result)])
    | none => .ok deliveries

/-- Releases or archives the key of a terminal row. -/
def updateIdempotency (conf : TaskStoreConf) (now : DateTime) (row : TaskRecord) :
    Except TaskRuntimeError TaskRecord :=
  if row.idempotencyKey.isSome && row.status.terminal then
    match conf.idempotencyFor row.name with
    | none => .error (.invalidConfig ("task '" ++ row.name ++ "' has no idempotency policy"))
    | some .activeOnly => .ok { row with idempotencyExpiresAt := none }
    | some (.retainFor duration) => do
      let expires ← deadline now duration "idempotency retention"
      .ok { row with idempotencyExpiresAt := some expires }
  else .ok row

/-- The row an accepted command writes. -/
def commitRow [Serde] (conf : TaskStoreConf) (now : DateTime) (row : TaskRecord) (commit : TaskCommit) :
    Except TaskRuntimeError TaskRecord := do
  let row := { row with cancelled := row.cancelled || commit.isCancel }
  let (_, conflict) ← prepareChildren owners conf now row commit
  let outcome := rowOutcome conf row (commit.outcome?.getD cancellation) conflict
  match conf.laneNamed row.lane with
  | none => .error (.unknownLane row.lane)
  | some lane =>
    let row ← applyOutcome outcome lane.retry now row
    let _ ← queueDelivery row []
    updateIdempotency conf now row

end

end Vyuh.Tasks.Database
