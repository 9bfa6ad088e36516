import Vyuh.Lib.Step
import Vyuh.Tasks.Config
import Vyuh.Tasks.Result

/-! Policy shared by the durable and the in-memory store (`store/transitions.rs`): direct admission,
    capability checks, terminal results, turn budgets and the encoding of all-settled groups. -/

namespace Vyuh.Tasks
open Lib

/-- Sticky unlocked lanes prefer local child or cache admission. -/
def sticky (record : TaskRecord) (conf : TaskStoreConf) : Bool :=
  (conf.laneNamed record.lane).any (·.isSticky)

/-- Checks direct admission without consulting a lane row. -/
def direct (record : TaskRecord) (conf : TaskStoreConf) (now : DateTime) : Bool :=
  record.status = .pending && !record.cancelled && record.readyAt.all (fun at_ => at_ ≤ now) &&
    (conf.laneNamed record.lane).any (fun lane =>
      lane.laneLock.isNone && (record.kind = .flow || lane.globalRate.isNone))

def attemptOverflow : TaskRuntimeError := .taskExecutionError "task attempt count overflowed"

def stepAttemptOverflow : TaskRuntimeError :=
  .taskExecutionError "task step attempt count overflowed"

/-- The body of `admit` and `claim_task`: both counters, then ownership. -/
def grant (node : Uuid) (now : DateTime) : Step TaskRecord TaskRuntimeError Unit := do
  let record ← Step.get
  match checkedAdd32 record.attempts 1 with
  | none => Step.fail attemptOverflow
  | some attempts =>
    Step.modify (fun r => { r with attempts := attempts })
    match checkedAdd32 record.stepAttempts 1 with
    | none => Step.fail stepAttemptOverflow
    | some stepAttempts =>
      Step.modify (fun r => { r with
        stepAttempts := stepAttempts, status := .running, nodeId := some node, updatedAt := now })

/-- Establishes one fresh execution in the originating store transaction. -/
def admitRecord (node : Uuid) (now : DateTime) : Step TaskRecord TaskRuntimeError Unit :=
  grant node now

/-- Validates a handler's capability for an outcome; `none` when it may use it. -/
def capabilityError (kind : TaskKind) (outcome : TaskOutcome)
    (handlers : List (String × TaskKind)) : Option String :=
  match kind, outcome with
  | .work, .sleep .. | .work, .spawn .. | .work, .all .. => some "Work tasks cannot sleep or spawn"
  | .flow, .retry .. => some "Flow handlers cannot request retry"
  | _, .spawn _ child =>
    if handlers.any (fun h => h.1 = child.record.name && h.2 = child.record.kind) then none
    else some "Child task kind does not match registered handler"
  | _, _ => none

/-- The terminal failure of every cancellation path. -/
def cancellation : TaskOutcome := .fail "Task cancelled"

/-- The accepted terminal result; retries and checkpoints have none. -/
def terminalResult (status : TaskStatus) (result : Option String) :
    Except TaskRuntimeError (Option String) :=
  if status.terminal then
    match result with
    | some result => .ok (some result)
    | none => .error (.taskExecutionError "Terminal outcome omitted its result")
  else .ok none

/-- Work weight of one outcome: a group counts its members and itself. -/
def weight : TaskOutcome → ℕ
  | .all _ children => saturatingAddUsize children.length 1
  | _ => 1

def TaskCommit.weight (commit : TaskCommit) : ℕ :=
  match commit.outcome? with
  | some result => Tasks.weight result
  | none => 1

/-- Whether a commit carries an all-settled group. -/
def TaskCommit.isAll (commit : TaskCommit) : Bool := commit.outcome?.any (·.isAll)

/-- The checked total weight of a batch. -/
def totalWeight : List TaskCommit → ℕ → Option ℕ
  | [], sum => some sum
  | commit :: commits, sum => (checkedAddUsize sum commit.weight).bind (totalWeight commits)

/-- Rejects oversized join turns before any authoritative mutation. -/
def validateTurn (commits : List TaskCommit) (batch maximum : ℕ) : Except TaskRuntimeError Unit :=
  if !commits.any (·.isAll) then .ok ()
  else if batch < commits.length ||
      (totalWeight commits 0).all (fun sum => max batch (saturatingAddUsize maximum 1) < sum) then
    .error (.invalidOptions "Expanded all flush exceeds its budget")
  else .ok ()

/-- The member check of `validate_group`, given the identities already seen. -/
def invalidChild (conf : TaskStoreConf) (ids : List TaskId) (child : TaskWrite) : Bool :=
  let record := child.record
  child.ignoreConflicts || child.initialDelay.any (fun delay => maxTaskDelay < delay) ||
    record.id ∈ ids ||
    !conf.handlers.any (fun h => h.1 = record.name && h.2 = record.kind) ||
    !conf.lanes.any (fun lane => lane.lane.asStr = record.lane) ||
    record.status ≠ .pending || record.cancelled ||
    (record.idempotencyKey.isSome && record.idempotencyFingerprint.isNone)

def validateMembers (conf : TaskStoreConf) :
    List TaskId → List (String × String) → List TaskWrite → Except TaskRuntimeError Unit
  | _, _, [] => .ok ()
  | ids, keys, child :: children =>
    if invalidChild conf ids child then .error (.invalidOptions "Invalid all child")
    else
      match child.record.idempotencyKey with
      | none => validateMembers conf (child.record.id :: ids) keys children
      | some key =>
        if (child.record.name, key) ∈ keys then .error (.invalidOptions "Duplicate all child key")
        else validateMembers conf (child.record.id :: ids) ((child.record.name, key) :: keys) children

/-- Validates the whole group before any child is staged. -/
def validateGroup (children : List TaskWrite) (conf : TaskStoreConf) :
    Except TaskRuntimeError Unit :=
  if conf.maxAllChildren < children.length then .error (.invalidOptions "Too many all children")
  else validateMembers conf [] [] children

/-- Appends one already encoded member result, bounding the outer envelope. -/
def appendResult [Serde] (buffer : String) (result : Option String) (terminal : Bool) :
    Except String String :=
  match result.filter (fun _ => terminal) with
  | none => .error "All child result is missing or nonterminal"
  | some result =>
    match validateResume result with
    | .error _ => .error "All child result is malformed"
    | .ok () =>
      let separator := if 7 < buffer.utf8ByteSize then 1 else 0
      if resultLimit < buffer.utf8ByteSize + separator + result.utf8ByteSize + 2 then
        .error "All results exceed the 32768-byte resume limit"
      else .ok (buffer ++ (if separator ≠ 0 then "," else "") ++ result)

/-! ### What the checks establish -/

theorem grant_ok {node : Uuid} {now : DateTime} {r r' : TaskRecord} {u : Unit} :
    grant node now r = (.ok u, r') ↔
      checkedAdd32 r.attempts 1 = some (r.attempts + 1) ∧
      checkedAdd32 r.stepAttempts 1 = some (r.stepAttempts + 1) ∧
      r' = { r with attempts := r.attempts + 1, stepAttempts := r.stepAttempts + 1,
                    status := .running, nodeId := some node, updatedAt := now } := by
  simp only [grant, Step.bind_run, Step.get_run]
  cases ha : checkedAdd32 r.attempts 1 with
  | none => simp
  | some a =>
    obtain rfl := checkedAdd32_some ha
    simp only [Step.bind_run, Step.modify_run]
    cases hs : checkedAdd32 r.stepAttempts 1 with
    | none => simp
    | some s =>
      obtain rfl := checkedAdd32_some hs
      simp [eq_comm]

/-- A granted execution or a failure keeps the record's identity. -/
theorem grant_id (node : Uuid) (now : DateTime) (r : TaskRecord) :
    (grant node now r).2.id = r.id := by
  simp only [grant, Step.bind_run, Step.get_run]
  cases checkedAdd32 r.attempts 1 with
  | none => rfl
  | some a =>
    simp only [Step.bind_run, Step.modify_run]
    cases checkedAdd32 r.stepAttempts 1 <;> rfl

end Vyuh.Tasks
