import Vyuh.Lib.Machine

/-! Task identifiers, persisted records, lifecycle outcomes and the messages between a runner and a
    task store (`models.rs`, `failure.rs`, `outcome.rs`, `submission.rs`, `store/contract.rs`,
    `store/lane.rs`).

    Serialized values (inputs, checkpoints, result envelopes) are strings, as in the source. -/

namespace Vyuh.Tasks
open Lib

/-- `uuid::Uuid`: 128 bits, ordered as an unsigned number. -/
abbrev Uuid := BitVec 128

/-- Canonical identifier of one durable task execution. -/
structure TaskId where
  uuid : Uuid
  deriving DecidableEq, Repr

/-- Registration-derived handler capabilities. -/
inductive TaskKind where | work | flow
  deriving DecidableEq, Repr

/-- Durable lifecycle state. -/
inductive TaskStatus where | pending | running | suspended | succeeded | failed
  deriving DecidableEq, Repr

/-- A terminal status is never left again. -/
def TaskStatus.terminal : TaskStatus → Bool
  | .succeeded | .failed => true
  | _ => false

/-- Persisted task state. -/
structure TaskRecord where
  id : TaskId
  parentId : Option TaskId
  rootId : Option TaskId
  kind : TaskKind
  name : String
  input : String
  state : Option String
  resumeInput : Option String
  status : TaskStatus
  cancelled : Bool
  attempts : ℤ
  stepAttempts : ℤ
  lane : String
  lastResult : Option String
  idempotencyKey : Option String
  idempotencyFingerprint : Option String
  idempotencyExpiresAt : Option DateTime
  nodeId : Option Uuid
  readyAt : Option DateTime
  createdAt : DateTime
  updatedAt : DateTime
  completedAt : Option DateTime
  deriving DecidableEq, Repr

/-- Stable name of one independently scheduled task lane. -/
structure TaskLane where
  asStr : String
  deriving DecidableEq, Repr

/-- The errors a task store reports; `jsonError` carries the text of the parser's error. -/
inductive TaskRuntimeError where
  | resultTooLarge (actual limit : ℕ)
  | taskNotFound (name : String)
  | jsonError (text : String)
  | taskExecutionError (text : String)
  | alreadyExists (id : TaskId)
  | invalidConfig (text : String)
  | invalidOptions (text : String)
  | unknownLane (lane : String)
  | idempotencyConflict (id : TaskId)
  | laneBusy (lane : String)
  deriving DecidableEq, Repr

/-! ### Submissions -/

/-- Store-facing task intent with resolved conflict behaviour. -/
structure TaskWrite where
  record : TaskRecord
  ignoreConflicts : Bool
  initialDelay : Option Duration
  deriving DecidableEq, Repr

/-- Result of submitting one task intent. -/
inductive TaskReceipt where
  | queued (id : TaskId)
  | existing (id : TaskId)
  | ignored (id : TaskId)
  deriving DecidableEq, Repr

/-- The new or existing task a receipt refers to. -/
def TaskReceipt.id : TaskReceipt → TaskId
  | .queued id | .existing id | .ignored id => id

/-- The task a receipt queued, if it did. -/
def TaskReceipt.queued? : TaskReceipt → Option TaskId
  | .queued id => some id
  | _ => none

/-- One atomically cursor-coordinated scheduled submission. -/
structure ScheduledTaskWrite where
  name : String
  occurrence : DateTime
  write : TaskWrite

/-! ### Outcomes and commits -/

/-- Prepared lifecycle outcome of one execution. -/
inductive TaskOutcome where
  | all (state : String) (children : List TaskWrite)
  | complete
  | completeWith (output : String)
  | spawn (state : String) (child : TaskWrite)
  | suspend (state : String)
  | sleep (state : String) (delay : Duration)
  | retry (error : String)
  | fail (error : String)
  deriving DecidableEq, Repr

/-- Whether the outcome asks for an all-settled child group. -/
def TaskOutcome.isAll : TaskOutcome → Bool
  | .all .. => true
  | _ => false

/-- The child submissions an outcome carries. -/
def TaskOutcome.writes : TaskOutcome → List TaskWrite
  | .all _ children => children
  | .spawn _ child => [child]
  | _ => []

/-- Commit authority: a fenced execution output or an explicit cancellation. -/
inductive TaskCommit where
  | outcome (nodeId : Uuid) (attempts : ℤ) (taskId : TaskId) (lane : TaskLane)
      (outcome : TaskOutcome) (ownerToken : Option String)
  | cancel (taskId : TaskId)
  deriving DecidableEq, Repr

namespace TaskCommit

def taskId : TaskCommit → TaskId
  | .outcome _ _ id _ _ _ => id
  | .cancel id => id

def lane? : TaskCommit → Option TaskLane
  | .outcome _ _ _ lane _ _ => some lane
  | .cancel _ => none

def outcome? : TaskCommit → Option TaskOutcome
  | .outcome _ _ _ _ result _ => some result
  | .cancel _ => none

/-- The child submissions a commit carries. -/
def writes (commit : TaskCommit) : List TaskWrite := (commit.outcome?.map (·.writes)).getD []

def isCancel : TaskCommit → Bool
  | .outcome .. => false
  | .cancel _ => true

/-- Checks authoritative execution evidence; a cancellation needs no execution owner. -/
def accepts (commit : TaskCommit) (status : TaskStatus) (node : Option Uuid) (attempt : ℤ) : Bool :=
  match commit with
  | .cancel _ => status = .pending || status = .running || status = .suspended
  | .outcome nodeId attempts _ _ _ _ =>
    status = .running && node = some nodeId && attempt = attempts

end TaskCommit

/-! ### Lane ownership messages -/

/-- Lifecycle hook requested for one durably owned lane. -/
inductive LaneHookAction where | idle | busy
  deriving DecidableEq, Repr

/-- Durable phase of one locked lane. -/
inductive LaneOwnerPhase where | active | idling | idle | busying | idleFailed | busyFailed
  deriving DecidableEq, Repr

/-- Result returned by one lane lifecycle hook; a failure carries its diagnostic. -/
structure LaneHookResult where
  generation : ℤ
  action : LaneHookAction
  result : Except String Unit

/-- Runner evidence supplied while coordinating one locked lane. -/
structure LaneOwnerRequest where
  token : Option String
  quiescent : Bool
  allowClaim : Bool
  completedWork : Bool
  hook : Option LaneHookResult

/-- Store response for one locked lane owner turn. -/
structure LaneOwnerPoll where
  token : Option String
  generation : ℤ
  phase : LaneOwnerPhase
  action : Option LaneHookAction
  takeover : Bool
  deriving DecidableEq, Repr

/-- One lane's available claim capacity for the current scheduling turn. -/
structure LaneClaim where
  lane : TaskLane
  limit : ℕ
  owner : Option LaneOwnerRequest

/-- The owner token a claim presents. -/
def LaneClaim.token (claim : LaneClaim) : Option String := claim.owner.bind (·.token)

/-- Claimed work and saturation evidence for one lane. -/
structure LanePoll where
  lane : TaskLane
  tasks : List TaskRecord
  reclaimed : ℕ
  saturated : Bool
  nextWakeIn : Option Duration
  owner : Option LaneOwnerPoll
  deriving DecidableEq, Repr

/-- One per-lane store poll. -/
structure TaskPoll where
  wakeLanes : List TaskLane
  lanes : List LanePoll
  deriving DecidableEq, Repr

/-- The snapshots a poll hands to its runner. -/
def TaskPoll.tasks (poll : TaskPoll) : List TaskRecord := poll.lanes.flatMap (·.tasks)

/-- Acknowledgement of one atomic batch of outcomes and cancellations. -/
structure CommitResult where
  wakeLanes : List TaskLane
  rejected : List TaskId
  tasks : List TaskRecord
  deriving DecidableEq, Repr

/-- A failure before any commit, or one that leaves the commit's fate unknown. -/
inductive StoreFailure (α : Type) where
  | beforeCommit (error : TaskRuntimeError)
  | commitUnknown (error : TaskRuntimeError) (prepared : α)

/-- A failed recovery keeps the evidence of its original transaction. -/
def StoreFailure.retain {α : Type} (failure : StoreFailure α) (original : α) : StoreFailure α :=
  match failure with
  | .beforeCommit error => .commitUnknown error original
  | .commitUnknown error _ => .commitUnknown error original

/-- Merges wake evidence, keeping each lane once. -/
def mergeWakes (target incoming : List TaskLane) : List TaskLane :=
  incoming.foldl (fun lanes lane => if lane ∈ lanes then lanes else lanes ++ [lane]) target

/-- Accepts only ownership evidence from the original request or its prepared response. -/
def recoveryToken (claim : LaneClaim) (prepared : TaskPoll) (token : Option String) : Bool :=
  match token with
  | none => false
  | some token =>
    claim.token = some token ||
      prepared.lanes.any (fun lane => lane.lane = claim.lane && lane.owner.bind (·.token) = some token)

end Vyuh.Tasks
