import Vyuh.Lib.BTreeMap
import Vyuh.Lib.Step
import Vyuh.Tasks.RateMeter
import Vyuh.Tasks.RetryDelay
import Vyuh.Tasks.Runner.Lanes

/-! The policy of a site's task workers (`TaskConf` of `config.rs`): its scalar limits, its lane overrides,
    and how they and the lanes that bundles declare become the lane set of a site. -/

namespace Vyuh.Tasks
open Lib TaskRetry

/-- Framework-owned lane used when a submission does not select one. -/
def defaultTaskLane : TaskLane := ⟨"default"⟩

instance : LinearOrder TaskLane :=
  LinearOrder.lift' TaskLane.asStr fun a b h => by cases a; cases b; cases h; rfl

def maxTaskLanes : ℕ := 32

def maxConcurrency : ℕ := 4096

def maxLease : Duration := Duration.ofSecs (24 * 60 * 60)

def maxPayloadBytes : ℕ := 16 * 1024 * 1024

def maxErrorBytes : ℕ := 64 * 1024

def maxIdempotencyRetention : Duration := Duration.ofSecs (10 * 365 * 24 * 60 * 60)

/-- `tokio::sync::Semaphore::MAX_PERMITS`. -/
class SemaphoreLimit where
  maxPermits : ℕ

/-- Everything a site declares about one lane. -/
structure LaneDefinition extends LaneConf where
  idempotencyRetention : IdempotencyRetention
  rateTyped : ∀ r, rate = some r → r.Typed
  globalRateTyped : ∀ r, globalRate = some r → r.Typed

namespace LaneDefinition

/-- `TaskLaneConf::new`: one lane with its concurrency quota and the framework's defaults. -/
def new (lane : TaskLane) (concurrency : ℕ) : LaneDefinition where
  lane := lane
  claimBatchSize := 1024
  laneLock := none
  globalRate := none
  retry := defaultRetry
  sticky := true
  concurrency := concurrency
  rate := none
  flowCacheBytes := 8 * 1024 * 1024
  flowCacheFits := by decide
  idempotencyRetention := .activeOnly
  rateTyped r h := by cases h
  globalRateTyped r h := by cases h

end LaneDefinition

/-- Resolves task-declared lanes that are absent from the site configuration. -/
inductive TaskLanePolicy where
  | useDefault
  | requireConfigured
  deriving DecidableEq, Repr

/-- How the durable task runtime contributes to site readiness. -/
inductive TaskReadiness where
  | startupOnly
  | afterFailures (failures : ℕ)
  | disabled
  deriving DecidableEq, Repr

/-- Runtime policy for durable task workers. -/
structure TaskConf where
  heartbeatInterval : Duration
  pollInterval : Duration
  fallbackPollInterval : Duration
  concurrency : ℕ
  dbConcurrency : ℕ
  commitBatchSize : ℕ
  ingressCapacity : ℕ
  maxAllChildren : ℕ
  leaseDuration : Duration
  maxPayloadBytes : ℕ
  maxErrorBytes : ℕ
  lanes : List LaneDefinition
  missingLane : TaskLanePolicy
  readiness : TaskReadiness

def TaskConf.default : TaskConf where
  heartbeatInterval := Duration.ofSecs 12
  pollInterval := Duration.ofSecs 1
  fallbackPollInterval := Duration.ofSecs 300
  concurrency := 10
  dbConcurrency := 1
  commitBatchSize := 1024
  ingressCapacity := 4096
  maxAllChildren := 256
  leaseDuration := Duration.ofSecs 300
  maxPayloadBytes := 1024 * 1024
  maxErrorBytes := 8 * 1024
  lanes := []
  missingLane := .useDefault
  readiness := .startupOnly

/-! ### Scalar limits -/

section

variable [SemaphoreLimit]

/-- Validates database admission and liveness cadence independently of task polling. -/
def validateDatabase (conf : TaskConf) : Except TaskRuntimeError Unit :=
  if ¬ (1000000 ≤ conf.heartbeatInterval ∧ conf.heartbeatInterval ≤ maxInterval) then
    .error (.invalidConfig "task heartbeat interval must be between one millisecond and seven days")
  else if conf.dbConcurrency = 0 ∨ SemaphoreLimit.maxPermits < conf.dbConcurrency then
    .error (.invalidConfig "invalid task database concurrency")
  else .ok ()

/-- Validates independent process limits before constructing bounded channels or semaphores. -/
def validateCapacity (conf : TaskConf) : Except TaskRuntimeError Unit :=
  if conf.concurrency = 0 ∨ maxConcurrency < conf.concurrency then
    .error (.invalidConfig s!"task concurrency must be in 1..={maxConcurrency}")
  else if ¬ (1 ≤ conf.commitBatchSize ∧ conf.commitBatchSize ≤ maxBatchSize) ∨
      ¬ (1 ≤ conf.ingressCapacity ∧ conf.ingressCapacity ≤ maxBatchSize) then
    .error (.invalidConfig "commit batch size and ingress capacity must be in 1..=10,000")
  else .ok ()

/-- Rejects scalar limits that could disable progress or exceed bounded policy. -/
def validateScalars (conf : TaskConf) : Except TaskRuntimeError Unit := do
  validateDatabase conf
  validateCapacity conf
  if conf.pollInterval = Duration.zero ∨ conf.fallbackPollInterval < conf.pollInterval then
    .error (.invalidConfig "task fallback interval must be at least the non-zero poll interval")
  else if conf.maxAllChildren = 0 ∨ maxBatchSize < conf.maxAllChildren then
    .error (.invalidConfig "maximum all children must be in 1..=10,000")
  else if maxInterval < conf.pollInterval ∨ maxInterval < conf.fallbackPollInterval then
    .error (.invalidConfig "task polling intervals cannot exceed seven days")
  else if conf.leaseDuration = Duration.zero ∨ conf.maxPayloadBytes = 0 ∨ conf.maxErrorBytes = 0 then
    .error (.invalidConfig "lane lease and payload limits must be non-zero")
  else if conf.leaseDuration < Duration.saturatingMul conf.pollInterval 3 then
    .error (.invalidConfig "lane lease duration must be at least three poll intervals")
  else if maxLease < conf.leaseDuration ∨ Tasks.maxPayloadBytes < conf.maxPayloadBytes ∨
      Tasks.maxErrorBytes < conf.maxErrorBytes then
    .error (.invalidConfig "lane lease or persisted payload limits exceed framework bounds")
  else .ok ()

end

/-- Rejects readiness policies that could never transition deterministically. -/
def validateReadiness (policy : TaskReadiness) : Except TaskRuntimeError Unit :=
  if policy = .afterFailures 0 then
    .error (.invalidConfig "task readiness failure threshold must be greater than zero")
  else .ok ()

/-! ### Lanes -/

def validLaneName (name : String) : Bool :=
  !name.isEmpty && name.utf8ByteSize ≤ 64 && name.toList.all fun c => c.isLower || c.isDigit || c = '-'

def validateRetention (name : String) : IdempotencyRetention → Except TaskRuntimeError Unit
  | .activeOnly => .ok ()
  | .retainFor duration =>
    if duration = Duration.zero ∨ maxIdempotencyRetention < duration then
      .error (.invalidConfig s!"task lane '{name}' has an invalid idempotency retention")
    else .ok ()

/-- Validates one stable lane name, quota, and optional token-bucket policy; the names seen gain this one. -/
def validateLane (conf : LaneDefinition) (names : List String) : Except TaskRuntimeError (List String) :=
  let name := conf.lane.asStr
  if validLaneName name = false ∨ name ∈ names ∨ conf.concurrency = 0 ∨ conf.claimBatchSize = 0 ∨
      maxBatchSize < conf.claimBatchSize then
    .error (.invalidConfig
      s!"invalid or duplicate task lane '{name}'; claim batch size must be in 1..=10,000")
  else do
    validateRate name "local" conf.rate
    validateRate name "global" conf.globalRate
    conf.retry.validate name
    validateRetention name conf.idempotencyRetention
    .ok (name :: names)

/-- Validates one optional durable lane-owner policy. -/
def validateLock (conf : LaneDefinition) (maximum : ℕ) : Except TaskRuntimeError Unit :=
  match conf.laneLock with
  | none => .ok ()
  | some laneLock =>
    let paired := laneLock.idleHook.isSome == laneLock.busyHook.isSome
    let deadlineValid := laneLock.deadline.all fun d => d ≠ Duration.zero && d ≤ maxInterval
    if laneLock.batchSize = 0 ∨ maximum < laneLock.batchSize ∨ deadlineValid = false ∨
        maxInterval < laneLock.idleAfter ∨ paired = false then
      .error (.invalidConfig s!"task lane '{conf.lane.asStr}' has an invalid lane lock policy")
    else .ok ()

/-- The loop of `validate_overrides`. -/
def validateEach : List LaneDefinition → List String → Except TaskRuntimeError Unit
  | [], _ => .ok ()
  | lane :: lanes, names => do
    let names ← validateLane lane names
    validateLock lane lane.claimBatchSize
    validateEach lanes names

/-- Rejects duplicate or invalid application lane overrides before merging defaults. -/
def validateOverrides (lanes : List LaneDefinition) : Except TaskRuntimeError Unit :=
  if maxTaskLanes < lanes.length then
    .error (.invalidConfig s!"task lanes must contain at most {maxTaskLanes} entries")
  else validateEach lanes []

/-- The loop of `validate_lanes`: it checks every lane and adds up their quotas. -/
def validateTotal : List LaneDefinition → List String → ℕ → Except TaskRuntimeError ℕ
  | [], _, total => .ok total
  | lane :: lanes, names, total => do
    let names ← validateLane lane names
    validateLock lane lane.claimBatchSize
    match checkedAddUsize total lane.concurrency with
    | none => .error (.invalidConfig "task lane concurrency overflowed")
    | some total => validateTotal lanes names total

/-- Validates the complete lane set against global concurrency and count limits. -/
def validateLanes (lanes : List LaneDefinition) (concurrency : ℕ) : Except TaskRuntimeError Unit :=
  if lanes = [] ∨ maxTaskLanes < lanes.length then
    .error (.invalidConfig s!"task lanes must contain between 1 and {maxTaskLanes} entries")
  else if (lanes.any fun lane => lane.lane = defaultTaskLane) = false then
    .error (.invalidConfig "explicit task lanes must include the default lane")
  else do
    let total ← validateTotal lanes [] 0
    if concurrency < total then
      .error (.invalidConfig "task lane concurrency exceeds global task concurrency")
    else .ok ()

/-- Collects one source of complete lane definitions without allowing duplicates. -/
def collectLanes (source : String) : List LaneDefinition → BTreeMap TaskLane LaneDefinition →
    Except TaskRuntimeError (BTreeMap TaskLane LaneDefinition)
  | [], lanes => .ok lanes
  | lane :: rest, lanes =>
    if lane.lane = defaultTaskLane then
      .error (.invalidConfig s!"{source} task lanes cannot configure the default lane")
    else if lanes.containsKey lane.lane then
      .error (.invalidConfig s!"duplicate {source} task lane definition")
    else collectLanes source rest (lanes.insert lane.lane lane)

/-- `try_fold` over `checked_add`. -/
def usedConcurrency : List LaneDefinition → ℕ → Option ℕ
  | [], sum => some sum
  | lane :: lanes, sum => (checkedAddUsize sum lane.concurrency).bind fun sum => usedConcurrency lanes sum

/-- Adds the application-owned default lane when it was not explicitly overridden. -/
def insertDefaultLane (lanes : BTreeMap TaskLane LaneDefinition) (concurrency : ℕ) :
    Except TaskRuntimeError (BTreeMap TaskLane LaneDefinition) :=
  if lanes.containsKey defaultTaskLane then .ok lanes
  else
    match usedConcurrency lanes.values 0 with
    | none => .error (.invalidConfig "task lane concurrency overflowed")
    | some used =>
      if concurrency < used then
        .error (.invalidConfig "task lane concurrency exceeds global task concurrency")
      else if concurrency - used = 0 then
        .error (.invalidConfig "named task lanes leave no capacity for the default lane")
      else .ok (lanes.insert defaultTaskLane (.new defaultTaskLane (concurrency - used)))

namespace TaskConf

variable [SemaphoreLimit] (conf : TaskConf)

/-- Validates task configuration that is independent of registered bundles. -/
def validate : Except TaskRuntimeError Unit := do
  validateScalars conf
  validateReadiness conf.readiness
  validateOverrides conf.lanes

/-- Merges bundle defaults and application overrides into the complete lane set. -/
def resolveLanes (defaults : List LaneDefinition) : Except TaskRuntimeError (List LaneDefinition) := do
  conf.validate
  let lanes ← collectLanes "bundle" defaults []
  let lanes := conf.lanes.foldl (fun lanes lane => lanes.insert lane.lane lane) lanes
  let lanes ← insertDefaultLane lanes conf.concurrency
  let lanes := lanes.values
  validateLanes lanes conf.concurrency
  .ok lanes

omit [SemaphoreLimit] in
/-- Resolves a declared task lane against the finalized site lane set. -/
def resolveLane (lanes : List LaneDefinition) (lane : TaskLane) : Except TaskRuntimeError (TaskLane × Bool) :=
  if lanes.any fun entry => entry.lane = lane then .ok (lane, false)
  else
    match conf.missingLane with
    | .useDefault => .ok (defaultTaskLane, true)
    | .requireConfigured => .error (.unknownLane lane.asStr)

end TaskConf

end Vyuh.Tasks
