import Vyuh.Tasks.Models

/-! Lane, retry, rate and store configuration (`config.rs`, `lane_lock.rs`, `store/contract.rs`). -/

namespace Vyuh.Tasks
open Lib

/-- Largest batch the framework accepts (`MAX_BATCH_SIZE`); also bounds `max_all_children`. -/
def maxBatchSize : ℕ := 10000

/-- `MAX_TASK_DELAY`: ten years. -/
def maxTaskDelay : Duration := Duration.ofSecs (10 * 365 * 24 * 60 * 60)

/-- Token-bucket start rate of one task lane. -/
structure TaskRate where
  permits : ℕ
  period : Duration
  burst : ℕ
  deriving DecidableEq, Repr

/-- Lane-owned retry limit and exponential-backoff policy. -/
structure TaskRetry where
  maxAttempts : ℕ
  initialDelay : Duration
  maxDelay : Duration
  deriving DecidableEq, Repr

namespace TaskRetry

def negativeAttempts : TaskRuntimeError :=
  .taskExecutionError "task attempt count cannot be negative"

/-- Whether the completed invocation consumed the lane's attempt budget. -/
def exhausted (retry : TaskRetry) (attempts : ℤ) : Except TaskRuntimeError Bool :=
  if attempts < 0 then .error negativeAttempts
  else .ok (decide (retry.maxAttempts ≤ attempts.toNat))

/-- The doubling loop of `delay`: `n` more rounds, stopping early at the cap. -/
def backoff (retry : TaskRetry) : ℕ → Duration → Duration
  | 0, delay => delay
  | n + 1, delay =>
    let delay := min (Duration.saturatingMul delay 2) retry.maxDelay
    if delay = retry.maxDelay then delay else backoff retry n delay

/-- The bounded exponential delay after the completed invocation. -/
def delay (retry : TaskRetry) (attempts : ℤ) : Except TaskRuntimeError Duration :=
  if attempts < 0 then .error negativeAttempts
  else .ok (retry.backoff (attempts.toNat - 1) retry.initialDelay)

end TaskRetry

/-- A lifecycle hook; a store only asks whether one is there. -/
structure LaneHook where
  identity : String
  deriving DecidableEq, Repr

/-- Durable ownership and batching policy of one configured task lane. -/
structure TaskLaneLock where
  batchSize : ℕ
  deadline : Option Duration
  idleAfter : Duration
  idleHook : Option LaneHook
  busyHook : Option LaneHook
  deriving DecidableEq, Repr

/-- Store-visible limits of one named task lane. -/
structure TaskLaneConf where
  lane : TaskLane
  claimBatchSize : ℕ
  laneLock : Option TaskLaneLock
  globalRate : Option TaskRate
  retry : TaskRetry
  sticky : Bool
  deriving DecidableEq, Repr

/-- Sticky lanes prefer local delivery; a locked lane never is one. -/
def TaskLaneConf.isSticky (lane : TaskLaneConf) : Bool := lane.sticky && lane.laneLock.isNone

/-- Retention behaviour of idempotency keys after completion. -/
inductive IdempotencyRetention where
  | activeOnly
  | retainFor (duration : Duration)
  deriving DecidableEq, Repr

/-- Identity rule of one idempotent task handler. -/
structure TaskIdempotencyConf where
  handler : String
  retention : IdempotencyRetention
  deriving DecidableEq, Repr

/-- Runtime policy resolved before a task store starts serving workers. -/
structure TaskStoreConf where
  maxAllChildren : ℕ
  handlers : List (String × TaskKind)
  lanes : List TaskLaneConf
  idempotency : List TaskIdempotencyConf
  pollInterval : Duration
  deriving DecidableEq, Repr

namespace TaskStoreConf

/-- The key-retention policy of one registered handler. -/
def idempotencyFor (conf : TaskStoreConf) (handler : String) : Option IdempotencyRetention :=
  (conf.idempotency.find? (fun policy => policy.handler = handler)).map (·.retention)

/-- The configuration of a lane given by its persisted name. -/
def laneNamed (conf : TaskStoreConf) (name : String) : Option TaskLaneConf :=
  conf.lanes.find? (fun lane => lane.lane.asStr = name)

/-- The configuration of a lane given by its descriptor. -/
def laneOf (conf : TaskStoreConf) (lane : TaskLane) : Option TaskLaneConf :=
  conf.lanes.find? (fun entry => entry.lane = lane)

end TaskStoreConf

end Vyuh.Tasks
