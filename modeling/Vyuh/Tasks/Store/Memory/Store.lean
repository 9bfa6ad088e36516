import Vyuh.Tasks.Store.Memory.Queries

/-! The building blocks of a memory-store turn (`store/memory/store.rs`): submission staging, lifecycle
    transitions of one record, permit reservation and lane claims.

    A turn mutates stored rows in place and logs the previous version of each row it touches; `touch`
    is that logged mutation. It runs on the row and the queue of parent deliveries, and whatever the
    mutation did before failing stays in the row until the caller rolls the log back. -/

namespace Vyuh.Tasks.Memory
open Lib

/-- A terminal child's result on its way to the parent. -/
abbrev Delivery := TaskId × String

/-- What a turn works on: the store, the queued deliveries and the log of overwritten rows. -/
structure Turn where
  state : MemoryState
  deliveries : List Delivery
  undo : List TaskRecord

/-! ### Submission staging -/

/-- Validates one persisted lane name against initialized store policy. -/
def requireLane (state : MemoryState) (lane : String) : Except TaskRuntimeError Unit :=
  if state.conf.any (fun conf => conf.lanes.any (fun entry => entry.lane.asStr = lane)) then .ok ()
  else .error (.unknownLane lane)

def requireHandler (state : MemoryState) (handler : String) : Except TaskRuntimeError Unit :=
  if state.conf.any (fun conf => conf.handlers.any (fun entry => entry.1 = handler)) then .ok ()
  else .error (.taskNotFound handler)

/-- Rejects low-level writes that bypass the typed client's lane validation. -/
def validateWriteLanes (state : MemoryState) : List TaskWrite → Except TaskRuntimeError Unit
  | [] => .ok ()
  | write :: writes => do
    requireLane state write.record.lane
    requireHandler state write.record.name
    validateWriteLanes state writes

def idempotencyHeld (task : TaskRecord) (now : DateTime) : Bool :=
  isActive task.status || task.idempotencyExpiresAt.any (fun expiry => now < expiry)

/-- Whether `task` holds the handler-scoped key `key` of handler `name` at `now`. -/
def holdsKey (task : TaskRecord) (name key : String) (now : DateTime) : Bool :=
  task.name = name && task.idempotencyKey = some key && idempotencyHeld task now

/-- Finds the newest still-held handler-scoped idempotency key. -/
def matchingKey (existing staged : List TaskRecord) (record : TaskRecord) (now : DateTime) :
    Option TaskRecord :=
  match record.idempotencyKey with
  | none => none
  | some key =>
    (staged.reverse ++ existing.reverse).find? (fun task => holdsKey task record.name key now)

/-- Store-relative timestamps of a submission. -/
def stampWrite (write : TaskWrite) (now : DateTime) : Except TaskRuntimeError TaskRecord := do
  let readyAt ← match write.initialDelay with
    | some delay => checkedDeadline now delay
    | none => .ok (some now)
  .ok { write.record with createdAt := now, updatedAt := now, readyAt := readyAt }

/-- Applies one submission to a batch that is not stored yet, so that conflicts stay atomic. -/
def stageWrite (existing staged : List TaskRecord) (write : TaskWrite) (now : DateTime) :
    Except TaskRuntimeError (TaskReceipt × List TaskRecord) := do
  let record ← stampWrite write now
  if (existing ++ staged).any (fun task => task.id = record.id) then
    .error (.alreadyExists record.id)
  else
    match matchingKey existing staged record now with
    | some owner =>
      if owner.idempotencyFingerprint = record.idempotencyFingerprint then
        .ok (.existing owner.id, staged)
      else if write.ignoreConflicts then .ok (.ignored owner.id, staged)
      else .error (.idempotencyConflict owner.id)
    | none => .ok (.queued record.id, staged ++ [record])

/-- Stages a batch in order. -/
def stageWrites (existing : List TaskRecord) (now : DateTime) :
    List TaskRecord → List TaskWrite → Except TaskRuntimeError (List TaskReceipt × List TaskRecord)
  | staged, [] => .ok ([], staged)
  | staged, write :: writes => do
    let (receipt, staged) ← stageWrite existing staged write now
    let (receipts, staged) ← stageWrites existing now staged writes
    .ok (receipt :: receipts, staged)

/-! ### Lifecycle transitions of one record -/

def complete (status : TaskStatus) (now : DateTime) (task : TaskRecord) : TaskRecord :=
  { task with status := status, readyAt := none, completedAt := some now }

def suspend (state : String) (task : TaskRecord) : TaskRecord :=
  { task with
    lastResult := none, stepAttempts := 0, status := .suspended, state := some state, readyAt := none }

def failTask (error : String) (now : DateTime) (task : TaskRecord) : TaskRecord :=
  complete .failed now { task with lastResult := some (failure task.id error) }

def sleep (state : String) (delay : Duration) (now : DateTime) :
    Step TaskRecord TaskRuntimeError Unit := do
  Step.modify (fun t => { t with
    stepAttempts := 0, lastResult := none, status := .pending, state := some state })
  let readyAt ← Step.lift (checkedDeadline now delay)
  Step.modify (fun t => { t with readyAt := readyAt })

/-- Schedules another attempt or marks the task failed at its attempt bound. -/
def retry (policy : TaskRetry) (error : String) (now : DateTime) :
    Step TaskRecord TaskRuntimeError Unit := do
  Step.modify (fun t => { t with lastResult := some (failure t.id error) })
  let task ← Step.get
  let exhausted ← Step.lift (policy.exhausted task.stepAttempts)
  if exhausted then Step.modify (complete .failed now)
  else do
    Step.modify (fun t => { t with status := .pending })
    let delay ← Step.lift (policy.delay task.stepAttempts)
    let readyAt ← Step.lift (checkedDeadline now delay)
    Step.modify (fun t => { t with readyAt := readyAt })

/-- The outcome-specific part of `apply_outcome`. -/
def applyTransition [Serde] (outcome : TaskOutcome) (retryPolicy : TaskRetry) (now : DateTime) :
    Step TaskRecord TaskRuntimeError Unit :=
  match outcome with
  | .complete =>
    Step.modify (fun t => complete .succeeded now { t with lastResult := some unitResult })
  | .completeWith output =>
    match validateOutput output with
    | .ok () =>
      Step.modify (fun t => complete .succeeded now { t with lastResult := some (success output) })
    | .error error => Step.modify (failTask error.render now)
  | .suspend state | .spawn state _ | .all state _ => Step.modify (suspend state)
  | .sleep state delay => sleep state delay now
  | .retry error => retry retryPolicy error now
  | .fail error => Step.modify (failTask error now)

/-- A retry keeps the input its next attempt resumes with. -/
def preservesResume : TaskOutcome → Bool
  | .retry .. => true
  | _ => false

/-- Applies a lifecycle transition to an owned task record. -/
def applyOutcome [Serde] (outcome : TaskOutcome) (retryPolicy : TaskRetry) (now : DateTime) :
    Step TaskRecord TaskRuntimeError Unit := do
  applyTransition outcome retryPolicy now
  Step.modify (fun t => { t with
    resumeInput := if preservesResume outcome then t.resumeInput else none,
    nodeId := none, updatedAt := now })

/-- Assigns node ownership and checked invocation counters to one candidate. -/
def claimTask (runner : Uuid) (now : DateTime) : Step TaskRecord TaskRuntimeError Unit :=
  grant runner now

/-- Queues a terminal child's result for its parent. -/
def queueDelivery (task : TaskRecord) (deliveries : List Delivery) :
    Except TaskRuntimeError (List Delivery) :=
  match task.parentId with
  | none => .ok deliveries
  | some parent => do
    match ← terminalResult task.status task.lastResult with
    | some result => .ok (deliveries ++ [(parent, result)])
    | none => .ok deliveries

/-! ### Logged mutation -/

/-- Reads one stored row, as `tasks.get_mut(index).ok_or_else(..)?` does. -/
def taskAt (index : ℕ) (missing : String) : Step Turn TaskRuntimeError TaskRecord := do
  let turn ← Step.get
  match turn.state.tasks[index]? with
  | some task => pure task
  | none => Step.fail (.taskExecutionError missing)

/-- Logs the row at `index`, then mutates it together with the queued deliveries. -/
def touch (index : ℕ) (task : TaskRecord)
    (m : Step (TaskRecord × List Delivery) TaskRuntimeError Unit) :
    Step Turn TaskRuntimeError TaskRecord := fun turn =>
  let run := m (task, turn.deliveries)
  (run.1.map (fun _ => run.2.1),
    { state := { turn.state with tasks := turn.state.tasks.set index run.2.1 }
      deliveries := run.2.2
      undo := turn.undo ++ [task] })

/-- A mutation of the row alone. -/
def onRow (m : Step TaskRecord TaskRuntimeError Unit) :
    Step (TaskRecord × List Delivery) TaskRuntimeError Unit :=
  Step.zoom Prod.fst (fun row pair => (row, pair.2)) m

/-- `queue_delivery` on the row being mutated. -/
def queueRow : Step (TaskRecord × List Delivery) TaskRuntimeError Unit := do
  let pair ← Step.get
  let deliveries ← Step.lift (queueDelivery pair.1 pair.2)
  Step.modify (fun pair => (pair.1, deliveries))

/-! ### Claiming one lane -/

/-- The outcome that finalizes a candidate instead of executing it. -/
def exhaustedOutcome (cancelled : Bool) : TaskOutcome :=
  if cancelled then cancellation else .fail "Maximum task attempts exhausted"

/-- The mutation `fail_exhausted` makes on one candidate. -/
def failRow [Serde] (cancelled : Bool) (now : DateTime) (conf : TaskStoreConf) (retry : TaskRetry) :
    Step (TaskRecord × List Delivery) TaskRuntimeError Unit := do
  onRow (applyOutcome (exhaustedOutcome cancelled) retry now)
  queueRow
  onRow (Step.modify (fun t => { t with nodeId := none, updatedAt := now }))
  onRow (finalizeIdempotency conf now)

/-- Whether a candidate is cancelled or has used up its attempts. -/
def finished (retry : TaskRetry) (task : TaskRecord) : Except TaskRuntimeError Bool :=
  if task.cancelled then .ok true else retry.exhausted task.stepAttempts

/-- One candidate of `fail_exhausted`. -/
def failCandidate [Serde] (now : DateTime) (conf : TaskStoreConf) (retry : TaskRetry) (index : ℕ) :
    Step Turn TaskRuntimeError Unit := do
  let task ← taskAt index "task candidate disappeared during finalization"
  let exhausted ← Step.lift (finished retry task)
  if exhausted then touch index task (failRow task.cancelled now conf retry) >>= fun _ => pure ()
  else pure ()

/-- Finalizes cancelled or exhausted ownerless candidates before execution or reclamation. -/
def failExhausted [Serde] (lane : String) (limit : ℕ) (now : DateTime) (conf : TaskStoreConf)
    (retry : TaskRetry) : Step Turn TaskRuntimeError Unit := do
  let turn ← Step.get
  let tasks := turn.state.tasks
  Step.each (failCandidate now conf retry)
    ((sortByReadiness tasks now (dueIndices tasks lane now)).take limit)

/-- Keeps candidates that are not cancelled and, for Work, that a permit pays for. -/
def retainPermitted (tasks : List TaskRecord) : ℕ → List ℕ → List ℕ
  | _, [] => []
  | permits, index :: indices =>
    match tasks[index]? with
    | none => retainPermitted tasks permits indices
    | some task =>
      if task.cancelled then retainPermitted tasks permits indices
      else if task.kind = .flow then index :: retainPermitted tasks permits indices
      else
        match permits with
        | 0 => retainPermitted tasks 0 indices
        | permits + 1 => index :: retainPermitted tasks permits indices

/-- The candidates of `claim_lane` before the request's limit is applied. -/
def laneCandidates (tasks : List TaskRecord) (lane : String) (permitLimit : ℕ) (now : DateTime) :
    List ℕ :=
  let due := dueIndices tasks lane now
  let due := if permitLimit = 0 then
      due.filter (fun index => tasks[index]?.any (fun task => task.kind = .flow))
    else due
  sortByReadiness tasks now due

/-- Claims one candidate and snapshots it. -/
def claimCandidate (runner : Uuid) (now : DateTime) (index : ℕ) :
    Step Turn TaskRuntimeError TaskRecord := do
  let task ← taskAt index "task candidate disappeared during claim"
  touch index task (onRow (claimTask runner now))

/-- Claims one lane while preserving candidate saturation evidence. -/
def claimLane (runner : Uuid) (claim : LaneClaim) (permitLimit : ℕ) (now : DateTime) :
    Step Turn TaskRuntimeError LanePoll := do
  let turn ← Step.get
  let tasks := turn.state.tasks
  let candidates := laneCandidates tasks claim.lane.asStr permitLimit now
  let saturated := decide (0 < claim.limit) && decide (claim.limit ≤ candidates.length)
  let chosen := retainPermitted tasks permitLimit (candidates.take claim.limit)
  let reclaimed := (chosen.filter
    (fun index => tasks[index]?.any (fun task => task.status = .running))).length
  let claimed ← Step.collect (claimCandidate runner now) chosen
  pure { lane := claim.lane, tasks := claimed, reclaimed, saturated, nextWakeIn := none, owner := none }

/-- What `claim_lane_state` is given for one lane. -/
structure ClaimReservation where
  claim : LaneClaim
  permits : ℕ
  rateWake : Option Duration
  candidates : ℕ

def claimLaneState (runner : Uuid) (reservation : ClaimReservation) (now : DateTime) :
    Step Turn TaskRuntimeError LanePoll := do
  let poll ← claimLane runner reservation.claim reservation.permits now
  let turn ← Step.get
  let taskWake := taskDeadline turn.state.tasks reservation.claim.lane.asStr now
  pure { poll with
    nextWakeIn := effectiveLaneWake (decide (reservation.permits < reservation.candidates))
      reservation.rateWake taskWake
      (turn.state.conf.any (fun conf => conf.handlers.any (fun entry => entry.2 = .flow))) }

/-- The due, uncancelled Work tasks of a lane. -/
def workCandidates (tasks : List TaskRecord) (lane : String) (now : DateTime) : ℕ :=
  (tasks.filter (fun task =>
    task.kind = .work && !task.cancelled && task.lane = lane && isDue task now)).length

/-! ### Rate permits -/

/-- Whole permits a bucket holds; a negative balance does not convert and reads as unlimited. -/
def availablePermits (tokensMicros : ℤ) : ℕ :=
  if tokensMicros.tdiv tokenScale < 0 then usizeMax else (tokensMicros.tdiv tokenScale).toNat

/-- The bucket after paying for `permits` starts. -/
def debit (permits : ℕ) (bucket : RateBucket) : RateBucket :=
  let cost := saturate64 ((if (permits : ℤ) ≤ i64Max then (permits : ℤ) else i64Max) * tokenScale)
  { bucket with tokensMicros := saturate64 (bucket.tokensMicros - cost) }

/-- Refills and reserves one lane bucket. -/
def reservePermits (lane : TaskLane) (limit : ℕ) (rate : Option TaskRate) (now : DateTime) :
    Step (FMap String RateBucket) TaskRuntimeError (ℕ × Option Duration) :=
  if limit = 0 then pure (0, none)
  else
    match rate with
    | none => pure (limit, none)
    | some rate =>
      Step.zoom (fun rates => (rates lane.asStr).getD (RateBucket.full rate now))
        (fun bucket rates => rates.insert lane.asStr bucket) (do
          refill rate now
          let bucket ← Step.get
          let permits := min (availablePermits bucket.tokensMicros) limit
          Step.modify (debit permits)
          let bucket ← Step.get
          pure (permits, nextPermit bucket.tokensMicros rate bucket.updatedAt now))

/-- The turn's rate buckets. -/
def onRates {α : Type} (m : Step (FMap String RateBucket) TaskRuntimeError α) :
    Step Turn TaskRuntimeError α :=
  Step.zoom (fun turn => turn.state.rates)
    (fun rates turn => { turn with state := { turn.state with rates := rates } }) m

/-- Resolves global rate policy from initialized store state rather than caller input. -/
def configuredRate (state : MemoryState) (lane : TaskLane) :
    Except TaskRuntimeError (Option TaskRate) :=
  match state.conf.bind (fun conf => conf.laneOf lane) with
  | some entry => .ok entry.globalRate
  | none => .error (.unknownLane lane.asStr)

def configuredRetry (state : MemoryState) (lane : TaskLane) : Except TaskRuntimeError TaskRetry :=
  match state.conf.bind (fun conf => conf.laneOf lane) with
  | some entry => .ok entry.retry
  | none => .error (.unknownLane lane.asStr)

def boundedClaim (claim : LaneClaim) (batchSize : ℕ) : LaneClaim :=
  { claim with limit := min claim.limit batchSize }

end Vyuh.Tasks.Memory
