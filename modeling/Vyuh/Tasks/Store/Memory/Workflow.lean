import Vyuh.Tasks.Store.Memory.LaneOwner

/-! Atomic workflow turns of the memory store (`store/memory/workflow.rs`, and the turn-level parts of
    `store/memory/store.rs`): outcome staging, child preparation, claim selection, join bookkeeping
    and the rollback around them.

        stage outcomes ─▶ apply, logged ─▶ claim ─▶ materialize ─▶ install ─▶ finalize ─▶ clear ─▶ reconcile
        └────────────── may fail: rolled back ────┘ └───────────────── cannot fail ────────────────────────┘ -/

namespace Vyuh.Tasks.Memory
open Lib

/-! ### Child preparation -/

/-- A child write with the lineage its parent gives it. -/
def childWrite (parent : TaskRecord) (child : TaskWrite) : TaskWrite :=
  { child with record := { child.record with
      parentId := some parent.id, rootId := some (parent.rootId.getD parent.id), nodeId := none } }

/-- The members recorded for an accepted group, in submission order. -/
def preparedWait (parent : TaskId) (children : List TaskRecord) : TaskWait :=
  let ids := (children.filter (fun child => child.parentId = some parent)).map (·.id)
  { children := ids, remainingCompletions := asI32 ids.length }

/-- Stages a group's members in order; `none` on any conflict. -/
def prepareMembers (existing : List TaskRecord) (parent : TaskRecord) (now : DateTime) :
    List TaskRecord → List TaskWrite → Option (List TaskRecord)
  | staged, [] => some staged
  | staged, child :: group =>
    match stageWrite existing staged (childWrite parent child) now with
    | .ok (.queued _, staged) => prepareMembers existing parent now staged group
    | _ => none

/-- Stages a whole group, dropping its inserts on any identity conflict. -/
def prepare (state : MemoryState) (parent : TaskRecord) (checkpoint : String)
    (group : List TaskWrite) (children : List TaskRecord) (now : DateTime) :
    Except TaskRuntimeError (TaskOutcome × List TaskRecord) :=
  match state.conf with
  | none => .error (.invalidConfig "Store not initialized")
  | some conf =>
    match validateGroup group conf with
    | .error error => .ok (.fail error.render, children)
    | .ok () =>
      match prepareMembers state.tasks parent now children group with
      | some children => .ok (.suspend checkpoint, children)
      | none => .ok (.fail "All child preparation or identity conflict", children)

def childConflict : TaskOutcome := .fail "Child task identity conflicts with an existing task"

/-- Resolves child identity conflicts without adopting an independent task. -/
def prepareSpawn (state : MemoryState) (parent : TaskRecord) (outcome : TaskOutcome)
    (children : List TaskRecord) (now : DateTime) :
    Except TaskRuntimeError (TaskOutcome × List TaskRecord) :=
  match outcome with
  | .all checkpoint group => prepare state parent checkpoint group children now
  | .spawn checkpoint child => do
    validateWriteLanes state [child]
    if child.ignoreConflicts then .error (.invalidOptions "spawn cannot ignore conflicts")
    else
      match stageWrite state.tasks children (childWrite parent child) now with
      | .ok (.queued _, children) => .ok (.suspend checkpoint, children)
      | .ok _ | .error (.idempotencyConflict _) | .error (.alreadyExists _) =>
        .ok (childConflict, children)
      | .error error => .error error
  | outcome => .ok (outcome, children)

/-! ### Outcome staging -/

/-- Fences outcomes from runners that no longer own an opt-in lane. -/
def memoryCommitAllowed (state : MemoryState) (commit : TaskCommit) (now : DateTime) :
    Except TaskRuntimeError Bool :=
  match commit with
  | .cancel _ => .ok true
  | .outcome nodeId _ _ lane _ ownerToken =>
    if (state.conf.bind (fun conf => conf.laneOf lane)).any (fun entry => entry.laneLock.isSome) then
      match state.laneLocks lane.asStr with
      | none =>
        .error (.invalidConfig ("task lane lock '" ++ lane.asStr ++ "' is not initialized"))
      | some owner =>
        .ok (owner.ownerId = some (Uuid.render nodeId) && owner.ownerToken = ownerToken &&
          memoryOwnerLive owner now)
    else .ok true

/-- Whether a commit addresses the row and its evidence still holds there. -/
def acceptsRow (commit : TaskCommit) (task : TaskRecord) : Bool :=
  task.id = commit.taskId && commit.accepts task.status task.nodeId task.attempts

/-- The authoritative row still owned by the outcome's runner and lane, with its position. -/
def ownedTask (state : MemoryState) (commit : TaskCommit) :
    Except TaskRuntimeError (Option (ℕ × TaskRecord)) :=
  match state.tasks.findIdx? (acceptsRow commit) with
  | none => .ok none
  | some index =>
    match state.tasks[index]? with
    | none => .ok none
    | some task =>
      if commit.lane?.any (fun lane => task.lane ≠ lane.asStr) then .error (.unknownLane task.lane)
      else .ok (some (index, task))

/-- The outcome a commit really has on a row: cancellation first, then capability, then children. -/
def effectiveOutcome (state : MemoryState) (conf : TaskStoreConf) (task : TaskRecord)
    (commit : TaskCommit) (children : List TaskRecord) (now : DateTime) :
    Except TaskRuntimeError (TaskOutcome × List TaskRecord) :=
  let outcome := commit.outcome?.getD cancellation
  if task.cancelled then .ok (cancellation, children)
  else
    match capabilityError task.kind outcome conf.handlers with
    | some error => .ok (.fail error, children)
    | none => prepareSpawn state task outcome children now

/-- Accumulated effects of a batch of commits, none of them applied yet. -/
structure Staged where
  updates : List (ℕ × TaskRecord)
  children : List TaskRecord
  deliveries : List Delivery
  waits : List (TaskId × TaskWait)

def Staged.empty : Staged := ⟨[], [], [], []⟩

/-- An accepted row's checkpoint, children and delivery, without mutating stored tasks. -/
def stagedTask [Serde] (state : MemoryState) (task : TaskRecord) (commit : TaskCommit)
    (now : DateTime) (children : List TaskRecord) (deliveries : List Delivery) :
    Except TaskRuntimeError (TaskRecord × List TaskRecord × List Delivery) :=
  match state.conf with
  | none => .error (.invalidConfig "task store is not initialized")
  | some conf => do
    let task := { task with cancelled := task.cancelled || commit.isCancel }
    let (outcome, children) ← effectiveOutcome state conf task commit children now
    match conf.laneNamed task.lane with
    | none => .error (.unknownLane task.lane)
    | some lane => do
      let task ← (applyOutcome outcome lane.retry now).exec task
      let task ← (finalizeIdempotency conf now).exec task
      let deliveries ← queueDelivery task deliveries
      .ok (task, children, deliveries)

/-- Stages one commit: rejected commits leave no trace. -/
def stageCommit [Serde] (state : MemoryState) (commit : TaskCommit) (now : DateTime)
    (staged : Staged) : Except TaskRuntimeError Staged := do
  let allowed ← memoryCommitAllowed state commit now
  if !allowed then .ok staged
  else
    match ← ownedTask state commit with
    | none => .ok staged
    | some (index, row) => do
      let (task, children, deliveries) ←
        stagedTask state row commit now staged.children staged.deliveries
      let waits := if commit.isAll && task.status = .suspended then
          staged.waits ++ [(task.id, preparedWait task.id children)]
        else staged.waits
      .ok { updates := staged.updates ++ [(index, task)], children, deliveries, waits }

/-- Stages accepted updates and children before mutating any existing task. -/
def stageOutcomes [Serde] (state : MemoryState) (now : DateTime) :
    List TaskId → Staged → List TaskCommit → Except TaskRuntimeError Staged
  | _, staged, [] => .ok staged
  | seen, staged, commit :: commits =>
    if commit.taskId ∈ seen then .error (.invalidOptions "duplicate task outcome")
    else do
      let staged ← stageCommit state commit now staged
      stageOutcomes state now (commit.taskId :: seen) staged commits

/-- Writes one staged row over the stored one, logged. -/
def applyUpdate (update : ℕ × TaskRecord) : Step Turn TaskRuntimeError Unit := do
  let current ← taskAt update.1 "staged task disappeared"
  let _ ← touch update.1 current (onRow (Step.modify (fun _ => update.2)))
  pure ()

/-- Commits one bounded batch of outcomes; returns the children and waits to install. -/
def commitOutcomesState [Serde] (commits : List TaskCommit) (now : DateTime) :
    Step Turn TaskRuntimeError (List TaskRecord × List (TaskId × TaskWait)) := do
  let turn ← Step.get
  let staged ← Step.lift (stageOutcomes turn.state now [] Staged.empty commits)
  Step.each applyUpdate staged.updates
  Step.modify (fun turn => { turn with deliveries := turn.deliveries ++ staged.deliveries })
  pure (staged.children, staged.waits)

/-! ### Claim selection -/

/-- Claims an unlocked lane. -/
def claimUnowned [Serde] (runner : Uuid) (claim : LaneClaim) (conf : TaskStoreConf)
    (laneConf : TaskLaneConf) (now : DateTime) : Step Turn TaskRuntimeError LanePoll := do
  let bounded := boundedClaim claim laneConf.claimBatchSize
  let turn ← Step.get
  let retry ← Step.lift (configuredRetry turn.state bounded.lane)
  failExhausted bounded.lane.asStr bounded.limit now conf retry
  let turn ← Step.get
  let candidates := workCandidates turn.state.tasks bounded.lane.asStr now
  let rate ← Step.lift (configuredRate turn.state bounded.lane)
  let (permits, rateWake) ← onRates (reservePermits bounded.lane candidates rate now)
  claimLaneState runner { claim := bounded, permits, rateWake, candidates } now

/-- One requested lane; `fresh` is the token a new owner would get. -/
def claimOne [Serde] (runner : Uuid) (conf : TaskStoreConf) (lease : Duration) (now : DateTime)
    (entry : LaneClaim × Uuid) : Step Turn TaskRuntimeError LanePoll :=
  match conf.laneOf entry.1.lane with
  | none => Step.fail (.unknownLane entry.1.lane.asStr)
  | some laneConf =>
    if laneConf.laneLock.isSome then
      claimOwnedState
        { runnerId := runner, claim := entry.1, lane := laneConf, leaseDuration := lease, now := now,
          freshToken := entry.2 }
    else claimUnowned runner entry.1 conf laneConf now

/-- Claims all requested lanes. Every claim comes with the value the token generator would return
    for it; the generator is outside the repository. -/
def claimTasksState [Serde] (runner : Uuid) (claims : List (LaneClaim × Uuid)) (lease : Duration)
    (now : DateTime) : Step Turn TaskRuntimeError TaskPoll := do
  let turn ← Step.get
  match turn.state.conf with
  | none => Step.fail (.invalidConfig "task store is not initialized")
  | some conf => do
    let lanes ← Step.collect (claimOne runner conf lease now) claims
    pure { wakeLanes := [], lanes }

/-! ### After the fallible part -/

/-- Assembles the terminal members' results in submission order. -/
def aggregateMembers [Serde] (tasks : List TaskRecord) : String → List TaskId → Except String String
  | buffer, [] => .ok buffer
  | buffer, id :: ids =>
    let child := tasks.find? (fun task => task.id = id)
    match appendResult buffer (child.bind (·.lastResult)) (child.any (·.status.terminal)) with
    | .error error => .error error
    | .ok buffer => aggregateMembers tasks buffer ids

/-- The resume input of a claimed group parent. -/
def aggregate [Serde] (state : MemoryState) (parent : TaskId) (wait : TaskWait) : String :=
  if wait.remainingCompletions ≠ 0 then failure parent "All claimed before completion"
  else
    match aggregateMembers state.tasks "\x7b\"Ok\":[" wait.children with
    | .error error => failure parent error
    | .ok buffer => buffer ++ "]\x7d"

/-- Persists one claimed parent's input before its snapshot is returned. -/
def materializeSnapshot [Serde] (state : MemoryState) (snapshot : TaskRecord) :
    MemoryState × TaskRecord :=
  match state.waits snapshot.id with
  | none => (state, snapshot)
  | some wait =>
    let state := { state with waits := state.waits.remove snapshot.id }
    let input := aggregate state snapshot.id wait
    let tasks := modifyFirst (fun task => task.id = snapshot.id)
      (fun task => { task with resumeInput := some input }) state.tasks
    ({ state with tasks := tasks }, (tasks.find? (fun task => task.id = snapshot.id)).getD snapshot)

/-- Materializes only actually claimed parents. -/
def materialize [Serde] (state : MemoryState) (poll : TaskPoll) : MemoryState × TaskPoll :=
  let (state, lanes) := mapAccum (fun state lane =>
    let (state, tasks) := mapAccum materializeSnapshot state lane.tasks
    (state, { lane with tasks := tasks })) state poll.lanes
  (state, { poll with lanes := lanes })

/-- Makes a parent eligible again. -/
def wake (now : DateTime) (parent : TaskRecord) : TaskRecord :=
  { parent with status := .pending, readyAt := some now }

/-- Installs one new wait; an empty group wakes its parent at once. -/
def installWait (now : DateTime) (acc : MemoryState × List TaskLane) (entry : TaskId × TaskWait) :
    MemoryState × List TaskLane :=
  let (state, lanes) := acc
  let waits := state.waits.insert entry.1 entry.2
  if entry.2.children.isEmpty then
    match state.tasks.find? (fun task => task.id = entry.1) with
    | some parent =>
      ({ state with
          waits := waits
          tasks := modifyFirst (fun task => task.id = entry.1) (wake now) state.tasks },
        lanes ++ ((state.conf.bind (fun conf => conf.laneNamed parent.lane)).map (·.lane)).toList)
    | none => ({ state with waits := waits }, lanes)
  else ({ state with waits := waits }, lanes)

/-- Installs new waits once all fallible work has succeeded. -/
def install (state : MemoryState) (waits : List (TaskId × TaskWait)) (now : DateTime) :
    MemoryState × List TaskLane :=
  waits.foldl (installWait now) (state, [])

/-- A parent's queued deliveries: how many, and the first result. -/
abbrev Grouped := TaskId × ℤ × String

/-- Adds one delivery, keeping parents in ascending order (`BTreeMap`). -/
def addDelivery : List Grouped → Delivery → List Grouped
  | [], (id, result) => [(id, 1, result)]
  | (key, count, first) :: grouped, (id, result) =>
    if id = key then (key, count + 1, first) :: grouped
    else if id.uuid < key.uuid then (id, 1, result) :: (key, count, first) :: grouped
    else (key, count, first) :: addDelivery grouped (id, result)

def groupDeliveries (deliveries : List Delivery) : List Grouped := deliveries.foldl addDelivery []

/-- What a delivery does to an outstanding group. -/
inductive Delivered where
  | underflow
  | waiting (wait : TaskWait)
  | settled (wait : TaskWait)
  deriving DecidableEq, Repr

/-- Decrements a group's counter by the completions of this turn. -/
def deliverWait (wait : TaskWait) (count : ℤ) : Delivered :=
  match checkedSub32 wait.remainingCompletions count with
  | none => .underflow
  | some remaining =>
    if remaining < 0 then .underflow
    else if 0 < remaining then .waiting { wait with remainingCompletions := remaining }
    else .settled { wait with remainingCompletions := remaining }

/-- Whether a task can receive a delivery addressed to `id`. -/
def awaits (id : TaskId) (task : TaskRecord) : Bool :=
  task.id = id && !task.cancelled && task.status = .suspended

/-- Delivers one parent's completions. -/
def deliverParent (now : DateTime) (acc : MemoryState × List String) (entry : Grouped) :
    MemoryState × List String :=
  let (state, names) := acc
  let (id, count, result) := entry
  match state.tasks.find? (awaits id) with
  | none => (state, names)
  | some parent =>
    let resume := fun (f : TaskRecord → TaskRecord) =>
      modifyFirst (awaits id) (fun task => wake now { f task with updatedAt := now }) state.tasks
    match state.waits id with
    | none =>
      ({ state with tasks := resume (fun task => { task with resumeInput := some result }) },
        names ++ [parent.lane])
    | some wait =>
      match deliverWait wait count with
      | .underflow =>
        ({ state with
            waits := state.waits.remove id
            tasks := resume (fun task => { task with
              resumeInput := some (failure id "All completion counter underflow") }) },
          names ++ [parent.lane])
      | .waiting wait => ({ state with waits := state.waits.insert id wait }, names)
      | .settled wait =>
        ({ state with waits := state.waits.insert id wait, tasks := resume (fun task => task) },
          names ++ [parent.lane])

/-- Applies prevalidated workflow writes after the turn's claim selection. -/
def finalizeWorkflow (state : MemoryState) (children : List TaskRecord) (deliveries : List Delivery)
    (now : DateTime) : MemoryState × List TaskLane :=
  let state := { state with tasks := state.tasks ++ children }
  let (state, names) := (groupDeliveries deliveries).foldl (deliverParent now)
    (state, children.map (·.lane))
  let lanes := (state.conf.map (·.lanes)).getD []
  (state, (lanes.filter (fun lane => lane.lane.asStr ∈ names)).map (·.lane))

/-- Removes metadata of touched parents whose finalization made it unnecessary. -/
def clearTerminal (state : MemoryState) (touched : List TaskRecord) : MemoryState :=
  touched.foldl (fun state task =>
    if (state.waits task.id).isSome &&
        state.tasks.any (fun current => current.id = task.id && current.status.terminal) then
      { state with waits := state.waits.remove task.id }
    else state) state

/-- Reconciles one lane's poll with the work finalization added. -/
def reconcileLane (lanes : List TaskLane) (phases : FMap String LaneOwnerPhase) (now : DateTime)
    (state : MemoryState) (poll : LanePoll) : MemoryState × LanePoll :=
  if poll.lane ∉ lanes then (state, poll)
  else
    let poll := { poll with nextWakeIn := some 0 }
    if !state.tasks.any (fun task => task.lane = poll.lane.asStr && isDue task now) then (state, poll)
    else
      match state.laneLocks poll.lane.asStr with
      | none => (state, poll)
      | some owner =>
        let owner := { owner with emptySince := none }
        if owner.phase = .idling ∧ phases poll.lane.asStr ≠ some .idling then
          let owner := memoryActivate owner
          ({ state with laneLocks := state.laneLocks.insert poll.lane.asStr owner },
            { poll with owner := some (memoryOwnerPoll owner none) })
        else ({ state with laneLocks := state.laneLocks.insert poll.lane.asStr owner }, poll)

/-- Cancels only a newly proposed idle hook when finalization added ready work. -/
def reconcilePoll (state : MemoryState) (poll : TaskPoll) (lanes : List TaskLane)
    (phases : FMap String LaneOwnerPhase) (now : DateTime) : MemoryState × TaskPoll :=
  let (state, polls) := mapAccum (reconcileLane lanes phases now) state poll.lanes
  (state, { poll with lanes := polls })

/-! ### The turn -/

/-- The fallible part of a turn: outcomes, then claims. -/
def fallibleTurn [Serde] (runner : Option Uuid) (claims : List (LaneClaim × Uuid))
    (commits : List TaskCommit) (lease : Duration) (now : DateTime) :
    Step Turn TaskRuntimeError
      (List TaskRecord × List (TaskId × TaskWait) × FMap String LaneOwnerPhase × TaskPoll) := do
  let (children, waits) ← commitOutcomesState commits now
  let turn ← Step.get
  let phases : FMap String LaneOwnerPhase := fun name => (turn.state.laneLocks name).map (·.phase)
  let poll ← match runner with
    | some runner => claimTasksState runner claims lease now
    | none => pure { wakeLanes := [], lanes := [] }
  pure (children, waits, phases, poll)

/-- The part of a turn that cannot fail. -/
def settleTurn [Serde] (turn : Turn) (children : List TaskRecord) (waits : List (TaskId × TaskWait))
    (phases : FMap String LaneOwnerPhase) (poll : TaskPoll) (commits : List TaskCommit)
    (now : DateTime) : MemoryState × TaskPoll × CommitResult :=
  let (state, poll) := materialize turn.state poll
  let (state, installed) := install state waits now
  let (state, finalized) := finalizeWorkflow state children turn.deliveries now
  let wakeLanes := installed ++ finalized
  let state := clearTerminal state turn.undo
  let (state, poll) := reconcilePoll state poll wakeLanes phases now
  let rejected := (commits.filter (fun commit =>
    !turn.undo.any (fun task => task.id = commit.taskId))).map (·.taskId)
  (state, { poll with wakeLanes := wakeLanes }, { wakeLanes, rejected, tasks := [] })

/-- One whole turn over the store, the delivery queue and the log. -/
def runTurn [Serde] (runner : Option Uuid) (claims : List (LaneClaim × Uuid))
    (commits : List TaskCommit) (lease : Duration) (now : DateTime) :
    Step Turn TaskRuntimeError (TaskPoll × CommitResult) := do
  let (children, waits, phases, poll) ← fallibleTurn runner claims commits lease now
  let turn ← Step.get
  let (state, poll, result) := settleTurn turn children waits phases poll commits now
  Step.modify (fun turn => { turn with state := state })
  pure (poll, result)

/-- The state after a failed turn: logged rows, buckets and lane rows go back. -/
def Turn.rollback (turn : Turn) (saved : MemoryState) : MemoryState :=
  { turn.state with
    tasks := restore (·.id) turn.undo turn.state.tasks
    rates := saved.rates
    laneLocks := saved.laneLocks }

/-- Rolls back touched rows and bounded lane state if any phase of a turn fails. -/
def atomicOperation [Serde] (runner : Option Uuid) (claims : List (LaneClaim × Uuid))
    (commits : List TaskCommit) (batchSize : ℕ) (lease : Duration) (now : DateTime) :
    Step MemoryState TaskRuntimeError (TaskPoll × CommitResult) := fun state =>
  let maximum := (state.conf.map (·.maxAllChildren)).getD 256
  match validateTurn commits batchSize maximum with
  | .error error => (.error error, state)
  | .ok () =>
    match runTurn runner claims commits lease now ⟨state, [], []⟩ with
    | (.ok result, turn) => (.ok result, turn.state)
    | (.error error, turn) => (.error error, turn.rollback state)

/-! ### Direct admission -/

/-- Promotes eligible staged submissions, at most `limit` of them. -/
def admitStaged (conf : TaskStoreConf) (node : Uuid) (now : DateTime) :
    ℕ → List TaskRecord → Except TaskRuntimeError (List TaskRecord × List TaskRecord)
  | _, [] => .ok ([], [])
  | limit, record :: staged =>
    if 0 < limit ∧ direct record conf now then do
      let admitted ← (admitRecord node now).exec record
      let (rows, tasks) ← admitStaged conf node now (limit - 1) staged
      .ok (admitted :: rows, admitted :: tasks)
    else do
      let (rows, tasks) ← admitStaged conf node now limit staged
      .ok (record :: rows, tasks)

/-- Whether a runner's cached base is the ownerless checkpoint the row resumed from. -/
def cacheMatch (cached : List TaskRecord) (task : TaskRecord) : Bool :=
  cached.any (fun base => base.id = task.id && base.nodeId.isNone && base.attempts = task.attempts &&
    base.status = .suspended && base.lane = task.lane)

/-- Whether the row at `index` may be admitted after a commit that found `before` rows. -/
def admissible (state : MemoryState) (conf : TaskStoreConf) (before : ℕ) (cached : List TaskRecord)
    (now : DateTime) (index : ℕ) (task : TaskRecord) : Bool :=
  (decide (before ≤ index) || (cacheMatch cached task && task.nodeId.isNone && task.updatedAt = now &&
      (state.waits task.id).isNone)) &&
    task.nodeId.isNone && sticky task conf && decide (task.attempts < i32Max) &&
    decide (task.stepAttempts < i32Max) && direct task conf now

/-- What `admit_committed` carries from row to row: the next position, the slots left, the snapshots. -/
structure Admission where
  index : ℕ
  limit : ℕ
  tasks : List TaskRecord

/-- One row of `admit_committed`. -/
def admitRow (state : MemoryState) (conf : TaskStoreConf) (before : ℕ) (commits : List TaskCommit)
    (node : Uuid) (cached : List TaskRecord) (now : DateTime) (rejected : List TaskId)
    (acc : Admission) (task : TaskRecord) : Admission × TaskRecord :=
  let admitted := if admissible state conf before cached now acc.index task ∧ 0 < acc.limit then
      ((admitRecord node now).exec task).toOption
    else none
  let row := admitted.getD task
  let tasks := acc.tasks ++ admitted.toList
  let tasks := if row.kind = .flow ∧ commits.any (fun commit => commit.taskId = row.id) ∧
      row.id ∉ rejected then tasks ++ [row] else tasks
  ({ index := acc.index + 1, limit := if admitted.isSome then acc.limit - 1 else acc.limit, tasks }, row)

/-- Promotes eligible local children or validated cached resumes after a commit. -/
def admitCommitted (state : MemoryState) (before : ℕ) (commits : List TaskCommit) (node : Uuid)
    (limit : ℕ) (cached : List TaskRecord) (now : DateTime) (result : CommitResult) :
    MemoryState × CommitResult :=
  match state.conf with
  | none => (state, result)
  | some conf =>
    let (acc, rows) := mapAccum (admitRow state conf before commits node cached now result.rejected)
      { index := 0, limit := limit, tasks := result.tasks } state.tasks
    ({ state with tasks := rows }, { result with tasks := acc.tasks })

end Vyuh.Tasks.Memory
