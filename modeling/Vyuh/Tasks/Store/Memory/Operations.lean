import Vyuh.Tasks.Store.Memory.Recovery

/-! The operations of the memory task store (`impl TaskStore for MemoryTaskStore`) and their runs.
    The mutex makes every operation one step over the state. What an operation reads from outside
    (the clock, the token generator) is an argument: a run is a sequence of operations together with
    the clock readings they saw. -/

namespace Vyuh.Tasks.Memory
open Lib

/-- The immutable part of `MemoryTaskStore`. -/
structure MemoryTaskStore where
  commitBatchSize : ℕ
  leaseDuration : Duration

/-- The state of a store that was just built. -/
def MemoryState.new (conf : TaskStoreConf) : MemoryState where
  nodes := FMap.empty
  tasks := []
  conf := some conf
  rates := FMap.empty
  schedules := FMap.empty
  laneLocks := FMap.empty
  waits := FMap.empty

/-! ### Nodes -/

def registerNode (node : Uuid) (now : DateTime) : Step MemoryState TaskRuntimeError Unit :=
  Step.modify (fun state => { state with nodes := state.nodes.orInsert node (now, now) })

/-- Refreshes an existing node, then retires stale peers. -/
def heartbeat (node : Uuid) (staleAfter : Duration) (now : DateTime) :
    Step MemoryState TaskRuntimeError Bool := do
  match (fromStd staleAfter).bind (checkedSubSigned now) with
  | none => Step.fail (.invalidOptions "node retirement duration exceeds clock range")
  | some cutoff =>
    let state ← Step.get
    match state.nodes node with
    | none => pure false
    | some entry => do
      Step.modify (fun state => { state with nodes := state.nodes.insert node (entry.1, now) })
      Step.modify (fun state => retireNodes state node cutoff)
      pure true

/-- Whether `return_claims` takes a task back. -/
def returnable (node : Option Uuid) (task : TaskRecord) : Bool :=
  (task.status = .running ||
      (task.nodeId.isSome && (task.status = .pending || task.status = .suspended))) &&
    node.all (fun node => task.nodeId = some node)

/-- A task taken back from its runner. -/
def returnTask (now : DateTime) (task : TaskRecord) : TaskRecord :=
  { task with
    status := if task.status = .running then .pending else task.status
    readyAt := if task.status = .running then some now else task.readyAt
    nodeId := none
    updatedAt := now }

/-- Returns running claims to pending, preserving checkpoints and attempt budgets. -/
def returnClaims (node : Option Uuid) (now : DateTime) : Step MemoryState TaskRuntimeError ℕ := do
  let state ← Step.get
  Step.modify (fun state => { state with
    tasks := state.tasks.map (fun task => if returnable node task then returnTask now task else task) })
  pure (state.tasks.filter (returnable node)).length

/-- Sets up coordination rows using configuration supplied at construction. -/
def initializeStore (now ratesNow : DateTime) : Step MemoryState TaskRuntimeError Unit := do
  let state ← Step.get
  match state.conf with
  | none => Step.fail (.taskExecutionError "task store configuration is missing")
  | some conf => do
    Step.lift (rejectOrphanedTasks state.tasks conf)
    Step.modify (fun state =>
      (finalizeWorkflow (initializeLaneLocks (initializeRates state conf ratesNow) conf) [] [] now).1)

/-! ### Turns -/

def nodeMissing : TaskRuntimeError := .taskExecutionError "task node registration missing"

/-- Lifts a store error to a failure before any commit. -/
def beforeCommit {α β : Type} (m : Step MemoryState TaskRuntimeError β) :
    Step MemoryState (StoreFailure α) β := fun state =>
  match m state with
  | (.ok b, state) => (.ok b, state)
  | (.error error, state) => (.error (.beforeCommit error), state)

section Turns

variable [Serde] (store : MemoryTaskStore)

/-- Claims bounded work for every supplied lane. -/
def claimTasks (node : Uuid) (claims : List (LaneClaim × Uuid)) (now : DateTime) :
    Step MemoryState (StoreFailure TaskPoll) TaskPoll := do
  let state ← Step.get
  if (state.nodes node).isNone && claims.any (fun entry => 0 < entry.1.limit) then
    Step.fail (.beforeCommit nodeMissing)
  else do
    let (poll, _) ← beforeCommit
      (atomicOperation (some node) claims [] store.commitBatchSize store.leaseDuration now)
    pure poll

/-- Rejects claim-capable requests at the maintenance-only store boundary. -/
def validateCoordination (claims : List LaneClaim) : Except TaskRuntimeError Unit :=
  if claims.any (fun claim => claim.owner.all (·.allowClaim)) then
    .error (.invalidOptions "lane coordination cannot claim work")
  else .ok ()

/-- Coordinates lane leases and hooks without claiming tasks. -/
def coordinateLanes (node : Uuid) (claims : List (LaneClaim × Uuid)) (now : DateTime) :
    Step MemoryState (StoreFailure TaskPoll) TaskPoll := do
  beforeCommit (Step.lift (validateCoordination (claims.map (·.1))))
  claimTasks store node claims now

/-- Atomically accepts fenced execution outcomes or explicit terminal cancellations. -/
def commitTasks (commits : List TaskCommit) (now : DateTime) :
    Step MemoryState (StoreFailure CommitResult) CommitResult := do
  let (_, result) ← beforeCommit
    (atomicOperation none [] commits store.commitBatchSize store.leaseDuration now)
  pure result

/-- A commit that also promotes eligible local work of the calling node. -/
def commitAdmitted (commits : List TaskCommit) (node : Uuid) (limit : ℕ) (cached : List TaskRecord)
    (now : DateTime) : Step MemoryState (StoreFailure CommitResult) CommitResult := do
  let state ← Step.get
  let before := state.tasks.length
  let (_, result) ← beforeCommit
    (atomicOperation none [] commits store.commitBatchSize store.leaseDuration now)
  let state ← Step.get
  let admitted := admitCommitted state before commits node limit cached now result
  Step.modify (fun _ => admitted.1)
  pure admitted.2

/-- Resolves a claim whose commit acknowledgement was lost, without claiming again. -/
def recoverClaims (node : Uuid) (claims : List LaneClaim) (prepared : TaskPoll) (now : DateTime) :
    Step MemoryState (StoreFailure TaskPoll) TaskPoll := fun state =>
  match recoverPoll store.commitBatchSize store.leaseDuration node claims prepared now state with
  | (.ok poll, state) => (.ok poll, state)
  | (.error error, state) => (.error (.commitUnknown error prepared), state)

/-- Whether a stored row is still what a prepared commit snapshot describes. -/
def stillCommitted (node : Uuid) (previous task : TaskRecord) : Bool :=
  task.id = previous.id &&
    ((task.status = .running && task.nodeId = some node) ||
      (task.kind = .flow && task.nodeId.isNone && task.status ≠ .running)) &&
    task.attempts = previous.attempts && task.status = previous.status

/-- Reconciles output identities by committing again. The source takes the mutex twice; the second
    time it only reads. -/
def recoverOutputs (node : Uuid) (commits : List TaskCommit) (prepared : CommitResult)
    (now : DateTime) : Step MemoryState (StoreFailure CommitResult) CommitResult := fun state =>
  match commitTasks store commits now state with
  | (.error error, state) => (.error (error.retain prepared), state)
  | (.ok result, state) =>
    let recovered := prepared.tasks.filterMap (fun previous =>
      state.tasks.find? (stillCommitted node previous))
    (.ok { result with
      wakeLanes := mergeWakes result.wakeLanes prepared.wakeLanes
      tasks := result.tasks ++ recovered }, state)

end Turns

/-! ### Submissions and control -/

/-- Stores a batch of task intents and resolves idempotency receipts. -/
def storeTasks (writes : List TaskWrite) (now : DateTime) :
    Step MemoryState TaskRuntimeError (List TaskReceipt) := do
  let state ← Step.get
  Step.lift (validateWriteLanes state writes)
  let (receipts, staged) ← Step.lift (stageWrites state.tasks now [] writes)
  Step.modify (fun state => { state with tasks := state.tasks ++ staged })
  pure receipts

/-- Promotion of staged submissions; an unconfigured store promotes none. -/
def promote (conf : Option TaskStoreConf) (node : Uuid) (now : DateTime) (limit : ℕ)
    (staged : List TaskRecord) : Except TaskRuntimeError (List TaskRecord × List TaskRecord) :=
  match conf with
  | some conf => admitStaged conf node now limit staged
  | none => .ok (staged, [])

/-- Inserts tasks and takes direct ownership of eligible ones. -/
def storeAdmitted (writes : List TaskWrite) (node : Uuid) (limit : ℕ) (now : DateTime) :
    Step MemoryState TaskRuntimeError (List TaskReceipt × List TaskRecord) := do
  let state ← Step.get
  if (state.nodes node).isNone then Step.fail nodeMissing
  else do
    Step.lift (validateWriteLanes state writes)
    let (receipts, staged) ← Step.lift (stageWrites state.tasks now [] writes)
    let (rows, tasks) ← Step.lift (promote state.conf node now limit staged)
    Step.modify (fun state => { state with tasks := state.tasks ++ rows })
    pure (receipts, tasks)

/-- Stores one task and advances its schedule cursor atomically. -/
def storeScheduled (scheduled : ScheduledTaskWrite) (now : DateTime) :
    Step MemoryState TaskRuntimeError (Option TaskReceipt) := do
  let state ← Step.get
  if (state.schedules scheduled.name).any (fun last => scheduled.occurrence ≤ last) then pure none
  else do
    Step.lift (validateWriteLanes state [scheduled.write])
    let (receipt, staged) ← Step.lift (stageWrite state.tasks [] scheduled.write now)
    Step.modify (fun state => { state with
      tasks := state.tasks ++ staged
      schedules := state.schedules.insert scheduled.name (max now scheduled.occurrence) })
    pure (some receipt)

/-- Whether `reassign_lane` moves a task. -/
def reassignable (source : String) (task : TaskRecord) : Bool :=
  task.lane = source && isReassignable task.status

/-- Moves non-running work between configured lanes; the clock is read once per moved task. -/
def reassignLane (source target : String) (clock : ℕ → DateTime) :
    Step MemoryState TaskRuntimeError ℕ := do
  let state ← Step.get
  Step.lift (requireLane state target)
  if state.tasks.any (fun task => task.lane = source && task.status = .running) then
    Step.fail (.laneBusy source)
  else do
    Step.modify (fun state => { state with
      tasks := state.tasks.mapIdx (fun index task =>
        if reassignable source task then
          { task with lane := target, nodeId := none, updatedAt := clock index }
        else task) })
    pure (state.tasks.filter (reassignable source)).length

/-- Resumes one suspended task with typed serialized input. -/
def resume [Serde] (id : TaskId) (input : String) (now : DateTime) :
    Step MemoryState TaskRuntimeError Bool := do
  Step.lift (validateResume input)
  let state ← Step.get
  match state.tasks.find? (fun task => task.id = id) with
  | none => pure false
  | some task =>
    if task.cancelled ∨ task.status ≠ .suspended then pure false
    else do
      Step.modify (fun state => { state with
        tasks := modifyFirst (fun task => task.id = id)
          (fun task => wake now { task with resumeInput := some input, updatedAt := now })
          state.tasks })
      pure true

/-! ### Runs -/

/-- Every operation of the store that changes it, with all its arguments. -/
inductive Op where
  | registerNode (node : Uuid) (now : DateTime)
  | heartbeat (node : Uuid) (staleAfter : Duration) (now : DateTime)
  | returnClaims (node : Option Uuid) (now : DateTime)
  | initializeStore (now ratesNow : DateTime)
  | claimTasks (node : Uuid) (claims : List (LaneClaim × Uuid)) (now : DateTime)
  | coordinateLanes (node : Uuid) (claims : List (LaneClaim × Uuid)) (now : DateTime)
  | commitTasks (commits : List TaskCommit) (now : DateTime)
  | commitAdmitted (commits : List TaskCommit) (node : Uuid) (limit : ℕ) (cached : List TaskRecord)
      (now : DateTime)
  | recoverClaims (node : Uuid) (claims : List LaneClaim) (prepared : TaskPoll) (now : DateTime)
  | recoverOutputs (node : Uuid) (commits : List TaskCommit) (prepared : CommitResult) (now : DateTime)
  | storeTasks (writes : List TaskWrite) (now : DateTime)
  | storeAdmitted (writes : List TaskWrite) (node : Uuid) (limit : ℕ) (now : DateTime)
  | storeScheduled (scheduled : ScheduledTaskWrite) (now : DateTime)
  | reassignLane (source target : String) (clock : ℕ → DateTime)
  | resume (id : TaskId) (input : String) (now : DateTime)

/-- What an operation answers. -/
inductive Response where
  | done
  | flag (value : Bool)
  | count (value : ℕ)
  | polled (poll : TaskPoll)
  | committed (result : CommitResult)
  | stored (receipts : List TaskReceipt)
  | admitted (receipts : List TaskReceipt) (tasks : List TaskRecord)
  | scheduled (receipt : Option TaskReceipt)
  | error (error : TaskRuntimeError)
  | pollUnknown (error : TaskRuntimeError) (prepared : TaskPoll)
  | commitUnknown (error : TaskRuntimeError) (prepared : CommitResult)

def respond {α : Type} (f : α → Response) (run : Except TaskRuntimeError α × MemoryState) :
    Response × MemoryState :=
  match run with
  | (.ok a, state) => (f a, state)
  | (.error error, state) => (.error error, state)

def respondPoll (run : Except (StoreFailure TaskPoll) TaskPoll × MemoryState) :
    Response × MemoryState :=
  match run with
  | (.ok poll, state) => (.polled poll, state)
  | (.error (.beforeCommit error), state) => (.error error, state)
  | (.error (.commitUnknown error prepared), state) => (.pollUnknown error prepared, state)

def respondCommit (run : Except (StoreFailure CommitResult) CommitResult × MemoryState) :
    Response × MemoryState :=
  match run with
  | (.ok result, state) => (.committed result, state)
  | (.error (.beforeCommit error), state) => (.error error, state)
  | (.error (.commitUnknown error prepared), state) => (.commitUnknown error prepared, state)

/-- Runs one operation. -/
def exec [Serde] (store : MemoryTaskStore) (op : Op) (state : MemoryState) : Response × MemoryState :=
  match op with
  | .registerNode node now => respond (fun _ => .done) (registerNode node now state)
  | .heartbeat node staleAfter now => respond .flag (heartbeat node staleAfter now state)
  | .returnClaims node now => respond .count (returnClaims node now state)
  | .initializeStore now ratesNow => respond (fun _ => .done) (initializeStore now ratesNow state)
  | .claimTasks node claims now => respondPoll (claimTasks store node claims now state)
  | .coordinateLanes node claims now => respondPoll (coordinateLanes store node claims now state)
  | .commitTasks commits now => respondCommit (commitTasks store commits now state)
  | .commitAdmitted commits node limit cached now =>
    respondCommit (commitAdmitted store commits node limit cached now state)
  | .recoverClaims node claims prepared now =>
    respondPoll (recoverClaims store node claims prepared now state)
  | .recoverOutputs node commits prepared now =>
    respondCommit (recoverOutputs store node commits prepared now state)
  | .storeTasks writes now => respond .stored (storeTasks writes now state)
  | .storeAdmitted writes node limit now =>
    respond (fun r => .admitted r.1 r.2) (storeAdmitted writes node limit now state)
  | .storeScheduled scheduled now => respond .scheduled (storeScheduled scheduled now state)
  | .reassignLane source target clock => respond .count (reassignLane source target clock state)
  | .resume id input now => respond .flag (resume id input now state)

/-- The clock readings of an operation. -/
def Op.clock : Op → DateTime → Prop
  | .registerNode _ now, time | .heartbeat _ _ now, time | .returnClaims _ now, time
  | .claimTasks _ _ now, time | .coordinateLanes _ _ now, time | .commitTasks _ now, time
  | .commitAdmitted _ _ _ _ now, time | .recoverClaims _ _ _ now, time
  | .recoverOutputs _ _ _ now, time | .storeTasks _ now, time | .storeAdmitted _ _ _ now, time
  | .storeScheduled _ now, time | .resume _ _ now, time => time = now
  | .initializeStore now ratesNow, time => time = now ∨ time = ratesNow
  | .reassignLane _ _ clock, time => ∃ index, time = clock index

/-- The node an operation may make the owner of tasks. -/
def Op.grantee : Op → Uuid → Prop
  | .claimTasks node _ _, id | .coordinateLanes node _ _, id | .storeAdmitted _ node _ _, id
  | .commitAdmitted _ node _ _ _, id => id = node
  | _, _ => False

/-- The root submissions of an operation. -/
def Op.submissions : Op → List TaskWrite
  | .storeTasks writes _ | .storeAdmitted writes _ _ _ => writes
  | .storeScheduled scheduled _ => [scheduled.write]
  | _ => []

/-- The commits an operation presents. -/
def Op.commits : Op → List TaskCommit
  | .commitTasks commits _ | .commitAdmitted commits _ _ _ _ | .recoverOutputs _ commits _ _ => commits
  | _ => []

/-! ### A small store -/

/-- A parser that finds no error: what `serde_json` does on well-formed input. -/
@[reducible] def acceptingSerde : Serde := ⟨fun _ => none, fun _ => none⟩

/-- One handler of each kind, an open sticky lane and a locked lane with an idle hook. -/
def smallConf : TaskStoreConf where
  maxAllChildren := 4
  handlers := [("work", .work), ("flow", .flow)]
  lanes :=
    [{ lane := ⟨"open"⟩, claimBatchSize := 8, laneLock := none, globalRate := none,
       retry := ⟨3, Duration.ofSecs 1, Duration.ofSecs 60⟩, sticky := true },
     { lane := ⟨"locked"⟩, claimBatchSize := 8, globalRate := none,
       laneLock := some ⟨1, none, 0, some ⟨"idle"⟩, none⟩,
       retry := ⟨3, Duration.ofSecs 1, Duration.ofSecs 60⟩, sticky := false }]
  idempotency := []
  pollInterval := Duration.ofSecs 1

def smallStore : MemoryTaskStore := ⟨8, Duration.ofSecs 30⟩

/-- A record as `build_record` makes it. -/
def freshRecord (n : ℕ) (kind : TaskKind) (lane : String) : TaskRecord where
  id := ⟨BitVec.ofNat 128 n⟩
  parentId := none
  rootId := none
  kind := kind
  name := if kind = .work then "work" else "flow"
  input := "null"
  state := none
  resumeInput := none
  status := .pending
  cancelled := false
  attempts := 0
  stepAttempts := 0
  lane := lane
  lastResult := none
  idempotencyKey := none
  idempotencyFingerprint := none
  idempotencyExpiresAt := none
  nodeId := none
  readyAt := some 0
  createdAt := 0
  updatedAt := 0
  completedAt := none

/-- A submission without options. -/
def plainWrite (record : TaskRecord) : TaskWrite := ⟨record, false, none⟩

/-- A node registers and two Work tasks are submitted. -/
def twoSubmitted : List Op :=
  [.registerNode 7 1,
    .storeTasks [plainWrite (freshRecord 1 .work "open"), plainWrite (freshRecord 2 .work "open")] 2]

/-- A request for `limit` tasks of the open lane. -/
def openClaim (limit : ℕ) : List (LaneClaim × Uuid) := [(⟨⟨"open"⟩, limit, none⟩, 0)]

end Vyuh.Tasks.Memory
