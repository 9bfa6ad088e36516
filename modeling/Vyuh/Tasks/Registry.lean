import Vyuh.Lib.Dict
import Vyuh.Tasks.LaneSet
import Vyuh.Tasks.Runner.Engine
import Vyuh.Tasks.Submission

/-! Task registration and finalization (`registry.rs`): bundles declare lanes and tasks, registries merge, and a site
    resolves every task against its lanes. -/

namespace Vyuh.Tasks
open Lib

/-- `std::any::TypeId` of a task's input. -/
structure TypeId where
  hash : ℕ
  deriving DecidableEq, Repr

/-- A task as it is registered: what a runner reads of it, and what finalization does. -/
structure TaskEntry extends RegisteredTask where
  typeId : TypeId
  declaredLane : TaskLane
  idempotency : Option IdempotencyPolicy
  deriving DecidableEq, Repr

/-- `TaskRuntimeError` as a registry reports it; here `AlreadyExists` carries a name. -/
inductive RegistryError where
  | runtime (error : TaskRuntimeError)
  | alreadyExists (name : String)
  deriving DecidableEq, Repr

structure TaskRegistry where
  config : TaskConf
  tasks : Dict String TaskEntry
  typedMap : Dict TypeId String
  laneDefaults : BTreeMap TaskLane LaneDefinition
  lanes : List LaneDefinition

def validateTaskName (name : String) : Except TaskRuntimeError Unit :=
  if name.isEmpty = true ∨ 191 < name.length then
    .error (.invalidConfig "task handler names must contain between 1 and 191 characters")
  else .ok ()

/-- Reads the already validated retention policy for one effective registered lane. -/
def laneRetention (lanes : List LaneDefinition) (lane : TaskLane) : Except TaskRuntimeError IdempotencyRetention :=
  match lanes.find? fun entry => entry.lane = lane with
  | some entry => .ok entry.idempotencyRetention
  | none => .error (.unknownLane lane.asStr)

/-- Adds task-definition context when strict lane resolution rejects site construction. -/
def missingLaneError (error : TaskRuntimeError) (task : String) (declared : TaskLane) (lanes : List LaneDefinition) :
    TaskRuntimeError :=
  match error with
  | .unknownLane _ =>
    let configured := ", ".intercalate (lanes.map (·.lane.asStr))
    .invalidConfig s!"task '{task}' declares lane '{declared.asStr}', but configured lanes are: {configured}"
  | error => error

namespace TaskRegistry

def new : TaskRegistry where
  config := .default
  tasks := ∅
  typedMap := ∅
  laneDefaults := []
  lanes := []

/-- Adds one task under its name. -/
def register (self : TaskRegistry) (service : TaskEntry) : Except RegistryError TaskRegistry :=
  match validateTaskName service.name with
  | .error error => .error (.runtime error)
  | .ok () =>
    if (self.tasks.lookup service.name).isSome ∨ (self.typedMap.lookup service.typeId).isSome then
      .error (.alreadyExists service.name)
    else
      .ok { self with
        typedMap := self.typedMap.insert service.typeId service.name
        tasks := self.tasks.insert service.name service }

/-- Adds one bundle-owned default for a named non-default task lane. -/
def registerLane (self : TaskRegistry) (lane : LaneDefinition) : Except RegistryError TaskRegistry :=
  let name := lane.lane
  if name = defaultTaskLane then
    .error (.runtime (.invalidConfig "bundles cannot configure the default task lane"))
  else if self.laneDefaults.containsKey name then .error (.alreadyExists s!"task lane '{name.asStr}'")
  else .ok { self with laneDefaults := self.laneDefaults.insert name lane }

/-- Takes over one task of another registry under the name it has there. -/
def mergeTask (self : TaskRegistry) (name : String) (task : TaskEntry) : Except RegistryError TaskRegistry :=
  match validateTaskName name with
  | .error error => .error (.runtime error)
  | .ok () =>
    if (self.tasks.lookup name).isSome then .error (.alreadyExists name)
    else if (self.typedMap.lookup task.typeId).isSome then .error (.alreadyExists name)
    else
      .ok { self with
        typedMap := self.typedMap.insert task.typeId name
        tasks := self.tasks.insert name task }

def merge (self other : TaskRegistry) : Except RegistryError TaskRegistry := do
  let self ← other.laneDefaults.values.foldlM registerLane self
  other.tasks.toList.foldlM (fun self entry => self.mergeTask entry.1 entry.2) self

/-- One round of the loop of `finalize`. -/
def finalizeTask (config : TaskConf) (lanes : List LaneDefinition) (task : TaskEntry) :
    Except TaskRuntimeError TaskEntry := do
  let declared := task.declaredLane
  validateKeyRevision task.idempotency
  match config.resolveLane lanes declared with
  | .error error => .error (missingLaneError error task.name declared lanes)
  | .ok (effective, _) => .ok { task with effectiveLane := effective }

/-- Resolves every immutable task definition against validated site policy. -/
def finalize [SemaphoreLimit] (self : TaskRegistry) (config : TaskConf) : Except TaskRuntimeError TaskRegistry := do
  let lanes ← config.resolveLanes self.laneDefaults.values
  let tasks ← self.tasks.mapValues (finalizeTask config lanes)
  .ok { self with config := config, tasks := tasks, lanes := lanes }

/-- What one task adds to the idempotency policy. -/
def taskPolicy (lanes : List LaneDefinition) (task : TaskEntry) : Option (Except TaskRuntimeError TaskIdempotencyConf) :=
  task.idempotency.map fun _ =>
    (laneRetention lanes task.effectiveLane).map fun retention => ⟨task.name, retention⟩

/-- Produces the finalized per-handler idempotency policy shared with stores. -/
def idempotencyConf (self : TaskRegistry) : Except TaskRuntimeError (List TaskIdempotencyConf) :=
  (self.tasks.toList.filterMap fun entry => taskPolicy self.lanes entry.2).mapM id

/-- Builds immutable store configuration before producers or workers use it. -/
def storeConf (self : TaskRegistry) : Except TaskRuntimeError TaskStoreConf := do
  let idempotency ← self.idempotencyConf
  .ok {
    maxAllChildren := self.config.maxAllChildren
    handlers := self.tasks.toList.map fun entry => (entry.2.name, entry.2.kind)
    lanes := self.lanes.map fun lane => lane.toTaskLaneConf
    idempotency := idempotency
    pollInterval := self.config.pollInterval }

end TaskRegistry

end Vyuh.Tasks
