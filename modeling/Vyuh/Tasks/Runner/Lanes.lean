import Vyuh.Lib.LinkedMap
import Vyuh.Lib.Loop
import Vyuh.Tasks.LocalRate

/-! The lanes of one runner (`runner/lanes.rs`, `LaneState` of `runner/engine.rs`): what a lane
    keeps, how a poll of its durable owner changes it, and the cache of flow snapshots.

    A lane's semaphore is shared with the invocations it runs, so the permits it has left are read
    where the source reads them and given as `permits`. -/

namespace Vyuh.Tasks
open Lib

/-- Runtime limits of one named lane: what a store sees and what only its runner uses. -/
structure LaneConf extends TaskLaneConf where
  concurrency : ℕ
  rate : Option TaskRate
  flowCacheBytes : ℕ
  flowCacheFits : flowCacheBytes ≤ usizeMax
  deriving DecidableEq, Repr

/-- The budget of the flow cache; a lane that is not sticky has none. -/
def LaneConf.cacheBytes (conf : LaneConf) : ℕ := if conf.isSticky then conf.flowCacheBytes else 0

/-- `size_of::<TaskRecord>()`, which the compiler's layout decides. -/
class RecordLayout where
  size : ℕ

/-- The capacity of each string of a record. -/
structure Capacities where
  input : ℕ
  name : ℕ
  lane : ℕ
  state : ℕ
  resumeInput : ℕ
  lastResult : ℕ
  idempotencyKey : ℕ
  idempotencyFingerprint : ℕ
  deriving DecidableEq, Repr

/-- `Arc<TaskRecord>`: a record nobody changes any more, with what its strings hold allocated. -/
structure Snapshot where
  record : TaskRecord
  capacity : Capacities
  deriving DecidableEq, Repr

/-- Retained string capacity and the fixed overhead of one cached snapshot. -/
def flowBytes [RecordLayout] (snapshot : Snapshot) : ℕ :=
  let record := snapshot.record
  let capacity := snapshot.capacity
  RecordLayout.size + 128 + capacity.input + capacity.name + capacity.lane
    + record.state.elim 0 (fun _ => capacity.state)
    + record.resumeInput.elim 0 (fun _ => capacity.resumeInput)
    + record.lastResult.elim 0 (fun _ => capacity.lastResult)
    + record.idempotencyKey.elim 0 (fun _ => capacity.idempotencyKey)
    + record.idempotencyFingerprint.elim 0 (fun _ => capacity.idempotencyFingerprint)

/-- Local admission and execution state of one lane. -/
structure LaneState where
  conf : LaneConf
  localRate : Option LocalRateBucket
  tasks : List Snapshot
  uncommitted : ℕ
  pollAfter : Instant
  ownerToken : Option String
  ownerRenewAt : Option Instant
  ownerGeneration : ℤ
  ownerPhase : LaneOwnerPhase
  completedWork : Bool
  hookResult : Option LaneHookResult
  flowCache : Dict TaskId Snapshot
  cachedBytes : ℕ

/-- A hook to start for a token and generation, or `none` for an owner that is gone. -/
abbrev HookStart := Option (String × ℤ × LaneHookAction)

/-- What a poll asks for once its lanes are up to date. -/
structure PollEffects where
  hooks : List (TaskLane × HookStart)
  acquired : List TaskLane
  takeovers : List TaskLane
  lost : List TaskLane
  transitions : List (TaskLane × LaneOwnerPhase)

def PollEffects.default : PollEffects := ⟨[], [], [], [], []⟩

/-- Tells an intentional idle release from the loss of a lease or token. -/
def captureOwnerEdge (lane : TaskLane) (previous : Option String) (owner : LaneOwnerPoll)
    (effects : PollEffects) : PollEffects :=
  if previous.isSome && owner.token.isNone then
    let effects :=
      if owner.phase = .active || owner.phase = .idling || owner.phase = .busying then
        { effects with lost := effects.lost ++ [lane] }
      else effects
    { effects with hooks := effects.hooks ++ [(lane, none)] }
  else
    let effects :=
      if previous.isNone && owner.token.isSome then
        { effects with acquired := effects.acquired ++ [lane] }
      else effects
    match owner.token, owner.action with
    | some token, some action =>
      { effects with hooks := effects.hooks ++ [(lane, some (token, owner.generation, action))] }
    | _, _ => effects

namespace LaneState

def new (conf : LaneConf) (now : Instant) : LaneState where
  conf := conf
  localRate := conf.rate.map fun rate => LocalRateBucket.new rate now
  tasks := []
  uncommitted := 0
  pollAfter := now
  ownerToken := none
  ownerRenewAt := none
  ownerGeneration := 0
  ownerPhase := .active
  completedWork := false
  hookResult := none
  flowCache := ∅
  cachedBytes := 0

/-! ### The flow cache -/

variable [RecordLayout]

/-- Drops a cached snapshot, never the durable task. -/
def forgetFlow (id : TaskId) (lane : LaneState) : LaneState :=
  match lane.flowCache.lookup id with
  | some old =>
    { lane with
      flowCache := lane.flowCache.erase id, cachedBytes := lane.cachedBytes - flowBytes old }
  | none => lane

/-- One pass of the loop that makes room for `size` bytes. -/
def evictFlow (size : ℕ) (lane : LaneState) : Option LaneState :=
  if saturatingAddUsize lane.cachedBytes size ≤ lane.conf.cacheBytes then none
  else
    match lane.flowCache.popFront with
    | none => none
    | some ((_, old), rest) =>
      some { lane with flowCache := rest, cachedBytes := lane.cachedBytes - flowBytes old }

/-- The loop of `remember_flow`: each pass takes one entry, so it has no more passes than entries. -/
def makeRoom (size : ℕ) (lane : LaneState) : LaneState :=
  loop (evictFlow size) lane.flowCache.size lane

/-- Whether a snapshot may enter the cache: a flow that can go on, no larger than the budget. -/
def cacheable (conf : LaneConf) (snapshot : Snapshot) : Bool :=
  snapshot.record.kind = .flow && !snapshot.record.status.terminal
    && flowBytes snapshot ≤ conf.cacheBytes

/-- Counts a snapshot and puts it behind every other. -/
def insertFlow (snapshot : Snapshot) (lane : LaneState) : LaneState :=
  { lane with
    cachedBytes := lane.cachedBytes + flowBytes snapshot
    flowCache := lane.flowCache.pushBack snapshot.record.id snapshot }

/-- Keeps a disposable flow snapshot; its presence grants no execution. -/
def rememberFlow (snapshot : Snapshot) (lane : LaneState) : LaneState :=
  let lane := lane.forgetFlow snapshot.record.id
  if !cacheable lane.conf snapshot then lane
  else (lane.makeRoom (flowBytes snapshot)).insertFlow snapshot

/-- What `cancel_queued` does to one lane. -/
def cancelQueued (ids : List TaskId) (lane : LaneState) : LaneState :=
  let lane := { lane with tasks := lane.tasks.filter fun s => !decide (s.record.id ∈ ids) }
  ids.foldl (fun lane id => lane.forgetFlow id) lane

omit [RecordLayout]

/-- What `discard_work` does to one lane. -/
def discard (lane : LaneState) : LaneState :=
  { lane with flowCache := ∅, cachedBytes := 0, tasks := [], uncommitted := 0, hookResult := none }

/-! ### Polls -/

/-- Applies one fenced owner response and notes what changed. -/
def applyOwnerPoll (laneName : TaskLane) (owner : LaneOwnerPoll) (now : Instant)
    (leaseDuration : Duration) (lane : LaneState) (effects : PollEffects) :
    LaneState × PollEffects :=
  let previous := lane.ownerToken
  let previousPhase := lane.ownerPhase
  let effects :=
    if owner.takeover then { effects with takeovers := effects.takeovers ++ [laneName] } else effects
  let lane := { lane with ownerToken := owner.token }
  let lane :=
    if previous ≠ owner.token then { lane with flowCache := ∅, cachedBytes := 0 } else lane
  let lane := { lane with
    ownerRenewAt := owner.token.map fun _ => now + leaseDuration / 2
    ownerGeneration := owner.generation
    ownerPhase := owner.phase
    completedWork := lane.completedWork && decide (owner.phase = .idleFailed)
    hookResult := none }
  let effects := captureOwnerEdge laneName previous owner effects
  let effects :=
    if previousPhase ≠ owner.phase then
      { effects with transitions := effects.transitions ++ [(laneName, owner.phase)] }
    else effects
  (lane, effects)

end LaneState

end Vyuh.Tasks
