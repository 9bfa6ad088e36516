import Vyuh.Tasks.Store.Memory.Store

/-! Lane ownership of the memory store (`store/memory/lane_owner.rs`): lease acquisition and renewal,
    the idle/busy hook lifecycle, cohort flushing and the claim of a locked lane.

        active ──empty, quiescent──▶ idling ──ok──▶ idle ──work──▶ busying ──ok──▶ active
                                       │ err                         │ err
                                       ▼                             ▼
                                   idleFailed                    busyFailed

    The row being coordinated is taken out of the store for the turn and put back at its end, so the
    functions run on the row beside the rest of the turn. -/

namespace Vyuh.Tasks.Memory
open Lib

/-- The turn and the lane row taken out of it. -/
structure OwnerState where
  turn : Turn
  owner : MemoryLaneLock

/-- One owner turn's request: who asks for what, when, and the token a new owner would get. -/
structure MemoryOwnerTurn where
  runnerId : Uuid
  claim : LaneClaim
  lane : TaskLaneConf
  leaseDuration : Duration
  now : DateTime
  freshToken : Uuid

def onTurn {α : Type} (m : Step Turn TaskRuntimeError α) : Step OwnerState TaskRuntimeError α :=
  Step.zoom (·.turn) (fun turn s => { s with turn := turn }) m

def onOwner {α : Type} (m : Step MemoryLaneLock TaskRuntimeError α) :
    Step OwnerState TaskRuntimeError α :=
  Step.zoom (·.owner) (fun owner s => { s with owner := owner }) m

/-! ### The row -/

def memoryOwnerLive (owner : MemoryLaneLock) (now : DateTime) : Bool :=
  owner.ownerToken.isSome && owner.leasedUntil.any (fun deadline => now < deadline)

def memoryAction : LaneOwnerPhase → Option LaneHookAction
  | .idling => some .idle
  | .busying => some .busy
  | _ => none

/-- Starts a hook: the generation moves on, or the turn fails at its bound. -/
def memoryTransition (phase : LaneOwnerPhase) : Step MemoryLaneLock TaskRuntimeError Unit := do
  let owner ← Step.get
  match checkedAdd64 owner.generation 1 with
  | none => Step.fail (.taskExecutionError "lane lifecycle generation overflowed")
  | some generation =>
    Step.modify (fun o => { o with
      generation := generation, phase := phase, hookRetryAt := none, lastHookError := none })

def memoryActivate (owner : MemoryLaneLock) : MemoryLaneLock :=
  { owner with phase := .active, emptySince := none, hookRetryAt := none, lastHookError := none }

def memoryRelease (phase : LaneOwnerPhase) (owner : MemoryLaneLock) : MemoryLaneLock :=
  { owner with
    ownerId := none, ownerToken := none, leasedUntil := none, phase := phase, flushing := false }

/-- Whether the claim presents the token of a lease its runner holds. -/
def currentOwner (owner : MemoryLaneLock) (runner : Uuid) (claim : LaneClaim) (now : DateTime) :
    Bool :=
  claim.token.any (fun token =>
    owner.ownerId = some (Uuid.render runner) && owner.ownerToken = some token &&
      memoryOwnerLive owner now)

/-- Renews a current lease, or acquires a lane nobody holds. -/
def memoryOwner (turn : MemoryOwnerTurn) : Step MemoryLaneLock TaskRuntimeError Bool := do
  let owner ← Step.get
  if currentOwner owner turn.runnerId turn.claim turn.now then do
    let deadline ← Step.lift (checkedDeadline turn.now turn.leaseDuration)
    Step.modify (fun o => { o with leasedUntil := deadline })
    pure true
  else if turn.claim.token.isSome || memoryOwnerLive owner turn.now then pure false
  else do
    Step.modify (fun o => { o with
      ownerId := some (Uuid.render turn.runnerId), ownerToken := some (Uuid.render turn.freshToken) })
    let deadline ← Step.lift (checkedDeadline turn.now turn.leaseDuration)
    Step.modify (fun o => { o with leasedUntil := deadline })
    pure true

/-! ### Polls -/

def memoryOwnerPoll (owner : MemoryLaneLock) (action : Option LaneHookAction) : LaneOwnerPoll where
  token := owner.ownerToken
  generation := owner.generation
  phase := owner.phase
  action := action
  takeover := false

def memoryPollWith (lane : TaskLane) (owner : MemoryLaneLock) (action : Option LaneHookAction)
    (wake : Option Duration) : LanePoll where
  lane := lane
  tasks := []
  reclaimed := 0
  saturated := false
  nextWakeIn := wake
  owner := some (memoryOwnerPoll owner action)

def memoryPollAction (lane : TaskLane) (owner : MemoryLaneLock) (action : LaneHookAction)
    (wake : Option Duration) : LanePoll := memoryPollWith lane owner (some action) wake

def memoryPoll (lane : TaskLane) (owner : MemoryLaneLock) (wake : Option Duration) : LanePoll :=
  memoryPollWith lane owner none wake

def memoryWaitPoll (lane : TaskLane) (owner : MemoryLaneLock) (wake : Option Duration) : LanePoll :=
  let poll := memoryPoll lane owner wake
  { poll with owner := poll.owner.map (fun o => { o with token := none, action := none }) }

/-- Answers with the row as it stands. -/
def answer (turn : MemoryOwnerTurn) (wake : Option Duration) :
    Step OwnerState TaskRuntimeError LanePoll := do
  let s ← Step.get
  pure (memoryPoll turn.claim.lane s.owner wake)

/-- Answers with the hook the runner must run. -/
def answerAction (turn : MemoryOwnerTurn) (action : LaneHookAction) :
    Step OwnerState TaskRuntimeError LanePoll := do
  let s ← Step.get
  pure (memoryPollAction turn.claim.lane s.owner action none)

/-! ### Hook results -/

def finishMemoryIdle (turn : MemoryOwnerTurn) (tasks : List TaskRecord) :
    Step MemoryLaneLock TaskRuntimeError Unit :=
  if (dueIndices tasks turn.claim.lane.asStr turn.now).isEmpty then Step.modify (memoryRelease .idle)
  else if turn.lane.laneLock.any (·.busyHook.isSome) then memoryTransition .busying
  else Step.modify memoryActivate

def memoryFailIdle (error : String) (owner : MemoryLaneLock) : MemoryLaneLock :=
  memoryRelease .idleFailed { owner with lastHookError := some error }

def memoryFailBusy (conf : Option TaskStoreConf) (error : String) (now : DateTime) :
    Step MemoryLaneLock TaskRuntimeError Unit := do
  let delay := (conf.map (·.pollInterval)).getD (Duration.ofSecs 1)
  Step.modify (fun o => { o with lastHookError := some error })
  let retryAt ← Step.lift (checkedDeadline now delay)
  Step.modify (fun o => { o with hookRetryAt := retryAt })
  Step.modify (memoryRelease .busyFailed)

/-- Whether a hook result answers the hook the row is waiting for. -/
def hookCurrent (owner : MemoryLaneLock) (hook : LaneHookResult) : Bool :=
  owner.generation = hook.generation && memoryAction owner.phase = some hook.action

def applyMemoryHook (turn : MemoryOwnerTurn) (hook : LaneHookResult) (state : MemoryState) :
    Step MemoryLaneLock TaskRuntimeError Unit := do
  let owner ← Step.get
  if !hookCurrent owner hook then pure ()
  else
    match hook.action, hook.result with
    | .idle, .ok () => finishMemoryIdle turn state.tasks
    | .idle, .error error => Step.modify (memoryFailIdle error)
    | .busy, .ok () => Step.modify memoryActivate
    | .busy, .error error => memoryFailBusy state.conf error turn.now

/-! ### Cohorts -/

/-- Size of a locked lane's cohort. -/
def cohortSize (lane : TaskLaneConf) : ℕ := (lane.laneLock.map (·.batchSize)).getD 1

/-- One ordered, bounded candidate window; nothing is claimed. -/
def memoryCandidates (state : MemoryState) (laneName : TaskLane) (lane : TaskLaneConf)
    (now : DateTime) : List ℕ :=
  (sortByReadiness state.tasks now (dueIndices state.tasks laneName.asStr now)).take (cohortSize lane)

def memoryFlushWake (tasks : List TaskRecord) (candidates : List ℕ) (lane : TaskLaneConf)
    (now : DateTime) : Except TaskRuntimeError (Option Duration) :=
  match lane.laneLock.bind (·.deadline) with
  | none => .ok none
  | some deadline =>
    match (candidates.head?.bind (fun index => tasks[index]?)).map (fun task => (readiness task now).1)
      with
    | none => .ok none
    | some oldest => do
      let deadline ← chronoDuration deadline
      match checkedAddSigned oldest deadline with
      | none => .error (.invalidConfig "lane lock deadline exceeds timestamp range")
      | some due => .ok (some ((toStd (due - now)).getD 0))

/-- Whether a cohort is due: full, or its oldest member waited long enough. -/
def memoryFlush (tasks : List TaskRecord) (candidates : List ℕ) (lane : TaskLaneConf)
    (now : DateTime) : Except TaskRuntimeError Bool :=
  match lane.laneLock with
  | none => .error (.invalidConfig "locked lane lost its policy")
  | some lock =>
    if lock.batchSize ≤ candidates.length then .ok true
    else do
      let wake ← memoryFlushWake tasks candidates lane now
      .ok (decide (wake = some 0))

/-- Claims a cohort of a locked lane. -/
def memoryClaim [Serde] (turn : MemoryOwnerTurn) : Step OwnerState TaskRuntimeError LanePoll := do
  let s ← Step.get
  match s.turn.state.conf with
  | none => Step.fail (.invalidConfig "task store is not initialized")
  | some conf => do
    let size := cohortSize turn.lane
    onTurn (failExhausted turn.claim.lane.asStr size turn.now conf turn.lane.retry)
    let s ← Step.get
    let candidates := min (workCandidates s.turn.state.tasks turn.claim.lane.asStr turn.now) size
    let (permits, rateWake) ←
      onTurn (onRates (reservePermits turn.claim.lane candidates turn.lane.globalRate turn.now))
    let poll ← onTurn (claimLaneState turn.runnerId
      { claim := { lane := turn.claim.lane, limit := size, owner := none }
        permits, rateWake, candidates } turn.now)
    let s ← Step.get
    pure { poll with owner := some (memoryOwnerPoll s.owner none) }

/-- Whether the cohort is open already, or due now. -/
def memoryFlushDue (turn : MemoryOwnerTurn) (candidates : List ℕ) :
    Step OwnerState TaskRuntimeError Bool := do
  let s ← Step.get
  if s.owner.flushing then pure true
  else Step.lift (memoryFlush s.turn.state.tasks candidates turn.lane turn.now)

/-- Opens the cohort and claims from it when the request allows. -/
def memoryFlushOpen [Serde] (turn : MemoryOwnerTurn) : Step OwnerState TaskRuntimeError LanePoll := do
  onOwner (Step.modify (fun o => { o with flushing := true }))
  if turn.claim.owner.any (·.allowClaim) then memoryClaim turn else answer turn (some 0)

/-- Continues an open cohort or waits for its threshold before claiming. -/
def memoryFlushPoll [Serde] (turn : MemoryOwnerTurn) (candidates : List ℕ) :
    Step OwnerState TaskRuntimeError LanePoll := do
  let flush ← memoryFlushDue turn candidates
  if flush then memoryFlushOpen turn
  else do
    let s ← Step.get
    let wake ← Step.lift (memoryFlushWake s.turn.state.tasks candidates turn.lane turn.now)
    answer turn wake

/-! ### Phases -/

def memoryStartIdle (turn : MemoryOwnerTurn) : Step OwnerState TaskRuntimeError LanePoll :=
  if turn.lane.laneLock.any (·.idleHook.isSome) then do
    onOwner (memoryTransition .idling)
    answerAction turn .idle
  else do
    onOwner (Step.modify (memoryRelease .idle))
    answer turn none

def memoryStartBusy (turn : MemoryOwnerTurn) : Step OwnerState TaskRuntimeError LanePoll := do
  let s ← Step.get
  if s.owner.hookRetryAt.any (fun retry => turn.now < retry) then do
    onOwner (Step.modify (memoryRelease .busyFailed))
    answer turn (s.owner.hookRetryAt.bind (fun retry => toStd (retry - turn.now)))
  else if turn.lane.laneLock.any (·.busyHook.isSome) then do
    onOwner (memoryTransition .busying)
    answerAction turn .busy
  else do
    onOwner (Step.modify memoryActivate)
    answer turn (some 0)

def memoryEmpty (turn : MemoryOwnerTurn) : Step OwnerState TaskRuntimeError LanePoll := do
  let s ← Step.get
  if s.owner.phase = .idle ∨ s.owner.phase = .idleFailed ∨ s.owner.phase = .busyFailed then do
    onOwner (Step.modify (memoryRelease s.owner.phase))
    answer turn (taskDeadline s.turn.state.tasks turn.claim.lane.asStr turn.now)
  else if !turn.claim.owner.any (·.quiescent) then answer turn none
  else
    let delay := (turn.lane.laneLock.map (·.idleAfter)).getD 0
    let started := s.owner.emptySince.getD turn.now
    let elapsed := (toStd (turn.now - started)).getD 0
    do
      onOwner (Step.modify (fun o => { o with emptySince := some started }))
      if elapsed < delay then answer turn (some (delay - elapsed))
      else memoryStartIdle turn

/-- The part of `memory_phase_poll` that needs ready work. -/
def memoryReadyPoll [Serde] (turn : MemoryOwnerTurn) (candidates : List ℕ) :
    Step OwnerState TaskRuntimeError LanePoll := do
  onOwner (Step.modify (fun o => { o with emptySince := none }))
  let s ← Step.get
  if s.owner.phase = .idle ∨ s.owner.phase = .busyFailed then memoryStartBusy turn
  else memoryFlushPoll turn candidates

/-- Work completed after a failed idle hook makes the lane active again. -/
def memoryRevive (turn : MemoryOwnerTurn) (owner : MemoryLaneLock) : MemoryLaneLock :=
  if owner.phase = .idleFailed ∧ turn.claim.owner.any (·.completedWork) then memoryActivate owner
  else owner

/-- The part of `memory_phase_poll` that runs when the lane has nothing ready. -/
def memoryIdlePoll (turn : MemoryOwnerTurn) : Step OwnerState TaskRuntimeError LanePoll := do
  onOwner (Step.modify (fun o => { o with flushing := false }))
  memoryEmpty turn

def memoryWorkPoll [Serde] (turn : MemoryOwnerTurn) (candidates : List ℕ) :
    Step OwnerState TaskRuntimeError LanePoll :=
  if candidates.isEmpty then memoryIdlePoll turn else memoryReadyPoll turn candidates

def memoryPhasePoll [Serde] (turn : MemoryOwnerTurn) : Step OwnerState TaskRuntimeError LanePoll := do
  let s ← Step.get
  if (s.owner.phase = .active ∨ s.owner.phase = .idleFailed) ∧ ¬ turn.claim.owner.any (·.quiescent) then
    answer turn none
  else do
    onOwner (Step.modify (memoryRevive turn))
    memoryWorkPoll turn (memoryCandidates s.turn.state turn.claim.lane turn.lane turn.now)

/-! ### One lane turn -/

/-- One row of the release loop, logged. -/
def releaseRow (runner : Uuid) (lane : String) (now : DateTime) (index : ℕ) :
    Step Turn TaskRuntimeError Unit := do
  let turn ← Step.get
  match turn.state.tasks[index]? with
  | none => pure ()
  | some task =>
    if task.nodeId = some runner ∧ task.lane = lane ∧ task.status = .running then do
      let _ ← touch index task
        (onRow (Step.modify (fun t => { t with nodeId := none, updatedAt := now })))
      pure ()
    else pure ()

/-- A runner that presents a lost token gives up its executions in the lane. -/
def releaseRunner (runner : Uuid) (lane : String) (now : DateTime) :
    Step Turn TaskRuntimeError Unit := do
  let turn ← Step.get
  Step.each (releaseRow runner lane now) (List.range turn.state.tasks.length)

/-- Only a request that presents a token has executions to give up. -/
def loseLane (turn : MemoryOwnerTurn) : Step Turn TaskRuntimeError Unit :=
  if turn.claim.token.isSome then releaseRunner turn.runnerId turn.claim.lane.asStr turn.now else pure ()

/-- The answer to a runner that does not own the lane. -/
def memoryWait (turn : MemoryOwnerTurn) : Step OwnerState TaskRuntimeError LanePoll := do
  onTurn (loseLane turn)
  let s ← Step.get
  let wake := (s.owner.leasedUntil.bind (fun deadline => toStd (deadline - turn.now))).or
    (taskDeadline s.turn.state.tasks turn.claim.lane.asStr turn.now)
  pure (memoryWaitPoll turn.claim.lane s.owner wake)

/-- Applies the request's hook result, if it brings one. -/
def memoryHook (turn : MemoryOwnerTurn) : Step OwnerState TaskRuntimeError Unit := do
  let s ← Step.get
  match turn.claim.owner.bind (·.hook) with
  | some hook => onOwner (applyMemoryHook turn hook s.turn.state)
  | none => pure ()

/-- Repeats an outstanding hook request, or polls the row's phase. -/
def memoryOwnedPoll [Serde] (turn : MemoryOwnerTurn) : Step OwnerState TaskRuntimeError LanePoll := do
  let s ← Step.get
  match memoryAction s.owner.phase with
  | some action => answerAction turn action
  | none => memoryPhasePoll turn

def claimOwnedInner [Serde] (turn : MemoryOwnerTurn) : Step OwnerState TaskRuntimeError LanePoll := do
  let owned ← onOwner (memoryOwner turn)
  if !owned then memoryWait turn
  else do
    memoryHook turn
    memoryOwnedPoll turn

/-- Marks a poll whose runner replaced an expired owner. -/
def markTakeover (tookOver : Bool) (poll : LanePoll) : LanePoll :=
  if tookOver && poll.owner.any (·.token.isSome) then
    { poll with owner := poll.owner.map (fun o => { o with takeover := true }) }
  else poll

/-- Puts the lane row back into the store. -/
def OwnerState.close (s : OwnerState) (name : String) : Turn :=
  { s.turn with state := { s.turn.state with laneLocks := s.turn.state.laneLocks.insert name s.owner } }

/-- Takes the lane row out of the store. -/
def Turn.open (turn : Turn) (name : String) (owner : MemoryLaneLock) : OwnerState where
  turn := { turn with state := { turn.state with laneLocks := turn.state.laneLocks.remove name } }
  owner := owner

/-- Coordinates one lane owner; the row returns to the store whichever way the turn ends. -/
def claimOwnedState [Serde] (request : MemoryOwnerTurn) : Step Turn TaskRuntimeError LanePoll :=
  fun turn =>
    let name := request.claim.lane.asStr
    match turn.state.laneLocks name with
    | none => (.error (.invalidConfig ("task lane lock '" ++ name ++ "' is not initialized")), turn)
    | some owner =>
      let acquiring := request.claim.owner.any (·.token.isNone)
      let run := claimOwnedInner request (turn.open name owner)
      (run.1.map (markTakeover (acquiring && owner.ownerToken.isSome)), run.2.close name)

/-- A lane turn takes the row out, polls with it and puts it back. -/
theorem claimOwnedState_ok [Serde] {request : MemoryOwnerTurn} {turn turn' : Turn} {poll : LanePoll}
    (h : claimOwnedState request turn = (.ok poll, turn')) :
    ∃ owner inner s, turn.state.laneLocks request.claim.lane.asStr = some owner ∧
      claimOwnedInner request (turn.open request.claim.lane.asStr owner) = (.ok inner, s) ∧
      poll = markTakeover (request.claim.owner.any (·.token.isNone) && owner.ownerToken.isSome) inner ∧
      turn' = s.close request.claim.lane.asStr := by
  rw [claimOwnedState] at h
  cases hl : turn.state.laneLocks request.claim.lane.asStr with
  | none => rw [hl] at h; cases congrArg Prod.fst h
  | some owner =>
    rw [hl] at h
    rcases hr : claimOwnedInner request (turn.open request.claim.lane.asStr owner) with ⟨r, s⟩
    simp only [hr] at h
    cases r with
    | error e => cases congrArg Prod.fst h
    | ok inner =>
      simp only [Except.map, Prod.mk.injEq, Except.ok.injEq] at h
      exact ⟨owner, inner, s, rfl, hr, h.1.symm, h.2.symm⟩

end Vyuh.Tasks.Memory
