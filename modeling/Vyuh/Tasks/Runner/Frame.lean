import Vyuh.Tasks.Runner.FlowCache
import Vyuh.Tasks.Runner.Process

/-! What most of a runner's work leaves alone: the counts of its lanes, its output queue, its unresolved operations
    and what runs. One lemma for each operation; the rest of the accounts is about the few that are not quiet. -/

namespace Vyuh.Tasks
open Lib

/-! ### Lanes -/

namespace LaneState

/-- What the accounts read of a lane. -/
def entry (lane : LaneState) : LaneConf × ℕ := (lane.conf, lane.uncommitted)

@[simp] theorem entry_claimLimit (limit : ℕ) (now : Instant) (lane : LaneState) :
    (lane.claimLimit limit now).2.entry = lane.entry := by
  unfold claimLimit
  cases lane.localRate <;> rfl

@[simp] theorem entry_consumeLocalRate (permits : ℕ) (now : Instant) (lane : LaneState) :
    (lane.consumeLocalRate permits now).entry = lane.entry := rfl

@[simp] theorem entry_localRateWake (now : Instant) (lane : LaneState) :
    (lane.localRateWake now).2.entry = lane.entry := by
  unfold localRateWake
  cases lane.localRate <;> rfl

@[simp] theorem entry_applyOwnerPoll (name : TaskLane) (owner : LaneOwnerPoll) (now : Instant) (lease : Duration)
    (lane : LaneState) (effects : PollEffects) :
    (lane.applyOwnerPoll name owner now lease effects).1.entry = lane.entry := by
  unfold applyOwnerPoll
  simp only
  split <;> rfl

@[simp] theorem entry_applyLanePoll (alloc : Allocator) (permits : Permits) (conf : RunnerConf) (result : LanePoll)
    (now : Instant) (lane : LaneState) (effects : PollEffects) :
    (lane.applyLanePoll alloc permits conf result now effects).1.entry = lane.entry := by
  unfold applyLanePoll
  cases result.owner with
  | none => rfl
  | some owner => exact entry_applyOwnerPoll result.lane owner now conf.leaseDuration lane effects

@[simp] theorem entry_applyResult (alloc : Allocator) (permits : Permits) (conf : RunnerConf)
    (request : Option LaneClaim) (result : LanePoll) (now : Instant) (lane : LaneState) (effects : PollEffects) :
    (lane.applyResult alloc permits conf request result now effects).1.entry = lane.entry := by
  unfold applyResult
  simp only
  split <;> split <;> simp only [entry] <;> exact entry_applyLanePoll ..

variable [RecordLayout]

@[simp] theorem entry_forgetFlow (id : TaskId) (lane : LaneState) : (lane.forgetFlow id).entry = lane.entry := by
  unfold forgetFlow
  cases lane.flowCache.lookup id <;> rfl

theorem entry_evictFlow {size : ℕ} {lane lane' : LaneState} (h : lane.evictFlow size = some lane') :
    lane'.entry = lane.entry := by
  obtain ⟨_, _, _, rfl⟩ := evictFlow_some h
  rfl

@[simp] theorem entry_rememberFlow (snapshot : Snapshot) (lane : LaneState) :
    (lane.rememberFlow snapshot).entry = lane.entry := by
  unfold rememberFlow
  simp only
  split
  · exact entry_forgetFlow ..
  · obtain ⟨n, -, hloop⟩ := makeRoom_loop (flowBytes snapshot) (lane.forgetFlow snapshot.record.id)
    have hroom : ((lane.forgetFlow snapshot.record.id).makeRoom (flowBytes snapshot)).entry
        = (lane.forgetFlow snapshot.record.id).entry :=
      hloop.inv (I := fun l => l.entry = (lane.forgetFlow snapshot.record.id).entry)
        (fun s s' hs hturn => (entry_evictFlow hturn).trans hs) rfl |>.1
    exact hroom.trans (entry_forgetFlow ..)

theorem entry_forgetAll : ∀ (ids : List TaskId) (lane : LaneState),
    (ids.foldl (fun lane id => lane.forgetFlow id) lane).entry = lane.entry
  | [], _ => rfl
  | id :: ids, lane => (entry_forgetAll ids (lane.forgetFlow id)).trans (entry_forgetFlow id lane)

@[simp] theorem entry_cancelQueued (ids : List TaskId) (lane : LaneState) :
    (lane.cancelQueued ids).entry = lane.entry := entry_forgetAll ids _

end LaneState

/-! ### Runners -/

/-- Nothing the accounts read has changed. -/
structure Quiet (runner next : TaskRunner) : Prop where
  entries : (next.lanes.map (·.entry)).Perm (runner.lanes.map (·.entry))
  buffer : next.outputBuffer = runner.outputBuffer
  inFlight : next.inFlight = runner.inFlight
  tasks : next.runningTasks = runner.runningTasks
  invocations : next.runningInvocations = runner.runningInvocations
  mode : next.mode = runner.mode
  deadline : next.deathAt = runner.deathAt

namespace Quiet

variable {runner next last : TaskRunner}

theorem refl (runner : TaskRunner) : Quiet runner runner := ⟨.refl _, rfl, rfl, rfl, rfl, rfl, rfl⟩

theorem trans (h : Quiet runner next) (h' : Quiet next last) : Quiet runner last where
  entries := h'.entries.trans h.entries
  buffer := h'.buffer.trans h.buffer
  inFlight := h'.inFlight.trans h.inFlight
  tasks := h'.tasks.trans h.tasks
  invocations := h'.invocations.trans h.invocations
  mode := h'.mode.trans h.mode
  deadline := h'.deadline.trans h.deadline

/-- Lanes with the same entries in some order. -/
theorem ofLanes {lanes : List LaneState} (h : (lanes.map (·.entry)).Perm (runner.lanes.map (·.entry))) :
    Quiet runner { runner with lanes := lanes } := ⟨h, rfl, rfl, rfl, rfl, rfl, rfl⟩

theorem foldl {α : Type} {f : TaskRunner → α → TaskRunner} (hf : ∀ runner a, Quiet runner (f runner a)) :
    ∀ (as : List α) (runner : TaskRunner), Quiet runner (as.foldl f runner)
  | [], runner => refl runner
  | a :: as, runner => (hf runner a).trans (foldl hf as (f runner a))

theorem modifyLane {f : LaneState → LaneState} (hf : ∀ lane, (f lane).entry = lane.entry) (name : TaskLane)
    (runner : TaskRunner) : Quiet runner (runner.modifyLane name f) := by
  refine ofLanes (.of_eq ?_)
  exact modifyFirst_map _ _ _ (fun lane _ => hf lane) _

/-- A lane that is put back with its entry. -/
theorem setLane {index : ℕ} {lane lane' : LaneState} (hget : runner.lanes[index]? = some lane)
    (h : lane'.entry = lane.entry) : Quiet runner (runner.setLane index lane') :=
  ofLanes (.of_eq (set_map_key hget h))

/-- A lane that is replaced by what was made of it. -/
theorem replaceLane {name : TaskLane} {lane lane' : LaneState} (hfind : runner.laneNamed name = some lane)
    (h : lane'.entry = lane.entry) : Quiet runner (runner.modifyLane name fun _ => lane') := by
  obtain ⟨index, hget, hset⟩ := modifyFirst_some _ (fun _ => lane') _ _ hfind
  refine ofLanes (.of_eq ?_)
  rw [hset, set_map_key hget h]

theorem mapLanes {f : LaneState → LaneState} (hf : ∀ lane, (f lane).entry = lane.entry) (runner : TaskRunner) :
    Quiet runner { runner with lanes := runner.lanes.map f } := by
  refine ofLanes (.of_eq ?_)
  rw [List.map_map]
  exact List.map_congr_left fun lane _ => hf lane

end Quiet

namespace TaskRunner

variable {runner next : TaskRunner} {permits : Permits} {now : Instant}

theorem quiet_wakeLane (now : Instant) (lane : TaskLane) (runner : TaskRunner) :
    Quiet runner (runner.wakeLane now lane) := by
  refine .modifyLane ?_ lane runner
  exact fun _ => rfl

theorem quiet_wakeLanes (now : Instant) (runner : TaskRunner) : Quiet runner (runner.wakeLanes now) := by
  refine .mapLanes ?_ runner
  exact fun _ => rfl

theorem quiet_controlWake (now : Instant) (runner : TaskRunner) : Quiet runner (runner.controlWake now) := by
  unfold controlWake
  split
  · exact quiet_wakeLanes now runner
  · exact .refl runner

theorem quiet_acceptHook (now : Instant) (completion : HookCompletion) (runner : TaskRunner) :
    Quiet runner (runner.acceptHook now completion) := by
  unfold acceptHook
  simp only
  split
  · exact .refl runner
  · have herase : Quiet runner { runner with runningHooks := runner.runningHooks.erase completion.lane } :=
      ⟨.refl _, rfl, rfl, rfl, rfl, rfl, rfl⟩
    refine herase.trans ?_
    refine .modifyLane ?_ _ _
    intro lane
    split <;> rfl

theorem quiet_spawnHook (lane : TaskLane) (token : String) (generation : ℤ) (action : LaneHookAction)
    (runner : TaskRunner) : Quiet runner (runner.spawnHook lane token generation action) := by
  unfold spawnHook
  split
  · exact .refl runner
  · simp only
    split <;> exact ⟨.refl _, rfl, rfl, rfl, rfl, rfl, rfl⟩

/-! ### Requests -/

theorem quiet_coordinateRequest {request : DbRequest}
    (h : runner.coordinateRequest permits now = some (request, next)) :
    Quiet runner next ∧ ∃ claims, request = .coordinate claims := by
  obtain ⟨selected, -, heq⟩ := Option.map_eq_some_iff.mp h
  obtain ⟨rfl, rfl⟩ := Prod.mk.inj heq
  refine ⟨.modifyLane ?_ _ runner, _, rfl⟩
  exact fun _ => rfl

theorem entry_admitLane (permits : Permits) (capacity : ℕ) (now : Instant) (runner : TaskRunner) (lane : LaneState) :
    (runner.admitLane permits capacity now lane).2.entry = lane.entry := by
  unfold admitLane
  split
  · rfl
  · simp only
    split
    · rfl
    · exact LaneState.entry_claimLimit ..

/-- Lanes change places, and the request is a claim. -/
theorem quiet_rotate (permits : Permits) (capacity : ℕ) (now : Instant) : ∀ (rounds : ℕ) (runner : TaskRunner),
    Quiet runner (rotate permits capacity now rounds runner).2 ∧
      ∀ request, (rotate permits capacity now rounds runner).1 = some request → ∃ claims, request = .claim claims
  | 0, runner => ⟨.refl runner, fun _ h => by simp [rotate] at h⟩
  | rounds + 1, runner => by
    rw [rotate]
    cases hlanes : runner.lanes with
    | nil => exact ⟨.refl runner, fun _ h => by simp at h⟩
    | cons lane rest =>
      simp only
      generalize hadmit : (if (!runner.laneBusy lane.name && decide (lane.pollAfter ≤ now)) = true then
        admitLane permits capacity now { runner with lanes := rest } lane else (none, lane)) = admitted
      have hentry : admitted.2.entry = lane.entry := by
        rw [← hadmit]
        split
        · exact entry_admitLane ..
        · rfl
      have hturn (lane' : LaneState) (h : lane'.entry = lane.entry) :
          Quiet runner { runner with lanes := rest ++ [lane'] } := by
        refine .ofLanes ?_
        rw [hlanes, List.map_append, List.map_cons, List.map_nil, h]
        exact List.perm_append_singleton ..
      obtain ⟨claim, lane'⟩ := admitted
      cases claim with
      | none =>
        obtain ⟨hquiet, hclaim⟩ := quiet_rotate permits capacity now rounds { runner with lanes := rest ++ [lane'] }
        exact ⟨(hturn lane' hentry).trans hquiet, hclaim⟩
      | some claim =>
        refine ⟨hturn _ hentry, fun request h => ⟨[claim], ?_⟩⟩
        exact (Option.some.inj h).symm

theorem quiet_claimRequest (permits : Permits) (now : Instant) (runner : TaskRunner) :
    Quiet runner (runner.claimRequest permits now).2 ∧
      ∀ request, (runner.claimRequest permits now).1 = some request → ∃ claims, request = .claim claims := by
  unfold claimRequest
  split
  · exact ⟨.refl runner, fun _ h => by simp at h⟩
  · exact quiet_rotate ..

/-! ### Polls -/

theorem quiet_applyPollLane (alloc : Allocator) (requests : List LaneClaim) (turn : TaskRunner × PollEffects)
    (result : LanePoll) : Quiet turn.1 (applyPollLane alloc permits requests now turn result).1 := by
  unfold applyPollLane
  obtain ⟨runner, effects⟩ := turn
  simp only
  split
  · exact .refl runner
  · next lane hfind => exact .replaceLane hfind (LaneState.entry_applyResult ..)

theorem quiet_applyPollLanes (alloc : Allocator) (requests : List LaneClaim) : ∀ (results : List LanePoll)
    (turn : TaskRunner × PollEffects), Quiet turn.1 (results.foldl (applyPollLane alloc permits requests now) turn).1
  | [], turn => .refl turn.1
  | result :: results, turn =>
    (quiet_applyPollLane alloc requests turn result).trans (quiet_applyPollLanes alloc requests results _)

/-! ### Dispatch -/

theorem entry_nextInvocation (permits : Permits) (now : Instant) (lane : LaneState) :
    (nextInvocation permits now lane).2.entry = lane.entry := by
  unfold nextInvocation
  generalize hgrant : (if 0 < permits.execution ∧ 0 < permits.lane lane.name then
    (decide (0 < (lane.claimLimit 1 now).1), (lane.claimLimit 1 now).2) else (false, lane)) = grant
  have hentry : grant.2.entry = lane.entry := by
    rw [← hgrant]
    split
    · exact LaneState.entry_claimLimit ..
    · rfl
  simp only
  split
  · exact hentry
  · split
    · exact hentry
    · split <;> exact (LaneState.entry_localRateWake now grant.2).trans hentry

theorem entry_collectInvocation (runner : TaskRunner) (first : Snapshot) (limit : ℕ) (lane : LaneState) :
    (runner.collectInvocation first limit lane).2.entry = lane.entry := by
  unfold collectInvocation
  split <;> rfl

/-- An invocation takes tasks of the lane and nothing else the accounts read. -/
theorem quiet_popLane (permits : Permits) (now : Instant) (index : ℕ) (runner : TaskRunner) :
    Quiet runner (runner.popLane permits now index).2 := by
  unfold popLane
  cases hget : runner.lanes[index]? with
  | none => exact .refl runner
  | some queue =>
    have hentry := entry_nextInvocation permits now queue
    simp only
    generalize nextInvocation permits now queue = picked at hentry ⊢
    obtain ⟨next, queue'⟩ := picked
    split
    · exact .setLane hget hentry
    · split
      · exact .setLane hget hentry
      · refine .setLane hget (.trans ?_ hentry)
        split
        · exact entry_collectInvocation ..
        · exact (entry_collectInvocation ..).trans (LaneState.entry_claimLimit ..)

variable [RecordLayout]

theorem quiet_cancelQueued (ids : List TaskId) (runner : TaskRunner) : Quiet runner (runner.cancelQueued ids) :=
  .mapLanes (LaneState.entry_cancelQueued ids) runner

theorem quiet_acceptEvent (now : Instant) (event : RunnerEvent) (runner : TaskRunner) :
    Quiet runner (runner.acceptEvent now event) := by
  unfold acceptEvent
  split
  · exact .refl runner
  · cases event with
    | wake => exact quiet_controlWake now runner
    | lagged => exact quiet_controlWake now runner
    | cancel id => exact (quiet_cancelQueued [id] runner).trans (quiet_controlWake now _)
    | wakeLane lane =>
      simp only
      split
      · exact quiet_wakeLane now lane runner
      · exact .refl runner

theorem quiet_acceptInput (snapshot : Snapshot) (runner : TaskRunner) :
    Quiet runner (runner.acceptInput snapshot) := by
  unfold acceptInput
  simp only
  split
  · exact .refl runner
  · next lane _ =>
    generalize hbase : (if snapshot.record.kind = .flow then
      runner.modifyLane lane.name fun queue => queue.rememberFlow snapshot else runner) = base
    have hremember : Quiet runner base := by
      rw [← hbase]
      split
      · exact .modifyLane (LaneState.entry_rememberFlow snapshot) _ runner
      · exact .refl runner
    split
    · exact hremember
    · refine hremember.trans ?_
      refine .modifyLane ?_ _ _
      intro queue
      split <;> rfl

end TaskRunner

end Vyuh.Tasks
