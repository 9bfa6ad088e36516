import Vyuh.Tasks.Runner.Frame

/-! How a runner gives work up: an invocation is aborted, the outcomes of a lane that lost its owner are dropped.
    `Sheds` is what all of this does to the accounts; what is quiet sheds nothing. -/

namespace Vyuh.Tasks
open Lib

namespace TaskRunner

/-- The two tables of what runs say the same. -/
def Running (runner : TaskRunner) : Prop :=
  ∀ id invocationId, runner.runningTasks.lookup id = some invocationId ↔
    ∃ invocation, runner.runningInvocations.lookup invocationId = some invocation ∧ id ∈ invocation.taskIds

def NamesDistinct (runner : TaskRunner) : Prop := (runner.lanes.map (·.name)).Nodup

end TaskRunner

theorem lookup_eraseAll : ∀ (ids : List TaskId) (tasks : Dict TaskId Uuid) (id : TaskId),
    (ids.foldl (fun tasks taskId => tasks.erase taskId) tasks).lookup id =
      if id ∈ ids then none else tasks.lookup id
  | [], tasks, id => by simp
  | first :: ids, tasks, id => by
    rw [List.foldl_cons, lookup_eraseAll ids, Dict.lookup_erase_apply]
    by_cases hid : id ∈ ids <;> by_cases hfirst : id = first <;> simp [hid, hfirst]

/-- A lane's entry without the commits that are gone. -/
def uncount (gone : List TaskCommit) (entry : LaneConf × ℕ) : LaneConf × ℕ :=
  (entry.1, entry.2 - countLane entry.1.lane gone)

theorem uncount_append (first second : List TaskCommit) (entry : LaneConf × ℕ) :
    uncount (second ++ first) entry = uncount second (uncount first entry) := by
  rw [uncount, uncount, uncount, countLane, List.countP_append, Nat.sub_sub, Nat.add_comm]
  rfl

@[simp] theorem uncount_nil : uncount [] = id := rfl

theorem countLane_eq_zero {lane : TaskLane} {commits : List TaskCommit} (h : lane ∉ TaskRunner.commitLanes commits) :
    countLane lane commits = 0 := by
  simp only [TaskRunner.commitLanes, List.mem_dedup, List.mem_filterMap, not_exists, not_and] at h
  simpa [countLane, List.countP_eq_zero] using h

namespace TaskRunner

/-- Only the lanes change, one after the other. -/
theorem release_fold (commits : List TaskCommit) (runner : TaskRunner) :
    runner.release commits = { runner with lanes := (commitLanes commits).foldl (fun lanes lane =>
      modifyFirst (fun queue => queue.name = lane)
        (fun queue => { queue with uncommitted := queue.uncommitted - countLane lane commits }) lanes) runner.lanes } := by
  unfold release
  generalize commitLanes commits = ks
  induction ks generalizing runner with
  | nil => rfl
  | cons k ks ih => exact ih _

/-- Commits are taken off the counts of their lanes. -/
theorem release_eq {runner : TaskRunner} (h : runner.NamesDistinct) (commits : List TaskCommit) :
    runner.release commits = { runner with lanes := runner.lanes.map fun queue =>
      { queue with uncommitted := queue.uncommitted - countLane queue.name commits } } := by
  have hrows := foldl_modifyFirst LaneState.name
    (f := fun lane queue => { queue with uncommitted := queue.uncommitted - countLane lane commits })
    (fun _ _ => rfl) (commitLanes commits) (List.nodup_dedup _) h
  rw [release_fold, hrows]
  refine congrArg (fun lanes => { runner with lanes := lanes }) (List.map_congr_left fun queue _ => ?_)
  split
  · rfl
  · next hnone => rw [countLane_eq_zero hnone, Nat.sub_zero]

theorem entries_release {runner : TaskRunner} (h : runner.NamesDistinct) (commits : List TaskCommit) :
    (runner.release commits).lanes.map (·.entry) = (runner.lanes.map (·.entry)).map (uncount commits) := by
  rw [release_eq h, List.map_map, List.map_map]
  rfl

end TaskRunner

/-- Outcomes are dropped, counts follow, invocations may end; nothing is added. Every dropped outcome shares its task
    with one of a lost lane. -/
structure Sheds (lost : List TaskLane) (dropped : List TaskCommit) (runner next : TaskRunner) : Prop where
  entries : runner.NamesDistinct → (next.lanes.map (·.entry)).Perm ((runner.lanes.map (·.entry)).map (uncount dropped))
  buffer : runner.outputBuffer.Perm (next.outputBuffer ++ dropped)
  inFlight : next.inFlight = runner.inFlight
  mode : next.mode = runner.mode
  deadline : next.deathAt = runner.deathAt
  running : runner.Running → next.Running
  tasks : ∀ id invocationId, next.runningTasks.lookup id = some invocationId →
    runner.runningTasks.lookup id = some invocationId
  invocations : ∀ id invocation, next.runningInvocations.lookup id = some invocation →
    runner.runningInvocations.lookup id = some invocation
  reason : ∀ commit ∈ dropped, ∃ other ∈ runner.outputBuffer, other.taskId = commit.taskId ∧
    ∃ lane ∈ lost, other.lane? = some lane

namespace Sheds

variable {lost : List TaskLane} {dropped dropped' : List TaskCommit} {runner next last : TaskRunner}

theorem ofQuiet (h : Quiet runner next) : Sheds lost [] runner next where
  entries _ := by simpa using h.entries
  buffer := by rw [h.buffer, List.append_nil]
  inFlight := h.inFlight
  mode := h.mode
  deadline := h.deadline
  running hr := by
    unfold TaskRunner.Running at hr ⊢
    rwa [h.tasks, h.invocations]
  tasks := by simp [h.tasks]
  invocations := by simp [h.invocations]
  reason := by simp

theorem refl (runner : TaskRunner) : Sheds lost [] runner runner := ofQuiet (.refl runner)

theorem names (h : Sheds lost dropped runner next) (hn : runner.NamesDistinct) : next.NamesDistinct := by
  have hperm := (h.entries hn).map fun entry => entry.1.lane
  rw [List.map_map, List.map_map, List.map_map] at hperm
  exact hperm.nodup_iff.mpr hn

theorem trans (h : Sheds lost dropped runner next) (h' : Sheds lost dropped' next last) :
    Sheds lost (dropped' ++ dropped) runner last where
  entries hn := by
    have hcomp : uncount (dropped' ++ dropped) = uncount dropped' ∘ uncount dropped :=
      funext fun entry => uncount_append dropped dropped' entry
    rw [hcomp, ← List.map_map]
    exact (h'.entries (h.names hn)).trans ((h.entries hn).map _)
  buffer := by
    refine h.buffer.trans ?_
    rw [← List.append_assoc]
    exact h'.buffer.append_right dropped
  inFlight := h'.inFlight.trans h.inFlight
  mode := h'.mode.trans h.mode
  deadline := h'.deadline.trans h.deadline
  running hr := h'.running (h.running hr)
  tasks id invocationId hl := h.tasks id invocationId (h'.tasks id invocationId hl)
  invocations id invocation hl := h.invocations id invocation (h'.invocations id invocation hl)
  reason := by
    intro commit hmem
    rcases List.mem_append.mp hmem with hmem | hmem
    · obtain ⟨other, hother, hreason⟩ := h'.reason commit hmem
      exact ⟨other, h.buffer.symm.subset (List.mem_append_left _ hother), hreason⟩
    · exact h.reason commit hmem

/-- A fold of steps that each shed something. -/
theorem foldl {α : Type} {f : TaskRunner → α → TaskRunner} {P : α → Prop}
    (hf : ∀ runner a, P a → ∃ dropped, Sheds lost dropped runner (f runner a)) : ∀ (as : List α) (runner : TaskRunner),
      (∀ a ∈ as, P a) → ∃ dropped, Sheds lost dropped runner (as.foldl f runner)
  | [], runner, _ => ⟨[], refl runner⟩
  | a :: as, runner, h => by
    obtain ⟨dropped, hfirst⟩ := hf runner a (h a List.mem_cons_self)
    obtain ⟨dropped', hrest⟩ := foldl hf as (f runner a) fun b hb => h b (List.mem_cons_of_mem _ hb)
    exact ⟨_, hfirst.trans hrest⟩

end Sheds

namespace TaskRunner

/-! ### Invocations -/

/-- Taking one invocation and its tasks out of both tables. -/
theorem running_withdraw {runner next : TaskRunner} {gone : Uuid} {invocation : RunningInvocation}
    (h : runner.Running) (hlookup : runner.runningInvocations.lookup gone = some invocation)
    (htasks : next.runningTasks =
      invocation.taskIds.foldl (fun tasks taskId => tasks.erase taskId) runner.runningTasks)
    (hinv : next.runningInvocations = runner.runningInvocations.erase gone) : next.Running := by
  intro id invocationId
  rw [htasks, hinv, lookup_eraseAll, Dict.lookup_erase_apply]
  by_cases hid : id ∈ invocation.taskIds
  · have hgone : runner.runningTasks.lookup id = some gone := (h id gone).mpr ⟨invocation, hlookup, hid⟩
    rw [if_pos hid]
    refine ⟨fun hnone => by simp at hnone, ?_⟩
    rintro ⟨other, hother, hmem⟩
    split at hother
    · simp at hother
    · next hne =>
      have heq := (h id invocationId).mpr ⟨other, hother, hmem⟩
      rw [hgone] at heq
      exact absurd (Option.some.inj heq).symm hne
  · rw [if_neg hid, h id invocationId]
    by_cases hne : invocationId = gone
    · subst hne
      rw [hlookup, if_pos rfl]
      refine ⟨?_, fun ⟨_, hnone, _⟩ => by simp at hnone⟩
      rintro ⟨other, hother, hmem⟩
      obtain rfl := Option.some.inj hother
      exact absurd hmem hid
    · rw [if_neg hne]

theorem sheds_abortInvocation (lost : List TaskLane) (id : Uuid) (runner : TaskRunner) :
    Sheds lost [] runner (runner.abortInvocation id) := by
  unfold abortInvocation
  cases hlookup : runner.runningInvocations.lookup id with
  | none => exact .refl runner
  | some invocation =>
    refine ⟨fun _ => by simp, by simp, rfl, rfl, rfl, ?_, ?_, ?_, by simp⟩
    · exact fun hr => running_withdraw hr hlookup rfl rfl
    · intro taskId invocationId hl
      simp only [lookup_eraseAll] at hl
      split at hl
      · simp at hl
      · exact hl
    · intro invocationId other hl
      simp only [Dict.lookup_erase_apply] at hl
      split at hl
      · simp at hl
      · exact hl

theorem sheds_abortInvocations (lost : List TaskLane) : ∀ (ids : List Uuid) (runner : TaskRunner),
    Sheds lost [] runner (ids.foldl (fun runner id => runner.abortInvocation id) runner)
  | [], runner => .refl runner
  | id :: ids, runner =>
    (sheds_abortInvocation lost id runner).trans (sheds_abortInvocations lost ids (runner.abortInvocation id))

/-! ### Lost lanes -/

theorem sheds_dropPending {lost : List TaskLane} {ids : List TaskId} {runner : TaskRunner}
    (hids : ∀ id ∈ ids, ∃ other ∈ runner.outputBuffer, other.taskId = id ∧ ∃ lane ∈ lost, other.lane? = some lane) :
    ∃ dropped, Sheds lost dropped runner (runner.dropPending ids) := by
  refine ⟨runner.outputBuffer.filter fun commit => commit.taskId ∈ ids, ?_⟩
  unfold dropPending
  refine ⟨?_, ?_, ?_, ?_, ?_, ?_, ?_, ?_, ?_⟩
  · intro hn
    have hkept : NamesDistinct { runner with
        outputBuffer := runner.outputBuffer.filter fun commit => commit.taskId ∉ ids } := hn
    exact .of_eq (entries_release hkept _)
  · rw [release_fold]
    simpa using (List.filter_append_perm (fun commit : TaskCommit => decide (commit.taskId ∈ ids))
      runner.outputBuffer).symm.trans List.perm_append_comm
  · rw [release_fold]
  · rw [release_fold]
  · rw [release_fold]
  · rw [release_fold]
    exact id
  · rw [release_fold]
    exact fun _ _ => id
  · rw [release_fold]
    exact fun _ _ => id
  · intro commit hmem
    exact hids _ (by simpa using (List.mem_filter.mp hmem).2)

/-- A lost lane: its hook, its invocations, its outcomes and its queue are gone. -/
theorem sheds_dropLane {lost : List TaskLane} {lane : TaskLane} (hlost : lane ∈ lost) (runner : TaskRunner) :
    ∃ dropped, Sheds lost dropped runner (runner.dropLane lane) := by
  unfold dropLane
  have hhook : Sheds lost [] runner { runner with runningHooks := runner.runningHooks.erase lane } :=
    .ofQuiet ⟨.refl _, rfl, rfl, rfl, rfl, rfl, rfl⟩
  simp only
  have habort := hhook.trans (sheds_abortInvocations lost ((runner.runningInvocations.toList.filter
    fun entry => entry.2.lane = lane).map (·.1)) _)
  generalize List.foldl _ _ _ = aborted at habort ⊢
  have hids : ∀ id ∈ (aborted.outputBuffer.filter fun commit => commit.lane? = some lane).map (·.taskId),
      ∃ other ∈ aborted.outputBuffer, other.taskId = id ∧ ∃ lane ∈ lost, other.lane? = some lane := by
    intro id hid
    obtain ⟨other, hother, rfl⟩ := List.mem_map.mp hid
    obtain ⟨hmem, hlane⟩ := List.mem_filter.mp hother
    exact ⟨other, hmem, rfl, lane, hlost, by simpa using hlane⟩
  obtain ⟨dropped, hpending⟩ := sheds_dropPending hids
  refine ⟨_, habort.trans (hpending.trans (.ofQuiet ?_))⟩
  refine .modifyLane ?_ lane _
  exact fun _ => rfl

/-- What a poll asks for: hooks start, lost lanes are dropped. -/
theorem sheds_applyHook {lost : List TaskLane} (runner : TaskRunner) (entry : TaskLane × HookStart)
    (hlost : entry.2 = none → entry.1 ∈ lost) : ∃ dropped, Sheds lost dropped runner (runner.applyHook entry) := by
  obtain ⟨lane, start⟩ := entry
  cases start with
  | none => exact sheds_dropLane (hlost rfl) runner
  | some start =>
    obtain ⟨token, generation, action⟩ := start
    refine ⟨[], .ofQuiet ?_⟩
    unfold applyHook
    simp only
    split
    · exact quiet_spawnHook lane token generation action runner
    · exact .refl runner

/-! ### Polls -/

/-- A hook entry without a hook comes from an owner that is gone. -/
theorem captureOwnerEdge_hooks {lane : TaskLane} {previous : Option String} {owner : LaneOwnerPoll}
    {effects : PollEffects} {entry : TaskLane × HookStart}
    (h : entry ∈ (captureOwnerEdge lane previous owner effects).hooks) :
    entry ∈ effects.hooks ∨ (entry.2 = none → entry.1 = lane ∧ owner.token.isNone = true) := by
  unfold captureOwnerEdge at h
  split at h
  · next hgone =>
    have hmem : entry ∈ effects.hooks ++ [(lane, none)] := by
      split at h <;> exact h
    rcases List.mem_append.mp hmem with hmem | hmem
    · exact .inl hmem
    · rw [List.mem_singleton] at hmem
      subst hmem
      rw [Bool.and_eq_true] at hgone
      exact .inr fun _ => ⟨rfl, hgone.2⟩
  · generalize hbase : (if (previous.isNone && owner.token.isSome) = true then
      { effects with acquired := effects.acquired ++ [lane] } else effects) = base at h
    have hhooks : base.hooks = effects.hooks := by
      rw [← hbase]
      split <;> rfl
    simp only at h
    split at h
    · rw [hhooks] at h
      rcases List.mem_append.mp h with hmem | hmem
      · exact .inl hmem
      · rw [List.mem_singleton] at hmem
        subst hmem
        exact .inr fun hnone => by simp at hnone
    · exact .inl (hhooks ▸ h)

theorem applyOwnerPoll_hooks {name : TaskLane} {owner : LaneOwnerPoll} {now : Instant} {lease : Duration}
    {lane : LaneState} {effects : PollEffects} {entry : TaskLane × HookStart}
    (h : entry ∈ (lane.applyOwnerPoll name owner now lease effects).2.hooks) :
    entry ∈ effects.hooks ∨ (entry.2 = none → entry.1 = name ∧ owner.token.isNone = true) := by
  unfold LaneState.applyOwnerPoll at h
  simp only at h
  have hedge : entry ∈ (captureOwnerEdge name lane.ownerToken owner (if owner.takeover = true then
      { effects with takeovers := effects.takeovers ++ [name] } else effects)).hooks := by
    split at h <;> exact h
  rcases captureOwnerEdge_hooks hedge with hmem | hnone
  · exact .inl (by split at hmem <;> exact hmem)
  · exact .inr hnone

theorem applyResult_hooks (alloc : Allocator) (permits : Permits) {conf : RunnerConf} {request : Option LaneClaim}
    {result : LanePoll} {now : Instant} {lane : LaneState} {effects : PollEffects} {entry : TaskLane × HookStart}
    (h : entry ∈ (lane.applyResult alloc permits conf request result now effects).2.hooks) :
    entry ∈ effects.hooks ∨
      (entry.2 = none → entry.1 = result.lane ∧ result.owner.any (·.token.isNone) = true) := by
  unfold LaneState.applyResult LaneState.applyLanePoll at h
  simp only at h
  cases howner : result.owner with
  | none =>
    rw [howner] at h
    exact .inl h
  | some owner =>
    rw [howner] at h
    exact applyOwnerPoll_hooks h

/-- What a poll asks to drop are the lanes it leaves without an owner. -/
theorem applyPollLanes_hooks {alloc : Allocator} {permits : Permits} {requests : List LaneClaim} {now : Instant} :
    ∀ (results : List LanePoll) (turn : TaskRunner × PollEffects) {entry : TaskLane × HookStart},
      entry ∈ (results.foldl (applyPollLane alloc permits requests now) turn).2.hooks → entry.2 = none →
      entry ∈ turn.2.hooks ∨
        entry.1 ∈ (results.filter fun result => result.owner.any (·.token.isNone)).map (·.lane)
  | [], _, _, h, _ => .inl h
  | result :: results, (runner, effects), entry, h, hnone => by
    rcases applyPollLanes_hooks results _ h hnone with hmem | hlost
    · unfold applyPollLane at hmem
      simp only at hmem
      split at hmem
      · exact .inl hmem
      · rcases applyResult_hooks alloc permits hmem with hold | hnew
        · exact .inl hold
        · obtain ⟨hlane, howner⟩ := hnew hnone
          refine .inr (List.mem_map.mpr ⟨result, ?_, hlane.symm⟩)
          exact List.mem_filter.mpr ⟨List.mem_cons_self, howner⟩
    · obtain ⟨other, hother, hlane⟩ := List.mem_map.mp hlost
      obtain ⟨hmem, howner⟩ := List.mem_filter.mp hother
      refine .inr (List.mem_map.mpr ⟨other, ?_, hlane⟩)
      exact List.mem_filter.mpr ⟨List.mem_cons_of_mem _ hmem, howner⟩

/-- A poll drops outcomes of the lanes it leaves without an owner, and nothing else. -/
theorem sheds_applyPoll (alloc : Allocator) (permits : Permits) (requests : List LaneClaim) (poll : TaskPoll)
    (now : Instant) (runner : TaskRunner) :
    ∃ dropped, Sheds (disowned (.ok (.poll poll))) dropped runner
      (runner.applyPoll alloc permits requests poll now) := by
  unfold applyPoll
  simp only
  have hlanes : Quiet runner (poll.lanes.foldl (applyPollLane alloc permits requests now) (runner, .default)).1 :=
    quiet_applyPollLanes alloc requests poll.lanes (runner, .default)
  have hhooks (entry : TaskLane × HookStart)
      (hmem : entry ∈ (poll.lanes.foldl (applyPollLane alloc permits requests now) (runner, .default)).2.hooks)
      (hnone : entry.2 = none) : entry.1 ∈ disowned (.ok (.poll poll)) := by
    rcases applyPollLanes_hooks poll.lanes _ hmem hnone with hold | hlost
    · exact absurd hold List.not_mem_nil
    · exact hlost
  obtain ⟨dropped, hdropped⟩ := Sheds.foldl (fun runner entry => sheds_applyHook runner entry) _
    (poll.lanes.foldl (applyPollLane alloc permits requests now) (runner, .default)).1 hhooks
  refine ⟨_, (Sheds.ofQuiet hlanes).trans (hdropped.trans (.ofQuiet ?_))⟩
  exact Quiet.foldl (fun runner lane => quiet_wakeLane now lane runner) _ _

/-! ### Dispatch -/

theorem abortInvocations_gone : ∀ (ids : List Uuid) (runner : TaskRunner), ∀ id ∈ ids,
    (ids.foldl (fun runner id => runner.abortInvocation id) runner).runningInvocations.lookup id = none
  | first :: ids, runner, id, hid => by
    rw [List.foldl_cons]
    rcases List.mem_cons.mp hid with rfl | hmem
    · have hgone : (runner.abortInvocation id).runningInvocations.lookup id = none := by
        unfold abortInvocation
        split
        · assumption
        · simp only [Dict.lookup_erase_apply, if_pos]
      cases hlookup : (ids.foldl (fun runner id => runner.abortInvocation id)
          (runner.abortInvocation id)).runningInvocations.lookup id with
      | none => rfl
      | some invocation =>
        have hbefore := (sheds_abortInvocations [] ids (runner.abortInvocation id)).invocations id invocation hlookup
        rw [hgone] at hbefore
        simp at hbefore
    · exact abortInvocations_gone ids (runner.abortInvocation first) id hmem

/-- Nothing runs any more of the tasks a new invocation takes. -/
theorem replaceDuplicates_free {ids : List TaskId} {runner : TaskRunner} (h : runner.Running) {id : TaskId}
    (hid : id ∈ ids) : (runner.replaceDuplicates ids).runningTasks.lookup id = none := by
  unfold replaceDuplicates
  have hsheds := sheds_abortInvocations [] (ids.filterMap fun taskId => runner.runningTasks.lookup taskId).dedup runner
  have hgone := abortInvocations_gone (ids.filterMap fun taskId => runner.runningTasks.lookup taskId).dedup runner
  simp only
  generalize List.foldl _ _ _ = next at hsheds hgone ⊢
  cases hlookup : next.runningTasks.lookup id with
  | none => rfl
  | some invocationId =>
    have hbefore := hsheds.tasks id invocationId hlookup
    have hdup : invocationId ∈ (ids.filterMap fun taskId => runner.runningTasks.lookup taskId).dedup :=
      List.mem_dedup.mpr (List.mem_filterMap.mpr ⟨id, hid, hbefore⟩)
    obtain ⟨invocation, hinv, -⟩ := (hsheds.running h id invocationId).mp hlookup
    rw [hgone invocationId hdup] at hinv
    simp at hinv

theorem lookup_insertAll (invocationId : Uuid) : ∀ (ids : List TaskId) (tasks : Dict TaskId Uuid) (id : TaskId),
    (ids.foldl (fun tasks taskId => tasks.insert taskId invocationId) tasks).lookup id =
      if id ∈ ids then some invocationId else tasks.lookup id
  | [], tasks, id => by simp
  | first :: ids, tasks, id => by
    rw [List.foldl_cons, lookup_insertAll invocationId ids, Dict.lookup_insert_apply]
    by_cases hid : id ∈ ids <;> by_cases hfirst : id = first <;> simp [hid, hfirst]

end TaskRunner

/-- A new invocation: what it replaces is aborted, then both tables list it. -/
def Spawns (execution : TaskExecution) (runner next : TaskRunner) : Prop :=
  ∃ mid, Sheds [] [] runner mid ∧
    (∀ record ∈ execution.records, mid.runningTasks.lookup record.record.id = none) ∧
    next = { mid with
      runningTasks := (execution.records.map (·.record.id)).foldl
        (fun tasks taskId => tasks.insert taskId execution.invocationId) mid.runningTasks
      runningInvocations := mid.runningInvocations.insert execution.invocationId
        ⟨execution.lane, execution.records.map (·.record.id)⟩ }

namespace TaskRunner

theorem quiet_rememberFlows [RecordLayout] (lane : TaskLane) : ∀ (records : List Snapshot) (runner : TaskRunner),
    Quiet runner (records.foldl (fun runner task => runner.modifyLane lane fun queue => queue.rememberFlow task) runner) :=
  Quiet.foldl fun runner task => .modifyLane (LaneState.entry_rememberFlow task) lane runner

theorem spawns_spawnTask [RecordLayout] (limits : OutcomeLimits) (invocationId : Uuid) (lane : TaskLane)
    (ownerToken : Option String) (records : List Snapshot) (runner : TaskRunner) (h : runner.Running) :
    Spawns (runner.spawnTask limits invocationId lane ownerToken records).1 runner
      (runner.spawnTask limits invocationId lane ownerToken records).2 := by
  unfold spawnTask
  simp only
  have hquiet := quiet_rememberFlows lane records runner
  generalize List.foldl _ runner records = remembered at hquiet ⊢
  have hremembered : Sheds [] [] runner remembered := .ofQuiet hquiet
  have hreplace : Sheds [] [] remembered (remembered.replaceDuplicates (records.map (·.record.id))) :=
    sheds_abortInvocations [] _ remembered
  refine ⟨_, hremembered.trans hreplace, ?_, rfl⟩
  intro record hmem
  exact replaceDuplicates_free (hremembered.running h) (List.mem_map_of_mem hmem)

/-- One round of dispatch over a lane. -/
theorem dispatch_cases [RecordLayout] (limits : OutcomeLimits) (permits : Permits) (now : Instant) (index : ℕ)
    (id : Uuid) (runner : TaskRunner) (h : runner.Running) :
    (∃ next, runner.dispatch limits permits now index id = (none, next) ∧ Quiet runner next) ∨
    (∃ execution next, runner.dispatch limits permits now index id = (some execution, next) ∧
      runner.mode = .running ∧ execution.invocationId = id ∧ Spawns execution runner next) := by
  unfold dispatch
  split
  · exact .inl ⟨runner, rfl, .refl runner⟩
  · next hmode =>
    have hquiet := quiet_popLane permits now index runner
    generalize runner.popLane permits now index = taken at hquiet ⊢
    obtain ⟨_ | ⟨lane, ownerToken, records⟩, popped⟩ := taken
    · exact .inl ⟨popped, rfl, hquiet⟩
    · have hpopped : Sheds [] [] runner popped := .ofQuiet hquiet
      obtain ⟨mid, hsheds, hfree, hnext⟩ :=
        spawns_spawnTask limits id lane ownerToken records popped (hpopped.running h)
      refine .inr ⟨_, _, rfl, not_not.mp hmode, rfl, mid, ?_, hfree, hnext⟩
      exact hpopped.trans hsheds

end TaskRunner

end Vyuh.Tasks
