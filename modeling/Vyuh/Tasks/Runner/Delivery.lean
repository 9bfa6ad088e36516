import Vyuh.Tasks.Runner.Accounting

/-! A task is delivered at most once for each time it was started. Invocations end in any order, late ones after they
    were replaced or aborted; only the invocation a task is listed with has its outcome accepted, and once. -/

namespace Vyuh.Tasks
open Lib

/-- What runs has only become less. -/
structure Narrows (runner next : TaskRunner) : Prop where
  tasks : ∀ id invocationId, next.runningTasks.lookup id = some invocationId →
    runner.runningTasks.lookup id = some invocationId
  invocations : ∀ id invocation, next.runningInvocations.lookup id = some invocation →
    runner.runningInvocations.lookup id = some invocation

/-- Nothing was started or asked for, and the lanes are configured as before. -/
structure Subsides (runner next : TaskRunner) : Prop extends Narrows runner next where
  confs : (next.lanes.map (·.conf)).Perm (runner.lanes.map (·.conf))
  requests : next.requests.Subperm runner.requests

namespace Narrows

variable {runner next last : TaskRunner}

theorem ofSame (htasks : next.runningTasks = runner.runningTasks)
    (hinvocations : next.runningInvocations = runner.runningInvocations) : Narrows runner next :=
  ⟨fun _ _ h => htasks ▸ h, fun _ _ h => hinvocations ▸ h⟩

theorem refl (runner : TaskRunner) : Narrows runner runner := ofSame rfl rfl

theorem trans (h : Narrows runner next) (h' : Narrows next last) : Narrows runner last :=
  ⟨fun id inv hl => h.tasks id inv (h'.tasks id inv hl), fun id inv hl => h.invocations id inv (h'.invocations id inv hl)⟩

end Narrows

/-- The configuration is part of what a lane is known by. -/
theorem confs_of_entries {runner next : TaskRunner}
    (h : (next.lanes.map (·.entry)).Perm (runner.lanes.map (·.entry))) :
    (next.lanes.map (·.conf)).Perm (runner.lanes.map (·.conf)) := by
  have hperm := h.map Prod.fst
  rw [List.map_map, List.map_map] at hperm
  exact hperm

namespace Subsides

variable {runner next last : TaskRunner} {lost : List TaskLane} {dropped : List TaskCommit}

theorem ofSheds (h : Sheds lost dropped runner next) (hn : runner.NamesDistinct) : Subsides runner next where
  tasks := h.tasks
  invocations := h.invocations
  confs := by
    have hperm := (h.entries hn).map Prod.fst
    rw [List.map_map, List.map_map, List.map_map] at hperm
    exact hperm
  requests := by
    rw [show next.requests = runner.requests from congrArg TaskRunner.requestsOf h.inFlight]

theorem ofQuiet (h : Quiet runner next) : Subsides runner next where
  toNarrows := .ofSame h.tasks h.invocations
  confs := confs_of_entries h.entries
  requests := by
    rw [show next.requests = runner.requests from congrArg TaskRunner.requestsOf h.inFlight]

theorem refl (runner : TaskRunner) : Subsides runner runner := ofQuiet (.refl runner)

theorem trans (h : Subsides runner next) (h' : Subsides next last) : Subsides runner last where
  toNarrows := h.toNarrows.trans h'.toNarrows
  confs := h'.confs.trans h.confs
  requests := h'.requests.trans h.requests

theorem names (h : Subsides runner next) (hn : runner.NamesDistinct) : next.NamesDistinct := by
  have hperm := h.confs.map (·.lane)
  rw [List.map_map, List.map_map] at hperm
  exact hperm.nodup_iff.mpr hn

theorem leave (mode : RunMode) (runner : TaskRunner) : Subsides runner (runner.leave mode) where
  tasks id _ hl := by simp [TaskRunner.leave, TaskRunner.discardWork] at hl
  invocations id _ hl := by simp [TaskRunner.leave, TaskRunner.discardWork] at hl
  confs := by
    rw [TaskRunner.leave, TaskRunner.discardWork, List.map_map]
    exact .refl _
  requests := List.nil_subperm

theorem expire (now : Instant) (runner : TaskRunner) : Subsides runner (runner.expire now) := by
  unfold TaskRunner.expire
  split
  · exact leave .dead runner
  · exact refl runner

theorem setPhase (id : Uuid) (phase : DbPhase) (runner : TaskRunner) : Subsides runner (runner.setPhase id phase) where
  toNarrows := by
    unfold TaskRunner.setPhase
    split <;> exact .ofSame rfl rfl
  confs := by
    unfold TaskRunner.setPhase
    split <;> exact .refl _
  requests := (TaskRunner.requests_setPhase id phase runner).subperm

theorem retryDatabase (id : Uuid) (runner : TaskRunner) : Subsides runner (runner.retryDatabase id) := by
  unfold TaskRunner.retryDatabase
  split
  · exact setPhase id .recovering runner
  · exact refl runner

theorem databaseFailed (now : Instant) (id : Uuid) (failure : DbFailure) (runner : TaskRunner) :
    Subsides runner (runner.databaseFailed now id failure) := by
  unfold TaskRunner.databaseFailed
  split
  · exact setPhase id _ runner
  · exact leave .faulted runner

theorem shutdown (runner : TaskRunner) : Subsides runner runner.shutdown := by
  unfold TaskRunner.shutdown
  split
  · exact refl runner
  · exact ⟨.ofSame rfl rfl, .refl _, .refl _⟩

theorem returned (runner : TaskRunner) : Subsides runner runner.returned where
  toNarrows := .ofSame rfl rfl
  confs := by
    rw [TaskRunner.returned, List.map_map]
    exact .refl _
  requests := List.nil_subperm

theorem release (commits : List TaskCommit) {runner : TaskRunner} (hn : runner.NamesDistinct) :
    Subsides runner (runner.release commits) := by
  rw [TaskRunner.release_eq hn]
  refine ⟨.ofSame rfl rfl, ?_, .refl _⟩
  rw [List.map_map]
  exact .refl _

theorem resolved (now : Instant) (id : Uuid) (runner : TaskRunner) : Subsides runner (runner.resolved now id) where
  toNarrows := .ofSame rfl rfl
  confs := .refl _
  requests := by
    cases hlookup : runner.inFlight.lookup id with
    | none =>
      have hsame : (runner.resolved now id).requests = runner.requests :=
        congrArg TaskRunner.requestsOf (Dict.erase_of_lookup_none hlookup)
      rw [hsame]
    | some entry =>
      exact (List.sublist_cons_self _ _).subperm.trans (TaskRunner.requestsOf_erase hlookup).symm.subperm

theorem applyResponse [RecordLayout] {alloc : Allocator} {permits : Permits} {now : Instant} {request : DbRequest}
    {response : DbResponse} (hn : runner.NamesDistinct)
    (h : runner.applyResponse alloc permits now request response = .ok next) : Subsides runner next := by
  have hpoll (claims : List LaneClaim) (poll : TaskPoll)
      (h : (do
        validatePoll claims poll
        return runner.applyPoll alloc permits claims poll now : Except TaskRuntimeError TaskRunner) = .ok next) :
      Subsides runner next := by
    obtain ⟨-, -, heq⟩ := Lib.Step.except_bind_ok.mp h
    obtain ⟨dropped, hsheds⟩ := TaskRunner.sheds_applyPoll alloc permits claims poll now runner
    exact Except.ok.inj heq ▸ ofSheds hsheds hn
  unfold TaskRunner.applyResponse at h
  split at h
  · exact Except.ok.inj h ▸ ofQuiet ⟨.refl _, rfl, rfl, rfl, rfl, rfl, rfl⟩
  · exact Except.ok.inj h ▸ leave .retired runner
  · exact Except.ok.inj h ▸ returned runner
  · exact hpoll _ _ h
  · exact hpoll _ _ h
  · next commits _ _ result =>
    exact Except.ok.inj h ▸ (release commits hn).trans (ofQuiet (Sound.quiet_applyFlush alloc now commits result runner))
  · simp at h

theorem applyDatabase [RecordLayout] (alloc : Allocator) (permits : Permits) (now : Instant) (id : Uuid)
    (answer : Except DbFailure DbResponse) {runner : TaskRunner} (hn : runner.NamesDistinct) :
    Subsides runner (runner.applyDatabase alloc permits now id answer) := by
  unfold TaskRunner.applyDatabase
  simp only
  have hexpire := expire now runner
  have hnames := hexpire.names hn
  refine hexpire.trans ?_
  generalize runner.expire now = runner at hnames
  split
  · exact refl runner
  · split
    · exact refl runner
    · next failure _ => exact databaseFailed now id failure runner
    · split
      · next error _ => exact databaseFailed now id _ runner
      · next next hok =>
        split
        · exact applyResponse hnames hok
        · exact (applyResponse hnames hok).trans (resolved now id next)

end Subsides

/-! ### Admission -/

namespace Narrows

theorem admitPass (permits : Permits) (now : Instant) (id : Uuid) (runner : TaskRunner) :
    Narrows runner (runner.admitPass permits now id).2 := by
  rcases TaskRunner.admitPass_cases permits now id runner with
    ⟨retry, heq⟩ | hquiet | ⟨request, next, -, hasks, -, heq⟩
  · rw [heq]
    exact (Subsides.retryDatabase retry runner).toNarrows
  · exact ofSame hquiet.tasks hquiet.invocations
  · rw [heq]
    exact ofSame hasks.tasks hasks.invocations

theorem admitReady (permits : Permits) (now : Instant) {ids : List Uuid} {runner : TaskRunner} (hnodup : ids.Nodup)
    (hfresh : ∀ id ∈ ids, runner.inFlight.lookup id = none) : Narrows runner (runner.admitReady permits now ids) := by
  refine TaskRunner.admitReady_inv ?_ (Subsides.expire now runner).toNarrows (refl runner) hnodup hfresh
  intro next id hnarrows _
  exact hnarrows.trans (admitPass permits now id next)

theorem giveBack (now : Instant) (id : Uuid) (runner : TaskRunner) : Narrows runner (runner.giveBack now id) := by
  unfold TaskRunner.giveBack
  split <;> exact ofSame rfl rfl

end Narrows

/-! ### Counting deliveries -/

/-- How often the invocation a task is listed with lists it. -/
def TaskRunner.awaited (id : TaskId) (runner : TaskRunner) : ℕ :=
  match runner.runningTasks.lookup id with
  | none => 0
  | some invocationId => ((runner.runningInvocations.lookup invocationId).map (·.taskIds.count id)).getD 0

def Ledger.accepts (id : TaskId) (ledger : Ledger) : ℕ := ledger.accepted.countP fun commit => commit.taskId = id

theorem Narrows.awaited_le {runner next : TaskRunner} (h : Narrows runner next) (id : TaskId) :
    next.awaited id ≤ runner.awaited id := by
  unfold TaskRunner.awaited
  cases htask : next.runningTasks.lookup id with
  | none => exact Nat.zero_le _
  | some invocationId =>
    rw [h.tasks id invocationId htask]
    simp only
    cases hinvocation : next.runningInvocations.lookup invocationId with
    | none => exact Nat.zero_le _
    | some invocation =>
      rw [h.invocations invocationId invocation hinvocation]

/-- The execution of a running invocation is still out, and no task has more outcomes than starts. -/
structure Delivers (process : RunnerProcess) : Prop where
  sound : Sound process.runner process.ledger
  distinct : (process.executions.map (·.invocationId)).Nodup
  listed : ∀ id invocation, process.runner.runningInvocations.lookup id = some invocation →
    ∃ execution ∈ process.executions, execution.invocationId = id ∧
      invocation.taskIds = execution.records.map (·.record.id)
  counted : ∀ id, process.ledger.accepts id + process.runner.awaited id ≤ process.ledger.started.count id

namespace Delivers

variable {process : RunnerProcess} {runner : TaskRunner} {ledger : Ledger}

/-- A turn that starts and ends no invocation. -/
theorem narrows (h : Delivers process) (hsound : Sound runner ledger) (hn : Narrows process.runner runner)
    (haccepted : ledger.accepted = process.ledger.accepted) (hstarted : ledger.started = process.ledger.started) :
    Delivers { process with runner := runner, ledger := ledger } where
  sound := hsound
  distinct := h.distinct
  listed id invocation hl := h.listed id invocation (hn.invocations id invocation hl)
  counted id := by
    have hcount := h.counted id
    have hle := hn.awaited_le id
    show ledger.accepted.countP _ + runner.awaited id ≤ ledger.started.count id
    rw [haccepted, hstarted]
    unfold Ledger.accepts at hcount
    omega

/-- A new invocation starts each of its tasks once more. -/
theorem spawn (h : Delivers process) {execution : TaskExecution} (hmode : process.runner.mode = .running)
    (hspawn : Spawns execution process.runner runner)
    (hnew : ∀ other ∈ process.executions, other.invocationId ≠ execution.invocationId)
    (hfresh : process.runner.runningInvocations.lookup execution.invocationId = none) :
    Delivers { runner := runner
               executions := process.executions ++ [execution]
               ledger := { process.ledger with
                started := process.ledger.started ++ execution.records.map (·.record.id) } } := by
  have hsound := h.sound.spawn hmode hspawn hfresh (process.ledger.started ++ execution.records.map (·.record.id))
  obtain ⟨mid, hsheds, hfree, rfl⟩ := hspawn
  have hnarrows : Narrows process.runner mid := ⟨hsheds.tasks, hsheds.invocations⟩
  refine ⟨hsound, ?_, ?_, ?_⟩
  · rw [List.map_append, List.nodup_append]
    refine ⟨h.distinct, List.nodup_singleton _, ?_⟩
    intro id hid other hother
    obtain ⟨old, hold, rfl⟩ := List.mem_map.mp hid
    obtain rfl := List.mem_singleton.mp hother
    exact hnew old hold
  · intro id invocation hl
    simp only [Dict.lookup_insert_apply] at hl
    split at hl
    · next heq =>
      obtain rfl := Option.some.inj hl
      exact ⟨execution, List.mem_append_right _ (List.mem_singleton_self _), heq.symm, rfl⟩
    · obtain ⟨old, hold, hrest⟩ := h.listed id invocation (hnarrows.invocations id invocation hl)
      exact ⟨old, List.mem_append_left _ hold, hrest⟩
  · intro id
    have hcount := h.counted id
    show process.ledger.accepts id + _ ≤ (process.ledger.started ++ execution.records.map (·.record.id)).count id
    rw [List.count_append]
    unfold TaskRunner.awaited
    simp only [TaskRunner.lookup_insertAll, Dict.lookup_insert_apply]
    by_cases hid : id ∈ execution.records.map (·.record.id)
    · rw [if_pos hid]
      simp only [if_pos, Option.map_some, Option.getD_some]
      omega
    · rw [if_neg hid]
      have hle := hnarrows.awaited_le id
      unfold TaskRunner.awaited at hle
      cases htask : mid.runningTasks.lookup id with
      | none =>
        simp only
        omega
      | some invocationId =>
        rw [htask] at hle
        simp only at hle ⊢
        have hne : invocationId ≠ execution.invocationId := by
          rintro rfl
          obtain ⟨invocation, hl, -⟩ := (hsheds.running h.sound.running id _).mp htask
          rw [hnarrows.invocations _ _ hl] at hfresh
          simp at hfresh
        rw [if_neg hne]
        unfold TaskRunner.awaited at hcount
        omega

/-- Another execution than the one that ended is still out. -/
theorem mem_others {executions : List TaskExecution} {index : ℕ} {execution other : TaskExecution}
    (hget : executions[index]? = some execution) (hmem : other ∈ executions)
    (hne : other.invocationId ≠ execution.invocationId) : other ∈ executions.eraseIdx index := by
  obtain ⟨position, hposition⟩ := List.mem_iff_getElem?.mp hmem
  refine List.mem_eraseIdx_iff_getElem?.mpr ⟨position, ?_, hposition⟩
  rintro rfl
  rw [hget] at hposition
  obtain rfl := Option.some.inj hposition
  exact hne rfl

/-- How often a completion has outcomes of a task accepted. -/
theorem countP_kept (runner : TaskRunner) (ended : Completion) (id : TaskId) :
    (runner.kept ended).countP (fun commit => commit.taskId = id) =
      if runner.runningTasks.lookup id = some ended.invocationId then (ended.commits.map (·.taskId)).count id else 0 := by
  unfold TaskRunner.kept
  rw [List.countP_filter]
  split
  · next heq =>
    rw [List.count, List.countP_map]
    refine List.countP_congr fun commit _ => ?_
    simp only [Bool.and_eq_true, decide_eq_true_eq, Function.comp_apply, beq_iff_eq]
    constructor
    · exact fun h => h.1
    · rintro rfl
      exact ⟨rfl, heq⟩
  · next hne =>
    refine List.countP_eq_zero.mpr fun commit _ => ?_
    simp only [Bool.and_eq_true, decide_eq_true_eq, not_and]
    rintro rfl
    exact hne

/-- An invocation that ends has the outcomes of its tasks accepted, if it is still the one they are listed with. -/
theorem finish (h : Delivers process) {index : ℕ} {execution : TaskExecution} {ended : Completion}
    (hget : process.executions[index]? = some execution) (hid : ended.invocationId = execution.invocationId)
    (hcommits : ended.commits.map (·.taskId) = execution.records.map (·.record.id)) (now : Instant)
    (hsound : Sound (process.runner.acceptCompletion now ended)
      { process.ledger with accepted := process.ledger.accepted ++ process.runner.taken ended }) :
    Delivers { runner := process.runner.acceptCompletion now ended
               executions := process.executions.eraseIdx index
               ledger := { process.ledger with
                accepted := process.ledger.accepted ++ process.runner.taken ended } } := by
  have hmem : execution ∈ process.executions := List.mem_of_getElem? hget
  have hdistinct : ((process.executions.eraseIdx index).map (·.invocationId)).Nodup :=
    ((List.eraseIdx_sublist ..).map _).nodup h.distinct
  cases hlookup : process.runner.runningInvocations.lookup ended.invocationId with
  | none =>
    have hsame : process.runner.acceptCompletion now ended = process.runner := by
      unfold TaskRunner.acceptCompletion
      rw [hlookup]
    have htaken : process.runner.taken ended = [] := by
      unfold TaskRunner.taken
      rw [hlookup]
      rfl
    rw [hsame, htaken] at hsound ⊢
    refine ⟨hsound, hdistinct, ?_, ?_⟩
    · intro id invocation hl
      obtain ⟨other, hother, rfl, htasks⟩ := h.listed id invocation hl
      refine ⟨other, mem_others hget hother ?_, rfl, htasks⟩
      intro heq
      rw [hid, ← heq, hl] at hlookup
      simp at hlookup
    · intro id
      simpa [Ledger.accepts] using h.counted id
  | some invocation =>
    obtain ⟨owner, howner, hownerId, htaskIds⟩ := h.listed _ _ hlookup
    obtain rfl : owner = execution :=
      List.inj_on_of_nodup_map h.distinct howner hmem (hownerId.trans hid)
    have htasks : (process.runner.acceptCompletion now ended).runningTasks =
        invocation.taskIds.foldl (fun tasks taskId => tasks.erase taskId) process.runner.runningTasks := by
      unfold TaskRunner.acceptCompletion
      rw [hlookup]
      rfl
    have hinvocations : (process.runner.acceptCompletion now ended).runningInvocations =
        process.runner.runningInvocations.erase ended.invocationId := by
      unfold TaskRunner.acceptCompletion
      rw [hlookup]
      rfl
    have htaken : process.runner.taken ended = process.runner.kept ended := by
      unfold TaskRunner.taken
      rw [hlookup]
      rfl
    refine ⟨hsound, hdistinct, ?_, ?_⟩
    · intro id other hl
      rw [hinvocations, Dict.lookup_erase_apply] at hl
      split at hl
      · simp at hl
      · next hne =>
        obtain ⟨another, hanother, rfl, hrest⟩ := h.listed id other hl
        exact ⟨another, mem_others hget hanother fun heq => hne (heq.trans hid.symm), rfl, hrest⟩
    · intro id
      have hcount := h.counted id
      have hrunning := h.sound.running id ended.invocationId
      show (process.ledger.accepted ++ process.runner.taken ended).countP (fun commit => commit.taskId = id) + _ ≤ _
      rw [List.countP_append, htaken, countP_kept, hcommits, ← htaskIds]
      unfold Ledger.accepts at hcount
      unfold TaskRunner.awaited at hcount ⊢
      rw [htasks, hinvocations, lookup_eraseAll]
      by_cases hin : id ∈ invocation.taskIds
      · have hcurrent := hrunning.mpr ⟨invocation, hlookup, hin⟩
        rw [hcurrent] at hcount ⊢
        simp only [hlookup, Option.map_some, Option.getD_some] at hcount
        simp only [if_pos hin, if_pos]
        exact hcount
      · have hother : process.runner.runningTasks.lookup id ≠ some ended.invocationId := by
          intro hcurrent
          obtain ⟨listed, hlisted, hin'⟩ := hrunning.mp hcurrent
          rw [hlookup] at hlisted
          obtain rfl := Option.some.inj hlisted
          exact hin hin'
        rw [if_neg hother, if_neg hin]
        cases htask : process.runner.runningTasks.lookup id with
        | none =>
          rw [htask] at hcount
          exact hcount
        | some invocationId =>
          rw [htask] at hcount hother
          simp only at hcount ⊢
          rw [Dict.lookup_erase_apply, if_neg fun heq => hother (congrArg some heq)]
          exact hcount

end Delivers

/-! ### Runs -/

namespace RunnerProcess

section

variable [RecordLayout] [Serde] {alloc : Allocator} {limits : OutcomeLimits}

omit [RecordLayout] in
/-- A completion has one outcome for each record. -/
theorem completion_tasks (execution : TaskExecution) {outcomes : List TaskOutcome}
    (hlength : outcomes.length = execution.records.length) :
    (completion execution outcomes).commits.map (·.taskId) = execution.records.map (·.record.id) := by
  have hrecords : ((execution.records.map (·.record)).zip outcomes).map Prod.fst = execution.records.map (·.record) :=
    List.map_fst_zip (by rw [List.length_map, hlength])
  show (taskCommits execution _).map (·.taskId) = _
  unfold taskCommits
  have hids := congrArg (List.map TaskRecord.id) hrecords
  rw [List.map_map, List.map_map] at hids
  rw [List.map_map]
  exact hids

/-- One turn keeps the count of deliveries. -/
theorem delivers_step {process next : RunnerProcess} {label : Reading × RunnerTurn} (h : Delivers process)
    (hstep : Step alloc limits process label next) : Delivers next := by
  have hsound := sound_step h.sound hstep
  obtain ⟨⟨-, henabled⟩, rfl⟩ := hstep
  obtain ⟨reading, turn⟩ := label
  cases turn with
  | input snapshot => exact h.narrows hsound (Subsides.ofQuiet (TaskRunner.quiet_acceptInput snapshot _)).toNarrows rfl rfl
  | control event => exact h.narrows hsound (Subsides.ofQuiet (TaskRunner.quiet_acceptEvent reading.now event _)).toNarrows rfl rfl
  | hook ended => exact h.narrows hsound (Subsides.ofQuiet (TaskRunner.quiet_acceptHook reading.now ended _)).toNarrows rfl rfl
  | admission ids => exact h.narrows hsound (.admitReady reading.permits reading.now henabled.2.1 henabled.2.2) rfl rfl
  | giveBack id => exact h.narrows hsound (.giveBack reading.now id _) rfl rfl
  | answer id answer =>
    exact h.narrows hsound (Subsides.applyDatabase alloc reading.permits reading.now id answer h.sound.names).toNarrows
      rfl rfl
  | shutdown => exact h.narrows hsound (Subsides.shutdown _).toNarrows rfl rfl
  | expire => exact h.narrows hsound (Subsides.expire reading.now _).toNarrows rfl rfl
  | dispatch index id =>
    unfold apply
    simp only
    rcases TaskRunner.dispatch_cases limits reading.permits reading.now index id process.runner h.sound.running with
      ⟨next, heq, hquiet⟩ | ⟨execution, next, heq, hmode, hid, hspawn⟩
    · rw [heq]
      exact h.narrows (h.sound.quiet hquiet) (Subsides.ofQuiet hquiet).toNarrows rfl rfl
    · rw [heq]
      exact h.spawn hmode hspawn (hid ▸ henabled.1) (hid ▸ henabled.2)
  | finish index outcomes =>
    obtain ⟨execution, hget, hlength, -⟩ := henabled
    unfold apply at hsound ⊢
    simp only [hget] at hsound ⊢
    exact h.finish hget rfl (completion_tasks execution hlength) reading.now hsound

/-- In every run, a task has at most as many outcomes accepted as it was started, and fewer while it is listed as
    running: an invocation that was replaced, aborted or already ended adds none. -/
theorem delivered_once_per_start {conf : RunnerConf} {node : Uuid} {now : Instant} {clustered : Bool}
    {turns : List (Reading × RunnerTurn)} {process : RunnerProcess}
    (hrun : Run (Step alloc limits) (start conf node now clustered) turns process) (id : TaskId) :
    (process.ledger.accepted.countP fun commit => commit.taskId = id) ≤ process.ledger.started.count id ∧
    ∀ invocationId, process.runner.runningTasks.lookup id = some invocationId →
      (process.ledger.accepted.countP fun commit => commit.taskId = id) < process.ledger.started.count id := by
  have hstart : Delivers (start conf node now clustered) := by
    refine ⟨sound_start conf node now clustered, List.nodup_nil, ?_, ?_⟩
    · intro id invocation hl
      cases clustered <;> simp [start, TaskRunner.new, TaskRunner.scheduleHeartbeat] at hl
    · intro id
      cases clustered <;> exact Nat.le_refl 0
  have hdelivers : Delivers process := hrun.inv (fun _ _ _ h hs => delivers_step h hs) hstart
  have hcount := hdelivers.counted id
  unfold Ledger.accepts at hcount
  refine ⟨by omega, fun invocationId htask => ?_⟩
  obtain ⟨invocation, hlookup, hmem⟩ := (hdelivers.sound.running id invocationId).mp htask
  have hawaited : 0 < process.runner.awaited id := by
    unfold TaskRunner.awaited
    rw [htask]
    simp only [hlookup, Option.map_some, Option.getD_some]
    exact List.count_pos_iff.mpr hmem
  omega

end

attribute [local instance] flatLayout anySerde in
/-- The task was started once and its outcome accepted once. -/
theorem delivered_once_per_start_delivery : delivering.ledger.started = [⟨1⟩] ∧
    (delivering.ledger.accepted.countP fun commit => commit.taskId = ⟨1⟩) ≤ delivering.ledger.started.count ⟨1⟩ :=
  ⟨rfl, (delivered_once_per_start delivering_run ⟨1⟩).1⟩

end RunnerProcess

end Vyuh.Tasks
