import Vyuh.Tasks.Runner.Accounting

/-! Contact liveness of a runner: its terminal deadline is armed exactly while an operation is unresolved, so a runner
    that waits for no answer never dies of it. -/

namespace Vyuh.Tasks
open Lib

namespace TaskRunner

/-- The deadline is armed exactly while an operation is unresolved. -/
def Armed (runner : TaskRunner) : Prop := runner.deathAt.isSome = true ↔ runner.requests ≠ []

namespace Armed

variable {runner next : TaskRunner}

theorem ofSame (h : runner.Armed) (hdeadline : next.deathAt = runner.deathAt)
    (hflight : next.inFlight = runner.inFlight) : next.Armed := by
  have hrequests : next.requests = runner.requests := congrArg requestsOf hflight
  unfold Armed at h ⊢
  rw [hdeadline, hrequests]
  exact h

theorem quiet (h : runner.Armed) (hq : Quiet runner next) : next.Armed := h.ofSame hq.deadline hq.inFlight

theorem sheds {lost : List TaskLane} {dropped : List TaskCommit} (h : runner.Armed)
    (hs : Sheds lost dropped runner next) : next.Armed := h.ofSame hs.deadline hs.inFlight

/-- Nothing is waited for. -/
theorem ofIdle (hdeadline : runner.deathAt = none) (hrequests : runner.requests = []) : runner.Armed := by
  unfold Armed
  rw [hdeadline, hrequests]
  simp

theorem leave (mode : RunMode) (runner : TaskRunner) : (runner.leave mode).Armed := ofIdle rfl rfl

theorem expire (h : runner.Armed) (now : Instant) : (runner.expire now).Armed := by
  unfold TaskRunner.expire
  split
  · exact leave .dead runner
  · exact h

/-! ### Operations -/

/-- A new operation arms the deadline. -/
theorem startDatabase (now : Instant) (id : Uuid) (request : DbRequest) (runner : TaskRunner) :
    (runner.startDatabase now id request).Armed :=
  ⟨fun _ => List.cons_ne_nil _ _, fun _ => rfl⟩

theorem setPhase (h : runner.Armed) (id : Uuid) (phase : DbPhase) : (runner.setPhase id phase).Armed := by
  have hlength := (requests_setPhase id phase runner).length_eq
  have hdeadline : (runner.setPhase id phase).deathAt = runner.deathAt := by
    unfold TaskRunner.setPhase
    split <;> rfl
  unfold Armed at h ⊢
  rw [hdeadline, h, ← List.length_pos_iff, ← List.length_pos_iff, hlength]

theorem retryDatabase (h : runner.Armed) (id : Uuid) : (runner.retryDatabase id).Armed := by
  unfold TaskRunner.retryDatabase
  split
  · exact h.setPhase id .recovering
  · exact h

theorem databaseFailed (h : runner.Armed) (now : Instant) (id : Uuid) (failure : DbFailure) :
    (runner.databaseFailed now id failure).Armed := by
  unfold TaskRunner.databaseFailed
  split
  · exact h.setPhase id _
  · exact leave .faulted runner

/-- An acknowledgement renews the deadline if something else is still unresolved, and disarms it if not. -/
theorem resolved (now : Instant) (id : Uuid) (runner : TaskRunner) : (runner.resolved now id).Armed := by
  have hsize : (runner.resolved now id).requests.length = Dict.size (runner.inFlight.erase id) := by
    unfold requests TaskRunner.resolved Dict.size Dict.toList
    simp only [List.length_map]
  unfold Armed
  rw [← List.length_pos_iff, hsize]
  show (if Dict.size (runner.inFlight.erase id) = 0 then none else some _).isSome = true ↔ _
  split
  · next hzero => simp [hzero]
  · next hpos => simpa using Nat.pos_of_ne_zero hpos

/-! ### Turns -/

theorem applyResponse [RecordLayout] {alloc : Allocator} {permits : Permits} {now : Instant} {request : DbRequest}
    {response : DbResponse} (h : runner.Armed)
    (hok : runner.applyResponse alloc permits now request response = .ok next) : next.Armed := by
  have hpoll (claims : List LaneClaim) (poll : TaskPoll)
      (hok : (do
        validatePoll claims poll
        return runner.applyPoll alloc permits claims poll now : Except TaskRuntimeError TaskRunner) = .ok next) :
      next.Armed := by
    obtain ⟨-, -, heq⟩ := Lib.Step.except_bind_ok.mp hok
    obtain ⟨dropped, hsheds⟩ := sheds_applyPoll alloc permits claims poll now runner
    exact Except.ok.inj heq ▸ h.sheds hsheds
  unfold TaskRunner.applyResponse at hok
  split at hok
  · obtain rfl := Except.ok.inj hok
    exact h.ofSame rfl rfl
  · exact Except.ok.inj hok ▸ leave .retired runner
  · obtain rfl := Except.ok.inj hok
    exact ofIdle rfl rfl
  · exact hpoll _ _ hok
  · exact hpoll _ _ hok
  · next commits _ _ result =>
    obtain rfl := Except.ok.inj hok
    have hrelease : (runner.release commits).Armed := by
      rw [release_fold]
      exact h.ofSame rfl rfl
    exact hrelease.quiet (Sound.quiet_applyFlush alloc now commits result runner)
  · simp at hok

theorem applyDatabase [RecordLayout] (alloc : Allocator) (permits : Permits) (h : runner.Armed) (now : Instant)
    (id : Uuid) (answer : Except DbFailure DbResponse) : (runner.applyDatabase alloc permits now id answer).Armed := by
  unfold TaskRunner.applyDatabase
  simp only
  have hexpire := h.expire now
  generalize runner.expire now = runner at hexpire
  split
  · exact hexpire
  · split
    · exact hexpire
    · next failure _ => exact hexpire.databaseFailed now id failure
    · split
      · next error _ => exact hexpire.databaseFailed now id _
      · next next hok =>
        split
        · exact hexpire.applyResponse hok
        · exact resolved now id next

theorem admitPass (permits : Permits) (h : runner.Armed) (now : Instant) (id : Uuid) :
    (runner.admitPass permits now id).2.Armed := by
  rcases admitPass_cases permits now id runner with ⟨retry, heq⟩ | hquiet | ⟨request, next, -, -, -, heq⟩
  · rw [heq]
    exact h.retryDatabase retry
  · exact h.quiet hquiet
  · rw [heq]
    exact startDatabase now id request next

theorem admitReady (permits : Permits) (h : runner.Armed) (now : Instant) {ids : List Uuid} (hnodup : ids.Nodup)
    (hfresh : ∀ id ∈ ids, runner.inFlight.lookup id = none) : (runner.admitReady permits now ids).Armed := by
  refine admitReady_inv (I := Armed) ?_ (h.expire now) h hnodup hfresh
  intro runner id harmed _
  exact harmed.admitPass permits now id

theorem giveBack (h : runner.Armed) (now : Instant) (id : Uuid) : (runner.giveBack now id).Armed := by
  unfold TaskRunner.giveBack
  split
  · exact startDatabase now id .giveBack runner
  · exact h

theorem shutdown (h : runner.Armed) : runner.shutdown.Armed := by
  unfold TaskRunner.shutdown
  split
  · exact h
  · exact h.ofSame rfl rfl

theorem complete (h : runner.Armed) (now : Instant) (completion : Completion) :
    (runner.acceptCompletion now completion).Armed := by
  unfold acceptCompletion
  split
  · exact h
  · exact h.ofSame rfl rfl

theorem spawn {execution : TaskExecution} (h : runner.Armed) (hspawn : Spawns execution runner next) : next.Armed := by
  obtain ⟨mid, hsheds, -, rfl⟩ := hspawn
  exact (h.sheds hsheds).ofSame rfl rfl

end Armed

end TaskRunner

/-! ### Runs -/

namespace RunnerProcess

section

variable [RecordLayout] [Serde] {alloc : Allocator} {limits : OutcomeLimits}

theorem armed_step {process next : RunnerProcess} {label : Reading × RunnerTurn}
    (hsound : Sound process.runner process.ledger) (h : process.runner.Armed)
    (hstep : Step alloc limits process label next) : next.runner.Armed := by
  obtain ⟨⟨-, henabled⟩, rfl⟩ := hstep
  obtain ⟨reading, turn⟩ := label
  cases turn with
  | input snapshot => exact h.quiet (TaskRunner.quiet_acceptInput snapshot _)
  | control event => exact h.quiet (TaskRunner.quiet_acceptEvent reading.now event _)
  | hook ended => exact h.quiet (TaskRunner.quiet_acceptHook reading.now ended _)
  | admission ids => exact h.admitReady reading.permits reading.now henabled.2.1 henabled.2.2
  | giveBack id => exact h.giveBack reading.now id
  | answer id answer => exact h.applyDatabase alloc reading.permits reading.now id answer
  | shutdown => exact h.shutdown
  | expire => exact h.expire reading.now
  | dispatch index id =>
    unfold apply
    simp only
    rcases TaskRunner.dispatch_cases limits reading.permits reading.now index id process.runner hsound.running with
      ⟨next, heq, hquiet⟩ | ⟨execution, next, heq, -, -, hspawn⟩
    · rw [heq]
      exact h.quiet hquiet
    · rw [heq]
      exact h.spawn hspawn
  | finish index outcomes =>
    obtain ⟨execution, hget, -, -⟩ := henabled
    unfold apply
    simp only [hget]
    exact h.complete reading.now _

/-- In every state a run reaches, the terminal deadline is armed exactly while an operation is unresolved; without
    one, no clock makes the runner leave. -/
theorem deadline_armed_iff {conf : RunnerConf} {node : Uuid} {now : Instant} {clustered : Bool}
    {turns : List (Reading × RunnerTurn)} {process : RunnerProcess}
    (hrun : Run (Step alloc limits) (start conf node now clustered) turns process) :
    (process.runner.deathAt.isSome = true ↔ process.runner.requests ≠ []) ∧
    (process.runner.requests = [] → ∀ clock, process.runner.expire clock = process.runner) := by
  have hstart : (start conf node now clustered).runner.Armed := by
    cases clustered <;> exact .ofIdle rfl rfl
  have hinv : Sound process.runner process.ledger ∧ process.runner.Armed :=
    hrun.inv (I := fun process => Sound process.runner process.ledger ∧ process.runner.Armed)
      (fun _ _ _ h hstep => ⟨sound_step h.1 hstep, armed_step h.1 h.2 hstep⟩)
      ⟨sound_start conf node now clustered, hstart⟩
  have harmed := hinv.2
  unfold TaskRunner.Armed at harmed
  refine ⟨harmed, fun hnone clock => ?_⟩
  have hdeadline : process.runner.deathAt = none := by
    rw [← Option.not_isSome_iff_eq_none, harmed]
    exact not_not.mpr hnone
  unfold TaskRunner.expire
  rw [hdeadline, Option.any_none, Bool.and_false, if_neg Bool.false_ne_true]

end

attribute [local instance] flatLayout anySerde in
/-- With the outcome on its way, the deadline is armed. -/
theorem deadline_armed_iff_delivery : delivering.runner.deathAt.isSome = true ∧
    (delivering.runner.deathAt.isSome = true ↔ delivering.runner.requests ≠ []) :=
  ⟨rfl, (deadline_armed_iff delivering_run).1⟩

end RunnerProcess

end Vyuh.Tasks
