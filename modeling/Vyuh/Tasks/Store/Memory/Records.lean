import Vyuh.Tasks.Store.Memory.Operations

/-! What the mutations of one record keep and establish. Every lifecycle mutation keeps the record's
    identity (`Static`), whether it succeeds or fails half way; the `_ok` lemmas say what a successful
    one leaves behind. -/

namespace Vyuh.Tasks.Memory
open Lib

/-- The fields no lifecycle transition of a turn rewrites. -/
structure Static (r r' : TaskRecord) : Prop where
  id : r'.id = r.id
  parentId : r'.parentId = r.parentId
  rootId : r'.rootId = r.rootId
  kind : r'.kind = r.kind
  name : r'.name = r.name
  input : r'.input = r.input
  cancelled : r'.cancelled = r.cancelled
  lane : r'.lane = r.lane
  idempotencyKey : r'.idempotencyKey = r.idempotencyKey
  idempotencyFingerprint : r'.idempotencyFingerprint = r.idempotencyFingerprint
  createdAt : r'.createdAt = r.createdAt

instance : Std.Refl Static where
  refl _ := by constructor <;> rfl

instance : IsTrans TaskRecord Static where
  trans _ _ _ h h' := by
    constructor
    · exact h'.id.trans h.id
    · exact h'.parentId.trans h.parentId
    · exact h'.rootId.trans h.rootId
    · exact h'.kind.trans h.kind
    · exact h'.name.trans h.name
    · exact h'.input.trans h.input
    · exact h'.cancelled.trans h.cancelled
    · exact h'.lane.trans h.lane
    · exact h'.idempotencyKey.trans h.idempotencyKey
    · exact h'.idempotencyFingerprint.trans h.idempotencyFingerprint
    · exact h'.createdAt.trans h.createdAt

/-! ### Lifecycle mutations -/

theorem static_complete (status : TaskStatus) (now : DateTime) (r : TaskRecord) :
    Static r (complete status now r) := by constructor <;> rfl

theorem static_failTask (error : String) (now : DateTime) (r : TaskRecord) :
    Static r (failTask error now r) := by constructor <;> rfl

theorem keeps_sleep (state : String) (delay : Duration) (now : DateTime) :
    Step.Keeps Static (sleep state delay now) := by
  refine Step.Keeps.bind (Step.Keeps.modify fun r => by constructor <;> rfl) fun _ => ?_
  refine Step.Keeps.bind (Step.Keeps.lift _) fun _ => ?_
  exact Step.Keeps.modify fun r => by constructor <;> rfl

theorem keeps_retry (policy : TaskRetry) (error : String) (now : DateTime) :
    Step.Keeps Static (retry policy error now) := by
  refine Step.Keeps.bind (Step.Keeps.modify fun r => by constructor <;> rfl) fun _ => ?_
  refine Step.Keeps.bind Step.Keeps.get fun task => ?_
  refine Step.Keeps.bind (Step.Keeps.lift _) fun exhausted => ?_
  cases exhausted with
  | true => exact Step.Keeps.modify (static_complete .failed now)
  | false =>
    refine Step.Keeps.bind (Step.Keeps.modify fun r => by constructor <;> rfl) fun _ => ?_
    refine Step.Keeps.bind (Step.Keeps.lift _) fun _ => ?_
    refine Step.Keeps.bind (Step.Keeps.lift _) fun _ => ?_
    exact Step.Keeps.modify fun r => by constructor <;> rfl

theorem keeps_finalizeIdempotency (conf : TaskStoreConf) (now : DateTime) :
    Step.Keeps Static (finalizeIdempotency conf now) := by
  refine Step.Keeps.bind Step.Keeps.get fun task => ?_
  split
  · exact Step.Keeps.pure ()
  · split
    · exact Step.Keeps.pure ()
    · cases conf.idempotencyFor task.name with
      | none => exact Step.Keeps.fail _
      | some retention =>
        cases retention with
        | activeOnly => exact Step.Keeps.modify fun r => by constructor <;> rfl
        | retainFor duration =>
          exact Step.Keeps.bind (Step.Keeps.lift _) fun _ =>
            Step.Keeps.modify fun r => by constructor <;> rfl

theorem keeps_grant (node : Uuid) (now : DateTime) : Step.Keeps Static (grant node now) := by
  refine Step.Keeps.bind Step.Keeps.get fun record => ?_
  cases checkedAdd32 record.attempts 1 with
  | none => exact Step.Keeps.fail _
  | some a =>
    refine Step.Keeps.bind (Step.Keeps.modify fun r => by constructor <;> rfl) fun _ => ?_
    cases checkedAdd32 record.stepAttempts 1 with
    | none => exact Step.Keeps.fail _
    | some s => exact Step.Keeps.modify fun r => by constructor <;> rfl

section

variable [Serde]

theorem keeps_applyTransition (outcome : TaskOutcome) (policy : TaskRetry) (now : DateTime) :
    Step.Keeps Static (applyTransition outcome policy now) := by
  cases outcome with
  | complete => exact Step.Keeps.modify fun r => by constructor <;> rfl
  | completeWith output =>
    rw [applyTransition]
    cases validateOutput output with
    | ok u => exact Step.Keeps.modify fun r => by constructor <;> rfl
    | error e => exact Step.Keeps.modify (static_failTask _ now)
  | suspend state => exact Step.Keeps.modify fun r => by constructor <;> rfl
  | spawn state child => exact Step.Keeps.modify fun r => by constructor <;> rfl
  | all state children => exact Step.Keeps.modify fun r => by constructor <;> rfl
  | sleep state delay => exact keeps_sleep state delay now
  | retry error => exact keeps_retry policy error now
  | fail error => exact Step.Keeps.modify (static_failTask error now)

theorem keeps_applyOutcome (outcome : TaskOutcome) (policy : TaskRetry) (now : DateTime) :
    Step.Keeps Static (applyOutcome outcome policy now) :=
  Step.Keeps.bind (keeps_applyTransition outcome policy now) fun _ =>
    Step.Keeps.modify fun r => by constructor <;> rfl

/-! ### Concluded executions -/

omit [Serde] in
theorem sleep_ok {state : String} {delay : Duration} {now : DateTime} {r t : TaskRecord} {u : Unit}
    (h : sleep state delay now r = (.ok u, t)) :
    ∃ deadline, t = { r with stepAttempts := 0, lastResult := none, status := .pending,
                             state := some state, readyAt := deadline } := by
  simp only [sleep, Step.bind_ok, Step.modify_ok, Step.lift_ok] at h
  obtain ⟨_, _, rfl, deadline, _, ⟨_, rfl⟩, rfl⟩ := h
  exact ⟨deadline, rfl⟩

omit [Serde] in
/-- A retry either fails the task for good or schedules its next attempt. -/
theorem retry_ok {policy : TaskRetry} {error : String} {now : DateTime} {r t : TaskRecord} {u : Unit}
    (h : retry policy error now r = (.ok u, t)) :
    t = complete .failed now { r with lastResult := some (failure r.id error) } ∨
      ∃ deadline, t = { r with lastResult := some (failure r.id error), status := .pending,
                               readyAt := deadline } := by
  simp only [retry, Step.bind_ok, Step.modify_ok, Step.lift_ok, Step.get_ok] at h
  obtain ⟨_, _, rfl, _, _, ⟨rfl, rfl⟩, exhausted, _, ⟨_, rfl⟩, h⟩ := h
  cases exhausted with
  | true =>
    obtain rfl := Step.modify_ok.mp h
    exact .inl rfl
  | false =>
    rw [if_neg Bool.false_ne_true] at h
    simp only [Step.bind_ok, Step.modify_ok, Step.lift_ok] at h
    obtain ⟨_, _, rfl, _, _, ⟨_, rfl⟩, deadline, _, ⟨_, rfl⟩, rfl⟩ := h
    exact .inr ⟨deadline, rfl⟩

/-- What every transition table entry leaves alone and what it always establishes. -/
structure Transits (r t : TaskRecord) : Prop extends Static r t where
  attempts : t.attempts = r.attempts
  expiry : t.idempotencyExpiresAt = r.idempotencyExpiresAt
  stopped : t.status ≠ .running
  result : t.status.terminal = true → t.lastResult.isSome = true

theorem applyTransition_ok {outcome : TaskOutcome} {policy : TaskRetry} {now : DateTime}
    {r t : TaskRecord} {u : Unit} (h : applyTransition outcome policy now r = (.ok u, t)) :
    Transits r t := by
  have hs : Static r t := by
    have := keeps_applyTransition outcome policy now r
    rwa [h] at this
  cases outcome with
  | complete =>
    obtain rfl := Step.modify_ok.mp h
    exact ⟨hs, rfl, rfl, by simp [complete], fun _ => rfl⟩
  | completeWith output =>
    rw [applyTransition] at h
    cases hv : validateOutput output with
    | ok _ =>
      rw [hv] at h
      obtain rfl := Step.modify_ok.mp h
      exact ⟨hs, rfl, rfl, by simp [complete], fun _ => rfl⟩
    | error e =>
      rw [hv] at h
      obtain rfl := Step.modify_ok.mp h
      exact ⟨hs, rfl, rfl, by simp [failTask, complete], fun _ => rfl⟩
  | suspend state | spawn state _ | all state _ =>
    obtain rfl := Step.modify_ok.mp h
    exact ⟨hs, rfl, rfl, by simp [suspend], fun ht => nomatch ht⟩
  | sleep state delay =>
    obtain ⟨deadline, rfl⟩ := sleep_ok h
    exact ⟨hs, rfl, rfl, by simp, fun ht => nomatch ht⟩
  | retry error =>
    rcases retry_ok h with rfl | ⟨deadline, rfl⟩
    · exact ⟨hs, rfl, rfl, by simp [complete], fun _ => rfl⟩
    · exact ⟨hs, rfl, rfl, by simp, fun ht => nomatch ht⟩
  | fail error =>
    obtain rfl := Step.modify_ok.mp h
    exact ⟨hs, rfl, rfl, by simp [failTask, complete], fun _ => rfl⟩

omit [Serde] in
/-- Key retention touches the expiry of a terminal record only. -/
theorem finalizeIdempotency_ok {conf : TaskStoreConf} {now : DateTime} {r t : TaskRecord} {u : Unit}
    (h : finalizeIdempotency conf now r = (.ok u, t)) :
    (∃ expiry, t = { r with idempotencyExpiresAt := expiry }) ∧ (r.status.terminal = false → t = r) := by
  simp only [finalizeIdempotency, Step.bind_ok, Step.get_ok] at h
  obtain ⟨_, _, ⟨rfl, rfl⟩, h⟩ := h
  cases ht : r.status.terminal with
  | false =>
    rw [ht, Bool.not_false, if_pos rfl] at h
    obtain rfl := (Step.pure_ok.mp h).2
    exact ⟨⟨r.idempotencyExpiresAt, rfl⟩, fun _ => rfl⟩
  | true =>
    refine ⟨?_, fun hf => (by cases hf)⟩
    rw [ht, Bool.not_true, if_neg Bool.false_ne_true] at h
    split at h
    · obtain rfl := (Step.pure_ok.mp h).2
      exact ⟨r.idempotencyExpiresAt, rfl⟩
    · cases hp : conf.idempotencyFor r.name with
      | none => rw [hp] at h; exact absurd h Step.fail_ok
      | some retention =>
        rw [hp] at h
        cases retention with
        | activeOnly =>
          obtain rfl := Step.modify_ok.mp h
          exact ⟨none, rfl⟩
        | retainFor duration =>
          simp only [Step.bind_ok, Step.lift_ok, Step.modify_ok] at h
          obtain ⟨expiry, _, ⟨_, rfl⟩, rfl⟩ := h
          exact ⟨expiry, rfl⟩

/-- The row an outcome is applied to: a cancellation marks it first. -/
def marked (mark : Bool) (row : TaskRecord) : TaskRecord :=
  { row with cancelled := row.cancelled || mark }

omit [Serde] in
theorem marked_false (row : TaskRecord) : marked false row = row := by rw [marked, Bool.or_false]

/-- The whole of a concluded execution: the transition, then key retention. -/
def Concludes (conf : TaskStoreConf) (policy : TaskRetry) (now : DateTime) (outcome : TaskOutcome)
    (r t : TaskRecord) : Prop :=
  ∃ applied, applyOutcome outcome policy now r = (.ok (), applied) ∧
    finalizeIdempotency conf now applied = (.ok (), t)

/-- What a concluded execution leaves behind. -/
structure Concluded (now : DateTime) (r t : TaskRecord) : Prop extends Static r t where
  attempts : t.attempts = r.attempts
  stopped : t.status ≠ .running
  owner : t.nodeId = none
  updated : t.updatedAt = now
  result : t.status.terminal = true → t.lastResult.isSome = true
  expiry : t.status.terminal = false → t.idempotencyExpiresAt = r.idempotencyExpiresAt

theorem Concludes.concluded {conf : TaskStoreConf} {policy : TaskRetry} {now : DateTime}
    {outcome : TaskOutcome} {r t : TaskRecord} (h : Concludes conf policy now outcome r t) :
    Concluded now r t := by
  obtain ⟨applied, ha, hf⟩ := h
  simp only [applyOutcome, Step.bind_ok, Step.modify_ok] at ha
  obtain ⟨_, mid, hm, rfl⟩ := ha
  have ht := applyTransition_ok hm
  obtain ⟨⟨expiry, rfl⟩, hkeep⟩ := finalizeIdempotency_ok hf
  refine ⟨⟨ht.id, ht.parentId, ht.rootId, ht.kind, ht.name, ht.input, ht.cancelled, ht.lane,
    ht.idempotencyKey, ht.idempotencyFingerprint, ht.createdAt⟩, ht.attempts, ht.stopped, rfl, rfl,
    ht.result, fun hn => ?_⟩
  exact (congrArg (·.idempotencyExpiresAt) (hkeep hn)).trans ht.expiry

end

end Vyuh.Tasks.Memory
