import Vyuh.Tasks.Store.Memory.Admission
import Vyuh.Tasks.Store.Memory.RetryBudget

/-! How operations count attempts. Every rewrite of a stored record but a grant leaves its attempts and
    its lane alone and either keeps the attempts of its step or starts a new step (`Rests`). A grant adds
    one attempt to both counts, so a record whose lifetime attempts are those of a checkpoint still stands
    at the start of a step. -/

namespace Vyuh.Tasks.Memory
open Lib

/-! ### Rewrites of one record -/

/-- A checkpoint is the start of a step. -/
def Parked (r : TaskRecord) : Prop := r.status = .suspended → r.stepAttempts = 0

/-- What every rewrite does to the counts: without a new attempt the step's attempts stay or start over,
    and only the start of a step is suspended. -/
structure Counts (r r' : TaskRecord) : Prop where
  id : r'.id = r.id
  attempts : r.attempts ≤ r'.attempts
  steps : r'.attempts = r.attempts → r'.stepAttempts = r.stepAttempts ∨ r'.stepAttempts = 0
  parked : Parked r → Parked r'

/-- A rewrite that grants nothing and keeps the lane. -/
structure Rests (r r' : TaskRecord) : Prop extends Counts r r' where
  lane : r'.lane = r.lane
  ungranted : r'.attempts = r.attempts

theorem Counts.refl (r : TaskRecord) : Counts r r := ⟨rfl, le_refl _, fun _ => .inl rfl, fun h => h⟩

theorem Counts.trans {a b c : TaskRecord} (h : Counts a b) (h' : Counts b c) : Counts a c where
  id := h'.id.trans h.id
  attempts := le_trans h.attempts h'.attempts
  steps heq := by
    have hab : b.attempts = a.attempts := le_antisymm (heq ▸ h'.attempts) h.attempts
    rcases h'.steps (heq.trans hab.symm) with hs | hs
    · rw [hs]
      exact h.steps hab
    · exact .inr hs
  parked ha := h'.parked (h.parked ha)

theorem Rests.refl (r : TaskRecord) : Rests r r := ⟨.refl r, rfl, rfl⟩

theorem Rests.trans {a b c : TaskRecord} (h : Rests a b) (h' : Rests b c) : Rests a c :=
  ⟨h.toCounts.trans h'.toCounts, h'.lane.trans h.lane, h'.ungranted.trans h.ungranted⟩

theorem rests_trans {a b c : List TaskRecord} (h : Rows Rests a b) (h' : Rows Rests b c) :
    Rows Rests a c :=
  rows_trans (fun _ _ _ h h' => h.trans h') h h'

/-- A rewrite of other fields. -/
theorem Rests.of_eq {r r' : TaskRecord} (hid : r'.id = r.id) (hlane : r'.lane = r.lane)
    (ha : r'.attempts = r.attempts) (hs : r'.stepAttempts = r.stepAttempts)
    (hstatus : r'.status = .suspended → r.status = .suspended) : Rests r r' where
  id := hid
  attempts := le_of_eq ha.symm
  steps _ := .inl hs
  parked hp h := hs.trans (hp (hstatus h))
  lane := hlane
  ungranted := ha

theorem Released.rests {now : DateTime} {r r' : TaskRecord} (h : Released now r r') : Rests r r' := by
  rcases h with rfl | ⟨-, rfl⟩
  · exact .refl r'
  · exact .of_eq rfl rfl rfl rfl fun h => h

/-- A grant is an attempt. -/
theorem grant_counts {node : Uuid} {now : DateTime} {r r' : TaskRecord} {u : Unit}
    (h : grant node now r = (.ok u, r')) :
    Counts r r' ∧ r'.lane = r.lane ∧ r'.stepAttempts = r.stepAttempts + 1 := by
  obtain ⟨-, -, rfl⟩ := grant_ok.mp h
  refine ⟨⟨rfl, ?_, fun heq => ?_, fun _ hp => nomatch hp⟩, rfl, rfl⟩
  · exact le_of_lt (Int.lt_succ r.attempts)
  · exact absurd heq (ne_of_gt (Int.lt_succ r.attempts))

section

variable [Serde] {now : DateTime}

/-- An outcome keeps the attempts of the step or starts a new one; a checkpoint starts one. -/
theorem applyTransition_steps {outcome : TaskOutcome} {policy : TaskRetry} {r t : TaskRecord} {u : Unit}
    (h : applyTransition outcome policy now r = (.ok u, t)) :
    (t.stepAttempts = r.stepAttempts ∨ t.stepAttempts = 0) ∧ Parked t := by
  cases outcome with
  | complete =>
    obtain rfl := Step.modify_ok.mp h
    exact ⟨.inl rfl, fun hp => (by cases hp)⟩
  | completeWith output =>
    rw [applyTransition] at h
    cases hv : validateOutput output <;>
    · rw [hv] at h
      obtain rfl := Step.modify_ok.mp h
      exact ⟨.inl rfl, fun hp => (by cases hp)⟩
  | suspend state | spawn state _ | all state _ =>
    obtain rfl := Step.modify_ok.mp h
    exact ⟨.inr rfl, fun _ => rfl⟩
  | sleep state delay =>
    obtain ⟨deadline, rfl⟩ := sleep_ok h
    exact ⟨.inr rfl, fun hp => (by cases hp)⟩
  | retry error =>
    rcases retry_ok h with rfl | ⟨deadline, rfl⟩
    · exact ⟨.inl rfl, fun hp => (by cases hp)⟩
    · exact ⟨.inl rfl, fun hp => (by cases hp)⟩
  | fail error =>
    obtain rfl := Step.modify_ok.mp h
    exact ⟨.inl rfl, fun hp => (by cases hp)⟩

theorem Concludes.rests {conf : TaskStoreConf} {policy : TaskRetry} {outcome : TaskOutcome}
    {r t : TaskRecord} (h : Concludes conf policy now outcome r t) : Rests r t := by
  have hkept := h.concluded
  obtain ⟨applied, ha, hf⟩ := h
  simp only [applyOutcome, Step.bind_ok, Step.modify_ok] at ha
  obtain ⟨_, mid, hm, rfl⟩ := ha
  obtain ⟨hsteps, hparked⟩ := applyTransition_steps hm
  obtain ⟨⟨expiry, rfl⟩, -⟩ := finalizeIdempotency_ok hf
  exact ⟨⟨hkept.id, le_of_eq hkept.attempts.symm, fun _ => hsteps, fun _ => hparked⟩, hkept.lane,
    hkept.attempts⟩

/-! ### Turns -/

/-- The events of a turn without a claimer grant nothing. -/
theorem does_rests {turn turn' : Turn} {event : Event} (h : Does none now turn event turn') :
    Rows Rests turn.state.tasks turn'.state.tasks := by
  cases h with
  | @conclude _ old new conf policy outcome mark stored active concludes =>
    refine rows_set Rests.refl _ _ _ _ stored (Rests.trans (b := marked mark old) ?_ concludes.rests)
    exact .of_eq rfl rfl rfl rfl fun h => h
  | grant who stored due wanted granted => exact nomatch who
  | release stored running =>
    exact rows_set Rests.refl _ _ _ _ stored (.of_eq rfl rfl rfl rfl fun h => h)
  | coordinate rates locks => exact rows_refl Rests.refl _

theorem works_rests {turn turn' : Turn} {tasks : List TaskRecord} (h : Works none now turn tasks turn') :
    Rows Rests turn.state.tasks turn'.state.tasks := by
  obtain ⟨events, hrun, -⟩ := h
  induction hrun with
  | nil turn => exact rows_refl Rests.refl _
  | cons first _ ih => exact rests_trans (does_rests first) ih

omit [Serde] in
theorem fold_rests {α : Type} (f : MemoryState → α → MemoryState) (l : List α) (state : MemoryState)
    (h : ∀ s, ∀ a ∈ l, Rows Rests s.tasks (f s a).tasks) :
    Rows Rests state.tasks (l.foldl f state).tasks :=
  foldl_rel (R := fun s s' : MemoryState => Rows Rests s.tasks s'.tasks)
    (fun s => rows_refl Rests.refl s.tasks) (fun _ _ _ => rests_trans) f l state h

omit [Serde] in
/-- Waking one of the rows. -/
theorem wake_rests (p : TaskRecord → Bool) (f : TaskRecord → TaskRecord) (rows : List TaskRecord)
    (h : ∀ r, Rests r (f r)) : Rows Rests rows (modifyFirst p f rows) :=
  modifyFirst_rows _ _ Rests.refl (fun r _ => h r) rows

/-- Settling grants nothing, neither to the rows nor to the children stored behind them. -/
theorem settleTurn_rests (turn : Turn) (children : List TaskRecord) (waits : List (TaskId × TaskWait))
    (phases : FMap String LaneOwnerPhase) (poll : TaskPoll) (commits : List TaskCommit) (now : DateTime) :
    Rows Rests (turn.state.tasks ++ children)
      (settleTurn turn children waits phases poll commits now).1.tasks := by
  obtain ⟨cleared, locks, hs⟩ := settleTurn_delivered turn children waits phases poll commits now
  have hwake (r : TaskRecord) : Rests r (wake now r) := .of_eq rfl rfl rfl rfl fun h => nomatch h
  have hmaterialized : Rows Rests turn.state.tasks (materialized turn.state poll.tasks).tasks := by
    refine fold_rests _ _ _ fun s snapshot _ => ?_
    rcases materializeOne_cases s snapshot with ⟨-, h⟩ | ⟨wait, -, h⟩ <;> rw [h]
    · exact rows_refl Rests.refl _
    · exact wake_rests _ _ _ fun r => .of_eq rfl rfl rfl rfl fun h => h
  have hinstalled : Rows Rests (materialized turn.state poll.tasks).tasks
      (installed now (materialized turn.state poll.tasks) waits).tasks := by
    refine fold_rests _ _ _ fun s entry _ => ?_
    rcases installOne_cases now s entry with ⟨h, -⟩ | ⟨-, h⟩ <;> rw [h]
    · exact rows_refl Rests.refl _
    · exact wake_rests _ _ _ hwake
  have hdelivered (s : MemoryState) (grouped : List Grouped) :
      Rows Rests s.tasks (delivered now s grouped).tasks := by
    refine fold_rests _ _ _ fun s entry _ => ?_
    have h := deliverOne_cases now s entry
    generalize deliverOne now s entry = s' at h
    cases h with
    | nobody hf => exact rows_refl Rests.refl _
    | waiting hf hw hd => exact rows_refl Rests.refl _
    | direct hf hw => exact wake_rests _ _ _ fun r => .of_eq rfl rfl rfl rfl fun h => nomatch h
    | underflow hf hw hd => exact wake_rests _ _ _ fun r => .of_eq rfl rfl rfl rfl fun h => nomatch h
    | settled hf hw hd => exact wake_rests _ _ _ fun r => .of_eq rfl rfl rfl rfl fun h => nomatch h
  rw [hs]
  refine rests_trans ?_ (hdelivered _ _)
  exact (rests_trans hmaterialized hinstalled).append (rows_refl Rests.refl children)

end

end Vyuh.Tasks.Memory
