import Vyuh.Tasks.Store.Memory.LaneServing

/-! Which executions a claim turn grants against a lane's retry budget. The first pass finalizes the
    exhausted tasks of the first `limit` places; whatever then moves up from behind them is claimed
    without a second look. So the budget is kept exactly when no exhausted task behind those places is
    reached. -/

namespace Vyuh.Tasks.Memory
open Lib

/-- A task whose step has had all the attempts its lane allows. -/
def atLimit (retry : TaskRetry) (task : TaskRecord) : Prop := (retry.maxAttempts : ℤ) ≤ task.stepAttempts

instance (retry : TaskRetry) (task : TaskRecord) : Decidable (atLimit retry task) :=
  inferInstanceAs (Decidable (_ ≤ _))

/-- The queue the second pass selects from. -/
def LaneWindow.offered (w : LaneWindow) (state : MemoryState) : List ℕ :=
  selectable state.tasks (w.queue state.tasks) (w.reserved state)

/-- No exhausted task behind the first `limit` places is reached: `limit` others are offered before it,
    or it is Work and others take every permit. -/
def LaneWindow.Spares (w : LaneWindow) (state : MemoryState) : Prop :=
  ∀ i ∈ (waiting state.tasks w.lane.asStr w.now).drop w.limit, ∀ row, state.tasks[i]? = some row →
    row.cancelled = false → atLimit w.conf.retry row →
      w.limit ≤ (ahead (w.offered state) i).length ∨ (row.kind = .work ∧
        w.reserved state ≤ (ahead (w.offered state) i).countP (rowMeets state.tasks wantedWork))

theorem queue_nodup (w : LaneWindow) (tasks : List TaskRecord) : (w.queue tasks).Nodup := by
  rw [LaneWindow.queue, standing_eq_filter]
  exact (waiting_nodup tasks _ _).filter _

/-- A task the first pass looked at and left standing has attempts left. -/
theorem not_over_lt {retry : TaskRetry} {row : TaskRecord} (h : finalizes retry row = false) :
    row.stepAttempts < retry.maxAttempts := by
  rw [finalizes, Bool.or_eq_false_iff, spent, decide_eq_false_iff_not] at h
  omega

/-- Sparing the exhausted tasks is claiming none of them. -/
theorem spares_iff {w : LaneWindow} {state : MemoryState} : w.Spares state ↔
    ∀ i ∈ selected state.tasks (w.queue state.tasks) (w.reserved state) w.limit, ∀ row,
      state.tasks[i]? = some row → row.stepAttempts < w.conf.retry.maxAttempts := by
  have hmem := fun i row (hrow : state.tasks[i]? = some row) =>
    mem_selected_iff (w.reserved state) w.limit (queue_nodup w state.tasks) (i := i) hrow
  constructor
  · intro hspares i hi row hrow
    obtain ⟨hoffered, hlt, hwanted, hpaid⟩ := (hmem i row hrow).mp hi
    rcases List.mem_append.mp ((selectable_sublist _ _ _).subset hoffered) with hm | hm
    · refine not_over_lt ?_
      have hnot := (List.mem_filter.mp hm).2
      rw [rowMeets, hrow, Option.any_some, Bool.not_eq_true'] at hnot
      exact hnot
    · by_contra hlimit
      rcases hspares i hm row hrow hwanted (not_lt.mp hlimit) with h | ⟨hwork, h⟩
      · exact absurd hlt (not_lt.mpr h)
      · rcases hpaid with hflow | hpaid
        · rw [hwork] at hflow
          cases hflow
        · exact absurd hpaid (not_lt.mpr h)
  · intro hselected i hi row hrow hwanted hlimit
    by_contra hreached
    push Not at hreached
    obtain ⟨hlt, hpermit⟩ := hreached
    have hpaid : row.kind = .flow ∨
        (ahead (w.offered state) i).countP (rowMeets state.tasks wantedWork) < w.reserved state := by
      cases hk : row.kind with
      | flow => exact .inl rfl
      | work => exact .inr (hpermit hk)
    have hstands : i ∈ w.queue state.tasks := List.mem_append_right _ hi
    have hoffered : i ∈ w.offered state := by
      rw [LaneWindow.offered, selectable]
      split
      · next hzero =>
        -- without permits only Flow tasks are offered
        rw [hzero] at hpaid
        have hflow := hpaid.resolve_right (Nat.not_lt_zero _)
        exact List.mem_filter.mpr ⟨hstands, rowMeets_iff.mpr ⟨row, hrow, by rw [hflow]; rfl⟩⟩
      · exact hstands
    have hgranted := hselected i ((hmem i row hrow).mpr ⟨hoffered, hlt, hwanted, hpaid⟩) row hrow
    exact absurd hlimit (not_le.mpr hgranted)

section

variable [Serde] {node : Uuid} {conf : TaskStoreConf} {lease : Duration} {now : DateTime} {w : LaneWindow}
  {permits : ℕ} {rateWake : Option Duration} {turn turn' : Turn} {poll : LanePoll}

/-- A snapshot counts the attempt it was granted for. -/
theorem Serves.spares_iff (h : Serves node conf w permits rateWake turn poll turn') :
    w.Spares turn.state ↔ ∀ task ∈ poll.tasks, task.stepAttempts ≤ w.conf.retry.maxAttempts := by
  rw [Memory.spares_iff, ← h.reserves]
  refine forall₂_forall_iff (fun i task hi => ?_) h.granted
  obtain ⟨-, row, hrow, hg⟩ := hi
  obtain ⟨-, -, rfl⟩ := grant_ok.mp hg
  rw [hrow]
  simp only [Option.some.injEq, forall_eq']
  omega

/-- The lane's claim, if it claims, spares the exhausted tasks behind its first places. -/
def LaneSpares (node : Uuid) (conf : TaskStoreConf) (lease : Duration) (now : DateTime)
    (entry : LaneClaim × Uuid) (turn : Turn) : Prop :=
  ∀ laneConf, conf.laneOf entry.1.lane = some laneConf →
    claimsLane node laneConf lease now entry turn = true →
      (laneWindow laneConf entry.1 now).Spares turn.state

omit [Serde] in
/-- Every granted task is within the budget of its lane. -/
def WithinRetry (conf : TaskStoreConf) (polls : List LanePoll) : Prop :=
  ∀ poll ∈ polls, ∀ laneConf, conf.laneOf poll.lane = some laneConf → ∀ task ∈ poll.tasks,
    task.stepAttempts ≤ laneConf.retry.maxAttempts

variable {entry : LaneClaim × Uuid}

theorem claimOne_within (hconf : turn.state.conf = some conf)
    (h : claimOne node conf lease now entry turn = (.ok poll, turn')) :
    WithinRetry conf [poll] ↔ LaneSpares node conf lease now entry turn := by
  obtain ⟨laneConf, hlane, hcases⟩ := claimOne_serves hconf h
  have hone : WithinRetry conf [poll] ↔ ∀ laneConf, conf.laneOf poll.lane = some laneConf →
      ∀ task ∈ poll.tasks, task.stepAttempts ≤ laneConf.retry.maxAttempts := by
    simp only [WithinRetry, List.mem_singleton, forall_eq]
  rw [hone, LaneSpares]
  rcases hcases with ⟨hclaims, permits, rateWake, hserves⟩ | ⟨hidle, hsilent⟩
  · have hnamed : poll.lane = entry.1.lane := hserves.lane
    simp only [hnamed, hlane, Option.some.injEq, forall_eq', hclaims, true_implies]
    exact hserves.spares_iff.symm
  · simp only [hsilent.silent, hlane, Option.some.injEq, forall_eq', hidle, Bool.false_eq_true,
      false_implies, List.not_mem_nil, implies_true]

theorem collect_within : ∀ (claims : List (LaneClaim × Uuid)) (turn turn' : Turn)
    (polls : List LanePoll), turn.state.conf = some conf →
    Step.collect (claimOne node conf lease now) claims turn = (.ok polls, turn') →
      (WithinRetry conf polls ↔
        Throughout node conf lease now (LaneSpares node conf lease now) claims turn)
  | [], _, _, _, _, h => by
    obtain ⟨rfl, -⟩ := Step.pure_ok.mp h
    exact ⟨fun _ => trivial, fun _ _ hm => nomatch hm⟩
  | entry :: claims, turn, turn', _, hconf, h => by
    simp only [Step.collect, Step.bind_ok, Step.pure_ok] at h
    obtain ⟨poll, turn₁, h₁, polls, turn₂, h₂, rfl, rfl⟩ := h
    have hconf₁ : turn₁.state.conf = some conf :=
      (works_frame (claimOne_works h₁)).1.conf.trans hconf
    have hcons : WithinRetry conf (poll :: polls) ↔ WithinRetry conf [poll] ∧ WithinRetry conf polls := by
      simp only [WithinRetry, List.mem_cons, List.not_mem_nil, or_false, forall_eq_or_imp, forall_eq]
    rw [hcons, claimOne_within hconf h₁, collect_within claims turn₁ turn₂ polls hconf₁ h₂, Throughout, h₁]

end

end Vyuh.Tasks.Memory
