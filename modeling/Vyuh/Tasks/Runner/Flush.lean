import Vyuh.Tasks.Runner.Engine

/-! What a runner flushes its store accepts. The runner packs a prefix of its output queue by a
    running saturating weight; the store sums the same weights with checks. Below the budget, which
    finalized limits keep far from the end of `usize`, the two agree. -/

namespace Vyuh.Tasks
open Lib

/-- Every group in the output queue has at most the configured number of children. -/
def TaskRunner.GroupsFit (runner : TaskRunner) : Prop :=
  ∀ commit ∈ runner.outputBuffer, ∀ state children,
    commit.outcome? = some (.all state children) → children.length ≤ runner.conf.allLimit

/-! ### The two sums -/

/-- The checked sum of the store, when it fits. -/
theorem totalWeight_eq : ∀ (commits : List TaskCommit) (sum : ℕ),
    sum + (commits.map (·.weight)).sum ≤ usizeMax →
    totalWeight commits sum = some (sum + (commits.map (·.weight)).sum)
  | [], sum, _ => rfl
  | commit :: commits, sum, h => by
    rw [List.map_cons, List.sum_cons] at h
    have hadd : checkedAddUsize sum commit.weight = some (sum + commit.weight) := by
      rw [checkedAddUsize, if_pos (by omega)]
    rw [totalWeight, hadd, Option.bind_some, totalWeight_eq commits _ (by omega), List.map_cons,
      List.sum_cons, Nat.add_assoc]

/-- A batch within both bounds is accepted. -/
theorem validateTurn_ok {commits : List TaskCommit} {batch maximum : ℕ} (hlen : commits.length ≤ batch)
    (hsum : (commits.map (·.weight)).sum ≤ max batch (saturatingAddUsize maximum 1))
    (hfits : (commits.map (·.weight)).sum ≤ usizeMax) : validateTurn commits batch maximum = .ok () := by
  have htotal := totalWeight_eq commits 0 (by omega)
  rw [Nat.zero_add] at htotal
  unfold validateTurn
  split
  · rfl
  · rw [htotal, if_neg]
    simp only [Bool.or_eq_true, decide_eq_true_eq, Option.all_some]
    omega

namespace TaskRunner

variable {runner next : TaskRunner} {now : Instant} {permits : Permits}

/-! ### The budget -/

theorem flushBudget_eq (runner : TaskRunner) :
    runner.flushBudget = max runner.conf.commitBatchSize (runner.conf.allLimit + 1) := by
  have hall := runner.conf.allInRange.2
  rw [maxBatchSize] at hall
  rw [flushBudget, saturatingAddUsize, usizeMax, Nat.min_eq_left (by omega)]

/-- Finalized limits keep the budget away from the end of `usize`. -/
theorem flushBudget_lt (runner : TaskRunner) : runner.flushBudget < usizeMax := by
  have hall := runner.conf.allInRange.2
  have hbatch := runner.conf.batchInRange.2
  rw [maxBatchSize] at hall hbatch
  rw [flushBudget_eq, usizeMax]
  omega

/-- One commit of the queue never exceeds the budget by itself. -/
theorem GroupsFit.weight_le (hfit : runner.GroupsFit) {commit : TaskCommit}
    (hmem : commit ∈ runner.outputBuffer) : commit.weight ≤ runner.flushBudget := by
  have hone : 1 ≤ runner.flushBudget := by
    rw [flushBudget_eq]
    omega
  unfold TaskCommit.weight
  cases hout : commit.outcome? with
  | none => exact hone
  | some result =>
    cases result with
    | all state children =>
      have hlen := hfit commit hmem state children hout
      rw [flushBudget_eq]
      show min (children.length + 1) usizeMax ≤ _
      omega
    | _ => exact hone

/-! ### The prefix -/

theorem flushCount_le (runner : TaskRunner) (budget : ℕ) :
    ∀ (commits : List TaskCommit) (weight : ℕ),
      runner.flushCount budget weight commits ≤ commits.length
  | [], _ => Nat.zero_le _
  | commit :: commits, weight => by
    rw [flushCount]
    have ih := flushCount_le runner budget commits (saturatingAddUsize weight commit.weight)
    split
    · exact Nat.zero_le _
    · simp only [List.length_cons]
      split
      · omega
      · exact Nat.zero_le _

/-- The members taken stay within the budget; nothing saturated on the way. -/
theorem flushCount_weight (runner : TaskRunner) {budget : ℕ} (hbudget : budget < usizeMax) :
    ∀ (commits : List TaskCommit) (weight : ℕ), weight ≤ budget →
      weight + ((commits.take (runner.flushCount budget weight commits)).map (·.weight)).sum ≤ budget
  | [], weight, h => by simpa using h
  | commit :: commits, weight, h => by
    rw [flushCount]
    split
    · simpa using h
    · simp only
      split
      · next hle =>
        have hexact : saturatingAddUsize weight commit.weight = weight + commit.weight := by
          unfold saturatingAddUsize at hle ⊢
          omega
        rw [hexact] at hle ⊢
        have ih := flushCount_weight runner hbudget commits (weight + commit.weight) hle
        rw [List.take_succ_cons, List.map_cons, List.sum_cons]
        omega
      · simpa using h

theorem flushCount_pos {budget weight : ℕ} {commit : TaskCommit} {commits : List TaskCommit} :
    0 < runner.flushCount budget weight (commit :: commits) ↔
      runner.blocked commit = false ∧ saturatingAddUsize weight commit.weight ≤ budget := by
  rw [flushCount]
  split
  · next h => simp [h]
  · next h =>
    simp only
    split
    · next hle => simp [h, hle]
    · next hle => simp [hle]

theorem flushSize_le (runner : TaskRunner) :
    runner.flushSize ≤ min runner.conf.commitBatchSize runner.outputBuffer.length := by
  have hle := runner.flushCount_le runner.flushBudget
    (runner.outputBuffer.take runner.conf.commitBatchSize) 0
  rw [List.length_take] at hle
  exact hle

theorem flushSize_weight (runner : TaskRunner) :
    ((runner.outputBuffer.take runner.flushSize).map (·.weight)).sum ≤ runner.flushBudget := by
  have hweight := runner.flushCount_weight runner.flushBudget_lt
    (runner.outputBuffer.take runner.conf.commitBatchSize) 0 (Nat.zero_le _)
  have hle := runner.flushSize_le
  rw [List.take_take, Nat.zero_add] at hweight
  rw [flushSize] at hle ⊢
  rwa [Nat.min_eq_left (by omega)] at hweight

/-- Something is taken exactly when the front commit is free to go: alone it fits the budget. -/
theorem flushSize_pos (hfit : runner.GroupsFit) :
    0 < runner.flushSize ↔
      ∃ commit rest, runner.outputBuffer = commit :: rest ∧ runner.blocked commit = false := by
  rw [flushSize]
  cases hbuf : runner.outputBuffer with
  | nil => simp [flushCount]
  | cons commit rest =>
    have hweight : commit.weight ≤ runner.flushBudget :=
      hfit.weight_le (by rw [hbuf]; exact List.mem_cons_self)
    obtain ⟨batch, hbatch⟩ : ∃ n, runner.conf.commitBatchSize = n + 1 :=
      ⟨runner.conf.commitBatchSize - 1, by have h := runner.conf.batchInRange.1; omega⟩
    rw [hbatch, List.take_succ_cons, flushCount_pos]
    constructor
    · exact fun h => ⟨commit, rest, rfl, h.1⟩
    · rintro ⟨_, _, heq, hfree⟩
      obtain ⟨rfl, rfl⟩ := List.cons.inj heq
      refine ⟨hfree, ?_⟩
      rw [saturatingAddUsize]
      omega

/-! ### The flush -/

/-- A flush is made once its timer is due and something can be taken. -/
theorem flushRequest_eq (runner : TaskRunner) (now : Instant) (permits : Permits) :
    runner.flushRequest now permits =
      if runner.flushAfter ≤ now ∧ 0 < runner.flushSize then
        let next := { runner with
          outputBuffer := runner.outputBuffer.drop runner.flushSize
          flushAfter := now + runner.conf.pollInterval }
        some (next.deliveryRequest permits (runner.outputBuffer.take runner.flushSize), next)
      else none := by
  have hle := runner.flushSize_le
  unfold flushRequest
  split
  · next h =>
    rw [if_neg]
    rintro ⟨hdue, hpos⟩
    simp only [Bool.or_eq_true, decide_eq_true_eq, List.isEmpty_iff] at h
    rcases h with hlt | hnil
    · exact absurd hdue (Nat.not_le.mpr hlt)
    · rw [hnil, List.length_nil] at hle
      omega
  · next h =>
    have hdue : runner.flushAfter ≤ now := by simp_all
    simp only
    split
    · next hzero => rw [if_neg (by omega)]
    · next hpos => rw [if_pos ⟨hdue, by omega⟩]

/-- What a flush drains is a nonempty prefix of the output queue, which the store accepts under the
    same limits; and one is made exactly when its timer is due and no owned lane holds the front
    commit back. -/
theorem flush_request_accepted (runner : TaskRunner) (now : Instant) (permits : Permits)
    (hfit : runner.GroupsFit) :
    (∀ request next, runner.flushRequest now permits = some (request, next) →
      ∃ commits capacity cached, request = .commit commits capacity cached ∧ commits ≠ [] ∧
        runner.outputBuffer = commits ++ next.outputBuffer ∧
        validateTurn commits runner.conf.commitBatchSize runner.conf.allLimit = .ok ()) ∧
    ((runner.flushRequest now permits).isSome ↔
      runner.flushAfter ≤ now ∧
        ∃ commit rest, runner.outputBuffer = commit :: rest ∧ runner.blocked commit = false) := by
  have hle := runner.flushSize_le
  rw [flushRequest_eq, ← flushSize_pos hfit]
  constructor
  · intro request next h
    split at h
    · next hflush =>
      obtain ⟨rfl, rfl⟩ := Prod.mk.inj (Option.some.inj h)
      have hlen : (runner.outputBuffer.take runner.flushSize).length = runner.flushSize :=
        List.length_take_of_le (by omega)
      have hweight := runner.flushSize_weight
      have hbudget := runner.flushBudget_lt
      refine ⟨_, _, _, rfl, ?_, (List.take_append_drop ..).symm, ?_⟩
      · intro hnil
        rw [hnil, List.length_nil] at hlen
        omega
      · exact validateTurn_ok (by omega) hweight (by omega)
    · exact (nomatch h)
  · split
    · next hflush => simp [hflush]
    · next hflush => simp [hflush]

/-! ### Two groups and a held lane -/

/-- A child of a group. -/
def childWrite (n : ℕ) : TaskWrite where
  record := {
    id := ⟨BitVec.ofNat 128 n⟩, parentId := none, rootId := none, kind := .work, name := "work"
    input := "null", state := none, resumeInput := none, status := .pending, cancelled := false
    attempts := 0, stepAttempts := 0, lane := "open", lastResult := none, idempotencyKey := none
    idempotencyFingerprint := none, idempotencyExpiresAt := none, nodeId := none, readyAt := some 0
    createdAt := 0, updatedAt := 0, completedAt := none }
  ignoreConflicts := false
  initialDelay := none

/-- A flow asks for a full group of children. -/
def joinCommit (n : ℕ) : TaskCommit :=
  .outcome 7 1 ⟨BitVec.ofNat 128 n⟩ ⟨"open"⟩
    (.all "null" [childWrite (n + 1), childWrite (n + 2), childWrite (n + 3)]) none

/-- Work of the owned lane is complete. -/
def heldCommit : TaskCommit := .outcome 7 1 ⟨9⟩ ⟨"locked"⟩ .complete (some "token")

/-- An open and an owned lane, batches of at most eight commits and groups of at most three. -/
def joiningConf : RunnerConf where
  concurrency := 4
  commitBatchSize := 8
  allLimit := 3
  ingressCapacity := 4
  leaseDuration := 30
  pollInterval := 1
  fallbackInterval := 1
  heartbeatInterval := 1
  lanes :=
    [{ lane := ⟨"open"⟩, claimBatchSize := 8, laneLock := none, globalRate := none, retry := ⟨3, 1, 60⟩,
       sticky := true, concurrency := 4, rate := none, flowCacheBytes := 0, flowCacheFits := by decide },
     { lane := ⟨"locked"⟩, claimBatchSize := 8, laneLock := some ⟨1, none, 0, none, none⟩,
       globalRate := none, retry := ⟨3, 1, 60⟩, sticky := false, concurrency := 1, rate := none,
       flowCacheBytes := 0, flowCacheFits := by decide }]
  tasks := []
  batchInRange := by decide
  allInRange := by decide
  lanesDistinct := by decide

/-- Two full groups wait before an outcome of the owned lane, whose renewal is still unresolved. -/
def joining : TaskRunner :=
  { TaskRunner.new joiningConf 7 1 with
    inFlight := (∅ : Dict Uuid InFlight).insert 1 ⟨.coordinate [⟨⟨"locked"⟩, 0, none⟩], .running⟩
    outputBuffer := [joinCommit 10, joinCommit 20, heldCommit] }

theorem joining_fits : joining.GroupsFit := by
  intro commit hmem state children hout
  simp only [joining, List.mem_cons, List.not_mem_nil, or_false] at hmem
  rcases hmem with rfl | rfl | rfl
  · obtain ⟨-, rfl⟩ := TaskOutcome.all.inj (Option.some.inj hout)
    exact le_refl 3
  · obtain ⟨-, rfl⟩ := TaskOutcome.all.inj (Option.some.inj hout)
    exact le_refl 3
  · exact nomatch hout

/-- The two groups fill the batch, which the store accepts; what the owned lane holds back stays. -/
theorem flush_request_accepted_joining : ∃ request next commits capacity cached,
    joining.flushRequest 1 ⟨4, fun _ => 1, 4⟩ = some (request, next) ∧
      request = .commit commits capacity cached ∧ commits = [joinCommit 10, joinCommit 20] ∧
      (commits.map (·.weight)).sum = joining.flushBudget ∧ next.outputBuffer = [heldCommit] ∧
      validateTurn commits 8 3 = .ok () ∧
      ∀ later, next.flushRequest later ⟨4, fun _ => 1, 4⟩ = none := by
  have hrun := flush_request_accepted joining 1 ⟨4, fun _ => 1, 4⟩ joining_fits
  have hdue : (joining.flushRequest 1 ⟨4, fun _ => 1, 4⟩).isSome :=
    hrun.2.mpr ⟨le_refl _, joinCommit 10, [joinCommit 20, heldCommit], rfl, by decide⟩
  obtain ⟨⟨request, next⟩, hsome⟩ := Option.isSome_iff_exists.mp hdue
  obtain ⟨commits, capacity, cached, hrequest, -, hsplit, hvalid⟩ := hrun.1 request next hsome
  have hsize : joining.flushSize = 2 := by decide
  have hmade := hsome
  rw [flushRequest_eq, hsize, if_pos ⟨le_refl _, Nat.two_pos⟩] at hmade
  obtain ⟨-, hnext⟩ := Prod.mk.inj (Option.some.inj hmade)
  have hconf : next.conf = joiningConf := hnext ▸ rfl
  have hrest : next.outputBuffer = [heldCommit] := hnext ▸ rfl
  have hheld : next.blocked heldCommit = true := hnext ▸ by decide
  have hcommits : commits = [joinCommit 10, joinCommit 20] :=
    List.append_cancel_right (hsplit.symm.trans (hrest ▸ rfl))
  refine ⟨request, next, commits, capacity, cached, hsome, hrequest, hcommits, ?_, hrest, hvalid,
    fun later => ?_⟩
  · rw [hcommits]
    decide
  · have hfit : next.GroupsFit := by
      rw [GroupsFit, hconf]
      exact fun commit hmem => joining_fits commit (hsplit ▸ List.mem_append_right _ hmem)
    refine Option.not_isSome_iff_eq_none.mp fun hflush => ?_
    obtain ⟨-, commit, rest, hfront, hfree⟩ :=
      (flush_request_accepted next later ⟨4, fun _ => 1, 4⟩ hfit).2.mp hflush
    obtain ⟨rfl, -⟩ := List.cons.inj (hrest.symm.trans hfront)
    rw [hheld] at hfree
    cases hfree

/-- A free front commit is not flushed before the flush timer is due. -/
theorem flush_waits_for_timer :
    ¬ ∀ (runner : TaskRunner) (now : Instant) (permits : Permits), runner.GroupsFit →
      (∃ commit rest, runner.outputBuffer = commit :: rest ∧ runner.blocked commit = false) →
      (runner.flushRequest now permits).isSome := by
  intro h
  have hflush := h joining 0 ⟨4, fun _ => 1, 4⟩ joining_fits
    ⟨joinCommit 10, [joinCommit 20, heldCommit], rfl, by decide⟩
  exact absurd hflush (by decide)

end TaskRunner

end Vyuh.Tasks
