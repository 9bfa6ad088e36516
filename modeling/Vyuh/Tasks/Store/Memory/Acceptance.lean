import Vyuh.Tasks.Store.Memory.Runs

/-! Acknowledged commits. A commit that an operation does not report as rejected was accepted on one
    stored row, and what that row became is a concluded execution, moved steadily by the rest of the
    operation. -/

namespace Vyuh.Tasks.Memory
open Lib

variable [Serde] (store : MemoryTaskStore)

/-- The operation answered and did not list the commit as rejected. -/
def Accepted (state : MemoryState) (op : Op) (commit : TaskCommit) : Prop :=
  ∃ result, (exec store op state).1 = .committed result ∧ commit ∈ op.commits ∧
    commit.taskId ∉ result.rejected

variable {store} {state : MemoryState} {op : Op} {now : DateTime}

/-- A successful operation is a validated, successful turn. -/
theorem atomicOperation_ok {runner : Option Uuid} {claims : List (LaneClaim × Uuid)}
    {commits : List TaskCommit} {batch : ℕ} {lease : Duration} {out : TaskPoll × CommitResult}
    {state' : MemoryState}
    (h : atomicOperation runner claims commits batch lease now state = (.ok out, state')) :
    validateTurn commits batch ((state.conf.map (·.maxAllChildren)).getD 256) = .ok () ∧
      ∃ turn, runTurn runner claims commits lease now state.begin = (.ok out, turn) ∧
        turn.state = state' := by
  rw [atomicOperation] at h
  split at h
  · cases congrArg Prod.fst h
  · next hv =>
    refine ⟨hv, ?_⟩
    rcases hr : runTurn runner claims commits lease now state.begin with ⟨r, turn⟩
    have hr' : runTurn runner claims commits lease now ⟨state, [], []⟩ = (r, turn) := hr
    rw [hr'] at h
    cases r with
    | error e => cases congrArg Prod.fst h
    | ok result =>
      obtain ⟨ho, rfl⟩ := Prod.mk.inj h
      obtain rfl := Except.ok.inj ho
      exact ⟨turn, rfl, rfl⟩

theorem commitTasks_ok {commits : List TaskCommit} {result : CommitResult} {state' : MemoryState}
    (h : commitTasks store commits now state = (.ok result, state')) :
    ∃ poll, atomicOperation none [] commits store.commitBatchSize store.leaseDuration now state =
      (.ok (poll, result), state') := by
  simp only [commitTasks, Step.bind_run, beforeCommit] at h
  rcases hm : atomicOperation none [] commits store.commitBatchSize store.leaseDuration now state with
    ⟨r, after⟩
  rw [hm] at h
  cases r with
  | error e => cases congrArg Prod.fst h
  | ok out =>
    obtain ⟨ho, rfl⟩ := Prod.mk.inj h
    obtain rfl := Except.ok.inj ho
    exact ⟨out.1, rfl⟩

omit [Serde] in
theorem respondCommit_committed {run : Except (StoreFailure CommitResult) CommitResult × MemoryState}
    {result : CommitResult} (h : (respondCommit run).1 = .committed result) : run.1 = .ok result := by
  obtain ⟨r, s⟩ := run
  cases r with
  | ok a =>
    obtain rfl := Response.committed.inj h
    rfl
  | error e => cases e <;> exact nomatch h

omit [Serde] in
theorem respondPoll_ne (run : Except (StoreFailure TaskPoll) TaskPoll × MemoryState)
    (result : CommitResult) : (respondPoll run).1 ≠ .committed result := by
  obtain ⟨r, s⟩ := run
  cases r with
  | ok a => simp [respondPoll]
  | error e => cases e <;> simp [respondPoll]

omit [Serde] in
theorem respond_ne {α : Type} {f : α → Response} (result : CommitResult)
    (hf : ∀ a, f a ≠ .committed result) (run : Except TaskRuntimeError α × MemoryState) :
    (respond f run).1 ≠ .committed result := by
  obtain ⟨r, s⟩ := run
  cases r with
  | ok a => exact hf a
  | error e => simp [respond]

omit [Serde] in
theorem mergeWakes_subset : ∀ (incoming target : List TaskLane), target ⊆ mergeWakes target incoming
  | [], _ => fun _ h => h
  | lane :: incoming, target => by
    rw [mergeWakes, List.foldl_cons]
    refine List.Subset.trans ?_ (mergeWakes_subset incoming _)
    split
    · exact fun _ h => h
    · exact List.subset_append_left _ _

/-- An acknowledged batch is a commit turn of its operation, followed at most by promotions. The
    answer keeps the turn's rejections and all of its wake lanes. -/
theorem committed_turn {result : CommitResult} (h : (exec store op state).1 = .committed result) :
    ∃ now out state₁, op.clock now ∧ out.2.rejected = result.rejected ∧
      out.2.wakeLanes ⊆ result.wakeLanes ∧
      atomicOperation none [] op.commits store.commitBatchSize store.leaseDuration now state =
        (.ok out, state₁) ∧
      Rows (Steady op.grantee op.clock) state₁.tasks (exec store op state).2.tasks := by
  cases op with
  | commitTasks commits now =>
    rw [exec] at h ⊢
    rw [respondCommit_snd]
    have hok := respondCommit_committed h
    rcases hr : commitTasks store commits now state with ⟨r, state₁⟩
    rw [hr] at hok
    obtain rfl : r = .ok result := hok
    obtain ⟨poll, hop⟩ := commitTasks_ok hr
    exact ⟨now, _, state₁, rfl, rfl, fun _ h => h, hop, rows_refl Steady.refl _⟩
  | recoverOutputs node commits prepared now =>
    rw [exec] at h ⊢
    rw [respondCommit_snd, recoverOutputs_snd]
    have hok := respondCommit_committed h
    rw [recoverOutputs] at hok
    rcases hr : commitTasks store commits now state with ⟨r, state₁⟩
    rw [hr] at hok
    cases r with
    | error e => cases hok
    | ok inner =>
      obtain rfl := Except.ok.inj hok
      obtain ⟨poll, hop⟩ := commitTasks_ok hr
      exact ⟨now, _, state₁, rfl, rfl, mergeWakes_subset _ _, hop, rows_refl Steady.refl _⟩
  | commitAdmitted commits node limit cached now =>
    rw [exec] at h ⊢
    rw [respondCommit_snd]
    have hok := respondCommit_committed h
    rcases commitAdmitted_cases store commits node limit cached now state with
      ⟨error, state₁, -, he⟩ | ⟨poll, inner, state₁, hop, hadm⟩
    · rw [he] at hok
      cases hok
    · rw [hadm] at hok ⊢
      obtain rfl := Except.ok.inj hok
      obtain ⟨rows, taken, shown, -, -, -, heq⟩ :=
        admitCommitted_promotes state₁ state.tasks.length commits node limit cached now inner
      refine ⟨now, _, state₁, rfl, ?_, ?_, hop, (admitCommitted_rows _ _ _ _ _ _ _ _).2⟩
      · rw [heq]
      · rw [heq]
        exact fun _ h => h
  | claimTasks | coordinateLanes | recoverClaims => exact absurd h (respondPoll_ne _ _)
  | _ => exact absurd h (respond_ne _ (fun _ => by simp) _)

/-- What an accepted commit did: it was accepted on a row, concluded it, and the row it left was moved
    on steadily by the rest of the operation. -/
structure Takes (state : MemoryState) (op : Op) (commit : TaskCommit) (after : MemoryState)
    (now : DateTime) (index : ℕ) (row concluded final : TaskRecord) : Prop where
  clock : op.clock now
  accepts : Accepts state now commit index row
  result : Concluded now (marked commit.isCancel row) concluded
  cancels : commit.isCancel = true → concluded.status = .failed
  stored : after.tasks[index]? = some final
  moved : Steady op.grantee op.clock concluded final

/-- A concluded cancellation has failed. -/
theorem concludes_cancellation {conf : TaskStoreConf} {policy : TaskRetry} {r t : TaskRecord}
    (h : Concludes conf policy now cancellation r t) : t.status = .failed := by
  obtain ⟨applied, ha, hf⟩ := h
  simp only [applyOutcome, cancellation, applyTransition, Step.bind_ok, Step.modify_ok] at ha
  obtain ⟨_, _, rfl, rfl⟩ := ha
  obtain ⟨⟨expiry, rfl⟩, -⟩ := finalizeIdempotency_ok hf
  rfl

theorem Accepted.takes {commit : TaskCommit} (hd : state.Distinct)
    (h : Accepted store state op commit) :
    ∃ now index row concluded final,
      Takes state op commit (exec store op state).2 now index row concluded final := by
  obtain ⟨result, hresult, hmem, hnot⟩ := h
  obtain ⟨now, out, state₁, hclock, hrejected, -, hop, hlater⟩ := committed_turn hresult
  obtain ⟨-, turn', hrun, rfl⟩ := atomicOperation_ok hop
  obtain ⟨staged, turn, hcommits, hsettle⟩ := runTurn_commits hrun
  obtain ⟨moved, fresh, heq, -, hsettled, -⟩ := hcommits.rows ⟨[], []⟩ hd rfl
  have hstate : turn'.state = _ := congrArg Prod.fst hsettle
  -- the log names the rows the batch rewrote
  obtain ⟨old, hold, hid⟩ : ∃ old ∈ turn.undo, old.id = commit.taskId := by
    have hrej : out.2.rejected = (op.commits.filter (fun commit =>
        !turn.undo.any (fun task => task.id = commit.taskId))).map (·.taskId) :=
      congrArg (fun o : MemoryState × TaskPoll × CommitResult => o.2.2.rejected) hsettle
    by_contra hno
    refine hnot ?_
    rw [← hrejected, hrej]
    refine List.mem_map_of_mem (List.mem_filter.mpr ⟨hmem, ?_⟩)
    simp only [Bool.not_eq_true', List.any_eq_false, decide_eq_true_eq]
    exact fun task ht hid => hno ⟨task, ht, hid⟩
  obtain ⟨update, hu, hrow⟩ : ∃ update ∈ staged.updates, state.tasks[update.1]? = some old := by
    rw [hcommits.result] at hold
    simpa [MemoryState.begin] using hold
  rcases hcommits.staging.updated update hu with hu' | ⟨other, ho, row, ha, conf, lane, outcome, ht⟩
  · exact nomatch hu'
  obtain rfl : row = old := Option.some.inj (ha.stored.symm.trans hrow)
  obtain rfl : other = commit :=
    List.inj_on_of_nodup_map hcommits.distinct ho hmem (ha.id.symm.trans hid)
  obtain ⟨concluded, hm, hsteady⟩ := hsettled.get (hcommits.written hu)
  have hstored : turn'.state.tasks[update.1]? = some concluded := by
    rw [hstate, heq, List.getElem?_append_left (List.getElem?_eq_some_iff.mp hm).1]
    exact hm
  obtain ⟨final, hfinal, hsteady'⟩ := hlater.get hstored
  have hmono : Steady op.grantee op.clock update.2 concluded :=
    hsteady.mono (fun _ hn => hn.elim) fun _ he => he ▸ hclock
  refine ⟨now, update.1, row, update.2, final, hclock, ha, ht.concludes.concluded, fun hcancel => ?_,
    hfinal, hmono.trans hsteady'⟩
  have hout := ht.cancelled (by rw [hcancel]; exact Bool.or_true _)
  exact concludes_cancellation (hout ▸ ht.concludes)

end Vyuh.Tasks.Memory
