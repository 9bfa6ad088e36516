import Vyuh.Tasks.Store.Memory.Records

/-! What staging a batch of commits decides. A commit is refused, or it is accepted on one stored row
    and stages that row's next version, its children, its delivery and possibly a wait. `Staging`
    spells a successful batch out commit by commit; nothing below it looks into `stageOutcomes`. -/

namespace Vyuh.Tasks.Memory
open Lib

variable {commits : List TaskCommit} {final : Staged}

/-- The commit's evidence holds on the row at `index`, and its lane lets it through. -/
structure Accepts (state : MemoryState) (now : DateTime) (commit : TaskCommit) (index : ℕ)
    (row : TaskRecord) : Prop where
  allowed : memoryCommitAllowed state commit now = .ok true
  stored : state.tasks[index]? = some row
  id : row.id = commit.taskId
  evidence : commit.accepts row.status row.nodeId row.attempts = true
  lane : ∀ lane, commit.lane? = some lane → row.lane = lane.asStr

/-- No row takes the commit. -/
def Refused (state : MemoryState) (now : DateTime) (commit : TaskCommit) : Prop :=
  memoryCommitAllowed state commit now = .ok false ∨ ∀ row ∈ state.tasks, acceptsRow commit row = false

section

variable [Serde] {state : MemoryState} {now : DateTime}

/-- The accepted row's next version, computed from the effective outcome. -/
structure Transitioned (state : MemoryState) (now : DateTime) (commit : TaskCommit)
    (row : TaskRecord) (conf : TaskStoreConf) (lane : TaskLaneConf) (outcome : TaskOutcome)
    (task : TaskRecord) : Prop where
  configured : state.conf = some conf
  policy : conf.laneNamed row.lane = some lane
  cancelled : (marked commit.isCancel row).cancelled = true → outcome = cancellation
  concludes : Concludes conf lane.retry now outcome (marked commit.isCancel row) task

theorem stagedTask_ok {row : TaskRecord} {commit : TaskCommit} {children children' : List TaskRecord}
    {deliveries deliveries' : List Delivery} {task : TaskRecord}
    (h : stagedTask state row commit now children deliveries = .ok (task, children', deliveries')) :
    ∃ conf lane outcome, Transitioned state now commit row conf lane outcome task ∧
      effectiveOutcome state conf (marked commit.isCancel row) commit children now = .ok (outcome, children') ∧
      queueDelivery task deliveries = .ok deliveries' := by
  rw [stagedTask] at h
  cases hc : state.conf with
  | none => rw [hc] at h; exact nomatch h
  | some conf =>
    rw [hc] at h
    obtain ⟨⟨outcome, next⟩, ho, h⟩ := Step.except_bind_ok.mp h
    simp only at h
    cases hl : conf.laneNamed row.lane with
    | none => rw [hl] at h; exact nomatch h
    | some lane =>
      rw [hl] at h
      obtain ⟨applied, ha, h⟩ := Step.except_bind_ok.mp h
      obtain ⟨final, hf, h⟩ := Step.except_bind_ok.mp h
      obtain ⟨queued, hq, h⟩ := Step.except_bind_ok.mp h
      obtain ⟨rfl, rfl, rfl⟩ : final = task ∧ next = children' ∧ queued = deliveries' := by
        simpa using h
      obtain ⟨_, ha⟩ := Step.exec_ok.mp ha
      obtain ⟨_, hf⟩ := Step.exec_ok.mp hf
      refine ⟨conf, lane, outcome, ⟨hc, hl, fun hcan => ?_, applied, ha, hf⟩, ho, hq⟩
      have hcan : ({ row with cancelled := row.cancelled || commit.isCancel } : TaskRecord).cancelled =
        true := hcan
      rw [effectiveOutcome, if_pos hcan] at ho
      exact (Prod.mk.inj (Except.ok.inj ho)).1.symm

/-- The batch, commit by commit: what it adds to what was staged before it. -/
inductive Staging (state : MemoryState) (now : DateTime) :
    List TaskCommit → Staged → Staged → Prop
  | nil (staged : Staged) : Staging state now [] staged staged
  | refuse {commit : TaskCommit} {commits : List TaskCommit} {staged final : Staged}
      (refused : Refused state now commit) (rest : Staging state now commits staged final) :
      Staging state now (commit :: commits) staged final
  | accept {commit : TaskCommit} {commits : List TaskCommit} {staged final : Staged} {index : ℕ}
      {row task : TaskRecord} {children : List TaskRecord} {deliveries : List Delivery}
      (accepts : Accepts state now commit index row)
      (stages : stagedTask state row commit now staged.children staged.deliveries =
        .ok (task, children, deliveries))
      (rest : Staging state now commits
        { updates := staged.updates ++ [(index, task)]
          children := children
          deliveries := deliveries
          waits := if commit.isAll && task.status = .suspended then
            staged.waits ++ [(task.id, preparedWait task.id children)] else staged.waits } final) :
      Staging state now (commit :: commits) staged final

omit [Serde] in
theorem ownedTask_some {commit : TaskCommit} {index : ℕ} {row : TaskRecord}
    (h : ownedTask state commit = .ok (some (index, row)))
    (hall : memoryCommitAllowed state commit now = .ok true) : Accepts state now commit index row := by
  rw [ownedTask] at h
  cases hi : state.tasks.findIdx? (acceptsRow commit) with
  | none => rw [hi] at h; simp at h
  | some j =>
    obtain ⟨hlt, hacc, -⟩ := List.findIdx?_eq_some_iff_getElem.mp hi
    rw [hi] at h
    simp only [List.getElem?_eq_getElem hlt] at h
    split at h
    · exact nomatch h
    · next hlane =>
      obtain ⟨rfl, rfl⟩ : j = index ∧ state.tasks[j] = row := by simpa using h
      simp only [acceptsRow, Bool.and_eq_true, decide_eq_true_eq] at hacc
      refine ⟨hall, List.getElem?_eq_getElem hlt, hacc.1, hacc.2, fun lane hl => ?_⟩
      rw [hl] at hlane
      simpa using hlane

omit [Serde] in
theorem ownedTask_none {commit : TaskCommit} (h : ownedTask state commit = .ok none) :
    ∀ row ∈ state.tasks, acceptsRow commit row = false := by
  rw [ownedTask] at h
  cases hi : state.tasks.findIdx? (acceptsRow commit) with
  | none => simpa using List.findIdx?_eq_none_iff.mp hi
  | some j =>
    obtain ⟨hlt, -, -⟩ := List.findIdx?_eq_some_iff_getElem.mp hi
    rw [hi] at h
    simp only [List.getElem?_eq_getElem hlt] at h
    split at h
    · exact nomatch h
    · simp at h

/-- A staged batch has distinct task identifiers and is a `Staging`. -/
theorem stageOutcomes_ok : ∀ (commits : List TaskCommit) (seen : List TaskId) (staged final : Staged),
    stageOutcomes state now seen staged commits = .ok final →
      Staging state now commits staged final ∧ (commits.map (·.taskId)).Nodup ∧
        ∀ commit ∈ commits, commit.taskId ∉ seen
  | [], seen, staged, final, h => by
    obtain rfl : staged = final := by simpa [stageOutcomes] using h
    exact ⟨.nil staged, List.nodup_nil, fun _ hm => nomatch hm⟩
  | commit :: commits, seen, staged, final, h => by
    rw [stageOutcomes] at h
    split at h
    · exact nomatch h
    · next hseen =>
      obtain ⟨mid, hm, h⟩ := Step.except_bind_ok.mp h
      obtain ⟨hrest, hnd, hfresh⟩ := stageOutcomes_ok commits (commit.taskId :: seen) mid final h
      refine ⟨?_, ?_, ?_⟩
      · rw [stageCommit] at hm
        obtain ⟨allowed, ha, hm⟩ := Step.except_bind_ok.mp hm
        cases allowed with
        | false =>
          obtain rfl : staged = mid := by simpa using hm
          exact .refuse (.inl ha) hrest
        | true =>
          rw [Bool.not_true, if_neg Bool.false_ne_true] at hm
          obtain ⟨owned, ho, hm⟩ := Step.except_bind_ok.mp hm
          cases owned with
          | none =>
            obtain rfl : staged = mid := by simpa using hm
            exact .refuse (.inr (ownedTask_none ho)) hrest
          | some entry =>
            obtain ⟨⟨task, children, deliveries⟩, hs, hm⟩ := Step.except_bind_ok.mp hm
            obtain rfl := Except.ok.inj hm
            exact .accept (ownedTask_some ho ha) hs hrest
      · rw [List.map_cons, List.nodup_cons]
        refine ⟨fun hmem => ?_, hnd⟩
        obtain ⟨other, hin, heq⟩ := List.mem_map.mp hmem
        exact hfresh other hin (by rw [heq]; exact List.mem_cons_self)
      · intro other hin
        rcases List.mem_cons.mp hin with rfl | hin
        · exact hseen
        · exact fun hmem => hfresh other hin (List.mem_cons_of_mem _ hmem)

/-- Every staged update is an accepted commit's next version of a stored row. -/
theorem Staging.updated {staged final : Staged} (h : Staging state now commits staged final) :
    ∀ update ∈ final.updates, update ∈ staged.updates ∨ ∃ commit ∈ commits, ∃ row,
      Accepts state now commit update.1 row ∧ ∃ conf lane outcome,
        Transitioned state now commit row conf lane outcome update.2 := by
  induction h with
  | nil staged => exact fun update hu => .inl hu
  | refuse refused rest ih =>
    intro update hu
    rcases ih update hu with hu | ⟨commit, hc, hex⟩
    · exact .inl hu
    · exact .inr ⟨commit, List.mem_cons_of_mem _ hc, hex⟩
  | @accept commit commits staged final index row task children deliveries accepts stages rest ih =>
    intro update hu
    rcases ih update hu with hu | ⟨other, hc, hex⟩
    · rcases List.mem_append.mp hu with hu | hu
      · exact .inl hu
      · obtain rfl := List.mem_singleton.mp hu
        obtain ⟨conf, lane, outcome, ht, -, -⟩ := stagedTask_ok stages
        exact .inr ⟨commit, List.mem_cons_self, row, accepts, conf, lane, outcome, ht⟩
    · exact .inr ⟨other, List.mem_cons_of_mem _ hc, hex⟩

/-- The staged updates address a selection of the batch, in its order. -/
theorem Staging.ids {staged final : Staged} (h : Staging state now commits staged final) :
    ∃ taken, taken.Sublist (commits.map (·.taskId)) ∧
      final.updates.map (·.2.id) = staged.updates.map (·.2.id) ++ taken := by
  induction h with
  | nil staged => exact ⟨[], .slnil, (List.append_nil _).symm⟩
  | refuse refused rest ih =>
    obtain ⟨taken, hsub, heq⟩ := ih
    exact ⟨taken, hsub.cons _, heq⟩
  | @accept commit commits staged final index row task children deliveries accepts stages rest ih =>
    obtain ⟨taken, hsub, heq⟩ := ih
    obtain ⟨conf, lane, outcome, ht, -, -⟩ := stagedTask_ok stages
    have hid : task.id = commit.taskId := ht.concludes.concluded.id.trans accepts.id
    refine ⟨commit.taskId :: taken, hsub.cons_cons _, ?_⟩
    rw [heq, List.map_append, List.append_assoc, List.map_singleton, hid]
    rfl

/-- What every accepted commit preserves, a batch preserves. -/
theorem Staging.inv {P : Staged → Prop} {commits : List TaskCommit} {staged final : Staged}
    (h : Staging state now commits staged final)
    (hstep : ∀ commit ∈ commits, ∀ index row task children deliveries staged,
      Accepts state now commit index row →
      stagedTask state row commit now staged.children staged.deliveries =
        .ok (task, children, deliveries) → P staged →
      P { updates := staged.updates ++ [(index, task)], children, deliveries,
          waits := if commit.isAll && task.status = .suspended then
            staged.waits ++ [(task.id, preparedWait task.id children)] else staged.waits })
    (hs : P staged) : P final := by
  induction h with
  | nil staged => exact hs
  | refuse refused rest ih =>
    exact ih (fun commit hm => hstep commit (List.mem_cons_of_mem _ hm)) hs
  | accept accepts stages rest ih =>
    exact ih (fun commit hm => hstep commit (List.mem_cons_of_mem _ hm))
      (hstep _ List.mem_cons_self _ _ _ _ _ _ accepts stages hs)

/-- Every wait belongs to a suspended row of the batch. -/
theorem Staging.waits_suspended (h : Staging state now commits Staged.empty final) :
    ∀ entry ∈ final.waits, ∃ update ∈ final.updates, update.2.id = entry.1 ∧
      update.2.status = .suspended := by
  refine h.inv (P := fun staged => ∀ entry ∈ staged.waits, ∃ update ∈ staged.updates,
    update.2.id = entry.1 ∧ update.2.status = .suspended) ?_ (fun entry he => nomatch he)
  intro commit _ index row task children deliveries staged _ _ hs entry he
  have hold : entry ∈ staged.waits → ∃ update ∈ staged.updates ++ [(index, task)],
      update.2.id = entry.1 ∧ update.2.status = .suspended := fun he => by
    obtain ⟨update, hu, hex⟩ := hs entry he
    exact ⟨update, List.mem_append_left _ hu, hex⟩
  simp only at he
  split at he
  · next hall =>
    rcases List.mem_append.mp he with he | he
    · exact hold he
    · obtain rfl := List.mem_singleton.mp he
      simp only [Bool.and_eq_true, decide_eq_true_eq] at hall
      exact ⟨(index, task), List.mem_append_right _ List.mem_cons_self, rfl, hall.2⟩
  · exact hold he

/-- Waits are staged in the order of their rows, at most one a row. -/
theorem Staging.waits_sublist (h : Staging state now commits Staged.empty final) :
    (final.waits.map (·.1)).Sublist (final.updates.map (·.2.id)) := by
  refine h.inv (P := fun staged => (staged.waits.map (·.1)).Sublist (staged.updates.map (·.2.id)))
    ?_ .slnil
  intro commit _ index row task children deliveries staged _ _ hs
  simp only [List.map_append, List.map_singleton]
  split
  · rw [List.map_append]
    exact hs.append (List.Sublist.refl _)
  · exact hs.trans (List.sublist_append_left _ _)

theorem Staging.ids_nodup (h : Staging state now commits Staged.empty final)
    (hn : (commits.map (·.taskId)).Nodup) :
    (final.updates.map (·.2.id)).Nodup := by
  obtain ⟨taken, hsub, heq⟩ := h.ids
  rw [heq]
  exact hn.sublist hsub

/-- Each row of a batch is staged once. -/
theorem Staging.indices_nodup (h : Staging state now commits Staged.empty final)
    (hn : (commits.map (·.taskId)).Nodup) :
    (final.updates.map (·.1)).Nodup := by
  have hids := h.ids_nodup hn
  -- a row's identifier is a function of its position
  refine List.Nodup.of_map (fun index => state.tasks[index]?.map (·.id)) ?_
  rw [List.map_map]
  have hsome : final.updates.map ((fun index => state.tasks[index]?.map (·.id)) ∘ (·.1)) =
      (final.updates.map (·.2.id)).map some := by
    rw [List.map_map]
    refine List.map_congr_left fun update hu => ?_
    rcases h.updated update hu with hu | ⟨commit, -, row, ha, conf, lane, outcome, ht⟩
    · exact nomatch hu
    · simp only [Function.comp_apply, ha.stored, Option.map_some, ht.concludes.concluded.id]
      rfl
  rw [hsome]
  exact hids.map (Option.some_injective _)

end

end Vyuh.Tasks.Memory
