import Vyuh.Tasks.Store.Memory.JoinTurns

/-! What a batch of outcomes stages for the joins. A commit that puts its task to sleep stages the
    members of a group together with their wait, or at most one child; every other commit stages no
    children, and children are staged for tasks of the batch only (`Staging.shaped`). -/

namespace Vyuh.Tasks.Memory
open Lib

/-- The staged children of a parent. -/
def members (children : List TaskRecord) (parent : TaskId) : List TaskRecord :=
  children.filter (fun child => child.parentId = some parent)

theorem preparedWait_children (parent : TaskId) (children : List TaskRecord) :
    (preparedWait parent children).children = (members children parent).map (·.id) := rfl

theorem members_append (children new : List TaskRecord) (parent : TaskId) :
    members (children ++ new) parent = members children parent ++ members new parent := List.filter_append ..

theorem members_of_parent {new : List TaskRecord} {parent : TaskId}
    (h : ∀ t ∈ new, t.parentId = some parent) : members new parent = new :=
  List.filter_eq_self.mpr fun t ht => decide_eq_true (h t ht)

theorem members_eq_nil {new : List TaskRecord} {parent : TaskId}
    (h : ∀ t ∈ new, t.parentId ≠ some parent) : members new parent = [] :=
  List.filter_eq_nil_iff.mpr fun t ht => by simpa using h t ht

/-- What a batch staged for one of its tasks. -/
inductive Stages (staged : Staged) (limit : ℕ) (task : TaskRecord) : Prop
  | group (asleep : task.status = .suspended) (small : (members staged.children task.id).length ≤ limit)
      (pending : ∀ child ∈ members staged.children task.id, child.status = .pending)
      (waits : (task.id, preparedWait task.id staged.children) ∈ staged.waits) : Stages staged limit task
  | single (asleep : task.status = .suspended) (one : (members staged.children task.id).length ≤ 1)
      (free : task.id ∉ staged.waits.map (·.1)) : Stages staged limit task
  | silent (awake : task.status ≠ .suspended) (childless : members staged.children task.id = [])
      (free : task.id ∉ staged.waits.map (·.1)) : Stages staged limit task

/-- What a batch staged: something for each of its tasks, and nothing for any other. -/
structure Shaped (staged : Staged) (limit : ℕ) : Prop where
  stages : ∀ update ∈ staged.updates, Stages staged limit update.2
  parents : ∀ child ∈ staged.children, ∃ update ∈ staged.updates, child.parentId = some update.2.id
  waits : ∀ id ∈ staged.waits.map (·.1), ∃ update ∈ staged.updates, update.2.id = id

/-! ### One commit -/

/-- Members of a valid group are pending. -/
theorem validateMembers_pending {conf : TaskStoreConf} : ∀ {ids : List TaskId}
    {keys : List (String × String)} {group : List TaskWrite}, validateMembers conf ids keys group = .ok () →
      ∀ child ∈ group, child.record.status = .pending
  | _, _, [], _, _, hm => by cases hm
  | ids, keys, child :: group, h, write, hm => by
    rw [validateMembers] at h
    split at h
    · cases h
    · next hvalid =>
      have hpending : child.record.status = .pending := by
        by_contra hne
        exact hvalid (by simp [invalidChild, hne])
      have hrest : ∀ {ids keys}, validateMembers conf ids keys group = .ok () →
          write.record.status = .pending := fun h => by
        rcases List.mem_cons.mp hm with rfl | hm
        · exact hpending
        · exact validateMembers_pending h write hm
      cases hk : child.record.idempotencyKey with
      | none => rw [hk] at h; exact hrest h
      | some key =>
        rw [hk] at h
        simp only at h
        split at h
        · cases h
        · exact hrest h

section

variable [Serde] {state : MemoryState} {now : DateTime} {conf : TaskStoreConf}

omit [Serde] in
/-- A group whose parent is put to sleep was valid. -/
theorem effectiveOutcome_group {parent : TaskRecord} {commit : TaskCommit} {checkpoint asked : String}
    {group : List TaskWrite} {children children' : List TaskRecord}
    (hasked : commit.outcome? = some (.all asked group))
    (h : effectiveOutcome state conf parent commit children now = .ok (.suspend checkpoint, children')) :
    ∃ policy, validateGroup group policy = .ok () := by
  rw [effectiveOutcome, hasked, Option.getD_some] at h
  split at h
  · cases (Prod.mk.inj (Except.ok.inj h)).1
  · split at h
    · cases (Prod.mk.inj (Except.ok.inj h)).1
    · rw [prepareSpawn, prepare] at h
      cases hc : state.conf with
      | none => rw [hc] at h; cases h
      | some policy =>
        rw [hc] at h
        simp only at h
        cases hv : validateGroup group policy with
        | error error => rw [hv] at h; cases (Prod.mk.inj (Except.ok.inj h)).1
        | ok u => exact ⟨policy, hv⟩

omit [Serde] in
theorem validateGroup_pending {group : List TaskWrite} (h : validateGroup group conf = .ok ()) :
    ∀ child ∈ group, child.record.status = .pending := by
  rw [validateGroup] at h
  split at h
  · cases h
  · exact validateMembers_pending h

/-- The status an outcome leaves: failed after a failure, suspended after a checkpoint. -/
theorem concludes_status {policy : TaskRetry} {r t : TaskRecord} :
    (∀ error, Concludes conf policy now (.fail error) r t → t.status = .failed) ∧
      ∀ checkpoint, Concludes conf policy now (.suspend checkpoint) r t → t.status = .suspended := by
  constructor <;>
  · rintro text ⟨applied, happ, hfin⟩
    obtain ⟨⟨expiry, rfl⟩, -⟩ := finalizeIdempotency_ok hfin
    simp only [applyOutcome, Step.bind_ok, Step.modify_ok] at happ
    obtain ⟨_, mid, hmid, rfl⟩ := happ
    obtain rfl := Step.modify_ok.mp hmid
    rfl

/-- The children an accepted commit adds: a sleeping task's group, its one child or none, and none for a
    task that does not sleep. -/
inductive Adds (commit : TaskCommit) (limit : ℕ) (task : TaskRecord) (new : List TaskRecord) : Prop
  | group (asleep : task.status = .suspended) (all : commit.isAll = true) (small : new.length ≤ limit)
      (pending : ∀ child ∈ new, child.status = .pending) : Adds commit limit task new
  | single (asleep : task.status = .suspended) (one : commit.isAll = false) (few : new.length ≤ 1) :
      Adds commit limit task new
  | silent (awake : task.status ≠ .suspended) (childless : new = []) : Adds commit limit task new

theorem stagedTask_adds {row task : TaskRecord} {commit : TaskCommit} {limit : ℕ}
    {children children' : List TaskRecord} {deliveries deliveries' : List Delivery}
    (hlimit : ∀ conf, state.conf = some conf → conf.maxAllChildren ≤ limit)
    (hb : Batch state.tasks now children)
    (h : stagedTask state row commit now children deliveries = .ok (task, children', deliveries')) :
    task.id = row.id ∧ ∃ new, children' = children ++ new ∧ (∀ t ∈ new, t.parentId = some task.id) ∧
      Adds commit limit task new := by
  obtain ⟨conf, lane, outcome, ht, ho, -⟩ := stagedTask_ok h
  have hid : task.id = row.id := ht.concludes.concluded.id
  have hp := effectiveOutcome_ok ht.configured hb (fun hc => by rw [marked, hc, Bool.or_true]) ho
  have hfailed : ∀ error, Concludes conf lane.retry now (.fail error) (marked commit.isCancel row) task →
      task.status = .failed := concludes_status.1
  have hsuspended : ∀ checkpoint, Concludes conf lane.retry now (.suspend checkpoint)
      (marked commit.isCancel row) task → task.status = .suspended := concludes_status.2
  refine ⟨hid, ?_⟩
  cases hp with
  | failed error =>
    refine ⟨[], (List.append_nil _).symm, by simp, .silent ?_ rfl⟩
    rw [hfailed error ht.concludes]
    simp
  | plain asked childless single =>
    refine ⟨[], (List.append_nil _).symm, by simp, ?_⟩
    by_cases hs : task.status = .suspended
    · refine .single hs ?_ (by simp)
      rw [TaskCommit.isAll, asked]
      exact single
    · exact .silent hs rfl
  | @spawned checkpoint child record asked stamped batch =>
    refine ⟨[record], rfl, fun t hm => ?_, .single (hsuspended _ ht.concludes) ?_ (by simp)⟩
    · obtain rfl := List.mem_singleton.mp hm
      obtain ⟨ready, rfl⟩ := childStamp stamped
      rw [hid]
      rfl
    · rw [TaskCommit.isAll, asked]
      rfl
  | @grouped checkpoint group new asked bounded from_ batch =>
    refine ⟨new, rfl, fun t hm => ?_, .group (hsuspended _ ht.concludes) ?_ ?_ fun t hm => ?_⟩
    · rw [from_.parent t hm, hid]
      rfl
    · rw [TaskCommit.isAll, asked]
      rfl
    · rw [← from_.length_eq]
      exact bounded.trans (hlimit conf ht.configured)
    · obtain ⟨policy, hvalid⟩ := effectiveOutcome_group asked ho
      obtain ⟨write, hw, hstamp⟩ := from_.mem hm
      obtain ⟨ready, rfl⟩ := childStamp hstamp
      exact validateGroup_pending hvalid write hw

/-- What one accepted commit leaves of a batch. -/
theorem stagedTask_shaped {row task : TaskRecord} {commit : TaskCommit} {index limit : ℕ} {staged : Staged}
    {children : List TaskRecord} {deliveries : List Delivery}
    (hlimit : ∀ conf, state.conf = some conf → conf.maxAllChildren ≤ limit)
    (hb : Batch state.tasks now staged.children) (haccepts : Accepts state now commit index row)
    (h : stagedTask state row commit now staged.children staged.deliveries = .ok (task, children, deliveries))
    (hs : Shaped staged limit) (hnew : commit.taskId ∉ staged.updates.map (·.2.id)) :
    Shaped { updates := staged.updates ++ [(index, task)], children, deliveries,
             waits := if commit.isAll && task.status = .suspended then
               staged.waits ++ [(task.id, preparedWait task.id children)] else staged.waits } limit := by
  obtain ⟨hrow, new, rfl, hparent, hadds⟩ := stagedTask_adds hlimit hb h
  have hid : task.id = commit.taskId := hrow.trans haccepts.id
  -- nothing was staged for this task before
  have hfree : task.id ∉ staged.waits.map (·.1) := fun hm => by
    obtain ⟨update, hu, he⟩ := hs.waits _ hm
    exact hnew (List.mem_map.mpr ⟨update, hu, he.trans hid⟩)
  have hown : members (staged.children ++ new) task.id = new := by
    rw [members_append, members_of_parent hparent, members_eq_nil fun t hm he => ?_, List.nil_append]
    obtain ⟨update, hu, hup⟩ := hs.parents t hm
    refine hnew (List.mem_map.mpr ⟨update, hu, ?_⟩)
    rw [← hid]
    exact Option.some.inj (hup.symm.trans he)
  have hothers : ∀ id, id ≠ task.id → members (staged.children ++ new) id = members staged.children id := by
    intro id hne
    rw [members_append, members_eq_nil (fun t (hm : t ∈ new) he => ?_), List.append_nil]
    exact hne (Option.some.inj (he.symm.trans (hparent t hm)))
  have hwaits : ∀ id, id ≠ task.id → preparedWait id (staged.children ++ new) = preparedWait id staged.children := by
    intro id hne
    rw [preparedWait, preparedWait]
    have hm := hothers id hne
    rw [members, members] at hm
    rw [hm]
  refine ⟨fun update hu => ?_, fun child hchild => ?_, fun id hm => ?_⟩
  · rcases List.mem_append.mp hu with hu | hu
    · -- what was staged for the other tasks stays
      have hne : update.2.id ≠ task.id := fun he =>
        hnew (List.mem_map.mpr ⟨update, hu, he.trans hid⟩)
      have hkept : ∀ entry ∈ staged.waits, entry ∈ (if commit.isAll && task.status = .suspended then
          staged.waits ++ [(task.id, preparedWait task.id (staged.children ++ new))] else staged.waits) := by
        intro entry he
        split
        · exact List.mem_append_left _ he
        · exact he
      have hstill : update.2.id ∉ staged.waits.map (·.1) → update.2.id ∉
          (if commit.isAll && task.status = .suspended then
            staged.waits ++ [(task.id, preparedWait task.id (staged.children ++ new))]
          else staged.waits).map (·.1) := by
        intro hn
        split
        · simp [hne] at hn ⊢
          exact hn
        · exact hn
      rcases hs.stages update hu with ⟨ha, hsmall, hpend, hw⟩ | ⟨ha, hone, hf⟩ | ⟨ha, hc, hf⟩
      · refine .group ha ?_ ?_ ?_
        · simp only [hothers _ hne]
          exact hsmall
        · simp only [hothers _ hne]
          exact hpend
        · simp only [hwaits _ hne]
          exact hkept _ hw
      · refine .single ha ?_ (hstill hf)
        simp only [hothers _ hne]
        exact hone
      · refine .silent ha ?_ (hstill hf)
        simp only [hothers _ hne]
        exact hc
    · obtain rfl := List.mem_singleton.mp hu
      rcases hadds with ⟨ha, hall, hsmall, hpend⟩ | ⟨ha, hone, hfew⟩ | ⟨ha, hnone⟩
      · refine .group ha ?_ ?_ ?_
        · simp only [hown]
          exact hsmall
        · simp only [hown]
          exact hpend
        · simp [hall, ha]
      · refine .single ha ?_ ?_
        · simp only [hown]
          exact hfew
        · simp only [hone, Bool.false_and, Bool.false_eq_true, if_false]
          exact hfree
      · refine .silent ha ?_ ?_
        · simp only [hown]
          exact hnone
        · simp only [ha, decide_false, Bool.and_false, Bool.false_eq_true, if_false]
          exact hfree
  · rcases List.mem_append.mp hchild with hchild | hchild
    · obtain ⟨update, hu, he⟩ := hs.parents child hchild
      exact ⟨update, List.mem_append_left _ hu, he⟩
    · exact ⟨(index, task), List.mem_append_right _ (List.mem_singleton_self _), hparent child hchild⟩
  · have hold : id ∈ staged.waits.map (·.1) → ∃ update ∈ staged.updates ++ [(index, task)], update.2.id = id :=
      fun hm => by
        obtain ⟨update, hu, he⟩ := hs.waits id hm
        exact ⟨update, List.mem_append_left _ hu, he⟩
    simp only at hm
    split at hm
    · rw [List.map_append, List.mem_append] at hm
      rcases hm with hm | hm
      · exact hold hm
      · obtain rfl := List.mem_singleton.mp hm
        exact ⟨(index, task), List.mem_append_right _ (List.mem_singleton_self _), rfl⟩
    · exact hold hm

/-- A staged batch is shaped. -/
theorem Staging.shaped {limit : ℕ} (hlimit : ∀ conf, state.conf = some conf → conf.maxAllChildren ≤ limit)
    {commits : List TaskCommit} {staged final : Staged} (h : Staging state now commits staged final)
    (hb : Batch state.tasks now staged.children) (hs : Shaped staged limit)
    (hn : (staged.updates.map (·.2.id) ++ commits.map (·.taskId)).Nodup) : Shaped final limit := by
  induction h with
  | nil staged => exact hs
  | @refuse commit commits staged final refused rest ih =>
    refine ih hb hs (hn.sublist ?_)
    rw [List.map_cons]
    exact (List.Sublist.refl _).append (List.sublist_cons_self _ _)
  | @accept commit commits staged final index row task children deliveries accepts stages rest ih =>
    obtain ⟨conf, lane, outcome, ht, hp, -⟩ := stagedTask_prepares hb stages
    have hid : task.id = commit.taskId := ht.concludes.concluded.id.trans accepts.id
    have hnew : commit.taskId ∉ staged.updates.map (·.2.id) := fun hm =>
      (List.nodup_append.mp hn).2.2 _ hm _ List.mem_cons_self rfl
    refine ih (hp.batch_of hb) (stagedTask_shaped hlimit hb accepts stages hs hnew) ?_
    simp only [List.map_append, List.map_cons, List.map_nil, List.append_assoc, List.singleton_append, hid]
    exact hn

/-- The batch of a commit turn is shaped. -/
theorem Commits.shaped {limit : ℕ} (hlimit : ∀ conf, state.conf = some conf → conf.maxAllChildren ≤ limit)
    {commits : List TaskCommit} {staged : Staged} {turn : Turn}
    (h : Commits now commits state.begin staged turn) : Shaped staged limit := by
  refine h.staging.shaped hlimit (Batch.nil _ _) ⟨?_, ?_, ?_⟩ h.distinct <;> simp [Staged.empty]

end

end Vyuh.Tasks.Memory
