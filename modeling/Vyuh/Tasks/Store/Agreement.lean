import Vyuh.Lib.Agree
import Vyuh.Tasks.Store.Database.Commit
import Vyuh.Tasks.Store.Memory.Submissions

/-! The memory store and the database store compute the same record from a row and a command. The two
    are written apart: one decides cancellation before the transition and the other inside it, one
    rewrites the row field by field until something fails and the other returns the next row. They are
    compared here part by part; what remains is the wording of a refused group's diagnostic. -/

namespace Vyuh.Tasks
open Lib

variable {record : TaskRecord} {child : TaskWrite} {checkpoint : String}

/-! ### One transition -/

theorem deadline_agree (now : DateTime) (delay : Duration) (label : String) :
    Agree (fun ready at_ => ready = some at_) (Memory.checkedDeadline now delay)
      (Database.deadline now delay label) := by
  rw [Memory.checkedDeadline, Database.deadline, Memory.chronoDuration, Database.chronoDuration]
  cases fromStd delay with
  | none => exact .error _ _
  | some delay =>
    refine Agree.rfl.bind (R := Eq) fun _ _ h => ?_
    subst h
    rw [Database.addTime]
    cases checkedAddSigned now _ with
    | none => exact .error _ _
    | some at_ => exact .ok rfl

theorem retry_agree (policy : TaskRetry) (error : String) (now : DateTime) (row : TaskRecord) :
    Agree Eq ((Memory.retry policy error now).exec row) (Database.applyRetry policy error now row) := by
  rw [Memory.retry, Database.applyRetry, Step.exec_bind_modify, Step.exec_bind_get, Step.exec_bind_lift]
  refine Agree.rfl.bind fun exhausted _ h => ?_
  subst h
  cases exhausted with
  | true => exact .ok rfl
  | false =>
    simp only [Bool.false_eq_true, if_false]
    rw [Step.exec_bind_modify, Step.exec_bind_lift]
    refine Agree.rfl.bind fun delay _ h => ?_
    subst h
    rw [Step.exec_bind_lift]
    refine (deadline_agree now delay "task retry duration").bind fun ready at_ h => ?_
    subst h
    exact .ok rfl

theorem sleep_agree (state : String) (delay : Duration) (now : DateTime) (row : TaskRecord) (label : String) :
    Agree Eq ((Memory.sleep state delay now).exec row)
      (Database.deadline now delay label >>= fun readyAt => (.ok { row with
        lastResult := none, stepAttempts := 0, status := .pending, state := some state,
        readyAt := some readyAt } : Except TaskRuntimeError TaskRecord)) := by
  rw [Memory.sleep, Step.exec_bind_modify, Step.exec_bind_lift]
  refine (deadline_agree now delay label).bind fun ready at_ h => ?_
  subst h
  exact .ok rfl

section

variable [Serde]

theorem transition_agree (outcome : TaskOutcome) (retry : TaskRetry) (now : DateTime) (row : TaskRecord) :
    Agree Eq ((Memory.applyTransition outcome retry now).exec row)
      (Database.applyTransition outcome retry now row) := by
  cases outcome with
  | complete => exact .ok rfl
  | completeWith output =>
    rw [Memory.applyTransition, Database.applyTransition, Database.completeOutput]
    cases validateOutput output with
    | ok _ => exact .ok rfl
    | error error => exact .ok rfl
  | suspend state => exact .ok rfl
  | spawn state child => exact .ok rfl
  | all state group => exact .ok rfl
  | sleep state delay => exact sleep_agree state delay now row "task sleep duration"
  | retry error => exact retry_agree retry error now row
  | fail error => exact .ok rfl

/-- The same outcome on the same row, once cancellation is decided. -/
theorem applyOutcome_agree {outcome : TaskOutcome} (retry : TaskRetry) (now : DateTime) {row : TaskRecord}
    (hcancelled : row.cancelled = true → outcome = cancellation) :
    Agree Eq ((Memory.applyOutcome outcome retry now).exec row)
      (Database.applyOutcome outcome retry now row) := by
  have hout : (if row.cancelled then cancellation else outcome) = outcome := by
    split
    next h => exact (hcancelled h).symm
    next => rfl
  rw [Memory.applyOutcome, Database.applyOutcome, hout, Step.exec_then_modify]
  refine (transition_agree outcome retry now row).bind fun task _ h => ?_
  subst h
  cases outcome <;> exact .ok rfl

/-- A parent that has children to wait for is suspended, however it asked for them. -/
def effect : TaskOutcome → TaskOutcome
  | .spawn state _ | .all state _ => .suspend state
  | outcome => outcome

theorem applyOutcome_effect (outcome : TaskOutcome) (retry : TaskRetry) (now : DateTime) :
    Memory.applyOutcome (effect outcome) retry now = Memory.applyOutcome outcome retry now := by
  cases outcome <;> rfl

end

/-! ### Children -/

/-- What the two stores share about a child: its identifier is new, its key comes with a fingerprint, and
    they agree on who the key belongs to, the child exactly when nobody else holds it. -/
structure SameChild (owners : String → String → Option Database.TaskIdempotencyRow)
    (stored staged : List TaskRecord) (now : DateTime) (child : TaskWrite) : Prop where
  fresh : ∀ task ∈ stored ++ staged, task.id ≠ child.record.id
  fingerprint : child.record.idempotencyKey.isSome = true → child.record.idempotencyFingerprint.isSome = true
  owner : ∀ key, child.record.idempotencyKey = some key →
    ∃ owner, owners child.record.name key = some owner ∧
      (owner.taskId = child.record.id.uuid ↔ Memory.matchingKey stored staged child.record now = none)

/-- The child's delay ends inside the calendar. -/
def Schedulable (now : DateTime) (child : TaskWrite) : Prop :=
  ∀ delay, child.initialDelay = some delay → ∃ ready, Memory.checkedDeadline now delay = .ok ready

/-- Somebody else holds the child's key. -/
def held (stored staged : List TaskRecord) (now : DateTime) (child : TaskWrite) : Bool :=
  (Memory.matchingKey stored staged child.record now).isSome

section

variable {owners : String → String → Option Database.TaskIdempotencyRow} {stored staged : List TaskRecord}
  {now : DateTime} {row : TaskRecord} {child : TaskWrite}

/-- The stores stamp a write alike; whether it tolerates conflicts plays no part. -/
theorem stamp_agree {write : TaskWrite} (hrecord : write.record = child.record)
    (hdelay : write.initialDelay = child.initialDelay) :
    Agree (fun record normal => normal = { write with record := record })
      (Memory.stampWrite child now) (Database.normalizeWrite now write) := by
  rw [Memory.stampWrite, Database.normalizeWrite, hrecord, hdelay]
  cases child.initialDelay with
  | none => exact .ok rfl
  | some delay =>
    refine (deadline_agree now delay "task initial delay").bind fun ready at_ h => ?_
    subst h
    exact .ok rfl

/-- The stores give a child the same lineage before they stamp it. -/
theorem childStamp_agree (row : TaskRecord) (child : TaskWrite) :
    Agree (fun record normal => normal = { Database.childWrite row child with record := record })
      (Memory.stampWrite (Memory.childWrite row child) now)
      (Database.normalizeWrite now (Database.childWrite row child)) := stamp_agree rfl rfl

/-- A stamped child keeps what its identity depends on. -/
theorem stamp_identity (h : Memory.stampWrite (Memory.childWrite row child) now = .ok record) :
    record.id = child.record.id ∧ record.name = child.record.name ∧
      record.idempotencyKey = child.record.idempotencyKey := by
  obtain ⟨ready, rfl⟩ := Memory.childStamp h
  exact ⟨rfl, rfl, rfl⟩

theorem Schedulable.stamped (row : TaskRecord) (h : Schedulable now child) :
    ∃ record, Memory.stampWrite (Memory.childWrite row child) now = .ok record := by
  rw [Memory.stampWrite]
  cases hd : child.initialDelay with
  | none => exact ⟨_, by rw [Memory.childWrite, hd]; rfl⟩
  | some delay =>
    obtain ⟨ready, hr⟩ := h delay hd
    exact ⟨_, by rw [Memory.childWrite, hd]; exact Step.except_bind_ok.mpr ⟨ready, hr, rfl⟩⟩

/-- The owner a keyed child reads tells whether somebody else holds its key. -/
theorem SameChild.resolve (h : SameChild owners stored staged now child) (write : TaskWrite)
    (hid : write.record.id = child.record.id) (hname : write.record.name = child.record.name)
    (hkey : write.record.idempotencyKey = child.record.idempotencyKey) (hignore : write.ignoreConflicts = true) :
    ∃ receipt, Database.resolveOwner owners write = .ok receipt ∧
      receipt.queued?.isNone = held stored staged now child := by
  rw [Database.resolveOwner, hkey, hname, hid, hignore, held]
  cases hk : child.record.idempotencyKey with
  | none => exact ⟨_, rfl, by rw [Memory.matchingKey, hk]; rfl⟩
  | some key =>
    obtain ⟨owner, howner, hiff⟩ := h.owner key hk
    simp only [howner]
    by_cases hown : owner.taskId = child.record.id.uuid
    · rw [if_pos hown, hiff.mp hown]
      exact ⟨_, rfl, rfl⟩
    · have hsome : (Memory.matchingKey stored staged child.record now).isSome = true :=
        Option.isSome_iff_ne_none.mpr fun hnone => hown (hiff.mpr hnone)
      rw [if_neg hown, hsome]
      split
      · exact ⟨_, rfl, rfl⟩
      · exact ⟨_, if_pos trivial, rfl⟩

/-- A stamped child is prepared by the database too, and resolved to the same verdict. -/
theorem SameChild.prepare (h : SameChild owners stored staged now child)
    (hstamp : Memory.stampWrite (Memory.childWrite row child) now = .ok record) :
    ∃ write receipt, Database.prepareWrite now (Database.childWrite row child) = .ok write ∧
      Database.resolveOwner owners write = .ok receipt ∧ receipt.queued?.isNone = held stored staged now child := by
  obtain ⟨write, hnormal, rfl⟩ := (childStamp_agree row child).of_ok hstamp
  obtain ⟨ready, rfl⟩ := Memory.childStamp hstamp
  obtain ⟨receipt, hresolve, hheld⟩ := h.resolve { Database.childWrite row child with record := _ } rfl rfl rfl rfl
  refine ⟨_, receipt, Step.except_bind_ok.mpr ⟨_, hnormal, if_neg ?_⟩, hresolve, hheld⟩
  rw [Bool.and_eq_true, Option.isNone_iff_eq_none]
  rintro ⟨hk, hp⟩
  have hprint := h.fingerprint hk
  rw [show child.record.idempotencyFingerprint = none from hp] at hprint
  exact nomatch hprint

/-- The database reserves a group's keys, and finds a conflict exactly when a member's key is held. -/
theorem reserve_members : ∀ group : List TaskWrite,
    (∀ child ∈ group, SameChild owners stored staged now child ∧ Schedulable now child) →
      ∃ prepared children, (group.map (Database.childWrite row)).mapM (Database.prepareWrite now) = .ok prepared ∧
        Database.resolveChildren owners prepared = .ok (children, group.any (held stored staged now))
  | [], _ => ⟨[], [], rfl, rfl⟩
  | child :: group, h => by
    obtain ⟨hsame, hdelay⟩ := h child List.mem_cons_self
    obtain ⟨record, hstamp⟩ := hdelay.stamped row
    obtain ⟨write, receipt, hprep, hresolve, hheld⟩ := hsame.prepare hstamp
    obtain ⟨prepared, children, hrest, hchildren⟩ :=
      reserve_members group fun other hm => h other (List.mem_cons_of_mem _ hm)
    have hmap : ((child :: group).map (Database.childWrite row)).mapM (Database.prepareWrite now) =
        .ok (write :: prepared) := by
      rw [List.map_cons, List.mapM_cons]
      exact Step.except_bind_ok.mpr ⟨write, hprep, Step.except_bind_ok.mpr ⟨prepared, hrest, rfl⟩⟩
    rw [List.any_cons, ← hheld]
    cases receipt with
    | queued id =>
      exact ⟨_, write.record :: children, hmap, Step.except_bind_ok.mpr
        ⟨_, hresolve, Step.except_bind_ok.mpr ⟨_, hchildren, rfl⟩⟩⟩
    | existing id =>
      exact ⟨_, children, hmap, Step.except_bind_ok.mpr
        ⟨_, hresolve, Step.except_bind_ok.mpr ⟨_, hchildren, rfl⟩⟩⟩
    | ignored id =>
      exact ⟨_, children, hmap, Step.except_bind_ok.mpr
        ⟨_, hresolve, Step.except_bind_ok.mpr ⟨_, hchildren, rfl⟩⟩⟩

theorem reserveChildren_ok {group : List TaskWrite}
    (h : ∀ child ∈ group, SameChild owners stored staged now child ∧ Schedulable now child) :
    ∃ children, Database.reserveChildren owners now (group.map (Database.childWrite row)) =
      .ok (children, group.any (held stored staged now)) := by
  obtain ⟨prepared, children, hprep, hresolve⟩ := reserve_members group h
  exact ⟨_, Step.except_bind_ok.mpr ⟨_, hprep, Step.except_bind_ok.mpr ⟨_, hresolve, rfl⟩⟩⟩

/-- Rows that do not hold a child's key do not change who does. -/
theorem matchingKey_append {new : List TaskRecord} (hid : record.name = child.record.name)
    (hkey : record.idempotencyKey = child.record.idempotencyKey)
    (hnew : ∀ task ∈ new, ∀ key, child.record.idempotencyKey = some key →
      Memory.holdsKey task child.record.name key now = false) :
    Memory.matchingKey stored (staged ++ new) record now = Memory.matchingKey stored staged child.record now := by
  rw [Memory.matchingKey, Memory.matchingKey, hkey, hid]
  cases hk : child.record.idempotencyKey with
  | none => rfl
  | some key =>
    simp only [List.reverse_append, List.append_assoc]
    rw [List.find?_append, List.find?_eq_none.mpr, Option.none_or]
    intro task hm
    rw [hnew task (List.mem_reverse.mp hm) key hk]
    exact Bool.false_ne_true

/-- A child that was not queued, because its key is somebody else's. -/
inductive Taken : Except TaskRuntimeError (TaskReceipt × List TaskRecord) → Prop
  | existing (id : TaskId) (staged : List TaskRecord) : Taken (.ok (.existing id, staged))
  | ignored (id : TaskId) (staged : List TaskRecord) : Taken (.ok (.ignored id, staged))
  | conflict (id : TaskId) : Taken (.error (.idempotencyConflict id))

/-- Behind rows that share neither its identifier nor its key, a child is staged by the key that is stored. -/
theorem SameChild.stageWrite_eq (h : SameChild owners stored staged now child) (new : List TaskRecord)
    (hstamp : Memory.stampWrite (Memory.childWrite row child) now = .ok record)
    (hids : ∀ task ∈ new, task.id ≠ child.record.id)
    (hkeys : ∀ task ∈ new, ∀ key, child.record.idempotencyKey = some key →
      Memory.holdsKey task child.record.name key now = false) :
    Memory.stageWrite stored (staged ++ new) (Memory.childWrite row child) now =
      match Memory.matchingKey stored staged child.record now with
      | some owner =>
        if owner.idempotencyFingerprint = record.idempotencyFingerprint then
          .ok (.existing owner.id, staged ++ new)
        else if child.ignoreConflicts then .ok (.ignored owner.id, staged ++ new)
        else .error (.idempotencyConflict owner.id)
      | none => .ok (.queued record.id, staged ++ new ++ [record]) := by
  obtain ⟨hid, hname, hkey⟩ := stamp_identity hstamp
  have hfresh : ¬ (stored ++ (staged ++ new)).any (fun task => task.id = record.id) = true := by
    rw [hid, ← List.append_assoc, List.any_append, Bool.or_eq_true, List.any_eq_true, List.any_eq_true]
    rintro (⟨task, hm, heq⟩ | ⟨task, hm, heq⟩)
    · exact h.fresh task hm (of_decide_eq_true heq)
    · exact hids task hm (of_decide_eq_true heq)
  rw [← matchingKey_append hname hkey hkeys, Memory.stageWrite, hstamp]
  exact if_neg hfresh

/-- The memory store stages a child, behind rows that share neither its identifier nor its key, exactly when
    its key is free. -/
theorem SameChild.stage (h : SameChild owners stored staged now child) (new : List TaskRecord)
    (hstamp : Memory.stampWrite (Memory.childWrite row child) now = .ok record)
    (hids : ∀ task ∈ new, task.id ≠ child.record.id)
    (hkeys : ∀ task ∈ new, ∀ key, child.record.idempotencyKey = some key →
      Memory.holdsKey task child.record.name key now = false) :
    (held stored staged now child = false →
      Memory.stageWrite stored (staged ++ new) (Memory.childWrite row child) now =
        .ok (.queued record.id, staged ++ new ++ [record])) ∧
    (held stored staged now child = true →
      Taken (Memory.stageWrite stored (staged ++ new) (Memory.childWrite row child) now)) := by
  rw [h.stageWrite_eq new hstamp hids hkeys, held]
  cases Memory.matchingKey stored staged child.record now with
  | none => exact ⟨fun _ => rfl, fun hheld => (by cases hheld)⟩
  | some owner =>
    refine ⟨fun hheld => (by cases hheld), fun _ => ?_⟩
    simp only
    split
    · exact .existing _ _
    · split
      · exact .ignored _ _
      · exact .conflict _

/-- The rows a group staged so far carry identities it has seen. -/
structure Seen (ids : List TaskId) (keys : List (String × String)) (new : List TaskRecord) : Prop where
  ids : ∀ task ∈ new, task.id ∈ ids
  keys : ∀ task ∈ new, ∀ key, task.idempotencyKey = some key → (task.name, key) ∈ keys

theorem Seen.add {ids : List TaskId} {keys keys' : List (String × String)} {new : List TaskRecord}
    (h : Seen ids keys new) (hkeys : keys ⊆ keys')
    (hown : ∀ key, record.idempotencyKey = some key → (record.name, key) ∈ keys') :
    Seen (record.id :: ids) keys' (new ++ [record]) := by
  refine ⟨fun task hm => ?_, fun task hm => ?_⟩
  · rcases List.mem_append.mp hm with hm | hm
    · exact List.mem_cons_of_mem _ (h.ids task hm)
    · exact List.mem_cons.mpr (.inl (congrArg _ (List.mem_singleton.mp hm)))
  · rcases List.mem_append.mp hm with hm | hm
    · exact fun key hk => hkeys (h.keys task hm key hk)
    · exact List.mem_singleton.mp hm ▸ hown

theorem notMem_of_valid {conf : TaskStoreConf} {ids : List TaskId}
    (h : ¬ invalidChild conf ids child = true) : child.record.id ∉ ids := by
  intro hm
  refine h ?_
  simp [invalidChild, hm]

/-- A valid member's key is none the group has staged. -/
theorem keys_of_valid {conf : TaskStoreConf} {ids : List TaskId} {keys : List (String × String)}
    {new : List TaskRecord} {group : List TaskWrite} (hseen : Seen ids keys new)
    (h : (match child.record.idempotencyKey with
      | none => validateMembers conf (child.record.id :: ids) keys group
      | some key =>
        if (child.record.name, key) ∈ keys then .error (.invalidOptions "Duplicate all child key")
        else validateMembers conf (child.record.id :: ids) ((child.record.name, key) :: keys) group) = .ok ()) :
    ∃ keys', keys ⊆ keys' ∧
      (∀ key, child.record.idempotencyKey = some key → (child.record.name, key) ∈ keys') ∧
      (∀ task ∈ new, ∀ key, child.record.idempotencyKey = some key →
        Memory.holdsKey task child.record.name key now = false) ∧
      validateMembers conf (child.record.id :: ids) keys' group = .ok () := by
  cases hk : child.record.idempotencyKey with
  | none =>
    rw [hk] at h
    exact ⟨keys, fun _ hm => hm, fun _ hsome => (nomatch hsome), fun _ _ _ hsome => (nomatch hsome), h⟩
  | some key =>
    rw [hk] at h
    obtain ⟨hnew, h⟩ := Step.except_check_ok.mp h
    refine ⟨_, List.subset_cons_self _ _, fun other heq => ?_, fun task hm other heq => ?_, h⟩
    · obtain rfl := Option.some.inj heq
      exact List.mem_cons_self
    · obtain rfl := Option.some.inj heq
      by_contra hholds
      rw [Bool.not_eq_false, Memory.holdsKey, Bool.and_eq_true, Bool.and_eq_true, decide_eq_true_iff,
        decide_eq_true_iff] at hholds
      obtain ⟨⟨hname, hkey⟩, -⟩ := hholds
      exact hnew (hname ▸ hseen.keys task hm key hkey)

/-- A valid group is staged as a whole exactly when none of its members' keys is held. -/
theorem prepareMembers_agree {conf : TaskStoreConf} : ∀ (group : List TaskWrite) (ids : List TaskId)
    (keys : List (String × String)) (new : List TaskRecord), Seen ids keys new →
      validateMembers conf ids keys group = .ok () →
      (∀ child ∈ group, SameChild owners stored staged now child ∧ Schedulable now child) →
        (Memory.prepareMembers stored row now (staged ++ new) group).isNone = group.any (held stored staged now)
  | [], _, _, _, _, _, _ => rfl
  | child :: group, ids, keys, new, hseen, hvalid, h => by
    obtain ⟨hsame, hdelay⟩ := h child List.mem_cons_self
    obtain ⟨record, hstamp⟩ := hdelay.stamped row
    have hrest : ∀ other ∈ group, SameChild owners stored staged now other ∧ Schedulable now other :=
      fun other hm => h other (List.mem_cons_of_mem _ hm)
    obtain ⟨hid, hname, hkey⟩ := stamp_identity hstamp
    rw [validateMembers] at hvalid
    obtain ⟨hmember, hvalid⟩ := Step.except_check_ok.mp hvalid
    have hids : ∀ task ∈ new, task.id ≠ child.record.id := fun task hm heq =>
      notMem_of_valid hmember (heq ▸ hseen.ids task hm)
    obtain ⟨keys', hsub, hown, hnew, hvalid⟩ := keys_of_valid hseen hvalid
    obtain ⟨hfree, htaken⟩ := hsame.stage new hstamp hids hnew
    rw [Memory.prepareMembers, List.any_cons]
    cases hheld : held stored staged now child with
    | true =>
      have hstaged := htaken hheld
      generalize Memory.stageWrite stored (staged ++ new) (Memory.childWrite row child) now = result at hstaged
      cases hstaged <;> rfl
    | false =>
      rw [hfree hheld, Bool.false_or, List.append_assoc]
      have hseen' : Seen (child.record.id :: ids) keys' (new ++ [record]) := by
        rw [← hid]
        exact hseen.add hsub fun key hk => hname ▸ hown key (hkey ▸ hk)
      exact prepareMembers_agree group _ _ _ hseen' hvalid hrest

end

/-! ### The outcome -/

/-- A flow that was not cancelled asks for a group. -/
def AsksGroup (row : TaskRecord) (commit : TaskCommit) : Prop :=
  commit.isAll = true ∧ row.kind = .flow ∧ row.cancelled = false

/-- The stores decide the same, or both fail a refused group with a text of their own. -/
def SameOutcome (asks : Prop) (outcome outcome' : TaskOutcome) : Prop :=
  effect outcome = effect outcome' ∨
    asks ∧ ∃ error error', outcome = .fail error ∧ outcome' = .fail error'

/-- What the database does to a row, cancellation decided. -/
def decided (conf : TaskStoreConf) (row : TaskRecord) (commit : TaskCommit) (conflict : Bool) : TaskOutcome :=
  if row.cancelled then cancellation
  else Database.rowOutcome conf row (commit.outcome?.getD cancellation) conflict

section

variable {owners : String → String → Option Database.TaskIdempotencyRow} {state : Memory.MemoryState}
  {conf : TaskStoreConf} {staged : List TaskRecord} {now : DateTime} {row : TaskRecord} {commit : TaskCommit}

theorem decided_of_capable {outcome : TaskOutcome} (hcancelled : row.cancelled = false)
    (hasks : commit.outcome?.getD cancellation = outcome)
    (hcapable : capabilityError row.kind outcome conf.handlers = none) (conflict : Bool) :
    decided conf row commit conflict =
      if conflict then .fail "Child task identity conflicts with an existing task" else outcome := by
  rw [decided, hcancelled, hasks, Database.rowOutcome, hcancelled, if_neg Bool.false_ne_true,
    if_neg Bool.false_ne_true, hcapable]

/-- A group: valid or not, its members free or not. -/
theorem group_agree (hconf : state.conf = some conf) {group : List TaskWrite}
    (hasks : commit.outcome? = some (.all checkpoint group)) (hkind : row.kind = .flow)
    (hcancelled : row.cancelled = false)
    (hchildren : ∀ child ∈ group, SameChild owners state.tasks staged now child)
    (hdelays : validateGroup group conf = .ok () → ∀ child ∈ group, Schedulable now child) :
    Agree (fun prepared reserved => SameOutcome (AsksGroup row commit) prepared.1 (decided conf row commit reserved.2))
      (Memory.prepare state row checkpoint group staged now)
      (Database.prepareChildren owners conf now row commit) := by
  have hall : AsksGroup row commit := ⟨by rw [TaskCommit.isAll, hasks]; rfl, hkind, hcancelled⟩
  have hdecided := @decided_of_capable conf _ _ _ hcancelled
    (show commit.outcome?.getD cancellation = .all checkpoint group by rw [hasks]; rfl) (by rw [hkind]; rfl)
  have hrefused : ∀ error, SameOutcome (AsksGroup row commit) (.fail error) (decided conf row commit true) :=
    fun error => .inr ⟨hall, error, _, rfl, hdecided true⟩
  rw [Memory.prepare, hconf, Database.prepareChildren, hcancelled, if_neg Bool.false_ne_true, hasks]
  simp only
  rw [if_neg (not_not_intro hkind)]
  cases hvalid : validateGroup group conf with
  | error error => exact .ok (hrefused _)
  | ok _ =>
    have hchildren : ∀ child ∈ group, SameChild owners state.tasks staged now child ∧ Schedulable now child :=
      fun child hm => ⟨hchildren child hm, hdelays hvalid child hm⟩
    obtain ⟨children, hreserve⟩ := @reserveChildren_ok _ _ _ _ row _ hchildren
    have hmembers : (Memory.prepareMembers state.tasks row now staged group).isNone =
        group.any (held state.tasks staged now) := by
      have hagree := @prepareMembers_agree _ _ staged _ row _ group [] [] []
        ⟨fun _ hm => (nomatch hm), fun _ hm => (nomatch hm)⟩ (Step.except_check_ok.mp hvalid).2 hchildren
      rwa [List.append_nil] at hagree
    simp only
    rw [hreserve, ← hmembers]
    cases Memory.prepareMembers state.tasks row now staged group with
    | none => exact .ok (hrefused _)
    | some children => exact .ok (.inl (by rw [hdecided]; rfl))

theorem deadline_error {delay : Duration} {error : TaskRuntimeError}
    (h : Memory.checkedDeadline now delay = .error error) : ∃ text, error = .invalidConfig text := by
  rcases Step.except_bind_error.mp h with h | ⟨chrono, -, h⟩
  · rw [Memory.chronoDuration] at h
    split at h
    · exact nomatch h
    · exact ⟨_, (Except.error.inj h).symm⟩
  · split at h
    · exact nomatch h
    · exact ⟨_, (Except.error.inj h).symm⟩

/-- The only error of a stamp is its delay's, which is no identity conflict. -/
theorem stampWrite_error {error : TaskRuntimeError} (h : Memory.stampWrite child now = .error error) :
    ∃ text, error = .invalidConfig text := by
  rw [Memory.stampWrite] at h
  cases hd : child.initialDelay with
  | none =>
    rw [hd] at h
    cases h
  | some delay =>
    rw [hd] at h
    rcases Step.except_bind_error.mp h with h | ⟨ready, -, h⟩
    · exact deadline_error h
    · cases h

theorem schedulable_of_stamped (h : Memory.stampWrite (Memory.childWrite row child) now = .ok record) :
    Schedulable now child := by
  intro delay hd
  rw [Memory.stampWrite, Memory.childWrite, hd] at h
  obtain ⟨ready, hready, -⟩ := Step.except_bind_ok.mp h
  exact ⟨ready, hready⟩

/-- A registered child's lane is checked alike. -/
theorem lanes_agree (hconf : state.conf = some conf)
    (hhandler : conf.handlers.any (fun entry => entry.1 = child.record.name) = true) :
    (∃ u, Memory.validateWriteLanes state [child] = .ok u) ↔ (conf.laneNamed child.record.lane).isSome = true := by
  have hlane : conf.lanes.any (fun entry => entry.lane.asStr = child.record.lane) =
      (conf.laneNamed child.record.lane).isSome := by
    rw [TaskStoreConf.laneNamed, Bool.eq_iff_iff, List.find?_isSome, List.any_eq_true]
  rw [← hlane]
  constructor
  · rintro ⟨u, h⟩
    obtain ⟨_, hlanes, -⟩ := Step.except_bind_ok.mp h
    rw [Memory.requireLane, hconf] at hlanes
    by_contra hnone
    exact nomatch (if_neg hnone).symm.trans hlanes
  · intro h
    refine ⟨(), Step.except_bind_ok.mpr ⟨(), ?_, Step.except_bind_ok.mpr ⟨(), ?_, rfl⟩⟩⟩
    · rw [Memory.requireLane, hconf]
      exact if_pos h
    · rw [Memory.requireHandler, hconf]
      exact if_pos hhandler

theorem registered_of_capable {kind : TaskKind}
    (h : capabilityError kind (.spawn checkpoint child) conf.handlers = none) :
    conf.handlers.any (fun entry => entry.1 = child.record.name) = true := by
  have hany : conf.handlers.any (fun entry => entry.1 = child.record.name && entry.2 = child.record.kind) = true := by
    by_contra hnot
    cases kind with
    | work => exact nomatch h
    | flow => exact nomatch (if_neg hnot).symm.trans h
  obtain ⟨entry, hm, hentry⟩ := List.any_eq_true.mp hany
  exact List.any_eq_true.mpr ⟨entry, hm, (Bool.and_eq_true _ _ ▸ hentry).1⟩

/-- One child whose lane and write are in order: its key decides. -/
theorem child_agree
    (hdecided : ∀ conflict, decided conf row commit conflict =
      if conflict then .fail "Child task identity conflicts with an existing task" else .spawn checkpoint child)
    (hchild : SameChild owners state.tasks staged now child) :
    Agree (fun prepared reserved => SameOutcome (AsksGroup row commit) prepared.1 (decided conf row commit reserved.2))
      (match Memory.stageWrite state.tasks staged (Memory.childWrite row child) now with
        | .ok (.queued _, children) => .ok (.suspend checkpoint, children)
        | .ok _ | .error (.idempotencyConflict _) | .error (.alreadyExists _) =>
          .ok (Memory.childConflict, staged)
        | .error error => (.error error : Except TaskRuntimeError (TaskOutcome × List TaskRecord)))
      (Database.reserveChildren owners now [Database.childWrite row child]) := by
  cases hstamp : Memory.stampWrite (Memory.childWrite row child) now with
  | error error =>
    obtain ⟨text, rfl⟩ := stampWrite_error hstamp
    have hstage : Memory.stageWrite state.tasks staged (Memory.childWrite row child) now =
        .error (.invalidConfig text) := by
      rw [Memory.stageWrite, hstamp]
      rfl
    obtain ⟨other, hnormal⟩ := (childStamp_agree row child).of_error hstamp
    rw [hstage, Database.reserveChildren, List.mapM_cons, Database.prepareWrite, hnormal]
    exact .error _ _
  | ok record =>
    have hchildren : ∀ other ∈ [child], SameChild owners state.tasks staged now other ∧ Schedulable now other := by
      intro other hm
      obtain rfl := List.mem_singleton.mp hm
      exact ⟨hchild, schedulable_of_stamped hstamp⟩
    obtain ⟨children, hreserve⟩ := @reserveChildren_ok _ _ _ _ row _ hchildren
    obtain ⟨hfree, htaken⟩ := hchild.stage [] hstamp (fun _ hm => (by cases hm)) (fun _ hm => (by cases hm))
    rw [List.append_nil] at hfree htaken
    rw [List.map_singleton, List.any_cons, List.any_nil, Bool.or_false] at hreserve
    rw [hreserve]
    cases hheld : held state.tasks staged now child with
    | true =>
      have hstaged := htaken hheld
      generalize Memory.stageWrite state.tasks staged (Memory.childWrite row child) now = result at hstaged
      have hconflict : SameOutcome (AsksGroup row commit) Memory.childConflict (decided conf row commit true) :=
        .inl (by rw [hdecided]; rfl)
      cases hstaged <;> exact .ok hconflict
    | false =>
      rw [hfree hheld]
      exact .ok (.inl (by rw [hdecided]; rfl))

/-- One child: what refuses it refuses it in both stores. -/
theorem spawn_agree (hconf : state.conf = some conf)
    (hasks : commit.outcome? = some (.spawn checkpoint child)) (hcancelled : row.cancelled = false)
    (hcapable : capabilityError row.kind (.spawn checkpoint child) conf.handlers = none)
    (hchild : SameChild owners state.tasks staged now child) :
    Agree (fun prepared reserved => SameOutcome (AsksGroup row commit) prepared.1 (decided conf row commit reserved.2))
      (Memory.prepareSpawn state row (.spawn checkpoint child) staged now)
      (Database.prepareChildren owners conf now row commit) := by
  have hdecided := @decided_of_capable conf _ _ _ hcancelled
    (show commit.outcome?.getD cancellation = .spawn checkpoint child by rw [hasks]; rfl) hcapable
  have hlanes := lanes_agree hconf (registered_of_capable hcapable)
  rw [Memory.prepareSpawn, Database.prepareChildren, hcancelled, if_neg Bool.false_ne_true, hasks]
  simp only
  rw [hcapable]
  simp only
  cases hvalid : Memory.validateWriteLanes state [child] with
  | error error =>
    rw [hvalid] at hlanes
    have hlane : conf.laneNamed child.record.lane = none := by
      rw [← Option.not_isSome_iff_eq_none, ← hlanes]
      intro hsome
      obtain ⟨_, h⟩ := hsome
      cases h
    rw [hlane]
    split <;> exact .error _ _
  | ok u =>
    rw [hvalid] at hlanes
    obtain ⟨lane, hlane⟩ := Option.isSome_iff_exists.mp (hlanes.mp ⟨u, rfl⟩)
    rw [hlane]
    by_cases hignore : child.ignoreConflicts = true
    · rw [if_pos hignore, if_pos hignore]
      exact .error _ _
    · rw [if_neg hignore, if_neg hignore]
      exact child_agree hdecided hchild

/-- An outcome its handler may not have fails the row, whatever the database reserved. -/
theorem incapable_agree {outcome : TaskOutcome} {error : String} (hasks : commit.outcome? = some outcome)
    (hcancelled : row.cancelled = false)
    (hcapable : capabilityError row.kind outcome conf.handlers = some error) :
    Agree (fun prepared reserved => SameOutcome (AsksGroup row commit) prepared.1 (decided conf row commit reserved.2))
      (.ok (.fail error, staged) : Except TaskRuntimeError (TaskOutcome × List TaskRecord))
      (Database.prepareChildren owners conf now row commit) := by
  have hreserve : ∃ conflict, Database.prepareChildren owners conf now row commit = .ok ([], conflict) := by
    rw [Database.prepareChildren, hcancelled, if_neg Bool.false_ne_true, hasks]
    cases outcome with
    | all checkpoint group =>
      refine ⟨true, if_pos fun hkind => ?_⟩
      rw [hkind] at hcapable
      exact nomatch hcapable
    | spawn checkpoint child =>
      refine ⟨false, ?_⟩
      simp only
      rw [hcapable]
    | complete | completeWith | suspend | sleep | retry | fail => exact ⟨false, rfl⟩
  obtain ⟨conflict, hreserve⟩ := hreserve
  rw [hreserve]
  refine .ok (.inl ?_)
  rw [decided, hcancelled, hasks, Database.rowOutcome, hcancelled, if_neg Bool.false_ne_true,
    if_neg Bool.false_ne_true, Option.getD_some, hcapable]

/-- Cancellation first, then capability, then the children: the stores decide the same. -/
theorem outcome_agree (hconf : state.conf = some conf)
    (hchildren : ∀ child ∈ commit.writes, SameChild owners state.tasks staged now child)
    (hdelays : commit.isAll = true → validateGroup commit.writes conf = .ok () →
      ∀ child ∈ commit.writes, Schedulable now child) :
    Agree (fun prepared reserved => SameOutcome (AsksGroup row commit) prepared.1 (decided conf row commit reserved.2))
      (Memory.effectiveOutcome state conf row commit staged now)
      (Database.prepareChildren owners conf now row commit) := by
  rw [Memory.effectiveOutcome]
  cases hcancelled : row.cancelled with
  | true =>
    rw [Database.prepareChildren, hcancelled]
    refine .ok (.inl ?_)
    rw [decided, hcancelled]
    rfl
  | false =>
    simp only [Bool.false_eq_true, if_false]
    cases hasks : commit.outcome? with
    | none =>
      have hcapable : capabilityError row.kind cancellation conf.handlers = none := by cases row.kind <;> rfl
      rw [Option.getD_none, hcapable, Database.prepareChildren, hcancelled, hasks]
      refine .ok (.inl ?_)
      rw [decided_of_capable hcancelled (by rw [hasks]; rfl) hcapable]
      rfl
    | some outcome =>
      rw [Option.getD_some]
      cases hcapable : capabilityError row.kind outcome conf.handlers with
      | some error => exact incapable_agree hasks hcancelled hcapable
      | none =>
        have hwrites : commit.writes = outcome.writes := by rw [TaskCommit.writes, hasks]; rfl
        rw [hwrites] at hchildren hdelays
        cases outcome with
        | all checkpoint group =>
          have hkind : row.kind = .flow := by
            cases hk : row.kind with
            | flow => rfl
            | work =>
              rw [hk] at hcapable
              cases hcapable
          have hall : commit.isAll = true := by rw [TaskCommit.isAll, hasks]; rfl
          exact group_agree hconf hasks hkind hcancelled hchildren (hdelays hall)
        | spawn checkpoint child =>
          exact spawn_agree hconf hasks hcancelled hcapable (hchildren child List.mem_cons_self)
        | complete | completeWith | suspend | sleep | retry | fail =>
          rw [Database.prepareChildren, hcancelled, hasks]
          refine .ok (.inl ?_)
          rw [decided_of_capable hcancelled (by rw [hasks]; rfl) hcapable]
          rfl

end

/-! ### The record -/

/-- The same record, except that each store words the diagnostic of a refused group itself. -/
structure SameRecord (asks : Prop) (task row : TaskRecord) : Prop where
  fields : row = { task with lastResult := row.lastResult }
  result : row.lastResult = task.lastResult ∨ asks ∧ task.status = .failed ∧ ∃ error error',
    task.lastResult = some (failure task.id error) ∧ row.lastResult = some (failure task.id error')

section

variable {conf : TaskStoreConf} {now : DateTime} {asks : Prop} {task row : TaskRecord}

theorem SameRecord.rfl : SameRecord asks task task := ⟨Eq.refl task, .inl (Eq.refl _)⟩

theorem SameRecord.mono {asks' : Prop} (h : SameRecord asks task row) (hasks : asks → asks') :
    SameRecord asks' task row :=
  ⟨h.fields, h.result.imp_right fun ⟨hgroup, hrest⟩ => ⟨hasks hgroup, hrest⟩⟩

theorem SameRecord.status (h : SameRecord asks task row) : row.status = task.status := by rw [h.fields]

theorem SameRecord.isSome (h : SameRecord asks task row) : row.lastResult.isSome = task.lastResult.isSome := by
  rcases h.result with heq | ⟨-, -, error, error', htask, hrow⟩
  · rw [heq]
  · rw [htask, hrow]
    exact Eq.refl true

theorem SameRecord.expires (h : SameRecord asks task row) (expires : Option DateTime) :
    SameRecord asks { task with idempotencyExpiresAt := expires } { row with idempotencyExpiresAt := expires } where
  fields := congrArg (fun row : TaskRecord => { row with idempotencyExpiresAt := expires }) h.fields
  result := h.result

/-- Two records are given one expiry. -/
def Expired (task row task' row' : TaskRecord) : Prop :=
  ∃ expires, task' = { task with idempotencyExpiresAt := expires } ∧
    row' = { row with idempotencyExpiresAt := expires }

/-- A key's expiry does not depend on the result. -/
theorem expiry_agree (h : SameRecord asks task row) :
    Agree (Expired task row) ((Memory.finalizeIdempotency conf now).exec task)
      (Database.updateIdempotency conf now row) := by
  have hname : row.name = task.name := by rw [h.fields]
  have hkey : row.idempotencyKey = task.idempotencyKey := by rw [h.fields]
  have hexpires : row.idempotencyExpiresAt = task.idempotencyExpiresAt := by rw [h.fields]
  have hkept : Expired task row task row := ⟨task.idempotencyExpiresAt, Eq.refl task, hexpires ▸ Eq.refl row⟩
  rw [Memory.finalizeIdempotency, Step.exec_bind_get, Database.updateIdempotency]
  cases hterminal : task.status.terminal with
  | false =>
    rw [(congrArg TaskStatus.terminal h.status).trans hterminal, Bool.and_false]
    exact .ok hkept
  | true =>
    cases hsome : task.idempotencyKey with
    | none =>
      rw [hkey.trans hsome]
      exact .ok hkept
    | some key =>
      rw [if_neg (by decide), if_neg (by simp), if_pos (by rw [hkey, hsome, h.status, hterminal]; exact Eq.refl true)]
      cases hpolicy : conf.idempotencyFor task.name with
      | none =>
        rw [(congrArg conf.idempotencyFor hname).trans hpolicy]
        exact .error _ _
      | some retention =>
        rw [(congrArg conf.idempotencyFor hname).trans hpolicy]
        cases retention with
        | activeOnly => exact .ok ⟨none, Eq.refl _, Eq.refl _⟩
        | retainFor duration =>
          dsimp only
          rw [Step.exec_bind_lift]
          refine (deadline_agree now duration "idempotency retention").bind fun expiry at_ hat => ?_
          subst hat
          exact .ok ⟨some at_, Eq.refl _, Eq.refl _⟩

/-- A delivery is refused for a terminal row without a result, in either store. -/
theorem delivery_agree (h : SameRecord asks task row) (deliveries deliveries' : List (TaskId × String)) :
    Agree (fun _ _ => True) (Memory.queueDelivery task deliveries) (Database.queueDelivery row deliveries') := by
  have hparent : row.parentId = task.parentId := by rw [h.fields]
  have hresult : @Agree TaskRuntimeError TaskRuntimeError _ _ (fun result result' => result.isSome = result'.isSome)
      (terminalResult task.status task.lastResult) (terminalResult row.status row.lastResult) := by
    have hsome := h.isSome
    rw [h.status]
    revert hsome
    cases task.lastResult <;> cases row.lastResult <;> intro hsome
    · exact Agree.rfl.mono fun _ _ heq => by rw [heq]
    · exact nomatch hsome
    · exact nomatch hsome
    · simp only [terminalResult]
      split
      · exact .ok (Eq.refl _)
      · exact .ok (Eq.refl _)
  rw [Memory.queueDelivery, Database.queueDelivery, hparent]
  cases task.parentId with
  | none => exact .ok trivial
  | some parent =>
    refine hresult.bind fun result result' _ => ?_
    cases result <;> cases result' <;> exact .ok trivial

/-- A record is settled alike: its key's expiry, and its delivery. -/
theorem settle_agree (h : SameRecord asks task row) (staged : List TaskRecord)
    (deliveries : List Memory.Delivery) :
    Agree (fun result row' => SameRecord asks result.1 row')
      ((Memory.finalizeIdempotency conf now).exec task >>= fun task' =>
        Memory.queueDelivery task' deliveries >>= fun deliveries => (.ok (task', staged, deliveries) :
          Except TaskRuntimeError (TaskRecord × List TaskRecord × List Memory.Delivery)))
      (Database.queueDelivery row [] >>= fun _ => Database.updateIdempotency conf now row) := by
  refine (expiry_agree h).bind_swap (Q := fun _ _ => True) ?_ ?_
  · rintro task' row' ⟨expires, rfl, rfl⟩
    exact delivery_agree (h.expires expires) deliveries []
  · rintro task' row' deliveries' ⟨expires, rfl, rfl⟩
    exact h.expires expires

section

variable [Serde]

/-- What the stores decided is done alike. -/
theorem applied_agree {outcome outcome' : TaskOutcome} (retry : TaskRetry)
    (hsame : SameOutcome asks outcome (if task.cancelled then cancellation else outcome'))
    (hasks : asks → task.cancelled = false) :
    Agree (SameRecord asks) ((Memory.applyOutcome outcome retry now).exec task)
      (Database.applyOutcome outcome' retry now task) := by
  rcases hsame with heffect | ⟨hgroup, error, error', rfl, hfail⟩
  · have hdecided : Database.applyOutcome outcome' retry now task =
        Database.applyOutcome (if task.cancelled then cancellation else outcome') retry now task := by
      rw [Database.applyOutcome, Database.applyOutcome]
      cases task.cancelled <;> exact Eq.refl _
    rw [hdecided, ← applyOutcome_effect outcome, heffect, applyOutcome_effect]
    refine (applyOutcome_agree retry now fun hcancelled => if_pos hcancelled).mono ?_
    rintro task' _ rfl
    exact .rfl
  · have hrunning := hasks hgroup
    rw [hrunning, if_neg Bool.false_ne_true] at hfail
    subst hfail
    rw [Database.applyOutcome, hrunning]
    exact .ok ⟨Eq.refl _, .inr ⟨hgroup, Eq.refl _, error, error', Eq.refl _, Eq.refl _⟩⟩

variable {owners : String → String → Option Database.TaskIdempotencyRow} {state : Memory.MemoryState}
  {staged : List TaskRecord} {commit : TaskCommit}

/-- The stores compute the same record from a row and a command, or both fail; a group that is refused fails
    its parent in both, with a diagnostic of each store's own. -/
theorem stores_agree (hconf : state.conf = some conf)
    (hchildren : ∀ child ∈ commit.writes, SameChild owners state.tasks staged now child)
    (hdelays : commit.isAll = true → validateGroup commit.writes conf = .ok () →
      ∀ child ∈ commit.writes, Schedulable now child) (deliveries : List Memory.Delivery) :
    Agree (fun result row => SameRecord (AsksGroup task commit) result.1 row)
      (Memory.stagedTask state task commit now staged deliveries)
      (Database.commitRow owners conf now task commit) := by
  rw [Memory.stagedTask, hconf, Database.commitRow]
  dsimp only
  refine (outcome_agree hconf hchildren hdelays).bind fun prepared reserved hsame => ?_
  cases conf.laneNamed task.lane with
  | none => exact .error _ _
  | some lane =>
    refine (applied_agree lane.retry hsame fun hasks => hasks.2.2).bind fun task' row hrecord => ?_
    refine (settle_agree hrecord prepared.2 deliveries).mono fun result row' hrow => ?_
    exact hrow.mono fun hasks => ⟨hasks.1, hasks.2.1, (Bool.or_eq_false_iff.mp hasks.2.2).1⟩

end

end

/-! ### Three commands -/

section

/-- A flow that a node runs, and asks for members. -/
def asking : TaskRecord :=
  { Memory.freshRecord 1 .flow "open" with
    status := .running, attempts := 1, stepAttempts := 1, nodeId := some 7, readyAt := none }

def askingState : Memory.MemoryState := { Memory.MemoryState.new Memory.smallConf with tasks := [asking] }

def commanding (outcome : TaskOutcome) : TaskCommit := .outcome 7 1 asking.id ⟨"open"⟩ outcome none

/-- A child with a key. -/
def keyedChild : TaskWrite :=
  Memory.plainWrite { Memory.freshRecord 2 .work "open" with
    idempotencyKey := some "daily", idempotencyFingerprint := some "f" }

theorem stores_agree_keyed_child :
    let _ := Memory.acceptingSerde
    Agree (fun result row => SameRecord (AsksGroup asking (commanding (.spawn "0" keyedChild))) result.1 row)
      (Memory.stagedTask askingState asking (commanding (.spawn "0" keyedChild)) 5 [] [])
      (Database.commitRow (fun _ _ => some ⟨"f", 2⟩) Memory.smallConf 5 asking
        (commanding (.spawn "0" keyedChild))) := by
  let _ := Memory.acceptingSerde
  have hchildren : ∀ child ∈ (commanding (.spawn "0" keyedChild)).writes,
      SameChild (fun _ _ => some ⟨"f", 2⟩) askingState.tasks [] 5 child := by
    intro child hmem
    obtain rfl := List.mem_singleton.mp hmem
    exact ⟨by decide, by decide, fun _ _ => ⟨_, rfl, by decide⟩⟩
  exact stores_agree rfl hchildren (fun h => absurd h (by decide)) []

/-- A group without a handler fails its parent in both stores, with different texts; one that is due after
    the calendar's end fails its parent in one store only. -/
theorem refused_group_differs :
    let _ := Memory.acceptingSerde
    let unknown := commanding (.all "0"
      [Memory.plainWrite { Memory.freshRecord 2 .work "open" with name := "unknown" }])
    let late := commanding (.all "0" [⟨Memory.freshRecord 2 .work "open", false, some (Duration.ofSecs 100)⟩])
    (∃ task row, Memory.stagedTask askingState asking unknown 5 [] [] = .ok (task, [], []) ∧
      Database.commitRow (fun _ _ => none) Memory.smallConf 5 asking unknown = .ok row ∧
      row.lastResult ≠ task.lastResult) ∧
    (∃ task, Memory.stagedTask askingState asking late maxUtc [] [] = .ok (task, [], [])) ∧
    ∃ error, Database.commitRow (fun _ _ => none) Memory.smallConf maxUtc asking late = .error error := by
  intro _ unknown late
  refine ⟨⟨_, _, rfl, rfl, by decide +kernel⟩, ⟨_, rfl⟩, ⟨_, rfl⟩⟩

end

end Vyuh.Tasks
