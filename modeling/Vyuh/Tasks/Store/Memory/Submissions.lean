import Vyuh.Tasks.Store.Memory.Staging

/-! Submission staging. Root submissions and children go through the same `stageWrite`, against the
    stored rows and the batch staged so far; `Batch` is what a staged batch satisfies whichever way it
    was built: new identifiers, and no key that a stored row or an earlier entry holds. -/

namespace Vyuh.Tasks.Memory
open Lib

/-- A staged batch: new rows that hold nothing anybody else holds. -/
structure Batch (existing : List TaskRecord) (now : DateTime) (staged : List TaskRecord) : Prop where
  fresh : ∀ t ∈ staged, ∀ r ∈ existing, r.id ≠ t.id
  distinct : (staged.map (·.id)).Nodup
  keys : ∀ t ∈ staged, ∀ key, t.idempotencyKey = some key →
    ∀ r ∈ existing, holdsKey r t.name key now = false
  pairs : staged.Pairwise fun a b => ∀ key, b.idempotencyKey = some key →
    holdsKey a b.name key now = false

theorem Batch.nil (existing : List TaskRecord) (now : DateTime) : Batch existing now [] :=
  ⟨fun _ h => (nomatch h), List.nodup_nil, fun _ h => (nomatch h), .nil⟩

/-- Stored rows and a batch behind them stay distinct. -/
theorem Batch.nodup {existing : List TaskRecord} {now : DateTime} {staged : List TaskRecord}
    (h : Batch existing now staged) (hd : (existing.map (·.id)).Nodup) :
    (existing.map (·.id) ++ staged.map (·.id)).Nodup := by
  rw [List.nodup_append]
  refine ⟨hd, h.distinct, fun id hid id' hid' => ?_⟩
  obtain ⟨r, hr, rfl⟩ := List.mem_map.mp hid
  obtain ⟨t, ht, rfl⟩ := List.mem_map.mp hid'
  exact h.fresh t ht r hr

variable {existing staged staged' : List TaskRecord} {now : DateTime} {write : TaskWrite}
  {receipt : TaskReceipt}

/-- A record stamped by the store: only its times are the store's. -/
theorem stampWrite_ok {record : TaskRecord} (h : stampWrite write now = .ok record) :
    ∃ ready, record = { write.record with createdAt := now, updatedAt := now, readyAt := ready } := by
  rw [stampWrite] at h
  cases hd : write.initialDelay with
  | none =>
    rw [hd] at h
    exact ⟨_, (Except.ok.inj h).symm⟩
  | some delay =>
    rw [hd] at h
    obtain ⟨ready, -, h⟩ := Step.except_bind_ok.mp h
    exact ⟨ready, (Except.ok.inj h).symm⟩

/-- The newest holder is a holder. -/
theorem matchingKey_some {record owner : TaskRecord}
    (h : matchingKey existing staged record now = some owner) :
    ∃ key, record.idempotencyKey = some key ∧ owner ∈ existing ++ staged ∧
      holdsKey owner record.name key now = true := by
  rw [matchingKey] at h
  cases hk : record.idempotencyKey with
  | none => rw [hk] at h; exact nomatch h
  | some key =>
    rw [hk] at h
    refine ⟨key, rfl, ?_, by simpa using List.find?_some h⟩
    have hm := List.mem_of_find?_eq_some h
    simp only [List.mem_append, List.mem_reverse] at hm ⊢
    exact hm.symm

theorem matchingKey_none {record : TaskRecord} (h : matchingKey existing staged record now = none)
    {key : String} (hk : record.idempotencyKey = some key) :
    ∀ r ∈ existing ++ staged, holdsKey r record.name key now = false := by
  rw [matchingKey, hk] at h
  intro r hr
  have hm : r ∈ staged.reverse ++ existing.reverse := by
    simp only [List.mem_append, List.mem_reverse] at hr ⊢
    exact hr.symm
  simpa using List.find?_eq_none.mp h r hm

/-- One submission: queued as a new row, or resolved to the holder of its key. -/
inductive Submits (existing : List TaskRecord) (now : DateTime) (staged : List TaskRecord)
    (write : TaskWrite) (record : TaskRecord) : TaskReceipt → List TaskRecord → Prop
  | queued (fresh : ∀ r ∈ existing ++ staged, r.id ≠ record.id)
      (unheld : matchingKey existing staged record now = none) :
      Submits existing now staged write record (.queued record.id) (staged ++ [record])
  | existing {owner : TaskRecord} (held : matchingKey existing staged record now = some owner)
      (same : owner.idempotencyFingerprint = record.idempotencyFingerprint) :
      Submits existing now staged write record (.existing owner.id) staged
  | ignored {owner : TaskRecord} (held : matchingKey existing staged record now = some owner)
      (ignores : write.ignoreConflicts = true) :
      Submits existing now staged write record (.ignored owner.id) staged

theorem stageWrite_ok (h : stageWrite existing staged write now = .ok (receipt, staged')) :
    ∃ record, stampWrite write now = .ok record ∧
      Submits existing now staged write record receipt staged' := by
  rw [stageWrite] at h
  obtain ⟨record, hr, h⟩ := Step.except_bind_ok.mp h
  refine ⟨record, hr, ?_⟩
  split at h
  · exact nomatch h
  · next hany =>
    have hfresh : ∀ r ∈ existing ++ staged, r.id ≠ record.id := by
      simpa only [List.any_eq_true, decide_eq_true_eq, not_exists, not_and] using hany
    cases hm : matchingKey existing staged record now with
    | none =>
      rw [hm] at h
      obtain ⟨rfl, rfl⟩ := Prod.mk.inj (Except.ok.inj h)
      exact .queued hfresh hm
    | some owner =>
      rw [hm] at h
      simp only at h
      split at h
      · next hsame =>
        obtain ⟨rfl, rfl⟩ := Prod.mk.inj (Except.ok.inj h)
        exact .existing hm hsame
      · split at h
        · next hig =>
          obtain ⟨rfl, rfl⟩ := Prod.mk.inj (Except.ok.inj h)
          exact .ignored hm hig
        · exact nomatch h

/-- Queueing a fresh, unheld record extends a batch. -/
theorem Batch.snoc {record : TaskRecord} (h : Batch existing now staged)
    (hfresh : ∀ r ∈ existing ++ staged, r.id ≠ record.id)
    (hunheld : matchingKey existing staged record now = none) :
    Batch existing now (staged ++ [record]) := by
  refine ⟨fun t ht r hr => ?_, ?_, fun t ht key hk r hr => ?_, ?_⟩
  · rcases List.mem_append.mp ht with ht | ht
    · exact h.fresh t ht r hr
    · obtain rfl := List.mem_singleton.mp ht
      exact hfresh r (List.mem_append_left _ hr)
  · rw [List.map_append, List.nodup_append]
    refine ⟨h.distinct, List.nodup_singleton _, fun id hid id' hid' => ?_⟩
    obtain ⟨t, ht, rfl⟩ := List.mem_map.mp hid
    obtain rfl := List.mem_singleton.mp hid'
    exact hfresh t (List.mem_append_right _ ht)
  · rcases List.mem_append.mp ht with ht | ht
    · exact h.keys t ht key hk r hr
    · obtain rfl := List.mem_singleton.mp ht
      exact matchingKey_none hunheld hk r (List.mem_append_left _ hr)
  · rw [List.pairwise_append]
    refine ⟨h.pairs, List.pairwise_singleton _ _, fun a ha b hb key hk => ?_⟩
    obtain rfl := List.mem_singleton.mp hb
    exact matchingKey_none hunheld hk a (List.mem_append_right _ ha)

theorem Submits.batch {record : TaskRecord} (hb : Batch existing now staged)
    (h : Submits existing now staged write record receipt staged') : Batch existing now staged' := by
  cases h with
  | queued fresh unheld => exact hb.snoc fresh unheld
  | existing held same => exact hb
  | ignored held ignores => exact hb

/-- Every row of a batch is the stamped record of one of its writes. -/
def StampedFrom (writes : List TaskWrite) (now : DateTime) (staged : List TaskRecord) : Prop :=
  ∀ t ∈ staged, ∃ write ∈ writes, stampWrite write now = .ok t

theorem stageWrites_ok : ∀ (writes : List TaskWrite) (staged staged' : List TaskRecord)
    (receipts : List TaskReceipt), Batch existing now staged →
    stageWrites existing now staged writes = .ok (receipts, staged') →
      Batch existing now staged' ∧ ∃ new, staged' = staged ++ new ∧ StampedFrom writes now new
  | [], staged, staged', receipts, hb, h => by
    obtain ⟨rfl, rfl⟩ := Prod.mk.inj (Except.ok.inj h)
    exact ⟨hb, [], (List.append_nil _).symm, fun _ hm => nomatch hm⟩
  | write :: writes, staged, staged', receipts, hb, h => by
    rw [stageWrites] at h
    obtain ⟨⟨receipt, mid⟩, hone, h⟩ := Step.except_bind_ok.mp h
    obtain ⟨⟨receipts', final⟩, hrest, h⟩ := Step.except_bind_ok.mp h
    obtain ⟨-, rfl⟩ := Prod.mk.inj (Except.ok.inj h)
    obtain ⟨record, hstamp, hsub⟩ := stageWrite_ok hone
    obtain ⟨hbatch, new, rfl, hnew⟩ := stageWrites_ok writes mid final receipts' (hsub.batch hb) hrest
    have hlater : StampedFrom (write :: writes) now new := fun t ht => by
      obtain ⟨w, hw, hs⟩ := hnew t ht
      exact ⟨w, List.mem_cons_of_mem _ hw, hs⟩
    refine ⟨hbatch, ?_⟩
    cases hsub with
    | queued fresh unheld =>
      refine ⟨record :: new, by rw [List.append_assoc]; rfl, fun t ht => ?_⟩
      rcases List.mem_cons.mp ht with rfl | ht
      · exact ⟨write, List.mem_cons_self, hstamp⟩
      · exact hlater t ht
    | existing held same => exact ⟨new, rfl, hlater⟩
    | ignored held ignores => exact ⟨new, rfl, hlater⟩

/-- A whole submission batch, staged from nothing. -/
theorem stageWrites_fresh {writes : List TaskWrite} {receipts : List TaskReceipt}
    (h : stageWrites existing now [] writes = .ok (receipts, staged)) :
    Batch existing now staged ∧ StampedFrom writes now staged := by
  obtain ⟨hb, new, hnew, hstamp⟩ := stageWrites_ok writes [] staged receipts (Batch.nil _ _) h
  rw [hnew]
  exact ⟨hnew ▸ hb, hstamp⟩

/-! ### Children -/

/-- The new children are the stamped writes, one each and in order, as children of `parent`. -/
def ChildrenOf (parent : TaskRecord) (now : DateTime) (writes : List TaskWrite) (new : List TaskRecord) :
    Prop :=
  List.Forall₂ (fun write t => stampWrite (childWrite parent write) now = .ok t) writes new

theorem childStamp {parent t : TaskRecord} (h : stampWrite (childWrite parent write) now = .ok t) :
    ∃ ready, t = { write.record with
      parentId := some parent.id, rootId := some (parent.rootId.getD parent.id), nodeId := none,
      createdAt := now, updatedAt := now, readyAt := ready } := by
  obtain ⟨ready, rfl⟩ := stampWrite_ok h
  exact ⟨ready, rfl⟩

theorem ChildrenOf.mem {parent : TaskRecord} {writes : List TaskWrite} {new : List TaskRecord}
    (h : ChildrenOf parent now writes new) {t : TaskRecord} (ht : t ∈ new) :
    ∃ write ∈ writes, stampWrite (childWrite parent write) now = .ok t := by
  induction h with
  | nil => exact nomatch ht
  | cons first rest ih =>
    rcases List.mem_cons.mp ht with rfl | ht
    · exact ⟨_, List.mem_cons_self, first⟩
    · obtain ⟨write, hw, hs⟩ := ih ht
      exact ⟨write, List.mem_cons_of_mem _ hw, hs⟩

theorem ChildrenOf.written {parent : TaskRecord} {writes : List TaskWrite} {new : List TaskRecord}
    (h : ChildrenOf parent now writes new) {write : TaskWrite} (hw : write ∈ writes) :
    ∃ t ∈ new, stampWrite (childWrite parent write) now = .ok t := by
  induction h with
  | nil => exact nomatch hw
  | cons first rest ih =>
    rcases List.mem_cons.mp hw with rfl | hw
    · exact ⟨_, List.mem_cons_self, first⟩
    · obtain ⟨t, ht, hs⟩ := ih hw
      exact ⟨t, List.mem_cons_of_mem _ ht, hs⟩

theorem ChildrenOf.parent {parent : TaskRecord} {writes : List TaskWrite} {new : List TaskRecord}
    (h : ChildrenOf parent now writes new) : ∀ t ∈ new, t.parentId = some parent.id := by
  intro t ht
  obtain ⟨write, -, hs⟩ := h.mem ht
  obtain ⟨ready, rfl⟩ := childStamp hs
  rfl

/-- A prepared group stages one new child per member, in order. -/
theorem prepareMembers_some {parent : TaskRecord} : ∀ (group : List TaskWrite)
    (staged staged' : List TaskRecord), Batch existing now staged →
    prepareMembers existing parent now staged group = some staged' →
      Batch existing now staged' ∧ ∃ new, staged' = staged ++ new ∧ ChildrenOf parent now group new
  | [], staged, staged', hb, h => by
    obtain rfl := Option.some.inj h
    exact ⟨hb, [], (List.append_nil _).symm, .nil⟩
  | child :: group, staged, staged', hb, h => by
    rw [prepareMembers] at h
    split at h
    · next id mid hone =>
      obtain ⟨record, hstamp, hsub⟩ := stageWrite_ok hone
      obtain ⟨hbatch, new, rfl, hnew⟩ := prepareMembers_some group mid staged' (hsub.batch hb) h
      cases hsub with
      | queued fresh unheld =>
        exact ⟨hbatch, record :: new, by rw [List.append_assoc]; rfl, .cons hstamp hnew⟩
    · exact nomatch h

/-- What preparing the children of an accepted commit decides: the effective outcome and the children
    staged for it. -/
inductive Prepares (conf : TaskStoreConf) (existing : List TaskRecord) (now : DateTime)
    (parent : TaskRecord) (commit : TaskCommit) (children : List TaskRecord) :
    TaskOutcome → List TaskRecord → Prop
  | failed (error : String) : Prepares conf existing now parent commit children (.fail error) children
  | plain {outcome : TaskOutcome} (asked : commit.outcome? = some outcome)
      (childless : outcome.writes = []) (single : outcome.isAll = false) :
      Prepares conf existing now parent commit children outcome children
  | spawned {checkpoint : String} {child : TaskWrite} {record : TaskRecord}
      (asked : commit.outcome? = some (.spawn checkpoint child))
      (stamped : stampWrite (childWrite parent child) now = .ok record)
      (batch : Batch existing now (children ++ [record])) :
      Prepares conf existing now parent commit children (.suspend checkpoint) (children ++ [record])
  | grouped {checkpoint : String} {group : List TaskWrite} {new : List TaskRecord}
      (asked : commit.outcome? = some (.all checkpoint group))
      (bounded : group.length ≤ conf.maxAllChildren) (members : ChildrenOf parent now group new)
      (batch : Batch existing now (children ++ new)) :
      Prepares conf existing now parent commit children (.suspend checkpoint) (children ++ new)

theorem prepareSpawn_ok {state : MemoryState} {conf : TaskStoreConf} {parent : TaskRecord}
    {commit : TaskCommit} {asked outcome : TaskOutcome} {children children' : List TaskRecord}
    (hconf : state.conf = some conf) (hasked : commit.outcome? = some asked)
    (hb : Batch state.tasks now children)
    (h : prepareSpawn state parent asked children now = .ok (outcome, children')) :
    Prepares conf state.tasks now parent commit children outcome children' := by
  cases asked with
  | all checkpoint group =>
    rw [prepareSpawn, prepare, hconf] at h
    simp only at h
    split at h
    · obtain ⟨rfl, rfl⟩ := Prod.mk.inj (Except.ok.inj h)
      exact .failed _
    · next hvalid =>
      split at h
      · next new hmembers =>
        obtain ⟨rfl, rfl⟩ := Prod.mk.inj (Except.ok.inj h)
        obtain ⟨hbatch, members, rfl, hfrom⟩ := prepareMembers_some group _ _ hb hmembers
        refine .grouped hasked ?_ hfrom hbatch
        rw [validateGroup] at hvalid
        split at hvalid
        · exact nomatch hvalid
        · omega
      · obtain ⟨rfl, rfl⟩ := Prod.mk.inj (Except.ok.inj h)
        exact .failed _
  | spawn checkpoint child =>
    rw [prepareSpawn] at h
    obtain ⟨_, -, h⟩ := Step.except_bind_ok.mp h
    split at h
    · exact nomatch h
    · split at h
      · next id new hone =>
        obtain ⟨rfl, rfl⟩ := Prod.mk.inj (Except.ok.inj h)
        obtain ⟨record, hstamp, hsub⟩ := stageWrite_ok hone
        cases hsub with
        | queued fresh unheld => exact .spawned hasked hstamp (hb.snoc fresh unheld)
      all_goals first
        | (obtain ⟨rfl, rfl⟩ := Prod.mk.inj (Except.ok.inj h); exact .failed _)
        | exact nomatch h
  | complete | completeWith output | suspend checkpoint | sleep checkpoint delay | retry error
  | fail error =>
    obtain ⟨rfl, rfl⟩ := Prod.mk.inj (Except.ok.inj h)
    exact .plain hasked rfl rfl

theorem effectiveOutcome_ok {state : MemoryState} {conf : TaskStoreConf} {parent : TaskRecord}
    {commit : TaskCommit} {outcome : TaskOutcome} {children children' : List TaskRecord}
    (hconf : state.conf = some conf) (hb : Batch state.tasks now children)
    (hmark : commit.isCancel = true → parent.cancelled = true)
    (h : effectiveOutcome state conf parent commit children now = .ok (outcome, children')) :
    Prepares conf state.tasks now parent commit children outcome children' := by
  rw [effectiveOutcome] at h
  split at h
  · obtain ⟨rfl, rfl⟩ := Prod.mk.inj (Except.ok.inj h)
    exact .failed _
  · next hlive =>
    split at h
    · obtain ⟨rfl, rfl⟩ := Prod.mk.inj (Except.ok.inj h)
      exact .failed _
    · cases commit with
      | cancel id => exact absurd (hmark rfl) hlive
      | outcome node attempts id lane result token => exact prepareSpawn_ok hconf rfl hb h

section

variable {conf : TaskStoreConf} {parent : TaskRecord} {commit : TaskCommit} {outcome : TaskOutcome}
  {children children' : List TaskRecord}

theorem Prepares.batch_of (h : Prepares conf existing now parent commit children outcome children')
    (hb : Batch existing now children) : Batch existing now children' := by
  cases h with
  | failed error => exact hb
  | plain asked childless single => exact hb
  | spawned asked stamped batch => exact batch
  | grouped asked bounded members batch => exact batch

/-- A commit's children are staged as a whole or not at all. -/
theorem Prepares.extends
    (h : Prepares conf existing now parent commit children outcome children') :
    ∃ new, children' = children ++ new ∧ (new = [] ∨ ChildrenOf parent now commit.writes new) := by
  cases h with
  | failed error => exact ⟨[], (List.append_nil _).symm, .inl rfl⟩
  | plain asked childless single => exact ⟨[], (List.append_nil _).symm, .inl rfl⟩
  | @spawned checkpoint child record asked stamped batch =>
    refine ⟨[record], rfl, .inr ?_⟩
    rw [TaskCommit.writes, asked]
    exact .cons stamped .nil
  | grouped asked bounded members batch =>
    refine ⟨_, rfl, .inr ?_⟩
    rw [TaskCommit.writes, asked]
    exact members

variable [Serde] {state : MemoryState}

theorem stagedTask_prepares {row task : TaskRecord} {deliveries deliveries' : List Delivery}
    (hb : Batch state.tasks now children)
    (h : stagedTask state row commit now children deliveries = .ok (task, children', deliveries')) :
    ∃ conf lane outcome, Transitioned state now commit row conf lane outcome task ∧
      Prepares conf state.tasks now (marked commit.isCancel row) commit children outcome children' ∧
      queueDelivery task deliveries = .ok deliveries' := by
  obtain ⟨conf, lane, outcome, ht, ho, hq⟩ := stagedTask_ok h
  refine ⟨conf, lane, outcome, ht, effectiveOutcome_ok ht.configured hb (fun hc => ?_) ho, hq⟩
  rw [marked, hc, Bool.or_true]

/-- The children of a staged batch: new rows, each made by an accepted commit. -/
theorem Staging.adopts {commits : List TaskCommit} {final : Staged}
    (h : Staging state now commits Staged.empty final) :
    Batch state.tasks now final.children ∧ ∀ t ∈ final.children, ∃ commit ∈ commits, ∃ index row,
      Accepts state now commit index row ∧ ∃ write ∈ commit.writes,
        stampWrite (childWrite row write) now = .ok t := by
  refine h.inv (P := fun staged => Batch state.tasks now staged.children ∧
    ∀ t ∈ staged.children, ∃ commit ∈ commits, ∃ index row, Accepts state now commit index row ∧
      ∃ write ∈ commit.writes, stampWrite (childWrite row write) now = .ok t) ?_
    ⟨Batch.nil _ _, fun _ hm => nomatch hm⟩
  intro commit hc index row task children deliveries staged haccepts hstages ⟨hb, hs⟩
  obtain ⟨conf, lane, outcome, -, hp, -⟩ := stagedTask_prepares hb hstages
  refine ⟨hp.batch_of hb, fun t ht => ?_⟩
  obtain ⟨new, rfl, hnew⟩ := hp.extends
  rcases List.mem_append.mp ht with ht | ht
  · exact hs t ht
  · rcases hnew with rfl | hnew
    · exact nomatch ht
    · exact ⟨commit, hc, index, row, haccepts, hnew.mem ht⟩

/-- Each commit of a staged batch has all of its children staged, or none. -/
theorem Staging.whole {commits : List TaskCommit} {staged final : Staged}
    (h : Staging state now commits staged final) (hb : Batch state.tasks now staged.children)
    (hn : (commits.map (·.taskId)).Nodup) :
    ∃ new, final.children = staged.children ++ new ∧
      (∀ t ∈ new, ∃ commit ∈ commits, t.parentId = some commit.taskId) ∧
      ∀ commit ∈ commits, (∀ write ∈ commit.writes, ∃ t ∈ new, t.id = write.record.id ∧
          t.parentId = some commit.taskId) ∨
        ∀ t ∈ new, t.parentId ≠ some commit.taskId := by
  induction h with
  | nil staged => exact ⟨[], (List.append_nil _).symm, fun _ ht => (nomatch ht), fun _ hc => nomatch hc⟩
  | @refuse commit commits staged final refused rest ih =>
    rw [List.map_cons, List.nodup_cons] at hn
    obtain ⟨new, hch, hparents, hwhole⟩ := ih hb hn.2
    refine ⟨new, hch, fun t ht => ?_, fun other ho => ?_⟩
    · obtain ⟨c, hc, hp⟩ := hparents t ht
      exact ⟨c, List.mem_cons_of_mem _ hc, hp⟩
    · rcases List.mem_cons.mp ho with rfl | ho
      · refine .inr fun t ht hp => hn.1 ?_
        obtain ⟨c, hc, hp'⟩ := hparents t ht
        rw [Option.some.inj (hp.symm.trans hp')]
        exact List.mem_map_of_mem hc
      · exact hwhole other ho
  | @accept commit commits staged final index row task children deliveries accepts stages rest ih =>
    rw [List.map_cons, List.nodup_cons] at hn
    obtain ⟨conf, lane, outcome, -, hp, -⟩ := stagedTask_prepares hb stages
    obtain ⟨later, hch, hparents, hwhole⟩ := ih (hp.batch_of hb) hn.2
    obtain ⟨mine, hmine, hkind⟩ := hp.extends
    have hlater : ∀ t ∈ later, t.parentId ≠ some commit.taskId := fun t ht he => by
      obtain ⟨c, hc, hp'⟩ := hparents t ht
      refine hn.1 ?_
      rw [Option.some.inj (he.symm.trans hp')]
      exact List.mem_map_of_mem hc
    have hown : ∀ t ∈ mine, t.parentId = some commit.taskId := fun t ht => by
      rcases hkind with rfl | hkind
      · exact nomatch ht
      · rw [hkind.parent t ht, ← accepts.id]
        rfl
    refine ⟨mine ++ later, ?_, fun t ht => ?_, fun other ho => ?_⟩
    · rw [hch, hmine, List.append_assoc]
    · rcases List.mem_append.mp ht with ht | ht
      · exact ⟨commit, List.mem_cons_self, hown t ht⟩
      · obtain ⟨c, hc, hp'⟩ := hparents t ht
        exact ⟨c, List.mem_cons_of_mem _ hc, hp'⟩
    · rcases List.mem_cons.mp ho with rfl | hin
      · rcases hkind with rfl | hkind
        · exact .inr hlater
        · refine .inl fun write hw => ?_
          obtain ⟨t, ht, hs⟩ := hkind.written hw
          obtain ⟨ready, heq⟩ := childStamp hs
          exact ⟨t, List.mem_append_left _ ht, by rw [heq], hown t ht⟩
      · rcases hwhole other hin with hall | hnone
        · refine .inl fun write hw => ?_
          obtain ⟨t, ht, hex⟩ := hall write hw
          exact ⟨t, List.mem_append_right _ ht, hex⟩
        · refine .inr fun t ht he => ?_
          rcases List.mem_append.mp ht with ht | ht
          · refine hn.1 ?_
            rw [Option.some.inj ((hown t ht).symm.trans he)]
            exact List.mem_map_of_mem hin
          · exact hnone t ht he

end

end Vyuh.Tasks.Memory
