import Vyuh.Tasks.Store.Memory.Runs

/-! Idempotency keys over runs. A key is held by a record that is active or whose retention has not
    expired. Rows never start to hold a key they did not hold, and a staged batch holds no key that a
    stored row or an earlier entry holds, so a key has one holder at every moment. The receipts of a
    batch name that holder. -/

namespace Vyuh.Tasks.Memory
open Lib

variable {grantee : Uuid → Prop} {clock : DateTime → Prop}

/-- From `clock` on no two rows hold one handler's key. -/
def UniqueKeys (clock : DateTime) (tasks : List TaskRecord) : Prop :=
  ∀ time, clock ≤ time → ∀ name key,
    tasks.Pairwise fun a b => holdsKey a name key time = true → holdsKey b name key time = false

/-- What is held later is held now. -/
theorem idempotencyHeld_earlier {r : TaskRecord} {now time : DateTime} (hle : now ≤ time)
    (h : idempotencyHeld r time = true) : idempotencyHeld r now = true := by
  simp only [idempotencyHeld, Bool.or_eq_true, Option.any_eq_true, decide_eq_true_eq] at h ⊢
  rcases h with h | ⟨expiry, he, hlt⟩
  · exact .inl h
  · exact .inr ⟨expiry, he, lt_of_le_of_lt hle hlt⟩

theorem holdsKey_iff {r : TaskRecord} {name key : String} {now : DateTime} :
    holdsKey r name key now = true ↔
      r.name = name ∧ r.idempotencyKey = some key ∧ idempotencyHeld r now = true := by
  simp only [holdsKey, Bool.and_eq_true, decide_eq_true_eq, and_assoc]

theorem holdsKey_earlier {r : TaskRecord} {name key : String} {now time : DateTime} (hle : now ≤ time)
    (h : holdsKey r name key time = true) : holdsKey r name key now = true := by
  obtain ⟨hn, hk, hheld⟩ := holdsKey_iff.mp h
  exact holdsKey_iff.mpr ⟨hn, hk, idempotencyHeld_earlier hle hheld⟩

/-- A row that evolved holds at most what it held. -/
theorem Evolves.holdsKey {r r' : TaskRecord} (h : Evolves grantee clock r r') {name key : String}
    {time : DateTime} (hk : Memory.holdsKey r' name key time = true) :
    Memory.holdsKey r name key time = true := by
  obtain ⟨hn, hkey, hheld⟩ := holdsKey_iff.mp hk
  exact holdsKey_iff.mpr ⟨h.name ▸ hn, h.key ▸ hkey, h.held time hheld⟩

/-- Steady moves keep keys unique. -/
theorem UniqueKeys.rows {now : DateTime} {l l' : List TaskRecord} (h : UniqueKeys now l)
    (hr : Rows (Steady grantee clock) l l') :
    UniqueKeys now l' := by
  intro time hle name key
  refine hr.pairwise ?_ (h time hle name key)
  intro a a' b b' ha hb hab hk
  by_contra hne
  have hfalse := hab (ha.toEvolves.holdsKey hk)
  rw [hb.toEvolves.holdsKey (Bool.eq_true_of_not_eq_false hne)] at hfalse
  exact nomatch hfalse

/-- A batch behind rows with unique keys has unique keys. -/
theorem UniqueKeys.batch {existing staged : List TaskRecord} {now clock : DateTime}
    (h : UniqueKeys clock existing) (hle : now ≤ clock) (hb : Batch existing now staged) :
    UniqueKeys clock (existing ++ staged) := by
  intro time ht name key
  have hnow : now ≤ time := le_trans hle ht
  -- an entry that holds a key at `time` carries it, and nobody before it held it at `now`
  have hblocked : ∀ a b : TaskRecord, (∀ k, b.idempotencyKey = some k → holdsKey a b.name k now = false) →
      holdsKey a name key time = true → holdsKey b name key time = false := by
    intro a b hab ha
    by_contra hne
    obtain ⟨hname, hkey, -⟩ := holdsKey_iff.mp (Bool.eq_true_of_not_eq_false hne)
    have hfalse := hab key hkey
    rw [hname, holdsKey_earlier hnow ha] at hfalse
    exact nomatch hfalse
  rw [List.pairwise_append]
  refine ⟨h time ht name key, hb.pairs.imp fun hab => hblocked _ _ hab, fun a ha b hbm => ?_⟩
  exact hblocked a b fun k hk => hb.keys b hbm k hk a ha

theorem Extends.uniqueKeys {fresh : TaskRecord → Prop} {s s' : MemoryState} {time : DateTime}
    (h : Extends grantee clock fresh s s') (hc : ∀ now, clock now → now ≤ time)
    (hu : UniqueKeys time s.tasks) : UniqueKeys time s'.tasks := by
  obtain ⟨moved, origins, new, ht, hrows, hnew, hstores, -⟩ := h.rows
  have hall : UniqueKeys time (s.tasks ++ origins) := by
    rcases hstores with rfl | ⟨now, hnow, hb⟩
    · rwa [List.append_nil]
    · exact hu.batch (hc now hnow) hb
  rw [ht]
  exact hall.rows (hrows.append hnew)

/-! ### Receipts -/

/-- The receipt names a stored task, the write's own if it queued it, which holds the write's key. -/
def Resolves (now : DateTime) (tasks : List TaskRecord) (write : TaskWrite) (receipt : TaskReceipt) :
    Prop :=
  (∀ id, receipt.queued? = some id → id = write.record.id) ∧
    ∃ t ∈ tasks, t.id = receipt.id ∧ ∀ key, write.record.idempotencyKey = some key →
      holdsKey t write.record.name key now = true

theorem Resolves.of_subset {now : DateTime} {tasks tasks' : List TaskRecord} {write : TaskWrite}
    {receipt : TaskReceipt} (h : Resolves now tasks write receipt) (hs : ∀ t ∈ tasks, t ∈ tasks') :
    Resolves now tasks' write receipt := by
  obtain ⟨hq, t, ht, hex⟩ := h
  exact ⟨hq, t, hs t ht, hex⟩

section

variable {existing staged staged' : List TaskRecord} {now : DateTime}

theorem Submits.resolves {write : TaskWrite} {record : TaskRecord} {receipt : TaskReceipt}
    (hstamp : stampWrite write now = .ok record) (hactive : isActive write.record.status = true)
    (h : Submits existing now staged write record receipt staged') :
    Resolves now (existing ++ staged') write receipt ∧
      ∃ new, staged' = staged ++ new ∧ new.map (·.id) = receipt.queued?.toList := by
  obtain ⟨ready, rfl⟩ := stampWrite_ok hstamp
  cases h with
  | queued fresh unheld =>
    refine ⟨⟨fun id hid => (Option.some.inj hid).symm, _, List.mem_append_right _
      (List.mem_append_right _ (List.mem_singleton_self _)), rfl, fun key hk => ?_⟩, _, rfl, rfl⟩
    exact holdsKey_iff.mpr ⟨rfl, hk, idempotencyHeld_of_active hactive now⟩
  | existing held same | ignored held ignores =>
    obtain ⟨key, hkey, hmem, hholds⟩ := matchingKey_some held
    refine ⟨⟨fun id hid => (nomatch hid), _, hmem, rfl, fun k hk => ?_⟩, [], (List.append_nil _).symm, rfl⟩
    obtain rfl := Option.some.inj (hkey.symm.trans hk)
    exact hholds

/-- Every entry of a staged batch is resolved by what is stored with it. -/
theorem stageWrites_resolves : ∀ (writes : List TaskWrite) (staged staged' : List TaskRecord)
    (receipts : List TaskReceipt), (∀ write ∈ writes, isActive write.record.status = true) →
    stageWrites existing now staged writes = .ok (receipts, staged') →
      List.Forall₂ (Resolves now (existing ++ staged')) writes receipts ∧
        ∃ new, staged' = staged ++ new ∧ new.map (·.id) = receipts.filterMap TaskReceipt.queued?
  | [], staged, staged', receipts, _, h => by
    obtain ⟨rfl, rfl⟩ := Prod.mk.inj (Except.ok.inj h)
    exact ⟨.nil, [], (List.append_nil _).symm, rfl⟩
  | write :: writes, staged, staged', receipts, hactive, h => by
    rw [stageWrites] at h
    obtain ⟨⟨receipt, mid⟩, hone, h⟩ := Step.except_bind_ok.mp h
    obtain ⟨⟨receipts', final⟩, hrest, h⟩ := Step.except_bind_ok.mp h
    obtain ⟨rfl, rfl⟩ := Prod.mk.inj (Except.ok.inj h)
    obtain ⟨record, hstamp, hsub⟩ := stageWrite_ok hone
    obtain ⟨hfirst, first, rfl, hids⟩ := hsub.resolves hstamp (hactive write List.mem_cons_self)
    obtain ⟨hlater, new, rfl, hnew⟩ := stageWrites_resolves writes _ final receipts'
      (fun w hw => hactive w (List.mem_cons_of_mem _ hw)) hrest
    refine ⟨.cons (hfirst.of_subset fun t ht => ?_) hlater, first ++ new, List.append_assoc _ _ _, ?_⟩
    · rw [← List.append_assoc]
      exact List.mem_append_left _ ht
    · rw [List.map_append, hids, hnew]
      cases hq : receipt.queued? <;> simp [hq]

/-- Promotion keeps what a batch's receipts say. -/
theorem Resolves.promoted {eligible : ℕ → TaskRecord → Prop} {node : Uuid}
    {rows taken : List TaskRecord} {write : TaskWrite} {receipt : TaskReceipt} {i : ℕ}
    (h : Resolves now (existing ++ staged) write receipt)
    (hwalk : Promotes eligible node now i staged rows taken) :
    Resolves now (existing ++ rows) write receipt := by
  obtain ⟨hq, t, ht, hid, hheld⟩ := h
  refine ⟨hq, ?_⟩
  rcases List.mem_append.mp ht with ht | ht
  · exact ⟨t, List.mem_append_left _ ht, hid, hheld⟩
  · obtain ⟨t', ht', hcase⟩ := hwalk.moves.mem_left ht
    refine ⟨t', List.mem_append_right _ ht', ?_⟩
    rcases hcase with rfl | ⟨-, hgrant⟩
    · exact ⟨hid, hheld⟩
    · obtain ⟨-, -, rfl⟩ := grant_ok.mp hgrant
      refine ⟨hid, fun key hk => ?_⟩
      obtain ⟨hn, hkey, -⟩ := holdsKey_iff.mp (hheld key hk)
      exact holdsKey_iff.mpr ⟨hn, hkey, idempotencyHeld_of_active rfl now⟩

end

/-! ### Whole batches -/

/-- The receipts of an answer that stored a batch. -/
def Response.receipts : Response → Option (List TaskReceipt)
  | .stored receipts | .admitted receipts _ => some receipts
  | .scheduled (some receipt) => some [receipt]
  | _ => none

/-- A batch of submissions is stored as a whole, its receipts naming what resolves each entry, or
    nothing is stored. -/
def StoresWhole (writes : List TaskWrite) (now : DateTime) (state : MemoryState)
    (out : Response × MemoryState) : Prop :=
  match out.1.receipts with
  | none => out.2.tasks = state.tasks
  | some receipts => List.Forall₂ (Resolves now out.2.tasks) writes receipts ∧
      ∃ new, out.2.tasks = state.tasks ++ new ∧ new.map (·.id) = receipts.filterMap (·.queued?)

/-- Each commit's children are all among the new rows, or none of them is. -/
def ChildrenWhole (commits : List TaskCommit) (state state' : MemoryState) : Prop :=
  ∃ old new, state'.tasks = old ++ new ∧ old.length = state.tasks.length ∧ ∀ commit ∈ commits,
    (∀ write ∈ commit.writes, ∃ t ∈ new, t.id = write.record.id ∧ t.parentId = some commit.taskId) ∨
      ∀ t ∈ new, t.parentId ≠ some commit.taskId

section

variable {state : MemoryState} {now : DateTime}

theorem storeTasks_whole {writes : List TaskWrite}
    (hactive : ∀ write ∈ writes, isActive write.record.status = true) :
    StoresWhole writes now state (respond .stored (storeTasks writes now state)) := by
  rcases storeTasks_cases writes now state with ⟨error, he⟩ | ⟨receipts, staged, -, hs, hok⟩
  · rw [he]
    exact rfl
  · rw [hok]
    obtain ⟨hall, new, hnew, hids⟩ := stageWrites_resolves writes [] staged receipts hactive hs
    exact ⟨hall, new, congrArg _ hnew, hids⟩

theorem storeAdmitted_whole {writes : List TaskWrite} {node : Uuid} {limit : ℕ}
    (hactive : ∀ write ∈ writes, isActive write.record.status = true) :
    StoresWhole writes now state
      (respond (fun r => .admitted r.1 r.2) (storeAdmitted writes node limit now state)) := by
  rcases storeAdmitted_cases writes node limit now state with
    ⟨error, he⟩ | ⟨receipts, staged, rows, tasks, -, -, hs, hp, hok⟩
  · rw [he]
    exact rfl
  · rw [hok]
    obtain ⟨hall, new, hnew, hids⟩ := stageWrites_resolves writes [] staged receipts hactive hs
    obtain ⟨hwalk, -⟩ := promote_promotes hp
    refine ⟨hall.imp fun write receipt h => h.promoted hwalk, rows, rfl, ?_⟩
    rw [← hids, ← List.nil_append new, ← hnew]
    exact (promote_rows hp).map_eq fun _ _ h => h.id

theorem storeScheduled_whole {scheduled : ScheduledTaskWrite}
    (hactive : isActive scheduled.write.record.status = true) :
    StoresWhole [scheduled.write] now state
      (respond .scheduled (storeScheduled scheduled now state)) := by
  rcases storeScheduled_cases scheduled now state with ⟨out, he, hout⟩ | ⟨receipt, staged, -, hs, hok⟩
  · rw [he]
    rcases out with error | (_ | receipt)
    · exact rfl
    · exact rfl
    · exact absurd rfl (hout receipt)
  · rw [hok]
    obtain ⟨record, hstamp, hsub⟩ := stageWrite_ok hs
    obtain ⟨hres, new, hnew, hids⟩ := hsub.resolves hstamp hactive
    refine ⟨.cons hres .nil, new, congrArg _ hnew, ?_⟩
    rw [hids]
    cases hq : receipt.queued? <;> simp [hq]

/-- An operation that leaves no new rows has nothing to store in part. -/
theorem ChildrenWhole.of_length {commits : List TaskCommit} {state' : MemoryState}
    (h : state'.tasks.length = state.tasks.length) : ChildrenWhole commits state state' :=
  ⟨state'.tasks, [], (List.append_nil _).symm, h, fun _ _ => .inr fun _ ht => nomatch ht⟩

/-- Rewriting rows that keep identity does not tear a batch apart. -/
theorem ChildrenWhole.rows {commits : List TaskCommit} {s s' : MemoryState}
    (h : ChildrenWhole commits state s) (hr : Rows (Steady grantee clock) s.tasks s'.tasks) :
    ChildrenWhole commits state s' := by
  obtain ⟨old, new, ht, hlen, hwhole⟩ := h
  rw [ht] at hr
  obtain ⟨old', new', ht', hold, hnew⟩ := hr.split
  refine ⟨old', new', ht', hold.length_eq.symm.trans hlen, fun commit hc => ?_⟩
  rcases hwhole commit hc with hall | hnone
  · refine .inl fun write hw => ?_
    obtain ⟨t, htm, hid, hp⟩ := hall write hw
    obtain ⟨t', htm', hs⟩ := hnew.mem_left htm
    exact ⟨t', htm', hs.id.trans hid, hs.parentId.trans hp⟩
  · refine .inr fun t' htm' hp => ?_
    obtain ⟨t, htm, hs⟩ := hnew.mem_right htm'
    exact hnone t htm (hs.parentId.symm.trans hp)

variable [Serde]

theorem commitOperation_whole (hd : state.Distinct) (commits : List TaskCommit) (batch : ℕ)
    (lease : Duration) (now : DateTime) :
    ChildrenWhole commits state (atomicOperation none [] commits batch lease now state).2 := by
  rcases commitOperation_cases hd commits batch lease now with hkept | ⟨staged, turn, hcommits, hsettled₁⟩
  · rw [hkept]
    exact .of_length rfl
  · rw [hsettled₁]
    obtain ⟨moved, fresh, heq, hrows, hsettled, hfresh⟩ := hcommits.rows ⟨[], []⟩ hd rfl
    have hstaged : ChildrenWhole commits state { state with tasks := state.tasks ++ staged.children } := by
      obtain ⟨new, hnew, -, hwhole⟩ := hcommits.staging.whole (Batch.nil _ _) hcommits.distinct
      exact ⟨state.tasks, new, congrArg _ hnew, rfl, hwhole⟩
    have hall := (rows_trans (fun _ _ _ h h' => h.trans h') hrows hsettled).append hfresh
    rw [← heq] at hall
    exact hstaged.rows hall

/-- Whatever an operation commits, its children come whole. -/
theorem exec_childrenWhole (store : MemoryTaskStore) (hd : state.Distinct) (op : Op) :
    ChildrenWhole op.commits state (exec store op state).2 := by
  cases op with
  | commitTasks commits now =>
    rw [exec, respondCommit_snd, commitTasks_snd]
    exact commitOperation_whole hd commits _ _ now
  | recoverOutputs node commits prepared now =>
    rw [exec, respondCommit_snd, recoverOutputs_snd, commitTasks_snd]
    exact commitOperation_whole hd commits _ _ now
  | commitAdmitted commits node limit cached now =>
    rw [exec, respondCommit_snd]
    have hcommit := commitOperation_whole hd commits store.commitBatchSize store.leaseDuration now
    rcases commitAdmitted_cases store commits node limit cached now state with
      ⟨error, state₁, he, hok⟩ | ⟨poll, result, state₁, hop, hok⟩
    · rw [he] at hcommit
      rw [hok]
      exact hcommit
    · rw [hop] at hcommit
      rw [hok]
      exact hcommit.rows (admitCommitted_rows state₁ state.tasks.length commits node limit cached now
        result).2
  | _ =>
    obtain ⟨moved, origins, new, ht, hrows, -⟩ := (exec_extends store hd _).rows
    exact ⟨moved, new, ht, hrows.length_eq.symm, fun _ hc => (by cases hc)⟩

/-! ### Runs -/

theorem ticks_uniqueKeys (store : MemoryTaskStore) {call : MemoryState → Op → Prop} (s : Timed) (op : Op)
    (s' : Timed) (hs : s.state.Distinct ∧ UniqueKeys s.clock s.state.tasks)
    (h : Ticks store (· ≤ ·) call s op s') :
    s'.state.Distinct ∧ UniqueKeys s'.clock s'.state.tasks := by
  have hext := exec_extends store hs.1 op
  rw [h.step.2]
  refine ⟨hext.distinct hs.1, hext.uniqueKeys (fun now hn => (h.reads now hn).2) ?_⟩
  intro time hle name key
  exact hs.2 time (le_trans h.mono hle) name key

theorem reachable_uniqueKeys (store : MemoryTaskStore) {call : MemoryState → Op → Prop} {s : Timed}
    (h : Reachable (fun s : Timed => Started s.state) (Ticks store (· ≤ ·) call) s) :
    s.state.Distinct ∧ UniqueKeys s.clock s.state.tasks := by
  refine h.inv (I := fun s => s.state.Distinct ∧ UniqueKeys s.clock s.state.tasks) ?_
    (ticks_uniqueKeys store)
  rintro s ⟨conf, hs⟩
  rw [hs]
  exact ⟨List.nodup_nil, fun _ _ _ _ => .nil⟩

/-- CORRECT: in every run with a nondecreasing clock, at every moment from the last reading on, at most
    one record holds a handler's key. Batches of submissions and of children are stored as a whole or
    not at all, and every receipt names the record that holds the submitted key afterwards. -/
theorem idempotency_keys_are_unique (store : MemoryTaskStore) {s : Timed}
    (h : Reachable (fun s : Timed => Started s.state) (Ticks store (· ≤ ·) fun _ _ => True) s) :
    (∀ time, s.clock ≤ time → ∀ name key,
      s.state.tasks.countP (fun r => holdsKey r name key time) ≤ 1) ∧
    (∀ writes now, (∀ write ∈ writes, isActive write.record.status = true) →
      StoresWhole writes now s.state (exec store (.storeTasks writes now) s.state) ∧
      ∀ node limit,
        StoresWhole writes now s.state (exec store (.storeAdmitted writes node limit now) s.state)) ∧
    (∀ scheduled now, isActive scheduled.write.record.status = true →
      StoresWhole [scheduled.write] now s.state (exec store (.storeScheduled scheduled now) s.state)) ∧
    ∀ op, ChildrenWhole op.commits s.state (exec store op s.state).2 := by
  obtain ⟨hd, hkeys⟩ := reachable_uniqueKeys store h
  refine ⟨fun time hle name key => countP_le_one (hkeys time hle name key), ?_, ?_, ?_⟩
  · intro writes now hactive
    exact ⟨storeTasks_whole hactive, fun node limit => storeAdmitted_whole hactive⟩
  · intro scheduled now hactive
    exact storeScheduled_whole hactive
  · intro op
    exact exec_childrenWhole store hd op

end

/-- Two submissions of one batch that carry the same key. -/
def keyedWrites : List TaskWrite :=
  [plainWrite { freshRecord 1 .work "open" with
      idempotencyKey := some "k", idempotencyFingerprint := some "f" },
    plainWrite { freshRecord 2 .work "open" with
      idempotencyKey := some "k", idempotencyFingerprint := some "f" }]

attribute [local instance] acceptingSerde in
/-- The second of them resolves to the first. -/
theorem idempotency_keys_are_unique_one_batch :
    (exec smallStore (.storeTasks keyedWrites 5) (MemoryState.new smallConf)).1.receipts =
        some [.queued ⟨1⟩, .existing ⟨1⟩] ∧
      (exec smallStore (.storeTasks keyedWrites 5) (MemoryState.new smallConf)).2.tasks.countP
        (fun r => holdsKey r "work" "k" 7) ≤ 1 := by
  refine ⟨by decide, ?_⟩
  have hreach : Reachable (fun s : Timed => Started s.state) (Ticks smallStore (· ≤ ·) fun _ _ => True)
      ⟨5, (exec smallStore (.storeTasks keyedWrites 5) (MemoryState.new smallConf)).2⟩ := by
    refine ⟨⟨0, MemoryState.new smallConf⟩, [.storeTasks keyedWrites 5], ⟨smallConf, rfl⟩, .single ?_⟩
    refine ⟨⟨trivial, rfl⟩, ?_, by decide⟩
    rintro time rfl
    exact ⟨by decide, le_refl _⟩
  exact (idempotency_keys_are_unique smallStore hreach).1 7 (by decide) "work" "k"

end Vyuh.Tasks.Memory
