import Vyuh.Tasks.Store.Memory.Promotion

/-! Every operation of the store, successful or not, keeps its rows in place, moves them steadily and
    stores new rows behind them (`exec_extends`). Runs of operations then keep identifiers distinct and
    owners on running records, whatever the operations and their arguments. -/

namespace Vyuh.Tasks.Memory
open Lib

/-- A record as an operation first stores it: a stamped submission or child. -/
def Op.Origin (op : Op) (r : TaskRecord) : Prop :=
  (∃ write ∈ op.submissions, ∃ now, op.clock now ∧ stampWrite write now = .ok r) ∨
    ∃ commit ∈ op.commits, ∃ write ∈ commit.writes, ∃ parent now, op.clock now ∧
      stampWrite (childWrite parent write) now = .ok r

/-- What one operation may do to the rows. -/
def Op.Extends (op : Op) : MemoryState → MemoryState → Prop :=
  Memory.Extends op.grantee op.clock op.Origin

/-! ### Recovery -/

section

variable {now : DateTime} {node : Uuid} {lease : Duration} {prepared : TaskPoll}

/-- A running execution given up: only its owner goes. -/
def Released (now : DateTime) (r r' : TaskRecord) : Prop :=
  r' = r ∨ (r.status = .running ∧ r' = { r with nodeId := none, updatedAt := now })

theorem Released.trans {a b c : TaskRecord} (h : Released now a b)
    (h' : Released now b c) : Released now a c := by
  rcases h with rfl | ⟨hr, rfl⟩
  · exact h'
  · rcases h' with rfl | ⟨-, rfl⟩
    · exact .inr ⟨hr, rfl⟩
    · exact .inr ⟨hr, rfl⟩

theorem Released.steady {r r' : TaskRecord} (h : Released now r r') :
    Steady (fun _ => False) (· = now) r r' := by
  rcases h with rfl | ⟨hr, rfl⟩
  · exact Steady.refl r'
  · refine steady_clear (.inl rfl) (.inr rfl) fun _ ht => ?_
    rw [hr] at ht
    exact nomatch ht

/-- Recovery gives up executions; it never starts one, and it touches only rows and lane rows. -/
structure Releases (now : DateTime) (state state' : MemoryState) : Prop where
  conf : state'.conf = state.conf
  nodes : state'.nodes = state.nodes
  rates : state'.rates = state.rates
  schedules : state'.schedules = state.schedules
  waits : state'.waits = state.waits
  rows : Rows (Released now) state.tasks state'.tasks

/-- Lane rows are no part of what recovery gives up. -/
theorem Releases.of_rows {state : MemoryState} {tasks : List TaskRecord}
    {locks : FMap String MemoryLaneLock} (h : Rows (Released now) state.tasks tasks) :
    Releases now state { state with tasks := tasks, laneLocks := locks } :=
  ⟨rfl, rfl, rfl, rfl, rfl, h⟩

theorem Releases.refl (now : DateTime) (state : MemoryState) : Releases now state state :=
  .of_rows (rows_refl (fun _ => .inl rfl) _)

theorem Releases.trans {a b c : MemoryState} (h : Releases now a b)
    (h' : Releases now b c) : Releases now a c :=
  ⟨h'.conf.trans h.conf, h'.nodes.trans h.nodes, h'.rates.trans h.rates,
    h'.schedules.trans h.schedules, h'.waits.trans h.waits,
    rows_trans (fun _ _ _ h h' => h.trans h') h.rows h'.rows⟩

theorem Releases.steady {a b : MemoryState} (h : Releases now a b) :
    Rows (Steady (fun _ => False) (· = now)) a.tasks b.tasks :=
  h.rows.imp fun _ _ hr => hr.steady

theorem Releases.distinct {a b : MemoryState} (h : Releases now a b) (hd : a.Distinct) :
    b.Distinct := by
  rw [MemoryState.Distinct, h.steady.map_eq fun _ _ h => h.id]
  exact hd

theorem releaseLane_releases (state : MemoryState) (node : Uuid) (lane : TaskLane) (now : DateTime) :
    Releases now state (releaseLane state node lane now) := by
  refine .of_rows (rows_map _ _ fun r _ => ?_)
  split
  · next h => exact .inr ⟨h.2.2, rfl⟩
  · exact .inl rfl

theorem recoverOwner_releases {state state' : MemoryState} {lane : TaskLane} {claim : Option LaneClaim}
    {owner : Option LaneOwnerPoll}
    (h : recoverOwner state node lane claim prepared now lease = .ok (owner, state')) :
    Releases now state state' := by
  rw [recoverOwner] at h
  split at h
  · obtain ⟨-, rfl⟩ := Prod.mk.inj (Except.ok.inj h)
    exact Releases.refl now state
  · split at h
    · exact nomatch h
    · simp only at h
      split at h
      · obtain ⟨deadline, -, h⟩ := Step.except_bind_ok.mp h
        obtain ⟨-, rfl⟩ := Prod.mk.inj (Except.ok.inj h)
        exact .of_rows (rows_refl (fun _ => .inl rfl) _)
      · obtain ⟨-, rfl⟩ := Prod.mk.inj (Except.ok.inj h)
        exact Releases.refl now state

theorem recoverTask_releases (node : Uuid) (owner : Option LaneOwnerPoll) (now : DateTime)
    (acc : Recovered) (expected : TaskRecord) :
    Releases now acc.state (recoverTask node owner now acc expected).state := by
  rw [recoverTask]
  split
  · exact Releases.refl now _
  · split
    · refine .of_rows (modifyFirst_rows _ _ (fun _ => .inl rfl) (fun r hr => .inr ⟨?_, rfl⟩) _)
      simp only [stillClaimed, Bool.and_eq_true, decide_eq_true_eq] at hr
      exact hr.2
    · split <;> exact Releases.refl now _

theorem recoverLane_releases {claims : List LaneClaim} {state state' : MemoryState}
    {cancelled cancelled' : List TaskCommit} {lane poll : LanePoll}
    (h : recoverLane node claims prepared now lease state cancelled lane =
      .ok (state', cancelled', poll)) : Releases now state state' := by
  rw [recoverLane] at h
  obtain ⟨⟨owner, state₁⟩, ho, h⟩ := Step.except_bind_ok.mp h
  obtain ⟨rfl, -, -⟩ : _ = state' ∧ _ = cancelled' ∧ _ = poll := by simpa using h
  refine (recoverOwner_releases ho).trans (Releases.trans ?_
    (foldl_rel (R := fun a b : Recovered => Releases now a.state b.state) (fun a => Releases.refl now _)
      (fun _ _ _ h h' => h.trans h') _ lane.tasks _ fun acc expected _ =>
        recoverTask_releases node owner now acc expected))
  simp only
  split
  · exact releaseLane_releases _ _ _ _
  · exact Releases.refl now _

theorem recoverLanes_releases {claims : List LaneClaim} : ∀ (lanes : List LanePoll) (state state' : MemoryState)
    (cancelled cancelled' : List TaskCommit) (polls : List LanePoll),
    recoverLanes node claims prepared now lease state cancelled lanes =
      .ok (state', cancelled', polls) → Releases now state state'
  | [], state, state', cancelled, cancelled', polls, h => by
    obtain ⟨rfl, -⟩ := Prod.mk.inj (Except.ok.inj h)
    exact Releases.refl now state
  | lane :: lanes, state, state', cancelled, cancelled', polls, h => by
    rw [recoverLanes] at h
    obtain ⟨⟨state₁, cancelled₁, poll⟩, hone, h⟩ := Step.except_bind_ok.mp h
    obtain ⟨⟨state₂, cancelled₂, polls'⟩, hrest, h⟩ := Step.except_bind_ok.mp h
    obtain ⟨rfl, -⟩ := Prod.mk.inj (Except.ok.inj h)
    exact (recoverLane_releases hone).trans (recoverLanes_releases lanes _ _ _ _ _ hrest)

/-- Recovery commits cancellations only. -/
theorem recoverLanes_cancels {claims : List LaneClaim} : ∀ (lanes : List LanePoll) (state state' : MemoryState)
    (cancelled cancelled' : List TaskCommit) (polls : List LanePoll),
    recoverLanes node claims prepared now lease state cancelled lanes =
      .ok (state', cancelled', polls) → (∀ commit ∈ cancelled, commit.isCancel = true) →
      ∀ commit ∈ cancelled', commit.isCancel = true
  | [], state, state', cancelled, cancelled', polls, h, hc => by
    obtain ⟨-, h⟩ := Prod.mk.inj (Except.ok.inj h)
    obtain ⟨rfl, -⟩ := Prod.mk.inj h
    exact hc
  | lane :: lanes, state, state', cancelled, cancelled', polls, h, hc => by
    rw [recoverLanes] at h
    obtain ⟨⟨state₁, cancelled₁, poll⟩, hone, h⟩ := Step.except_bind_ok.mp h
    obtain ⟨⟨state₂, cancelled₂, polls'⟩, hrest, h⟩ := Step.except_bind_ok.mp h
    obtain ⟨-, rfl, -⟩ : _ = state' ∧ _ = cancelled' ∧ _ = polls := by simpa using h
    refine recoverLanes_cancels lanes _ _ _ _ _ hrest ?_
    rw [recoverLane] at hone
    obtain ⟨⟨owner, _⟩, -, hone⟩ := Step.except_bind_ok.mp hone
    obtain ⟨-, rfl, -⟩ : _ = state₁ ∧ _ = cancelled₁ ∧ _ = poll := by simpa using hone
    refine foldl_rel (R := fun a b : Recovered => (∀ commit ∈ a.cancelled, commit.isCancel = true) →
      ∀ commit ∈ b.cancelled, commit.isCancel = true) (fun _ h => h) (fun _ _ _ h h' ha => h' (h ha))
      _ lane.tasks _ (fun acc expected _ ha => ?_) hc
    rw [recoverTask]
    split
    · exact ha
    · split
      · exact ha
      · split
        · intro commit hm
          rcases List.mem_append.mp hm with hm | hm
          · exact ha commit hm
          · obtain rfl := List.mem_singleton.mp hm
            rfl
        · exact ha

/-- Cancellations carry no children. -/
theorem childless_of_cancels {P : TaskWrite → Prop} {commits : List TaskCommit}
    (h : ∀ commit ∈ commits, commit.isCancel = true) : ∀ commit ∈ commits, ∀ write ∈ commit.writes, P write := by
  intro commit hm write hw
  have hcancel := h commit hm
  cases commit with
  | cancel id => cases hw
  | outcome => cases hcancel

end

/-! ### Submissions and control -/

theorem storeTasks_cases (writes : List TaskWrite) (now : DateTime) (state : MemoryState) :
    (∃ error, storeTasks writes now state = (.error error, state)) ∨
      ∃ receipts staged, validateWriteLanes state writes = .ok () ∧
        stageWrites state.tasks now [] writes = .ok (receipts, staged) ∧
        storeTasks writes now state = (.ok receipts, { state with tasks := state.tasks ++ staged }) := by
  simp only [storeTasks, Step.bind_run, Step.get_run, Step.lift_run]
  cases hv : validateWriteLanes state writes with
  | error error => exact .inl ⟨error, rfl⟩
  | ok u =>
    cases hs : stageWrites state.tasks now [] writes with
    | error error => exact .inl ⟨error, rfl⟩
    | ok entry => exact .inr ⟨entry.1, entry.2, rfl, rfl, rfl⟩

theorem storeScheduled_cases (scheduled : ScheduledTaskWrite) (now : DateTime) (state : MemoryState) :
    (∃ out, storeScheduled scheduled now state = (out, state) ∧ ∀ receipt, out ≠ .ok (some receipt)) ∨
      ∃ receipt staged, validateWriteLanes state [scheduled.write] = .ok () ∧
        stageWrite state.tasks [] scheduled.write now = .ok (receipt, staged) ∧
        storeScheduled scheduled now state = (.ok (some receipt), { state with
          tasks := state.tasks ++ staged
          schedules := state.schedules.insert scheduled.name (max now scheduled.occurrence) }) := by
  simp only [storeScheduled, Step.bind_run, Step.get_run]
  split
  · exact .inl ⟨_, rfl, by simp⟩
  · simp only [Step.bind_run, Step.lift_run]
    cases hv : validateWriteLanes state [scheduled.write] with
    | error error => exact .inl ⟨_, rfl, by simp⟩
    | ok u =>
      cases hs : stageWrite state.tasks [] scheduled.write now with
      | error error => exact .inl ⟨_, rfl, by simp⟩
      | ok entry => exact .inr ⟨entry.1, entry.2, rfl, rfl, rfl⟩

theorem storeAdmitted_cases (writes : List TaskWrite) (node : Uuid) (limit : ℕ) (now : DateTime)
    (state : MemoryState) :
    (∃ error, storeAdmitted writes node limit now state = (.error error, state)) ∨
      ∃ receipts staged rows tasks, (state.nodes node).isSome = true ∧
        validateWriteLanes state writes = .ok () ∧
        stageWrites state.tasks now [] writes = .ok (receipts, staged) ∧
        promote state.conf node now limit staged = .ok (rows, tasks) ∧
        storeAdmitted writes node limit now state =
          (.ok (receipts, tasks), { state with tasks := state.tasks ++ rows }) := by
  simp only [storeAdmitted, Step.bind_run, Step.get_run]
  split
  · exact .inl ⟨_, rfl⟩
  · next hn =>
    have hnode : (state.nodes node).isSome = true := by
      cases h : state.nodes node with
      | none => rw [h] at hn; exact absurd rfl hn
      | some entry => rfl
    simp only [Step.bind_run, Step.lift_run]
    cases hv : validateWriteLanes state writes with
    | error error => exact .inl ⟨error, rfl⟩
    | ok u =>
      cases hs : stageWrites state.tasks now [] writes with
      | error error => exact .inl ⟨error, rfl⟩
      | ok entry =>
        cases hp : promote state.conf node now limit entry.2 with
        | error error =>
          refine .inl ⟨error, ?_⟩
          simp only [hp]
        | ok admitted =>
          refine .inr ⟨entry.1, entry.2, admitted.1, admitted.2, hnode, rfl, rfl, hp, ?_⟩
          simp only [hp]
          rfl

/-! ### Answers and kinds of operations -/

theorem respond_snd {α : Type} (f : α → Response) (run : Except TaskRuntimeError α × MemoryState) :
    (respond f run).2 = run.2 := by
  obtain ⟨r, s⟩ := run
  cases r <;> rfl

theorem respondPoll_snd (run : Except (StoreFailure TaskPoll) TaskPoll × MemoryState) :
    (respondPoll run).2 = run.2 := by
  obtain ⟨r, s⟩ := run
  cases r with
  | ok a => rfl
  | error e => cases e <;> rfl

theorem respondCommit_snd (run : Except (StoreFailure CommitResult) CommitResult × MemoryState) :
    (respondCommit run).2 = run.2 := by
  obtain ⟨r, s⟩ := run
  cases r with
  | ok a => rfl
  | error e => cases e <;> rfl

theorem beforeCommit_snd {α β : Type} (m : Step MemoryState TaskRuntimeError β) (state : MemoryState) :
    (beforeCommit m state : Except (StoreFailure α) β × MemoryState).2 = (m state).2 := by
  rw [beforeCommit]
  rcases m state with ⟨r, s⟩
  cases r <;> rfl

/-- Operations that neither run a turn nor set the store up. -/
def Op.quiet : Op → Bool
  | .registerNode .. | .heartbeat .. | .returnClaims .. | .storeTasks .. | .storeAdmitted ..
  | .storeScheduled .. | .reassignLane .. | .resume .. => true
  | _ => false

/-- Operations on the registry of nodes. -/
def Op.registers : Op → Bool
  | .registerNode .. | .heartbeat .. => true
  | _ => false

/-- Children of accepted commits are among the rows the operation may add. -/
theorem origin_of_isChild {op : Op} {state : MemoryState} {now : DateTime} {commits : List TaskCommit}
    (hc : ∀ commit ∈ commits, commit ∈ op.commits) (hn : op.clock now) (t : TaskRecord)
    (h : IsChild state now commits t) : op.Origin t := by
  obtain ⟨commit, hm, index, row, -, write, hw, hs⟩ := h
  exact .inr ⟨commit, hc commit hm, write, hw, row, now, hn, hs⟩

/-- Lane rows, waits and buckets stay, and the registry unless the operation is about it. -/
structure QuietFrame (op : Op) (s s' : MemoryState) : Prop where
  locks : s'.laneLocks = s.laneLocks
  waits : s'.waits = s.waits
  rates : s'.rates = s.rates
  nodes : op.registers = false → s'.nodes = s.nodes

theorem QuietFrame.refl (op : Op) (s : MemoryState) : QuietFrame op s s := ⟨rfl, rfl, rfl, fun _ => rfl⟩

/-! ### Callers -/

/-- Callers without restrictions. -/
def AnyCall (_ : MemoryState) (_ : Op) : Prop := True

/-- The states a store is built in. -/
def Started (state : MemoryState) : Prop := ∃ conf, state = MemoryState.new conf

/-- A store together with the latest clock reading anybody took from it. -/
structure Timed where
  clock : DateTime
  state : MemoryState

/-- Only running records have owners. -/
def MemoryState.AllOwned (state : MemoryState) : Prop := ∀ r ∈ state.tasks, Owned r

/-- Submissions that carry an owner only when they are running; the framework's submissions are
    pending and ownerless. -/
def SubmitsOwned (_ : MemoryState) (op : Op) : Prop := ∀ write ∈ op.submissions, Owned write.record

/-- What an operation first stores is owned only when running. -/
theorem Op.Origin.owned {op : Op} {r : TaskRecord}
    (hs : ∀ write ∈ op.submissions, Owned write.record) (h : op.Origin r) : Owned r := by
  rcases h with ⟨write, hw, now, -, hstamp⟩ | ⟨commit, -, write, -, parent, now, -, hstamp⟩
  · obtain ⟨ready, rfl⟩ := stampWrite_ok hstamp
    exact hs write hw
  · obtain ⟨ready, rfl⟩ := childStamp hstamp
    exact fun hn => nomatch hn

/-! ### Turns -/

section

variable [Serde] (store : MemoryTaskStore)

theorem claimOperation_extends {state : MemoryState} (hd : state.Distinct) (node : Uuid)
    (claims : List (LaneClaim × Uuid)) (batch : ℕ) (lease : Duration) (now : DateTime) :
    Memory.Extends (· = node) (· = now) (fun _ => False) state
      (atomicOperation (some node) claims [] batch lease now state).2 := by
  rcases atomicOperation_cases hd (some node) claims [] batch lease now with
    ⟨error, he⟩ | ⟨result, turn, hrun, hok⟩
  · rw [he]
    exact .refl state
  · rw [hok]
    exact (claimTurn_extends hd hrun).mono (fun _ h => (Option.some.inj h).symm) (fun _ h => h)
      fun _ h => h

theorem commitOperation_extends {state : MemoryState} (hd : state.Distinct) (commits : List TaskCommit)
    (batch : ℕ) (lease : Duration) (now : DateTime) :
    Memory.Extends (fun _ => False) (· = now) (IsChild state now commits) state
      (atomicOperation none [] commits batch lease now state).2 := by
  rcases atomicOperation_cases hd none [] commits batch lease now with
    ⟨error, he⟩ | ⟨result, turn, hrun, hok⟩
  · rw [he]
    exact .refl state
  · rw [hok]
    exact commitTurn_extends hd hrun

theorem claimTasks_snd (node : Uuid) (claims : List (LaneClaim × Uuid)) (now : DateTime)
    (state : MemoryState) :
    (claimTasks store node claims now state).2 = state ∨ (claimTasks store node claims now state).2 =
      (atomicOperation (some node) claims [] store.commitBatchSize store.leaseDuration now state).2 := by
  simp only [claimTasks, Step.bind_run, Step.get_run]
  split
  · exact .inl rfl
  · refine .inr ?_
    rw [Step.bind_run]
    rcases hm : (beforeCommit (atomicOperation (some node) claims [] store.commitBatchSize
      store.leaseDuration now) state : Except (StoreFailure TaskPoll) _ × MemoryState) with ⟨r, s⟩
    have hs : s = _ := (congrArg Prod.snd hm).symm.trans (beforeCommit_snd _ state)
    rw [← hs]
    cases r <;> rfl

theorem coordinateLanes_snd (node : Uuid) (claims : List (LaneClaim × Uuid)) (now : DateTime)
    (state : MemoryState) :
    (coordinateLanes store node claims now state).2 = state ∨
      (coordinateLanes store node claims now state).2 = (claimTasks store node claims now state).2 := by
  rw [coordinateLanes, Step.bind_run]
  cases hv : validateCoordination (claims.map (·.1)) with
  | error e => exact .inl rfl
  | ok u => exact .inr rfl

theorem commitTasks_snd (commits : List TaskCommit) (now : DateTime) (state : MemoryState) :
    (commitTasks store commits now state).2 =
      (atomicOperation none [] commits store.commitBatchSize store.leaseDuration now state).2 := by
  rw [commitTasks, Step.bind_run]
  rcases hm : (beforeCommit (atomicOperation none [] commits store.commitBatchSize
    store.leaseDuration now) state : Except (StoreFailure CommitResult) _ × MemoryState) with ⟨r, s⟩
  have hs : s = _ := (congrArg Prod.snd hm).symm.trans (beforeCommit_snd _ state)
  rw [← hs]
  cases r <;> rfl

theorem commitAdmitted_cases (commits : List TaskCommit) (node : Uuid) (limit : ℕ)
    (cached : List TaskRecord) (now : DateTime) (state : MemoryState) :
    (∃ error state₁, atomicOperation none [] commits store.commitBatchSize store.leaseDuration now state =
          (.error error, state₁) ∧
        commitAdmitted store commits node limit cached now state = (.error (.beforeCommit error), state₁)) ∨
      ∃ poll result state₁, atomicOperation none [] commits store.commitBatchSize store.leaseDuration now
          state = (.ok (poll, result), state₁) ∧
        commitAdmitted store commits node limit cached now state =
          (.ok (admitCommitted state₁ state.tasks.length commits node limit cached now result).2,
            (admitCommitted state₁ state.tasks.length commits node limit cached now result).1) := by
  simp only [commitAdmitted, Step.bind_run, Step.get_run, beforeCommit]
  rcases hm : atomicOperation none [] commits store.commitBatchSize store.leaseDuration now state with
    ⟨r, state₁⟩
  cases r with
  | error error => exact .inl ⟨error, state₁, rfl, rfl⟩
  | ok result => exact .inr ⟨result.1, result.2, state₁, rfl, rfl⟩

theorem recoverOutputs_snd (node : Uuid) (commits : List TaskCommit) (prepared : CommitResult)
    (now : DateTime) (state : MemoryState) :
    (recoverOutputs store node commits prepared now state).2 = (commitTasks store commits now state).2 := by
  rw [recoverOutputs]
  rcases commitTasks store commits now state with ⟨r, after⟩
  cases r <;> rfl

/-! ### Every operation -/

/-- What an operation outside turns does: nothing when it is refused, else one edit of the rows, of the
    registry or of a cursor. -/
inductive Edits (op : Op) : MemoryState → MemoryState → Prop
  | refused (state : MemoryState) : Edits op state state
  | registered {state : MemoryState} (nodes : FMap Uuid (DateTime × DateTime)) (hop : op.registers = true) :
      Edits op state { state with nodes := nodes }
  | retired {state : MemoryState} (nodes : FMap Uuid (DateTime × DateTime)) (retired : Uuid → Bool)
      (hop : op.registers = true) : Edits op state { state with
        nodes := nodes
        tasks := state.tasks.map fun task =>
          if task.nodeId.any retired then { task with nodeId := none } else task }
  | returned {state : MemoryState} {node : Option Uuid} {now : DateTime} (ht : op.clock now) :
      Edits op state { state with
        tasks := state.tasks.map fun task => if returnable node task then returnTask now task else task }
  | stored {state : MemoryState} {node : Uuid} {now : DateTime} {staged rows taken : List TaskRecord}
      {schedules : FMap String DateTime} (ht : op.clock now)
      (hlanes : validateWriteLanes state op.submissions = .ok ()) (hbatch : Batch state.tasks now staged)
      (hstamped : StampedFrom op.submissions now staged)
      (hwalk : Promotes (fun _ r => op.grantee node ∧ ∃ c, state.conf = some c ∧ direct r c now = true)
        node now 0 staged rows taken)
      (hcursor : schedules = state.schedules ∨ ∃ scheduled time, op = .storeScheduled scheduled time) :
      Edits op state { state with tasks := state.tasks ++ rows, schedules := schedules }
  | reassigned {state : MemoryState} {source target : String} {clock : ℕ → DateTime}
      (hop : op = .reassignLane source target clock) (hlane : requireLane state target = .ok ()) :
      Edits op state { state with
        tasks := state.tasks.mapIdx fun index task =>
          if reassignable source task then
            { task with lane := target, nodeId := none, updatedAt := clock index }
          else task }
  | resumed {state : MemoryState} {id : TaskId} {input : String} {now : DateTime} {task : TaskRecord}
      (hop : op = .resume id input now) (hinput : validateResume input = .ok ())
      (hfound : state.tasks.find? (fun task => task.id = id) = some task)
      (hlive : task.cancelled = false) (hsuspended : task.status = .suspended) :
      Edits op state { state with
        tasks := modifyFirst (fun task => task.id = id)
          (fun task => wake now { task with resumeInput := some input, updatedAt := now }) state.tasks }

theorem exec_edits {op : Op} (hop : op.quiet = true) (state : MemoryState) :
    Edits op state (exec store op state).2 := by
  cases op with
  | registerNode node now => exact .registered _ rfl
  | heartbeat node staleAfter now =>
    rw [exec, respond_snd, heartbeat]
    cases (fromStd staleAfter).bind (checkedSubSigned now) with
    | none => exact .refused state
    | some cutoff =>
      simp only [Step.bind_run, Step.get_run]
      cases state.nodes node with
      | none => exact .refused state
      | some entry => exact .retired _ _ rfl
  | returnClaims node now => exact .returned (by exact rfl)
  | storeTasks writes now =>
    rw [exec, respond_snd]
    rcases storeTasks_cases writes now state with ⟨error, he⟩ | ⟨receipts, staged, hlanes, hs, hok⟩
    · rw [he]; exact .refused state
    · obtain ⟨hbatch, hstamped⟩ := stageWrites_fresh hs
      rw [hok]
      exact .stored (by exact rfl) hlanes hbatch hstamped (.refl 0 0 staged) (.inl rfl)
  | storeAdmitted writes node limit now =>
    rw [exec, respond_snd]
    rcases storeAdmitted_cases writes node limit now state with
      ⟨error, he⟩ | ⟨receipts, staged, rows, tasks, -, hlanes, hs, hp, hok⟩
    · rw [he]; exact .refused state
    · obtain ⟨hbatch, hstamped⟩ := stageWrites_fresh hs
      rw [hok]
      exact .stored (by exact rfl) hlanes hbatch hstamped
        ((promote_promotes hp).1.imp fun _ _ _ hdirect => ⟨rfl, hdirect⟩) (.inl rfl)
  | storeScheduled scheduled now =>
    rw [exec, respond_snd]
    rcases storeScheduled_cases scheduled now state with ⟨out, he, -⟩ | ⟨receipt, staged, hlanes, hs, hok⟩
    · rw [he]; exact .refused state
    · obtain ⟨record, hstamp, hsubmits⟩ := stageWrite_ok hs
      rw [hok]
      refine .stored (by exact rfl) hlanes (hsubmits.batch (Batch.nil _ now)) (fun t ht => ?_)
        (.refl 0 0 staged) (.inr ⟨scheduled, now, rfl⟩)
      cases hsubmits with
      | queued fresh unheld =>
        obtain rfl := List.mem_singleton.mp ht
        exact ⟨scheduled.write, List.mem_singleton_self _, hstamp⟩
      | existing held same => cases ht
      | ignored held ignores => cases ht
  | reassignLane source target clock =>
    rw [exec, respond_snd]
    simp only [reassignLane, Step.bind_run, Step.get_run, Step.lift_run]
    cases hlane : requireLane state target with
    | error error => exact .refused state
    | ok u =>
      simp only
      split
      · exact .refused state
      · exact .reassigned rfl hlane
  | resume id input now =>
    rw [exec, respond_snd]
    simp only [resume, Step.bind_run, Step.get_run, Step.lift_run]
    cases hinput : validateResume input with
    | error error => exact .refused state
    | ok u =>
      simp only
      cases hfound : state.tasks.find? (fun task => task.id = id) with
      | none => exact .refused state
      | some task =>
        simp only
        split
        · exact .refused state
        · next hopen =>
          simp only [not_or, ne_eq, not_not, Bool.not_eq_true] at hopen
          exact .resumed rfl hinput hfound hopen.1 hopen.2
  | _ => cases hop

/-- What an operation that runs turns, or sets the store up, does to it: nothing when it is refused, else
    one turn, which may follow what recovery gives up or come before a promotion. -/
inductive Performs (op : Op) : MemoryState → MemoryState → Prop
  | refused (state : MemoryState) : Performs op state state
  | setUp {state : MemoryState} {conf : TaskStoreConf} (ratesNow : DateTime)
      (hconf : state.conf = some conf) :
      Performs op state (initializeLaneLocks (initializeRates state conf ratesNow) conf)
  | claimed {node : Uuid} {now : DateTime} {claims : List (LaneClaim × Uuid)}
      (hop : op = .claimTasks node claims now ∨ op = .coordinateLanes node claims now)
      (state : MemoryState) : Performs op state
        (atomicOperation (some node) claims [] store.commitBatchSize store.leaseDuration now state).2
  | committed {now : DateTime} (ht : op.clock now)
      (hop : op = .commitTasks op.commits now ∨
        (∃ node prepared, op = .recoverOutputs node op.commits prepared now) ∨
        ∃ node limit cached, op = .commitAdmitted op.commits node limit cached now)
      (state : MemoryState) : Performs op state
        (atomicOperation none [] op.commits store.commitBatchSize store.leaseDuration now state).2
  | admitted {node : Uuid} {limit : ℕ} {cached : List TaskRecord} {now : DateTime}
      {state state₁ : MemoryState} {result : TaskPoll × CommitResult} {rows taken : List TaskRecord}
      (hop : op = .commitAdmitted op.commits node limit cached now)
      (hturn : atomicOperation none [] op.commits store.commitBatchSize store.leaseDuration now state =
        (.ok result, state₁))
      (hwalk : Promotes (fun i r => ∃ conf, state₁.conf = some conf ∧
        admissible state₁ conf state.tasks.length cached now i r = true) node now 0 state₁.tasks rows taken) :
      Performs op state { state₁ with tasks := rows }
  | recovered {now : DateTime} {state staged after : MemoryState} {result : TaskPoll × CommitResult}
      {cancelled : List TaskCommit} (ht : op.clock now) (hgiven : Releases now state staged)
      (hcancels : ∀ commit ∈ cancelled, commit.isCancel = true)
      (hturn : atomicOperation none [] cancelled store.commitBatchSize store.leaseDuration now staged =
        (.ok result, after))
      (hop : ∃ node claims prepared lanes, op = .recoverClaims node claims prepared now ∧
        recoverLanes node claims prepared now store.leaseDuration state [] prepared.lanes =
          .ok (staged, cancelled, lanes)) : Performs op state after

theorem exec_performs {op : Op} (hop : op.quiet = false) (state : MemoryState) :
    Performs store op state (exec store op state).2 := by
  cases op with
  | initializeStore now ratesNow =>
    rw [exec, respond_snd]
    simp only [initializeStore, Step.bind_run, Step.get_run]
    cases hconf : state.conf with
    | none => exact .refused state
    | some conf =>
      simp only [Step.bind_run, Step.lift_run]
      cases rejectOrphanedTasks state.tasks conf with
      | error error => exact .refused state
      | ok u =>
        simp only [Step.modify_run, finalizeWorkflow_fst, MemoryState.adopt, List.append_nil]
        exact .setUp ratesNow hconf
  | claimTasks node claims now =>
    rw [exec, respondPoll_snd]
    rcases claimTasks_snd store node claims now state with h | h
    · rw [h]; exact .refused state
    · rw [h]; exact .claimed (.inl rfl) state
  | coordinateLanes node claims now =>
    rw [exec, respondPoll_snd]
    rcases coordinateLanes_snd store node claims now state with h | h
    · rw [h]; exact .refused state
    · rw [h]
      rcases claimTasks_snd store node claims now state with h | h
      · rw [h]; exact .refused state
      · rw [h]; exact .claimed (.inr rfl) state
  | commitTasks commits now =>
    rw [exec, respondCommit_snd, commitTasks_snd]
    exact .committed (by exact rfl) (.inl rfl) state
  | recoverOutputs node commits prepared now =>
    rw [exec, respondCommit_snd, recoverOutputs_snd, commitTasks_snd]
    exact .committed (by exact rfl) (.inr (.inl ⟨node, prepared, rfl⟩)) state
  | commitAdmitted commits node limit cached now =>
    rw [exec, respondCommit_snd]
    rcases commitAdmitted_cases store commits node limit cached now state with
      ⟨error, state₁, hop, he⟩ | ⟨poll, result, state₁, hop, he⟩
    · rw [he, show state₁ = _ from (congrArg Prod.snd hop).symm]
      exact .committed (by exact rfl) (.inr (.inr ⟨node, limit, cached, rfl⟩)) state
    · obtain ⟨rows, taken, shown, hwalk, -, -, heq⟩ :=
        admitCommitted_promotes state₁ state.tasks.length commits node limit cached now result
      rw [he, heq]
      exact .admitted rfl hop hwalk
  | recoverClaims node claims prepared now =>
    rw [exec, respondPoll_snd, recoverClaims, recoverPoll]
    cases hl : recoverLanes node claims prepared now store.leaseDuration state [] prepared.lanes with
    | error error => exact .refused state
    | ok entry =>
      obtain ⟨staged, cancelled, lanes⟩ := entry
      simp only
      rcases hturn : atomicOperation none [] cancelled store.commitBatchSize store.leaseDuration now
        staged with ⟨r, after⟩
      cases r with
      | error error => exact .refused state
      | ok result =>
        exact .recovered (by exact rfl) (recoverLanes_releases _ _ _ _ _ _ hl)
          (recoverLanes_cancels _ _ _ _ _ _ hl fun _ h => (by cases h)) hturn
          ⟨node, claims, prepared, lanes, rfl, hl⟩
  | _ => cases hop

/-! ### What operations do to the rows, and what they leave alone -/

/-- Operations outside turns keep the rows in place, move them steadily and store new rows behind them. -/
theorem Edits.extends {op : Op} {state after : MemoryState} (h : Edits op state after) :
    op.Extends state after := by
  cases h with
  | refused => exact .refl state
  | registered => exact .of_rows rfl (rows_refl Steady.refl _)
  | retired nodes retired =>
    refine .of_rows rfl (rows_map _ _ fun r _ => ?_)
    split
    · next hretired =>
      refine steady_clear (.inl rfl) (.inl rfl) fun ho ht => ?_
      rw [ho (Option.isSome_of_any hretired)] at ht
      cases ht
    · exact Steady.refl r
  | returned ht =>
    refine .of_rows rfl (rows_map _ _ fun r _ => ?_)
    split
    · next hret =>
      simp only [returnable, Bool.and_eq_true, Bool.or_eq_true, decide_eq_true_eq] at hret
      refine steady_clear ?_ (.inr ht) fun _ hterminal => ?_
      · split
        · next hr => exact .inr ⟨hr, rfl⟩
        · exact .inl rfl
      · rcases hret.1 with hs | ⟨-, hs | hs⟩ <;> rw [hs] at hterminal <;> cases hterminal
    · exact Steady.refl r
  | @stored node now staged rows taken schedules ht hlanes hbatch hstamped hwalk =>
    have hstored : op.Extends state { state with tasks := state.tasks ++ staged } := by
      refine .of_batch rfl rfl ht hbatch fun t hm => .inl ?_
      obtain ⟨write, hw, hstamp⟩ := hstamped t hm
      exact ⟨write, hw, now, ht, hstamp⟩
    refine hstored.before_rows rfl ((rows_refl Steady.refl _).append (hwalk.moves.imp fun r r' hr => ?_))
    rcases hr with rfl | ⟨⟨-, hnode, c, -, hdirect⟩, hgrant⟩
    · exact Steady.refl r'
    · have hsteady : Steady (· = node) (· = now) r r' :=
        steady_grant (by rw [direct_pending hdirect]; rfl) hgrant
      exact hsteady.mono (fun _ h => h ▸ hnode) fun _ h => h ▸ ht
  | @reassigned source target clock hop =>
    subst hop
    refine .of_rows rfl (rows_mapIdx _ _ fun index r => ?_)
    split
    · next hr =>
      refine steady_clear (.inl rfl) (.inr ⟨index, rfl⟩) fun _ ht => ?_
      simp only [reassignable, isReassignable, Bool.and_eq_true, Bool.or_eq_true,
        decide_eq_true_eq] at hr
      rcases hr.2 with hs | hs <;> rw [hs] at ht <;> cases ht
    · exact Steady.refl r
  | @resumed id input now task hop hinput hfound hlive hsuspended =>
    subst hop
    exact .of_rows rfl (rows_modifyFound Steady.refl hfound (steady_wake hsuspended (.inr rfl)))

/-- So do operations that run turns. -/
theorem Performs.extends {op : Op} {state after : MemoryState} (hd : state.Distinct)
    (h : Performs store op state after) : op.Extends state after := by
  cases h with
  | refused => exact .refl state
  | setUp => exact .of_rows rfl (rows_refl Steady.refl _)
  | @claimed node now claims hop =>
    refine (claimOperation_extends hd node claims _ _ now).mono (fun _ h => ?_) (fun _ h => ?_)
      fun _ h => (by cases h)
    · rcases hop with rfl | rfl <;> exact h
    · rcases hop with rfl | rfl <;> exact h
  | committed ht =>
    exact (commitOperation_extends hd op.commits _ _ _).mono (fun _ h => (by cases h)) (fun _ h => h ▸ ht)
      (origin_of_isChild (fun _ h => h) ht)
  | @admitted node limit cached now _ state₁ result rows taken hop hturn hwalk =>
    have hnow : op.clock now := by rw [hop]; exact rfl
    have hnode : op.grantee node := by rw [hop]; exact rfl
    have hcommit := commitOperation_extends hd op.commits store.commitBatchSize store.leaseDuration now
    rw [hturn] at hcommit
    have hmoves : Rows (Steady op.grantee op.clock) state₁.tasks rows := by
      refine (hwalk.steady ?_).imp fun _ _ hr => hr.mono (fun _ h => h ▸ hnode) fun _ h => h ▸ hnow
      rintro j r ⟨conf, -, hadmissible⟩
      simp only [admissible, Bool.and_eq_true] at hadmissible
      exact direct_pending hadmissible.2
    exact Extends.before_rows (hcommit.mono (fun _ h => (by cases h)) (fun _ h => h ▸ hnow)
      (origin_of_isChild (fun _ h => h) hnow)) rfl hmoves
  | @recovered now _ staged _ _ cancelled ht hgiven hcancels hturn =>
    have hcommit := commitOperation_extends (hgiven.distinct hd) cancelled store.commitBatchSize
      store.leaseDuration now
    rw [hturn] at hcommit
    have hnone : Memory.Extends (fun _ => False) (· = now) (fun _ => False) staged after := by
      refine hcommit.mono (fun _ h => h) (fun _ h => h) ?_
      rintro t ⟨commit, hm, -, -, -, write, hw, -⟩
      exact childless_of_cancels (P := fun _ => False) hcancels commit hm write hw
    have hall : Memory.Extends (fun _ => False) (· = now) (fun _ => False) state after :=
      .of_rows (hnone.conf.trans hgiven.conf)
        (rows_trans (fun _ _ _ h h' => h.trans h') hgiven.steady hnone.rows_only)
    exact hall.mono (fun _ h => (by cases h)) (fun _ h => h ▸ ht) fun _ h => (by cases h)

/-- Every operation keeps its rows in place, moves them steadily and stores new rows behind them,
    whether it succeeds or fails. -/
theorem exec_extends {state : MemoryState} (hd : state.Distinct) (op : Op) :
    op.Extends state (exec store op state).2 := by
  cases hop : op.quiet with
  | true => exact (exec_edits store hop state).extends
  | false => exact (exec_performs store hop state).extends store hd

/-- Outside turns, lane rows, waits and buckets are not touched. -/
theorem exec_quiet {op : Op} (h : op.quiet = true) (state : MemoryState) :
    QuietFrame op state (exec store op state).2 := by
  have hedit := exec_edits store h state
  generalize (exec store op state).2 = after at hedit ⊢
  cases hedit with
  | refused => exact .refl _ state
  | registered nodes hop | retired nodes retired hop =>
    exact ⟨rfl, rfl, rfl, fun hr => by rw [hop] at hr; cases hr⟩
  | returned | stored | reassigned | resumed => exact ⟨rfl, rfl, rfl, fun _ => rfl⟩

/-! ### Runs -/

/-- One operation of a caller that respects `call`. -/
def Steps (call : MemoryState → Op → Prop) (state : MemoryState) (op : Op) (state' : MemoryState) :
    Prop :=
  call state op ∧ state' = (exec store op state).2

/-- One operation whose clock readings `later` allows after the readings before it. -/
structure Ticks (later : DateTime → DateTime → Prop) (call : MemoryState → Op → Prop) (s : Timed) (op : Op)
    (s' : Timed) : Prop where
  step : Steps store call s.state op s'.state
  reads : ∀ time, op.clock time → later s.clock time ∧ time ≤ s'.clock
  mono : s.clock ≤ s'.clock

theorem steps_distinct {call : MemoryState → Op → Prop} (state : MemoryState) (op : Op)
    (state' : MemoryState) (hd : state.Distinct) (h : Steps store call state op state') :
    state'.Distinct := by
  rw [h.2]
  exact (exec_extends store hd op).distinct hd

/-- Identifiers are distinct in every reachable state, whatever the callers do. -/
theorem reachable_distinct {call : MemoryState → Op → Prop} {state : MemoryState}
    (h : Reachable Started (Steps store call) state) : state.Distinct := by
  refine h.inv ?_ (steps_distinct store)
  rintro _ ⟨conf, rfl⟩
  exact List.nodup_nil

/-- The store after some operations. -/
def MemoryState.execs (state : MemoryState) : List Op → MemoryState
  | [] => state
  | op :: ops => MemoryState.execs (exec store op state).2 ops

theorem MemoryState.execs_run {call : MemoryState → Op → Prop} :
    ∀ (ops : List Op) (state : MemoryState), (∀ op ∈ ops, ∀ s, call s op) →
      Run (Steps store call) state ops (state.execs store ops)
  | [], state, _ => .nil state
  | op :: ops, state, h =>
    .cons ⟨h op List.mem_cons_self state, rfl⟩
      (MemoryState.execs_run ops _ fun op hm => h op (List.mem_cons_of_mem _ hm))

variable {store} in
theorem exec_commitTasks {state after : MemoryState} {commits : List TaskCommit} {now : DateTime}
    {result : CommitResult} (h : commitTasks store commits now state = (.ok result, after)) :
    (exec store (.commitTasks commits now) state).1 = .committed result := by
  rw [exec, h]
  rfl

theorem exec_allOwned {state : MemoryState} (hd : state.Distinct) (ho : state.AllOwned) {op : Op}
    (hs : ∀ write ∈ op.submissions, Owned write.record) : (exec store op state).2.AllOwned := by
  refine (exec_extends store hd op).inv ho (fun t ht => ht.owned hs) ?_
  intro r r' hsteady hr
  exact hsteady.owned hr

theorem reachable_allOwned {call : MemoryState → Op → Prop} {state : MemoryState}
    (hcall : ∀ s op, call s op → SubmitsOwned s op)
    (h : Reachable Started (Steps store call) state) : state.Distinct ∧ state.AllOwned := by
  refine h.inv (I := fun s => s.Distinct ∧ s.AllOwned) ?_ ?_
  · rintro _ ⟨conf, rfl⟩
    exact ⟨List.nodup_nil, fun _ hr => nomatch hr⟩
  · rintro s op s' ⟨hd, ho⟩ ⟨hc, rfl⟩
    exact ⟨(exec_extends store hd op).distinct hd, exec_allOwned store hd ho (hcall s op hc)⟩

/-- A terminal record survives an operation unchanged, in its place. -/
theorem exec_terminal {state : MemoryState} (hd : state.Distinct) (ho : state.AllOwned) (op : Op)
    {i : ℕ} {r : TaskRecord} (hi : state.tasks[i]? = some r) (ht : r.status.terminal = true) :
    (exec store op state).2.tasks[i]? = some r := by
  obtain ⟨r', hi', hsteady⟩ := (exec_extends store hd op).get hi
  rw [hi', hsteady.terminal (ho r (List.mem_of_getElem? hi)) ht]

/-- CORRECT: in every reachable state, every operation with any arguments leaves every terminal record
    exactly as it is, whether it succeeds or fails. -/
theorem terminal_records_are_immutable {state : MemoryState}
    (h : Reachable Started (Steps store SubmitsOwned) state) (op : Op) {i : ℕ} {r : TaskRecord}
    (hi : state.tasks[i]? = some r) (ht : r.status.terminal = true) :
    (exec store op state).2.tasks[i]? = some r := by
  obtain ⟨hd, ho⟩ := reachable_allOwned store (fun _ _ h => h) h
  exact exec_terminal store hd ho op hi ht

end

attribute [local instance] acceptingSerde in
/-- A cancelled submission stays as it is when its cancellation is committed once more. -/
theorem terminal_records_are_immutable_cancelled :
    (exec smallStore (.commitTasks [.cancel ⟨1⟩] 2)
      (exec smallStore (.commitTasks [.cancel ⟨1⟩] 1)
        (exec smallStore (.storeTasks [plainWrite (freshRecord 1 .work "open")] 0)
          (MemoryState.new smallConf)).2).2).2.tasks[0]? =
      some { freshRecord 1 .work "open" with
        status := .failed, cancelled := true, readyAt := none, updatedAt := 1, completedAt := some 1
        lastResult := some (failure ⟨1⟩ "Task cancelled") } := by
  refine terminal_records_are_immutable smallStore ⟨MemoryState.new smallConf,
    [.storeTasks [plainWrite (freshRecord 1 .work "open")] 0, .commitTasks [.cancel ⟨1⟩] 1],
    ⟨smallConf, rfl⟩, .cons ⟨?_, rfl⟩ (.cons ⟨?_, rfl⟩ (.nil _))⟩ _ ?_ ?_
  · intro write hw hn
    obtain rfl := List.mem_singleton.mp hw
    exact nomatch hn
  · exact fun _ hw => nomatch hw
  · decide
  · decide

end Vyuh.Tasks.Memory
