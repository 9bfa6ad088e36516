import Vyuh.Tasks.Store.Memory.Staging

/-! Turn atomicity. A turn mutates rows, rate buckets and lane rows in place, and its caller undoes a
    failed one from the log, the saved buckets and the saved lane rows. What makes this sound is one
    relation, `Logged`, that holds between the first and the last turn of *every* run of the fallible
    part, failed ones included: everything but rows, buckets and lane rows is untouched, no row moved,
    and the entries added to the log put the rows back. -/

namespace Vyuh.Tasks.Memory
open Lib

/-- No two stored rows share an identifier. -/
def MemoryState.Distinct (state : MemoryState) : Prop := (state.tasks.map (·.id)).Nodup

/-- All that a failed turn left behind is undone by the log entries it added. -/
structure Logged (old new : Turn) : Prop where
  nodes : new.state.nodes = old.state.nodes
  conf : new.state.conf = old.state.conf
  schedules : new.state.schedules = old.state.schedules
  waits : new.state.waits = old.state.waits
  ids : new.state.tasks.map (·.id) = old.state.tasks.map (·.id)
  log : old.state.Distinct → ∃ log, new.undo = old.undo ++ log ∧
    restore (·.id) log new.state.tasks = old.state.tasks

instance : Std.Refl Logged where
  refl _ := ⟨rfl, rfl, rfl, rfl, rfl, fun _ => ⟨[], (List.append_nil _).symm, rfl⟩⟩

instance : IsTrans Turn Logged where
  trans a b c h h' := by
    refine ⟨h'.nodes.trans h.nodes, h'.conf.trans h.conf, h'.schedules.trans h.schedules,
      h'.waits.trans h.waits, h'.ids.trans h.ids, fun hd => ?_⟩
    have hd' : b.state.Distinct := by
      rw [MemoryState.Distinct, h.ids]
      exact hd
    obtain ⟨log, hu, hr⟩ := h.log hd
    obtain ⟨log', hu', hr'⟩ := h'.log hd'
    refine ⟨log ++ log', by rw [hu', hu, List.append_assoc], ?_⟩
    rw [restore_append, hr', hr]

/-- Logged work that leaves the lane rows alone: everything between taking one out and putting it
    back. -/
structure LoggedRows (old new : Turn) : Prop extends Logged old new where
  locks : new.state.laneLocks = old.state.laneLocks

instance : Std.Refl LoggedRows where
  refl turn := ⟨refl_of Logged turn, rfl⟩

instance : IsTrans Turn LoggedRows where
  trans _ _ _ h h' := ⟨trans_of Logged h.toLogged h'.toLogged, h'.locks.trans h.locks⟩

/-- Buckets, lane rows and queued deliveries are no rows: the caller saves or drops them. -/
theorem logged_saved {old new : Turn} (rates : FMap String RateBucket)
    (locks : FMap String MemoryLaneLock) (deliveries : List Delivery)
    (h : new = { old with
      state := { old.state with rates := rates, laneLocks := locks }, deliveries := deliveries }) :
    Logged old new := by
  subst h
  exact ⟨rfl, rfl, rfl, rfl, rfl, fun _ => ⟨[], (List.append_nil _).symm, rfl⟩⟩

/-- A logged mutation of a stored row that keeps the row's identifier. -/
theorem logged_touch {turn : Turn} {i : ℕ} {task : TaskRecord}
    {m : Step (TaskRecord × List Delivery) TaskRuntimeError Unit}
    (hi : turn.state.tasks[i]? = some task) (hm : (m (task, turn.deliveries)).2.1.id = task.id) :
    LoggedRows turn (touch i task m turn).2 := by
  refine ⟨⟨rfl, rfl, rfl, rfl, set_map_key hi hm, fun hd => ⟨[task], rfl, ?_⟩⟩, rfl⟩
  exact put_set turn.state.tasks i task _ hd hi hm

/-! ### Row mutations -/

/-- Row and queue: the row keeps its identity. -/
def StaticRow (a b : TaskRecord × List Delivery) : Prop := Static a.1 b.1

instance : Std.Refl StaticRow where
  refl a := refl_of Static a.1

instance : IsTrans (TaskRecord × List Delivery) StaticRow where
  trans _ _ _ h h' := trans_of Static h h'

theorem keeps_onRow {m : Step TaskRecord TaskRuntimeError Unit} (hm : Step.Keeps Static m) :
    Step.Keeps StaticRow (onRow m) :=
  Step.Keeps.zoom hm fun _ _ h => h

theorem keeps_queueRow : Step.Keeps StaticRow queueRow :=
  Step.Keeps.bind Step.Keeps.get fun _ => Step.Keeps.bind (Step.Keeps.lift _) fun _ =>
    Step.Keeps.modify fun a => refl_of Static a.1

/-! ### Loops over rows -/

/-- Reading a row and then doing nothing but logged work on it. -/
theorem keeps_taskAt {α : Type} (i : ℕ) (missing : String)
    (f : TaskRecord → Step Turn TaskRuntimeError α)
    (hf : ∀ turn task, turn.state.tasks[i]? = some task → LoggedRows turn (f task turn).2) :
    Step.Keeps LoggedRows (taskAt i missing >>= f) := by
  intro turn
  simp only [taskAt, Step.bind_run, Step.get_run]
  cases ht : turn.state.tasks[i]? with
  | none => exact refl_of LoggedRows turn
  | some task => exact hf turn task ht

section

variable [Serde]

theorem keeps_failRow (cancelled : Bool) (now : DateTime) (conf : TaskStoreConf) (retry : TaskRetry) :
    Step.Keeps StaticRow (failRow cancelled now conf retry) := by
  refine Step.Keeps.bind (keeps_onRow (keeps_applyOutcome _ _ _)) fun _ => ?_
  refine Step.Keeps.bind keeps_queueRow fun _ => ?_
  refine Step.Keeps.bind (keeps_onRow (Step.Keeps.modify fun r => by constructor <;> rfl)) fun _ => ?_
  exact keeps_onRow (keeps_finalizeIdempotency conf now)

theorem keeps_failCandidate (now : DateTime) (conf : TaskStoreConf) (retry : TaskRetry) (i : ℕ) :
    Step.Keeps LoggedRows (failCandidate now conf retry i) := by
  refine keeps_taskAt i _ _ fun turn task hi => ?_
  have htouch : LoggedRows turn (touch i task (failRow task.cancelled now conf retry) turn).2 :=
    logged_touch hi (keeps_failRow task.cancelled now conf retry (task, turn.deliveries)).id
  refine Step.run_bind (refl_of LoggedRows turn) fun exhausted turn₁ he => ?_
  rw [← (Step.lift_ok.mp he).2]
  cases exhausted with
  | true => exact Step.run_bind htouch fun _ turn₂ _ => refl_of LoggedRows turn₂
  | false => exact refl_of LoggedRows turn

theorem keeps_failExhausted (lane : String) (limit : ℕ) (now : DateTime) (conf : TaskStoreConf)
    (retry : TaskRetry) : Step.Keeps LoggedRows (failExhausted lane limit now conf retry) :=
  Step.Keeps.bind Step.Keeps.get fun _ => Step.Keeps.each (keeps_failCandidate now conf retry) _

omit [Serde] in
theorem keeps_claimLane (runner : Uuid) (claim : LaneClaim) (permits : ℕ) (now : DateTime) :
    Step.Keeps LoggedRows (claimLane runner claim permits now) := by
  refine Step.Keeps.bind Step.Keeps.get fun turn => ?_
  refine Step.Keeps.bind (Step.Keeps.collect (fun i => ?_) _) fun _ => Step.Keeps.pure _
  exact keeps_taskAt i _ _ fun turn task hi =>
    logged_touch hi (grant_id runner now task)

omit [Serde] in
theorem keeps_claimLaneState (runner : Uuid) (reservation : ClaimReservation) (now : DateTime) :
    Step.Keeps LoggedRows (claimLaneState runner reservation now) :=
  Step.Keeps.bind (keeps_claimLane _ _ _ _) fun _ =>
    Step.Keeps.bind Step.Keeps.get fun _ => Step.Keeps.pure _

omit [Serde] in
theorem keeps_onRates {α : Type} (m : Step (FMap String RateBucket) TaskRuntimeError α) :
    Step.Keeps LoggedRows (onRates m) := fun turn =>
  ⟨logged_saved _ turn.state.laneLocks turn.deliveries rfl, rfl⟩

/-! ### Locked lanes -/

/-- Beside the row that was taken out, an owner turn does logged work only. -/
def LoggedOwner (a b : OwnerState) : Prop := LoggedRows a.turn b.turn

instance : Std.Refl LoggedOwner where
  refl a := refl_of LoggedRows a.turn

instance : IsTrans OwnerState LoggedOwner where
  trans _ _ _ h h' := trans_of LoggedRows h h'

omit [Serde] in
theorem keeps_onTurn {α : Type} {m : Step Turn TaskRuntimeError α} (hm : Step.Keeps LoggedRows m) :
    Step.Keeps LoggedOwner (onTurn m) :=
  Step.Keeps.zoom hm fun _ _ h => h

omit [Serde] in
theorem keeps_onOwner {α : Type} (m : Step MemoryLaneLock TaskRuntimeError α) :
    Step.Keeps LoggedOwner (onOwner m) := fun s => refl_of LoggedRows s.turn

omit [Serde] in
/-- A relation on owner turns that the row mutations of the phases respect. -/
structure PhaseRules (R : OwnerState → OwnerState → Prop) : Prop where
  calm : Step.Keeps R (onOwner (Step.modify fun o => { o with flushing := false }))
  empty : ∀ since, Step.Keeps R (onOwner (Step.modify fun o => { o with emptySince := since }))
  revive : ∀ request, Step.Keeps R (onOwner (Step.modify (memoryRevive request)))
  release : ∀ phase, memoryAction phase = none →
    Step.Keeps R (onOwner (Step.modify (memoryRelease phase)))
  transition : ∀ phase, Step.Keeps R (onOwner (memoryTransition phase))
  activate : Step.Keeps R (onOwner (Step.modify memoryActivate))

omit [Serde] in
/-- The whole polling part also flushes and works on the turn beside the row. -/
structure OwnerRules (R : OwnerState → OwnerState → Prop) : Prop extends PhaseRules R where
  flush : Step.Keeps R (onOwner (Step.modify fun o => { o with flushing := true }))
  turn : ∀ {α : Type} (m : Step Turn TaskRuntimeError α), Step.Keeps LoggedRows m →
    Step.Keeps R (onTurn m)

section Rules

variable {R : OwnerState → OwnerState → Prop} [Std.Refl R] [IsTrans OwnerState R]

omit [Serde] in
theorem keeps_answer (request : MemoryOwnerTurn) (wake : Option Duration) :
    Step.Keeps R (answer request wake) :=
  Step.Keeps.bind Step.Keeps.get fun _ => Step.Keeps.pure _

omit [Serde] in
theorem keeps_answerAction (request : MemoryOwnerTurn) (action : LaneHookAction) :
    Step.Keeps R (answerAction request action) :=
  Step.Keeps.bind Step.Keeps.get fun _ => Step.Keeps.pure _

theorem keeps_memoryClaim (rules : OwnerRules R) (request : MemoryOwnerTurn) :
    Step.Keeps R (memoryClaim request) := by
  refine Step.Keeps.bind Step.Keeps.get fun s => ?_
  cases s.turn.state.conf with
  | none => exact Step.Keeps.fail _
  | some conf =>
    refine Step.Keeps.bind (rules.turn _ (keeps_failExhausted _ _ _ _ _)) fun _ => ?_
    refine Step.Keeps.bind Step.Keeps.get fun _ => ?_
    refine Step.Keeps.bind (rules.turn _ (keeps_onRates _)) fun _ => ?_
    refine Step.Keeps.bind (rules.turn _ (keeps_claimLaneState _ _ _)) fun _ => ?_
    exact Step.Keeps.bind Step.Keeps.get fun _ => Step.Keeps.pure _

theorem keeps_memoryFlushPoll (rules : OwnerRules R) (request : MemoryOwnerTurn) (candidates : List ℕ) :
    Step.Keeps R (memoryFlushPoll request candidates) := by
  refine Step.Keeps.bind (Step.Keeps.bind Step.Keeps.get fun s => ?_) fun flush => ?_
  · split
    · exact Step.Keeps.pure _
    · exact Step.Keeps.lift _
  · cases flush with
    | true =>
      refine Step.Keeps.bind (rules.flush) fun _ => ?_
      split
      · exact keeps_memoryClaim rules request
      · exact keeps_answer _ _
    | false =>
      exact Step.Keeps.bind Step.Keeps.get fun _ => Step.Keeps.bind (Step.Keeps.lift _) fun _ =>
        keeps_answer _ _

omit [Serde] in
theorem keeps_memoryStartIdle (rules : PhaseRules R) (request : MemoryOwnerTurn) :
    Step.Keeps R (memoryStartIdle request) := by
  rw [memoryStartIdle]
  split
  · exact Step.Keeps.bind (rules.transition _) fun _ => keeps_answerAction _ _
  · exact Step.Keeps.bind (rules.release _ rfl) fun _ => keeps_answer _ _

omit [Serde] in
theorem keeps_memoryStartBusy (rules : PhaseRules R) (request : MemoryOwnerTurn) :
    Step.Keeps R (memoryStartBusy request) := by
  refine Step.Keeps.bind Step.Keeps.get fun s => ?_
  split
  · exact Step.Keeps.bind (rules.release _ rfl) fun _ => keeps_answer _ _
  · split
    · exact Step.Keeps.bind (rules.transition _) fun _ => keeps_answerAction _ _
    · exact Step.Keeps.bind rules.activate fun _ => keeps_answer _ _

omit [Serde] in
theorem keeps_memoryEmpty (rules : PhaseRules R) (request : MemoryOwnerTurn) :
    Step.Keeps R (memoryEmpty request) := by
  refine Step.Keeps.bind Step.Keeps.get fun s => ?_
  split
  · next hphase =>
    have hnone : memoryAction s.owner.phase = none := by
      rcases hphase with h | h | h <;> rw [h] <;> rfl
    exact Step.Keeps.bind (rules.release _ hnone) fun _ => keeps_answer _ _
  · split
    · exact keeps_answer _ _
    · refine Step.Keeps.bind (rules.empty _) fun _ => ?_
      split
      · exact keeps_answer _ _
      · exact keeps_memoryStartIdle rules request

theorem keeps_memoryPhasePoll (rules : OwnerRules R) (request : MemoryOwnerTurn) :
    Step.Keeps R (memoryPhasePoll request) := by
  refine Step.Keeps.bind Step.Keeps.get fun s => ?_
  split
  · exact keeps_answer _ _
  · refine Step.Keeps.bind (rules.revive _) fun _ => ?_
    rw [memoryWorkPoll]
    split
    · exact Step.Keeps.bind (rules.calm) fun _ => keeps_memoryEmpty rules.toPhaseRules request
    · refine Step.Keeps.bind (rules.empty none) fun _ => Step.Keeps.bind Step.Keeps.get fun s => ?_
      split
      · exact keeps_memoryStartBusy rules.toPhaseRules request
      · exact keeps_memoryFlushPoll rules request _

theorem keeps_memoryOwnedPoll (rules : OwnerRules R) (request : MemoryOwnerTurn) :
    Step.Keeps R (memoryOwnedPoll request) := by
  refine Step.Keeps.bind Step.Keeps.get fun s => ?_
  cases memoryAction s.owner.phase with
  | none => exact keeps_memoryPhasePoll rules request
  | some action => exact keeps_answerAction request action

end Rules

omit [Serde] in
theorem loggedOwner_rules : OwnerRules LoggedOwner where
  turn _ hm := keeps_onTurn hm
  flush := keeps_onOwner _
  calm := keeps_onOwner _
  empty _ := keeps_onOwner _
  revive _ := keeps_onOwner _
  release _ _ := keeps_onOwner _
  transition _ := keeps_onOwner _
  activate := keeps_onOwner _

omit [Serde] in
theorem keeps_releaseRunner (runner : Uuid) (lane : String) (now : DateTime) :
    Step.Keeps LoggedRows (releaseRunner runner lane now) := by
  refine Step.Keeps.bind Step.Keeps.get fun _ => Step.Keeps.each (fun i => ?_) _
  intro turn
  simp only [releaseRow, Step.bind_run, Step.get_run]
  cases hi : turn.state.tasks[i]? with
  | none => exact refl_of LoggedRows turn
  | some task =>
    simp only
    split
    · exact logged_touch hi rfl
    · exact refl_of LoggedRows turn

omit [Serde] in
theorem keeps_memoryWait (request : MemoryOwnerTurn) :
    Step.Keeps LoggedOwner (memoryWait request) := by
  have hlose : Step.Keeps LoggedRows (loseLane request) := by
    rw [loseLane]
    split
    · exact keeps_releaseRunner _ _ _
    · exact Step.Keeps.pure _
  exact Step.Keeps.bind (keeps_onTurn hlose) fun _ =>
    Step.Keeps.bind Step.Keeps.get fun _ => Step.Keeps.pure _

theorem keeps_claimOwnedInner (request : MemoryOwnerTurn) :
    Step.Keeps LoggedOwner (claimOwnedInner request) := by
  refine Step.Keeps.bind (keeps_onOwner _) fun owned => ?_
  split
  · exact keeps_memoryWait request
  · refine Step.Keeps.bind ?_ fun _ => keeps_memoryOwnedPoll loggedOwner_rules request
    refine Step.Keeps.bind Step.Keeps.get fun s => ?_
    cases request.claim.owner.bind (·.hook) with
    | none => exact Step.Keeps.pure _
    | some hook => exact keeps_onOwner _

/-- Taking the row out and putting it back only moves saved data. -/
theorem keeps_claimOwnedState (request : MemoryOwnerTurn) :
    Step.Keeps Logged (claimOwnedState request) := by
  intro turn
  rw [claimOwnedState]
  cases turn.state.laneLocks request.claim.lane.asStr with
  | none => exact refl_of Logged turn
  | some owner =>
    have hopen : Logged turn (turn.open request.claim.lane.asStr owner).turn :=
      logged_saved turn.state.rates _ turn.deliveries rfl
    refine trans_of Logged hopen (trans_of Logged (keeps_claimOwnedInner request _).toLogged ?_)
    exact logged_saved _ _ _ rfl

/-! ### The fallible part of a turn -/

theorem keeps_claimUnowned (runner : Uuid) (claim : LaneClaim) (conf : TaskStoreConf)
    (laneConf : TaskLaneConf) (now : DateTime) :
    Step.Keeps LoggedRows (claimUnowned runner claim conf laneConf now) := by
  refine Step.Keeps.bind Step.Keeps.get fun _ => Step.Keeps.bind (Step.Keeps.lift _) fun _ => ?_
  refine Step.Keeps.bind (keeps_failExhausted _ _ _ _ _) fun _ => ?_
  refine Step.Keeps.bind Step.Keeps.get fun _ => Step.Keeps.bind (Step.Keeps.lift _) fun _ => ?_
  exact Step.Keeps.bind (keeps_onRates _) fun _ => keeps_claimLaneState _ _ _

theorem keeps_claimOne (runner : Uuid) (conf : TaskStoreConf) (lease : Duration) (now : DateTime)
    (entry : LaneClaim × Uuid) : Step.Keeps Logged (claimOne runner conf lease now entry) := by
  rw [claimOne]
  cases conf.laneOf entry.1.lane with
  | none => exact Step.Keeps.fail _
  | some laneConf =>
    simp only
    split
    · exact keeps_claimOwnedState _
    · exact (keeps_claimUnowned _ _ _ _ _).mono fun _ _ h => h.toLogged

theorem keeps_claimTasksState (runner : Uuid) (claims : List (LaneClaim × Uuid)) (lease : Duration)
    (now : DateTime) : Step.Keeps Logged (claimTasksState runner claims lease now) := by
  refine Step.Keeps.bind Step.Keeps.get fun turn => ?_
  cases turn.state.conf with
  | none => exact Step.Keeps.fail _
  | some conf =>
    exact Step.Keeps.bind (Step.Keeps.collect (keeps_claimOne runner conf lease now) claims)
      fun _ => Step.Keeps.pure _

omit [Serde] in
/-- Staged rows go over rows of the same identifier, whatever was written before them. -/
theorem logged_updates : ∀ (updates : List (ℕ × TaskRecord)) (turn : Turn),
    (∀ update ∈ updates, (turn.state.tasks.map (·.id))[update.1]? = some update.2.id) →
      Logged turn (Step.each applyUpdate updates turn).2
  | [], turn, _ => refl_of Logged turn
  | update :: updates, turn, h => by
    have happly : Logged turn (applyUpdate update turn).2 := by
      have hid := h update List.mem_cons_self
      rw [List.getElem?_map] at hid
      simp only [applyUpdate, taskAt, Step.bind_run, Step.get_run]
      cases hi : turn.state.tasks[update.1]? with
      | none => exact refl_of Logged turn
      | some row =>
        rw [hi, Option.map_some] at hid
        exact (logged_touch hi (Option.some.inj hid).symm).toLogged
    refine Step.run_bind happly fun _ turn₁ hrun => logged_updates updates turn₁ fun other hm => ?_
    rw [hrun] at happly
    rw [happly.ids]
    exact h other (List.mem_cons_of_mem _ hm)

theorem keeps_commitOutcomesState (commits : List TaskCommit) (now : DateTime) :
    Step.Keeps Logged (commitOutcomesState commits now) := by
  intro turn
  refine Step.run_bind (refl_of Logged turn) fun start turn₁ hget => ?_
  obtain ⟨rfl, rfl⟩ := Step.get_ok.mp hget
  refine Step.run_bind (refl_of Logged turn) fun staged turn₁ hlift => ?_
  obtain ⟨hstage, rfl⟩ := Step.lift_ok.mp hlift
  have hids : ∀ update ∈ staged.updates,
      (turn.state.tasks.map (·.id))[update.1]? = some update.2.id := by
    intro update hu
    rcases (stageOutcomes_ok _ _ _ _ hstage).1.updated update hu with hu | ⟨_, _, row, ha, _, _, _, ht⟩
    · exact nomatch hu
    · rw [List.getElem?_map, ha.stored, Option.map_some, ht.concludes.concluded.id]
      rfl
  refine Step.run_bind (logged_updates staged.updates turn hids) fun _ turn₁ _ => ?_
  exact Step.run_bind (logged_saved turn₁.state.rates turn₁.state.laneLocks _ rfl) fun _ turn₂ _ =>
    refl_of Logged turn₂

theorem keeps_fallibleTurn (runner : Option Uuid) (claims : List (LaneClaim × Uuid))
    (commits : List TaskCommit) (lease : Duration) (now : DateTime) :
    Step.Keeps Logged (fallibleTurn runner claims commits lease now) := by
  refine Step.Keeps.bind (keeps_commitOutcomesState commits now) fun _ => ?_
  refine Step.Keeps.bind Step.Keeps.get fun turn => ?_
  cases runner with
  | none => exact Step.Keeps.bind (Step.Keeps.pure _) fun _ => Step.Keeps.pure _
  | some runner =>
    exact Step.Keeps.bind (keeps_claimTasksState runner claims lease now) fun _ => Step.Keeps.pure _

/-! ### Atomicity -/

/-- A turn that fails failed in its fallible part. -/
theorem runTurn_error {runner : Option Uuid} {claims : List (LaneClaim × Uuid)}
    {commits : List TaskCommit} {lease : Duration} {now : DateTime} {turn turn' : Turn}
    {error : TaskRuntimeError}
    (h : runTurn runner claims commits lease now turn = (.error error, turn')) :
    fallibleTurn runner claims commits lease now turn = (.error error, turn') := by
  rw [runTurn, Step.bind_run] at h
  rcases hf : fallibleTurn runner claims commits lease now turn with ⟨r, turn₁⟩
  rw [hf] at h
  cases r with
  | ok _ => simp [Step.bind_run] at h
  | error e => simpa using h

omit [Serde] in
/-- Rolling a failed turn back: the log, the saved buckets and the saved lane rows suffice. -/
theorem rollback_restores {state : MemoryState} {turn : Turn} (hd : state.Distinct)
    (h : Logged ⟨state, [], []⟩ turn) : turn.rollback state = state := by
  obtain ⟨log, hundo, hrestore⟩ := h.log hd
  obtain rfl : turn.undo = log := hundo
  simp only [Turn.rollback, hrestore, h.nodes, h.conf, h.schedules, h.waits]

/-- A turn either fails and changes nothing, or is a successful run of all its phases. -/
theorem atomicOperation_cases {state : MemoryState} (hd : state.Distinct) (runner : Option Uuid)
    (claims : List (LaneClaim × Uuid)) (commits : List TaskCommit) (batchSize : ℕ) (lease : Duration)
    (now : DateTime) :
    (∃ error, atomicOperation runner claims commits batchSize lease now state = (.error error, state)) ∨
      ∃ result turn, runTurn runner claims commits lease now ⟨state, [], []⟩ = (.ok result, turn) ∧
        atomicOperation runner claims commits batchSize lease now state = (.ok result, turn.state) := by
  rw [atomicOperation]
  split
  · next error _ => exact .inl ⟨error, rfl⟩
  · rcases hr : runTurn runner claims commits lease now ⟨state, [], []⟩ with ⟨r, turn⟩
    cases r with
    | ok result => exact .inr ⟨result, turn, rfl, rfl⟩
    | error error =>
      have hlog := keeps_fallibleTurn runner claims commits lease now ⟨state, [], []⟩
      rw [runTurn_error hr] at hlog
      exact .inl ⟨error, congrArg (Prod.mk _) (rollback_restores hd hlog)⟩

/-- CORRECT: a turn that returns an error leaves every part of the store as it found it. -/
theorem failed_turn_restores_store {runner : Option Uuid} {claims : List (LaneClaim × Uuid)}
    {commits : List TaskCommit} {batchSize : ℕ} {lease : Duration} {now : DateTime}
    {state state' : MemoryState} {error : TaskRuntimeError} (hd : state.Distinct)
    (h : atomicOperation runner claims commits batchSize lease now state = (.error error, state')) :
    state' = state := by
  rcases atomicOperation_cases hd runner claims commits batchSize lease now with
    ⟨error', he⟩ | ⟨result, turn, -, hok⟩
  · rw [he] at h
    exact (congrArg Prod.snd h).symm
  · rw [hok] at h
    exact nomatch congrArg Prod.fst h

end

attribute [local instance] acceptingSerde in
/-- A claim of an open lane is undone when the request's second lane is unknown. -/
theorem failed_turn_restores_store_unknown_lane :
    (atomicOperation (some 7) [(⟨⟨"open"⟩, 1, none⟩, 0), (⟨⟨"missing"⟩, 1, none⟩, 0)] [] 8
      (Duration.ofSecs 30) 1
      { MemoryState.new smallConf with tasks := [freshRecord 1 .work "open"] }).2 =
    { MemoryState.new smallConf with tasks := [freshRecord 1 .work "open"] } := by
  have herror : (atomicOperation (some 7) [(⟨⟨"open"⟩, 1, none⟩, 0), (⟨⟨"missing"⟩, 1, none⟩, 0)] [] 8
      (Duration.ofSecs 30) 1
      { MemoryState.new smallConf with tasks := [freshRecord 1 .work "open"] }).1 =
    .error (.unknownLane "missing") := rfl
  exact failed_turn_restores_store (List.nodup_singleton _) (Prod.ext herror rfl)

end Vyuh.Tasks.Memory
