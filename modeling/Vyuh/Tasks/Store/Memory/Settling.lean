import Vyuh.Tasks.Store.Memory.Workflow

/-! The part of a turn that cannot fail, as a composition of folds over the store alone: the lane
    names and polls that the source collects on the way do not influence the state. -/

namespace Vyuh.Tasks.Memory
open Lib

/-- Everything but rows, waits, buckets and lane rows stays. -/
structure SameFrame (s s' : MemoryState) : Prop where
  nodes : s'.nodes = s.nodes
  conf : s'.conf = s.conf
  schedules : s'.schedules = s.schedules

theorem SameFrame.refl (s : MemoryState) : SameFrame s s := ⟨rfl, rfl, rfl⟩

theorem SameFrame.trans {a b c : MemoryState} (h : SameFrame a b) (h' : SameFrame b c) :
    SameFrame a c :=
  ⟨h'.nodes.trans h.nodes, h'.conf.trans h.conf, h'.schedules.trans h.schedules⟩

section

variable [Serde]

/-- One claimed parent's input is stored and its wait is gone. -/
def materializeOne (state : MemoryState) (snapshot : TaskRecord) : MemoryState :=
  (materializeSnapshot state snapshot).1

def materialized (state : MemoryState) (snapshots : List TaskRecord) : MemoryState :=
  snapshots.foldl materializeOne state

theorem materialize_fst (state : MemoryState) (poll : TaskPoll) :
    (materialize state poll).1 = materialized state poll.tasks := by
  rw [materialize, materialized, TaskPoll.tasks, List.foldl_flatMap]
  simp only [mapAccum_fst]
  rfl

end

/-- One new wait is installed. -/
def installOne (now : DateTime) (state : MemoryState) (entry : TaskId × TaskWait) : MemoryState :=
  (installWait now (state, []) entry).1

def installed (now : DateTime) (state : MemoryState) (waits : List (TaskId × TaskWait)) : MemoryState :=
  waits.foldl (installOne now) state

theorem installWait_fst (now : DateTime) (acc : MemoryState × List TaskLane)
    (entry : TaskId × TaskWait) : (installWait now acc entry).1 = installOne now acc.1 entry := by
  obtain ⟨state, lanes⟩ := acc
  simp only [installOne, installWait]
  split
  · split <;> rfl
  · rfl

theorem install_fst (now : DateTime) (state : MemoryState) (waits : List (TaskId × TaskWait)) :
    (install state waits now).1 = installed now state waits :=
  (List.foldl_hom Prod.fst fun acc entry => (installWait_fst now acc entry).symm).symm

/-- One parent's completions are delivered. -/
def deliverOne (now : DateTime) (state : MemoryState) (entry : Grouped) : MemoryState :=
  (deliverParent now (state, []) entry).1

def delivered (now : DateTime) (state : MemoryState) (grouped : List Grouped) : MemoryState :=
  grouped.foldl (deliverOne now) state

theorem deliverParent_fst (now : DateTime) (acc : MemoryState × List String) (entry : Grouped) :
    (deliverParent now acc entry).1 = deliverOne now acc.1 entry := by
  obtain ⟨state, names⟩ := acc
  obtain ⟨id, count, result⟩ := entry
  simp only [deliverOne, deliverParent]
  cases state.tasks.find? (awaits id) with
  | none => rfl
  | some parent =>
    cases state.waits id with
    | none => rfl
    | some wait =>
      simp only
      cases deliverWait wait count <;> rfl

/-- New children are stored, then completions are delivered. -/
def MemoryState.adopt (state : MemoryState) (children : List TaskRecord) : MemoryState :=
  { state with tasks := state.tasks ++ children }

theorem finalizeWorkflow_fst (state : MemoryState) (children : List TaskRecord)
    (deliveries : List Delivery) (now : DateTime) :
    (finalizeWorkflow state children deliveries now).1 =
      delivered now (state.adopt children) (groupDeliveries deliveries) :=
  (List.foldl_hom Prod.fst fun acc entry => (deliverParent_fst now acc entry).symm).symm

/-- Reconciling polls rewrites lane rows only. -/
theorem reconcilePoll_fst (state : MemoryState) (poll : TaskPoll) (lanes : List TaskLane)
    (phases : FMap String LaneOwnerPhase) (now : DateTime) :
    ∃ locks, (reconcilePoll state poll lanes phases now).1 = { state with laneLocks := locks } := by
  rw [reconcilePoll]
  simp only [mapAccum_fst]
  refine foldl_rel (R := fun s s' : MemoryState => ∃ locks, s' = { s with laneLocks := locks })
    (fun s => ⟨s.laneLocks, rfl⟩) ?_ _ poll.lanes state ?_
  · rintro a b c ⟨locks, rfl⟩ ⟨locks', rfl⟩
    exact ⟨locks', rfl⟩
  · intro s lane _
    rw [reconcileLane]
    split
    · exact ⟨s.laneLocks, rfl⟩
    · simp only
      split
      · exact ⟨s.laneLocks, rfl⟩
      · cases s.laneLocks lane.lane.asStr with
        | none => exact ⟨s.laneLocks, rfl⟩
        | some owner =>
          simp only
          split
          · exact ⟨_, rfl⟩
          · exact ⟨_, rfl⟩

/-- The store a turn settles in. -/
theorem settleTurn_fst [Serde] (turn : Turn) (children : List TaskRecord)
    (waits : List (TaskId × TaskWait)) (phases : FMap String LaneOwnerPhase) (poll : TaskPoll)
    (commits : List TaskCommit) (now : DateTime) :
    ∃ locks, (settleTurn turn children waits phases poll commits now).1 =
      { clearTerminal (delivered now
          ((installed now (materialized turn.state poll.tasks) waits).adopt children)
          (groupDeliveries turn.deliveries)) turn.undo with laneLocks := locks } := by
  have h := reconcilePoll_fst
  rw [settleTurn]
  simp only [materialize_fst, install_fst, finalizeWorkflow_fst]
  exact h _ _ _ _ _

/-! ### What each fold does -/

section

variable [Serde]

/-- A snapshot without a wait changes nothing; one with a wait takes it and stores its input. -/
theorem materializeOne_cases (state : MemoryState) (snapshot : TaskRecord) :
    (state.waits snapshot.id = none ∧ materializeOne state snapshot = state) ∨
      ∃ wait, state.waits snapshot.id = some wait ∧ materializeOne state snapshot =
        { state with
          waits := state.waits.remove snapshot.id
          tasks := modifyFirst (fun task => task.id = snapshot.id)
            (fun task => { task with resumeInput := some (aggregate state snapshot.id wait) })
            state.tasks } := by
  rw [materializeOne, materializeSnapshot]
  cases state.waits snapshot.id with
  | none => exact .inl ⟨rfl, rfl⟩
  | some wait => exact .inr ⟨wait, rfl, rfl⟩

theorem materialized_frame (state : MemoryState) (snapshots : List TaskRecord) :
    SameFrame state (materialized state snapshots) ∧
      (materialized state snapshots).laneLocks = state.laneLocks := by
  refine foldl_rel (R := fun s s' => SameFrame s s' ∧ s'.laneLocks = s.laneLocks)
    (fun s => ⟨SameFrame.refl s, rfl⟩)
    (fun a b c h h' => ⟨h.1.trans h'.1, h'.2.trans h.2⟩) _ snapshots state fun s t _ => ?_
  rcases materializeOne_cases s t with ⟨-, h⟩ | ⟨wait, -, h⟩
  · rw [h]; exact ⟨SameFrame.refl s, rfl⟩
  · rw [h]; exact ⟨⟨rfl, rfl, rfl⟩, rfl⟩

/-- A claimed parent's wait is gone, every other wait stays. -/
theorem materialized_waits (id : TaskId) : ∀ (snapshots : List TaskRecord) (state : MemoryState),
    (materialized state snapshots).waits id =
      if id ∈ snapshots.map (·.id) then none else state.waits id
  | [], state => by simp [materialized]
  | t :: snapshots, state => by
    have hone : (materializeOne state t).waits id = if id = t.id then none else state.waits id := by
      rcases materializeOne_cases state t with ⟨hn, h⟩ | ⟨wait, -, h⟩
      · rw [h]
        split
        · next he => rw [he, hn]
        · rfl
      · rw [h]
        exact FMap.remove_apply _ _ _
    rw [materialized, List.foldl_cons, ← materialized, materialized_waits id snapshots, hone,
      List.map_cons]
    simp only [List.mem_cons]
    by_cases h₁ : id = t.id
    · simp [h₁]
    · simp [h₁]

/-- A record whose stored input may have been replaced, if its identifier is listed. -/
def Inputs (ids : List TaskId) (r r' : TaskRecord) : Prop :=
  r' = r ∨ (r.id ∈ ids ∧ ∃ input, r' = { r with resumeInput := some input })

omit [Serde] in
theorem Inputs.trans {ids : List TaskId} {a b c : TaskRecord} (h : Inputs ids a b)
    (h' : Inputs ids b c) : Inputs ids a c := by
  rcases h with rfl | ⟨hm, input, rfl⟩
  · exact h'
  · rcases h' with rfl | ⟨-, input', rfl⟩
    · exact .inr ⟨hm, input, rfl⟩
    · exact .inr ⟨hm, input', rfl⟩

theorem materialized_rows (snapshots : List TaskRecord) (state : MemoryState) :
    Rows (Inputs (snapshots.map (·.id))) state.tasks (materialized state snapshots).tasks := by
  refine foldl_rel (R := fun s s' : MemoryState => Rows (Inputs (snapshots.map (·.id))) s.tasks s'.tasks)
    (fun s => rows_refl (fun _ => .inl rfl) s.tasks)
    (fun a b c => rows_trans fun _ _ _ h h' => h.trans h') _ snapshots state fun s t hm => ?_
  rcases materializeOne_cases s t with ⟨-, h⟩ | ⟨wait, -, h⟩
  · rw [h]; exact rows_refl (fun _ => .inl rfl) s.tasks
  · rw [h]
    refine modifyFirst_rows _ _ (fun _ => .inl rfl) (fun r hr => .inr ⟨?_, _, rfl⟩) s.tasks
    rw [of_decide_eq_true hr]
    exact List.mem_map_of_mem hm

end

/-- An empty group wakes its parent at once; any other only leaves its wait. -/
theorem installOne_cases (now : DateTime) (state : MemoryState) (entry : TaskId × TaskWait) :
    (installOne now state entry = { state with waits := state.waits.insert entry.1 entry.2 } ∧
        (entry.2.children ≠ [] ∨ ∀ r ∈ state.tasks, r.id ≠ entry.1)) ∨
      (entry.2.children = [] ∧ installOne now state entry =
        { state with
          waits := state.waits.insert entry.1 entry.2
          tasks := modifyFirst (fun task => task.id = entry.1) (wake now) state.tasks }) := by
  rw [installOne, installWait]
  cases hc : entry.2.children with
  | cons child children => exact .inl ⟨rfl, .inl (by simp)⟩
  | nil =>
    simp only [List.isEmpty_nil, if_true]
    cases hf : state.tasks.find? (fun task => task.id = entry.1) with
    | none =>
      refine .inl ⟨rfl, .inr fun r hr => ?_⟩
      simpa using List.find?_eq_none.mp hf r hr
    | some parent => exact .inr ⟨trivial, rfl⟩

theorem installed_frame (now : DateTime) (state : MemoryState) (waits : List (TaskId × TaskWait)) :
    SameFrame state (installed now state waits) ∧
      (installed now state waits).laneLocks = state.laneLocks := by
  refine foldl_rel (R := fun s s' => SameFrame s s' ∧ s'.laneLocks = s.laneLocks)
    (fun s => ⟨SameFrame.refl s, rfl⟩)
    (fun a b c h h' => ⟨h.1.trans h'.1, h'.2.trans h.2⟩) _ waits state fun s entry _ => ?_
  rcases installOne_cases now s entry with ⟨h, -⟩ | ⟨-, h⟩
  · rw [h]; exact ⟨⟨rfl, rfl, rfl⟩, rfl⟩
  · rw [h]; exact ⟨⟨rfl, rfl, rfl⟩, rfl⟩

/-- What delivering to a parent does: nothing when nobody waits, else one of four things. -/
inductive Delivers (now : DateTime) (state : MemoryState) (id : TaskId) (count : ℤ) (result : String) :
    MemoryState → Prop
  | nobody (hf : state.tasks.find? (awaits id) = none) : Delivers now state id count result state
  | direct {parent : TaskRecord} (hf : state.tasks.find? (awaits id) = some parent)
      (hw : state.waits id = none) : Delivers now state id count result
        { state with tasks := modifyFirst (awaits id) (fun task =>
            wake now { task with resumeInput := some result, updatedAt := now }) state.tasks }
  | underflow {parent : TaskRecord} {wait : TaskWait}
      (hf : state.tasks.find? (awaits id) = some parent) (hw : state.waits id = some wait)
      (hd : deliverWait wait count = .underflow) : Delivers now state id count result
        { state with
          waits := state.waits.remove id
          tasks := modifyFirst (awaits id) (fun task => wake now { task with
            resumeInput := some (failure id "All completion counter underflow")
            updatedAt := now }) state.tasks }
  | waiting {parent : TaskRecord} {wait wait' : TaskWait}
      (hf : state.tasks.find? (awaits id) = some parent) (hw : state.waits id = some wait)
      (hd : deliverWait wait count = .waiting wait') : Delivers now state id count result
        { state with waits := state.waits.insert id wait' }
  | settled {parent : TaskRecord} {wait wait' : TaskWait}
      (hf : state.tasks.find? (awaits id) = some parent) (hw : state.waits id = some wait)
      (hd : deliverWait wait count = .settled wait') : Delivers now state id count result
        { state with
          waits := state.waits.insert id wait'
          tasks := modifyFirst (awaits id) (fun task => wake now { task with updatedAt := now })
            state.tasks }

theorem deliverOne_cases (now : DateTime) (state : MemoryState) (entry : Grouped) :
    Delivers now state entry.1 entry.2.1 entry.2.2 (deliverOne now state entry) := by
  obtain ⟨id, count, result⟩ := entry
  simp only [deliverOne, deliverParent]
  cases hf : state.tasks.find? (awaits id) with
  | none => exact .nobody hf
  | some parent =>
    cases hw : state.waits id with
    | none => exact .direct hf hw
    | some wait =>
      simp only
      cases hd : deliverWait wait count with
      | underflow => exact .underflow hf hw hd
      | waiting wait' => exact .waiting hf hw hd
      | settled wait' => exact .settled hf hw hd

theorem delivered_frame (now : DateTime) (state : MemoryState) (grouped : List Grouped) :
    SameFrame state (delivered now state grouped) ∧
      (delivered now state grouped).laneLocks = state.laneLocks := by
  refine foldl_rel (R := fun s s' => SameFrame s s' ∧ s'.laneLocks = s.laneLocks)
    (fun s => ⟨SameFrame.refl s, rfl⟩)
    (fun a b c h h' => ⟨h.1.trans h'.1, h'.2.trans h.2⟩) _ grouped state fun s entry _ => ?_
  have h := deliverOne_cases now s entry
  generalize deliverOne now s entry = s' at h
  cases h <;> exact ⟨⟨rfl, rfl, rfl⟩, rfl⟩

theorem clearTerminal_eq (state : MemoryState) (touched : List TaskRecord) :
    ∃ waits, clearTerminal state touched = { state with waits := waits } := by
  refine foldl_rel (R := fun s s' : MemoryState => ∃ waits, s' = { s with waits := waits })
    (fun s => ⟨s.waits, rfl⟩) ?_ _ touched state fun s task _ => ?_
  · rintro a b c ⟨waits, rfl⟩ ⟨waits', rfl⟩
    exact ⟨waits', rfl⟩
  · split
    · exact ⟨_, rfl⟩
    · exact ⟨s.waits, rfl⟩

/-- What a settled turn leaves: its inputs, waits and children, what its deliveries made of them, and a
    reconciled wait table and lane rows. -/
theorem settleTurn_delivered [Serde] (turn : Turn) (children : List TaskRecord) (waits : List (TaskId × TaskWait))
    (phases : FMap String LaneOwnerPhase) (poll : TaskPoll) (commits : List TaskCommit) (now : DateTime) :
    ∃ cleared locks, (settleTurn turn children waits phases poll commits now).1 =
      { delivered now ((installed now (materialized turn.state poll.tasks) waits).adopt children)
          (groupDeliveries turn.deliveries) with waits := cleared, laneLocks := locks } := by
  obtain ⟨locks, hs⟩ := settleTurn_fst turn children waits phases poll commits now
  obtain ⟨cleared, hc⟩ := clearTerminal_eq (delivered now
    ((installed now (materialized turn.state poll.tasks) waits).adopt children)
    (groupDeliveries turn.deliveries)) turn.undo
  exact ⟨cleared, locks, by rw [hs, hc]⟩

theorem settleTurn_frame [Serde] (turn : Turn) (children : List TaskRecord)
    (waits : List (TaskId × TaskWait)) (phases : FMap String LaneOwnerPhase) (poll : TaskPoll)
    (commits : List TaskCommit) (now : DateTime) :
    SameFrame turn.state (settleTurn turn children waits phases poll commits now).1 := by
  obtain ⟨cleared, locks, hs⟩ := settleTurn_delivered turn children waits phases poll commits now
  have hm := (materialized_frame turn.state poll.tasks).1
  have hi := (installed_frame now (materialized turn.state poll.tasks) waits).1
  have hd := (delivered_frame now ((installed now (materialized turn.state poll.tasks) waits).adopt
    children) (groupDeliveries turn.deliveries)).1
  rw [hs]
  exact (hm.trans hi).trans ⟨hd.nodes, hd.conf, hd.schedules⟩

/-- Settling a turn that did nothing does nothing. -/
theorem settleTurn_nothing [Serde] (state : MemoryState) (phases : FMap String LaneOwnerPhase)
    (commits : List TaskCommit) (now : DateTime) :
    (settleTurn ⟨state, [], []⟩ [] [] phases ⟨[], []⟩ commits now).1 = state := by
  have hadopt : state.adopt [] = state := by rw [MemoryState.adopt, List.append_nil]
  rw [settleTurn]
  simp only [materialize, mapAccum, install, List.foldl_nil, finalizeWorkflow_fst, groupDeliveries,
    delivered, clearTerminal, reconcilePoll, hadopt]

end Vyuh.Tasks.Memory
