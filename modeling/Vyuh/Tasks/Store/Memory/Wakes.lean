import Vyuh.Tasks.Store.Memory.Lanes

/-! Wake completeness of commits: settling a turn announces the lane of every row it makes pending,
    whether the row is a new child, the parent of an empty group, or a parent resumed by a delivery. -/

namespace Vyuh.Tasks.Memory
open Lib

/-- The row kept its place and lane; if it became pending, its lane is among the names. -/
structure Heard (names : List String) (r r' : TaskRecord) : Prop where
  id : r'.id = r.id
  lane : r'.lane = r.lane
  heard : r'.status = .pending → r.status = .pending ∨ r'.lane ∈ names

theorem laneNamed_some {conf : TaskStoreConf} {name : String} {lane : TaskLaneConf}
    (h : conf.laneNamed name = some lane) : lane ∈ conf.lanes ∧ lane.lane.asStr = name :=
  ⟨List.mem_of_find?_eq_some h, by simpa using List.find?_eq_some_iff_append.mp h |>.1⟩

namespace Heard

variable {names names' : List String}

theorem refl (r : TaskRecord) : Heard names r r := ⟨rfl, rfl, .inl⟩

/-- A rewrite that leaves the status alone. -/
theorem quiet {r r' : TaskRecord} (hid : r'.id = r.id) (hlane : r'.lane = r.lane)
    (hstatus : r'.status = r.status) : Heard names r r' := ⟨hid, hlane, fun h => .inl (hstatus ▸ h)⟩

/-- A rewrite of a row whose lane is announced. -/
theorem named {r r' : TaskRecord} (hid : r'.id = r.id) (hlane : r'.lane = r.lane)
    (hname : r.lane ∈ names) : Heard names r r' := ⟨hid, hlane, fun _ => .inr (hlane ▸ hname)⟩

theorem mono {r r' : TaskRecord} (hsub : names ⊆ names') (h : Heard names r r') : Heard names' r r' :=
  ⟨h.id, h.lane, fun hp => (h.heard hp).imp_right fun hm => hsub hm⟩

theorem trans {a b c : TaskRecord} (h : Heard names a b) (h' : Heard names b c) : Heard names a c := by
  refine ⟨h'.id.trans h.id, h'.lane.trans h.lane, fun hc => ?_⟩
  rcases h'.heard hc with hb | hname
  · rcases h.heard hb with ha | hname
    · exact .inl ha
    · exact .inr (h'.lane ▸ hname)
  · exact .inr hname

end Heard

/-- One part of settling, with the lane names it has collected before and after. -/
structure Announces (before after : MemoryState × List String) : Prop where
  conf : after.1.conf = before.1.conf
  names : before.2 ⊆ after.2
  rows : Rows (Heard after.2) before.1.tasks after.1.tasks

namespace Announces

theorem refl (a : MemoryState × List String) : Announces a a :=
  ⟨rfl, fun _ h => h, rows_refl Heard.refl _⟩

theorem trans {a b c : MemoryState × List String} (h : Announces a b) (h' : Announces b c) :
    Announces a c where
  conf := h'.conf.trans h.conf
  names := fun _ hm => h'.names (h.names hm)
  rows := by
    have hearlier : Rows (Heard c.2) a.1.tasks b.1.tasks := h.rows.imp fun _ _ hr => hr.mono h'.names
    exact rows_trans (fun _ _ _ h h' => h.trans h') hearlier h'.rows

/-- Rows in configured lanes stay in configured lanes. -/
theorem lodged {a b : MemoryState × List String} (h : Announces a b) (hl : Lodged a.1 a.1.tasks) :
    Lodged b.1 b.1.tasks := fun r hr =>
  (hl.moved (h.rows.imp fun _ _ hr => hr.lane) r hr).of_conf h.conf

end Announces

/-! ### Installing waits -/

/-- What an installation has announced so far, by name. -/
def spoken (acc : MemoryState × List TaskLane) : MemoryState × List String := (acc.1, acc.2.map (·.asStr))

/-- An empty group announces its parent. -/
theorem installWait_announces (now : DateTime) (acc : MemoryState × List TaskLane)
    (entry : TaskId × TaskWait) (hl : Lodged acc.1 acc.1.tasks) :
    Announces (spoken acc) (spoken (installWait now acc entry)) := by
  obtain ⟨state, lanes⟩ := acc
  rw [installWait]
  split
  · cases hf : state.tasks.find? (fun task => task.id = entry.1) with
    | none => exact ⟨rfl, fun _ h => h, rows_refl Heard.refl _⟩
    | some parent =>
      obtain ⟨conf, lane, hconf, hlane⟩ := hl parent (List.mem_of_find?_eq_some hf)
      obtain ⟨-, hname⟩ := laneNamed_some hlane
      have hkept : lanes.map (·.asStr) ⊆ (lanes ++ [lane.lane]).map (·.asStr) :=
        List.map_subset _ (List.subset_append_left _ _)
      have hsaid : parent.lane ∈ (lanes ++ [lane.lane]).map (·.asStr) :=
        List.mem_map.mpr ⟨lane.lane, List.mem_append_right _ (List.mem_singleton_self _), hname⟩
      have hwoken : (state.conf.bind fun conf => conf.laneNamed parent.lane).map (·.lane) = some lane.lane := by
        rw [hconf, Option.bind_some, hlane, Option.map_some]
      simp only [hwoken, Option.toList_some]
      exact ⟨rfl, hkept, rows_modifyFound Heard.refl hf (.named rfl rfl hsaid)⟩
  · exact ⟨rfl, fun _ h => h, rows_refl Heard.refl _⟩

theorem install_announces (now : DateTime) (state : MemoryState) (waits : List (TaskId × TaskWait))
    (hl : Lodged state state.tasks) :
    Announces (state, []) (spoken (install state waits now)) := by
  refine foldl_rel (R := fun a b => Lodged a.1 a.1.tasks → Announces (spoken a) (spoken b))
    (fun a _ => .refl _) (fun a b c h h' hl => ?_) _ waits (state, []) (fun acc entry _ => ?_) hl
  · exact (h hl).trans (h' ((h hl).lodged hl))
  · exact installWait_announces now acc entry

/-! ### Delivering results -/

/-- A resumed parent's lane is among the collected names. -/
theorem deliverParent_announces (now : DateTime) (acc : MemoryState × List String) (entry : Grouped) :
    Announces acc (deliverParent now acc entry) := by
  obtain ⟨state, names⟩ := acc
  obtain ⟨id, count, result⟩ := entry
  rw [deliverParent]
  simp only
  cases hf : state.tasks.find? (awaits id) with
  | none => exact .refl _
  | some parent =>
    have hsaid : parent.lane ∈ names ++ [parent.lane] :=
      List.mem_append_right _ (List.mem_singleton_self _)
    have hkept : names ⊆ names ++ [parent.lane] := List.subset_append_left _ _
    cases state.waits id with
    | none => exact ⟨rfl, hkept, rows_modifyFound Heard.refl hf (.named rfl rfl hsaid)⟩
    | some wait =>
      simp only
      cases deliverWait wait count with
      | underflow => exact ⟨rfl, hkept, rows_modifyFound Heard.refl hf (.named rfl rfl hsaid)⟩
      | waiting wait' => exact ⟨rfl, fun _ h => h, rows_refl Heard.refl _⟩
      | settled wait' => exact ⟨rfl, hkept, rows_modifyFound Heard.refl hf (.named rfl rfl hsaid)⟩

theorem deliveries_announce (now : DateTime) (acc : MemoryState × List String) (grouped : List Grouped) :
    Announces acc (grouped.foldl (deliverParent now) acc) :=
  foldl_rel (R := Announces) .refl (fun _ _ _ => .trans) _ grouped acc fun acc entry _ =>
    deliverParent_announces now acc entry

/-- Finalizing announces the children it inserts and the parents it resumes. -/
theorem finalizeWorkflow_announces (state : MemoryState) (children : List TaskRecord)
    (deliveries : List Delivery) (now : DateTime) (hl : Lodged state (state.tasks ++ children)) :
    let final := finalizeWorkflow state children deliveries now
    final.1.conf = state.conf ∧
      Rows (Heard (final.2.map (·.asStr))) (state.tasks ++ children) final.1.tasks ∧
      ∀ t ∈ children, t.lane ∈ final.2.map (·.asStr) := by
  have hfold := deliveries_announce now (state.adopt children, children.map (·.lane))
    (groupDeliveries deliveries)
  simp only [finalizeWorkflow]
  change Announces _ (((groupDeliveries deliveries).foldl (deliverParent now)
    (state.adopt children, children.map (·.lane)))) at hfold
  rw [MemoryState.adopt] at hfold
  generalize (groupDeliveries deliveries).foldl (deliverParent now)
    ({ state with tasks := state.tasks ++ children }, children.map (·.lane)) = final at hfold ⊢
  obtain ⟨after, names⟩ := final
  have hconf : after.conf = state.conf := hfold.conf
  -- a configured lane whose name was collected is among the wake lanes
  have hwoken : ∀ name, Configured state name → name ∈ names →
      name ∈ (((((after.conf.map (·.lanes)).getD []).filter
        (fun lane => lane.lane.asStr ∈ names)).map (·.lane)).map (·.asStr)) := by
    rintro name ⟨conf, lane, hconf', hlane⟩ hm
    obtain ⟨hmem, hname⟩ := laneNamed_some hlane
    refine List.mem_map.mpr ⟨lane.lane, List.mem_map.mpr ⟨lane, List.mem_filter.mpr ⟨?_, ?_⟩, rfl⟩, hname⟩
    · rw [hconf, hconf', Option.map_some, Option.getD_some]
      exact hmem
    · simpa [hname] using hm
  refine ⟨hconf, hfold.rows.imp_mem fun r hr r' hheard => ?_, fun t ht => ?_⟩
  · refine ⟨hheard.id, hheard.lane, fun hp => (hheard.heard hp).imp_right fun hm => ?_⟩
    refine hwoken _ ?_ hm
    rw [hheard.lane]
    exact hl r hr
  · exact hwoken _ (hl t (List.mem_append_right _ ht)) (hfold.names (List.mem_map_of_mem ht))

/-! ### Turns -/

/-- The row is pending, and no row of the table had its identifier and was. -/
structure Readied (before after : List TaskRecord) (r : TaskRecord) : Prop where
  stored : r ∈ after
  pending : r.status = .pending
  fresh : ∀ old ∈ before, old.id = r.id → old.status ≠ .pending

section

variable [Serde] {state : MemoryState} {now : DateTime}

theorem materialized_heard (state : MemoryState) (snapshots : List TaskRecord) :
    Rows (Heard []) state.tasks (materialized state snapshots).tasks := by
  refine (materialized_rows snapshots state).imp fun r r' h => ?_
  rcases h with rfl | ⟨-, input, rfl⟩
  · exact .refl _
  · exact .quiet rfl rfl rfl

/-- Settling a turn announces the lane of every row it makes pending. -/
theorem settleTurn_wakes (turn : Turn) (children : List TaskRecord) (waits : List (TaskId × TaskWait))
    (phases : FMap String LaneOwnerPhase) (poll : TaskPoll) (commits : List TaskCommit) (now : DateTime)
    (hl : Lodged turn.state turn.state.tasks) (hc : Lodged turn.state children) (r : TaskRecord)
    (h : Readied turn.state.tasks (settleTurn turn children waits phases poll commits now).1.tasks r) :
    ∃ lane ∈ (settleTurn turn children waits phases poll commits now).2.2.wakeLanes,
      lane.asStr = r.lane := by
  obtain ⟨hr, hp, hfresh⟩ := h
  have hrec := reconcilePoll_fst
  rw [settleTurn] at hr ⊢
  simp only at hr ⊢
  rw [materialize_fst] at hr ⊢
  have hmaterialized := materialized_heard turn.state poll.tasks
  have hmconf := (materialized_frame turn.state poll.tasks).1.conf
  have hml : Lodged (materialized turn.state poll.tasks) (materialized turn.state poll.tasks).tasks :=
    fun r hr => (hl.moved (hmaterialized.imp fun _ _ h => h.lane) r hr).of_conf hmconf
  have hinstall := install_announces now (materialized turn.state poll.tasks) waits hml
  have hiconf : (install (materialized turn.state poll.tasks) waits now).1.conf = turn.state.conf :=
    hinstall.conf.trans hmconf
  generalize install (materialized turn.state poll.tasks) waits now = after at hinstall hiconf hr ⊢
  obtain ⟨state, lanes⟩ := after
  have hrows : Lodged state (state.tasks ++ children) :=
    (hinstall.lodged hml).append fun t ht => (hc t ht).of_conf hiconf
  obtain ⟨-, hfinal, hborn⟩ := finalizeWorkflow_announces state children turn.deliveries now hrows
  generalize finalizeWorkflow state children turn.deliveries now = final at hfinal hborn hr ⊢
  obtain ⟨finished, finalized⟩ := final
  obtain ⟨cleared, hclear⟩ := clearTerminal_eq finished turn.undo
  obtain ⟨locks, hlocks⟩ := hrec (clearTerminal finished turn.undo) (materialize turn.state poll).2
    (lanes ++ finalized) phases now
  rw [hlocks, hclear] at hr
  -- every name that a phase collected is the name of a wake lane
  have hnames : ∀ name, name ∈ lanes.map (·.asStr) ∨ name ∈ finalized.map (·.asStr) →
      ∃ lane ∈ lanes ++ finalized, lane.asStr = name := by
    intro name hname
    rw [← List.mem_append, ← List.map_append] at hname
    exact List.mem_map.mp hname
  apply hnames r.lane
  obtain ⟨mid, hmid, hheard⟩ := hfinal.mem_right hr
  rcases hheard.heard hp with hpending | hname
  · rcases List.mem_append.mp hmid with hmid | hmid
    · obtain ⟨prepared, hprepared, hsaid⟩ := hinstall.rows.mem_right hmid
      rcases hsaid.heard hpending with hpending | hname
      · obtain ⟨old, hold, hkept⟩ := hmaterialized.mem_right hprepared
        rcases hkept.heard hpending with hpending | hname
        · exact absurd hpending (hfresh old hold
            (hkept.id.symm.trans (hsaid.id.symm.trans hheard.id.symm)))
        · cases hname
      · rw [hheard.lane]
        exact .inl hname
    · rw [hheard.lane]
      exact .inr (hborn mid hmid)
  · exact .inr hname

/-- The rows as the outcomes of the batch leave them, before any workflow processing. -/
def outcomeRows (commits : List TaskCommit) (now : DateTime) (state : MemoryState) : List TaskRecord :=
  (commitOutcomesState commits now state.begin).2.state.tasks

/-- The rows that the batch's whole turn leaves. -/
def turnRows (store : MemoryTaskStore) (commits : List TaskCommit) (now : DateTime)
    (state : MemoryState) : List TaskRecord :=
  (atomicOperation none [] commits store.commitBatchSize store.leaseDuration now state).2.tasks

/-- A turn that commits announces every row its workflow processing makes pending. -/
theorem atomicOperation_wakes (store : MemoryTaskStore) (hl : Lodged state state.tasks)
    {commits : List TaskCommit} {out : TaskPoll × CommitResult} {state₁ : MemoryState}
    (h : atomicOperation none [] commits store.commitBatchSize store.leaseDuration now state =
      (.ok out, state₁))
    {r : TaskRecord} (hr : Readied (outcomeRows commits now state) (turnRows store commits now state) r) :
    ∃ lane ∈ out.2.wakeLanes, lane.asStr = r.lane := by
  rw [turnRows, h] at hr
  obtain ⟨-, turn', hrun, rfl⟩ := atomicOperation_ok h
  obtain ⟨children, waits, turn, hc, hsettled⟩ := runTurn_outcomes hrun
  have hstate : turn'.state = _ := congrArg Prod.fst hsettled
  have hresult : out = _ := congrArg Prod.snd hsettled
  obtain ⟨staged, hcommits, rfl, rfl⟩ := commitOutcomesState_ok hc
  have hconf : turn.state.conf = state.conf := by
    rw [hcommits.result]
    rfl
  have hrows : Lodged turn.state turn.state.tasks := fun r hr =>
    (hl.moved (works_lanes (hcommits.works none)) r hr).of_conf hconf
  have hchildren : Lodged turn.state staged.children := fun t ht =>
    (hcommits.staging.lanes t ht).of_conf hconf
  rw [outcomeRows, hc, hstate] at hr
  rw [hresult]
  exact settleTurn_wakes turn staged.children staged.waits state.phases ⟨[], []⟩ commits now hrows
    hchildren r hr

variable (store : MemoryTaskStore)

/-- CORRECT: in every reachable state, a commit that succeeds names the lane of each row that the
    workflow processing of its turn makes pending: a child, a resumed parent, the parent of an empty
    group. -/
theorem commit_wakes_complete (h : Reachable Started (Steps store AnyCall) state) {op : Op}
    {result : CommitResult} (hop : (exec store op state).1 = .committed result) :
    ∃ now, op.clock now ∧ ∀ r, Readied (outcomeRows op.commits now state) (turnRows store op.commits now state) r →
      ∃ lane ∈ result.wakeLanes, lane.asStr = r.lane := by
  obtain ⟨now, out, state₁, hclock, -, hsub, hturn, -⟩ := committed_turn hop
  refine ⟨now, hclock, fun r hr => ?_⟩
  obtain ⟨lane, hlane, hname⟩ := atomicOperation_wakes store (reachable_lanes store h) hturn hr
  exact ⟨lane, hsub hlane, hname⟩

end

/-! ### A child in another lane -/

/-- A flow is submitted and claimed. -/
def flowClaimed : List Op :=
  [.registerNode 7 1, .storeTasks [plainWrite (freshRecord 1 .flow "open")] 2,
    .claimTasks 7 (openClaim 1) 3]

/-- The flow spawns a child in the other lane. -/
def spawnsLocked : List TaskCommit :=
  [.outcome 7 1 ⟨1⟩ ⟨"open"⟩ (.spawn "null" (plainWrite (freshRecord 2 .work "locked"))) none]

attribute [local instance] acceptingSerde in
theorem commit_wakes_complete_spawn : ∃ s result,
    (exec smallStore (.commitTasks spawnsLocked 4) s).1 = .committed result ∧
    ∃ r, r.lane = "locked" ∧ Readied (outcomeRows spawnsLocked 4 s) (turnRows smallStore spawnsLocked 4 s) r ∧
      ∃ lane ∈ result.wakeLanes, lane.asStr = r.lane := by
  have hs : Reachable Started (Steps smallStore AnyCall)
      ((MemoryState.new smallConf).execs smallStore flowClaimed) :=
    ⟨_, flowClaimed, ⟨smallConf, rfl⟩, MemoryState.execs_run smallStore flowClaimed _ fun _ _ _ => trivial⟩
  have hanswer : (commitTasks smallStore spawnsLocked 4
      ((MemoryState.new smallConf).execs smallStore flowClaimed)).1.toOption.map (·.rejected) = some [] := by
    decide +kernel
  have hready : ∃ r ∈ turnRows smallStore spawnsLocked 4
      ((MemoryState.new smallConf).execs smallStore flowClaimed), r.lane = "locked" ∧ r.status = .pending ∧
      ∀ old ∈ outcomeRows spawnsLocked 4 ((MemoryState.new smallConf).execs smallStore flowClaimed),
        old.id = r.id → old.status ≠ .pending := by
    decide +kernel
  generalize (MemoryState.new smallConf).execs smallStore flowClaimed = s at hs hanswer hready
  obtain ⟨result, after, hrun, -⟩ := ok_of_toOption hanswer
  obtain ⟨r, hr, hlane, hpending, hfresh⟩ := hready
  obtain ⟨now, rfl, hwakes⟩ := commit_wakes_complete smallStore hs (exec_commitTasks hrun)
  exact ⟨s, result, exec_commitTasks hrun, r, hlane, ⟨hr, hpending, hfresh⟩, hwakes r ⟨hr, hpending, hfresh⟩⟩

end Vyuh.Tasks.Memory
