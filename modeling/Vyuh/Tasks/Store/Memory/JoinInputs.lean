import Vyuh.Tasks.Store.Aggregation
import Vyuh.Tasks.Store.Memory.JoinRuns
import Vyuh.Tasks.Store.Memory.Wakeups

/-! What a parent resumes with. A claim turn that hands out a parent with a wait stores the results of all
    its members as they stood before the turn: by then every member has ended, and what has ended stays as
    it is. -/

namespace Vyuh.Tasks.Memory
open Lib

/-! ### Results that stay -/

/-- A rewrite that leaves the result of what has ended. -/
structure KeepsResult (r r' : TaskRecord) : Prop where
  id : r'.id = r.id
  ended : r.status.terminal = true → r'.status.terminal = true ∧ r'.lastResult = r.lastResult

theorem KeepsResult.refl (r : TaskRecord) : KeepsResult r r := ⟨rfl, fun h => ⟨h, rfl⟩⟩

theorem KeepsResult.trans {a b c : TaskRecord} (h : KeepsResult a b) (h' : KeepsResult b c) : KeepsResult a c := by
  refine ⟨h'.id.trans h.id, fun ha => ?_⟩
  obtain ⟨hb, hresult⟩ := h.ended ha
  obtain ⟨hc, hresult'⟩ := h'.ended hb
  exact ⟨hc, hresult'.trans hresult⟩

/-- A rewrite of a row that has not ended. -/
theorem KeepsResult.of_open {r r' : TaskRecord} (hid : r'.id = r.id) (hopen : r.status.terminal = false) :
    KeepsResult r r' := by
  refine ⟨hid, fun ht => ?_⟩
  rw [hopen] at ht
  cases ht

/-- What a parent reads from a member that has ended. -/
theorem memberResult_kept {rows rows' : List TaskRecord} {id : TaskId} (h : Rows KeepsResult rows rows')
    (hended : unfinished rows id = false) : memberResult rows' id = memberResult rows id := by
  induction h with
  | nil => rfl
  | @cons r r' rows rows' hr _ ih =>
    rw [unfinished, List.any_cons, Bool.or_eq_false_iff] at hended
    have htail := ih hended.2
    rw [memberResult, memberResult] at htail ⊢
    rw [List.find?_cons, List.find?_cons, hr.id]
    by_cases hid : r.id = id
    · have ht : r.status.terminal = true := by simpa [hid] using hended.1
      obtain ⟨ht', hresult⟩ := hr.ended ht
      simp only [hid, decide_true, Option.bind_some, ht, ht', if_true, hresult]
    · simp only [hid, decide_false]
      exact htail

section

variable [Serde] {now : DateTime}

theorem works_keepsResult {runner : Option Uuid} {turn turn' : Turn} {tasks : List TaskRecord}
    (h : Works runner now turn tasks turn') : Rows KeepsResult turn.state.tasks turn'.state.tasks := by
  obtain ⟨events, hrun, -⟩ := h
  induction hrun with
  | nil turn => exact rows_refl KeepsResult.refl _
  | cons first _ ih =>
    refine rows_trans (fun _ _ _ h h' => h.trans h') ?_ ih
    cases first with
    | conclude mark stored active concludes =>
      exact rows_set KeepsResult.refl _ _ _ _ stored (.of_open concludes.concluded.id (not_terminal_of_active active))
    | grant who stored due wanted granted =>
      obtain ⟨-, -, rfl⟩ := grant_ok.mp granted
      exact rows_set KeepsResult.refl _ _ _ _ stored (.of_open rfl (not_terminal_of_active (isActive_of_isDue due)))
    | release stored running => exact rows_set KeepsResult.refl _ _ _ _ stored ⟨rfl, fun h => ⟨h, rfl⟩⟩
    | coordinate rates locks => exact rows_refl KeepsResult.refl _

/-! ### The stored input -/

/-- A row that is not in a wait's way keeps its input. -/
theorem materialized_kept {snapshots : List TaskRecord} {state : MemoryState} (hd : state.Distinct)
    {r' : TaskRecord} (hr' : r' ∈ (materialized state snapshots).tasks) (hw : state.waits r'.id = none) :
    r' ∈ state.tasks := by
  induction snapshots generalizing state with
  | nil => exact hr'
  | cons t snapshots ih =>
    rw [materialized, List.foldl_cons, ← materialized] at hr'
    rcases materializeOne_cases state t with ⟨-, h⟩ | ⟨wait, hwait, h⟩
    · rw [h] at hr'
      exact ih hd hr' hw
    · have hone : Rows (Inputs [t.id]) state.tasks (materializeOne state t).tasks := materialized_rows [t] state
      have hd' : (materializeOne state t).Distinct := by
        rw [MemoryState.Distinct, hone.map_eq fun r r' hi => ?_]
        · exact hd
        · rcases hi with rfl | ⟨-, input, rfl⟩ <;> rfl
      have hw' : (materializeOne state t).waits r'.id = none := by
        rw [h]
        simp only [FMap.remove_apply, hw, ite_self]
      obtain ⟨r, hr, hi⟩ := hone.mem_right (ih hd' hr' hw')
      rcases hi with rfl | ⟨hm, input, rfl⟩
      · exact hr
      · -- the row would have the identifier of a wait
        rw [List.mem_singleton.mp hm, hwait] at hw
        cases hw

/-- A claimed parent stores the aggregate of its wait, over the rows before or after other inputs. -/
theorem materialized_input {snapshots : List TaskRecord} {state : MemoryState} (hd : state.Distinct)
    {wait : TaskWait} {r' : TaskRecord} (hr' : r' ∈ (materialized state snapshots).tasks)
    (hw : state.waits r'.id = some wait) (hm : r'.id ∈ snapshots.map (·.id)) :
    ∃ mid : MemoryState, Rows KeepsResult state.tasks mid.tasks ∧
      r'.resumeInput = some (aggregate mid r'.id wait) := by
  induction snapshots generalizing state with
  | nil => cases hm
  | cons t snapshots ih =>
    rw [materialized, List.foldl_cons, ← materialized] at hr'
    have hone : Rows (Inputs [t.id]) state.tasks (materializeOne state t).tasks := materialized_rows [t] state
    have hd' : (materializeOne state t).Distinct := by
      rw [MemoryState.Distinct, hone.map_eq fun r r' hi => ?_]
      · exact hd
      · rcases hi with rfl | ⟨-, input, rfl⟩ <;> rfl
    by_cases hid : t.id = r'.id
    · rcases materializeOne_cases state t with ⟨hnone, -⟩ | ⟨wait', hwait, h⟩
      · rw [hid, hw] at hnone
        cases hnone
      · rw [hid, hw] at hwait
        obtain rfl := Option.some.inj hwait
        refine ⟨state, rows_refl KeepsResult.refl _, ?_⟩
        have hstored : r' ∈ (materializeOne state t).tasks := materialized_kept hd' hr' (by
          rw [h, hid]
          exact FMap.remove_self _ _)
        rw [h, hid] at hstored
        simp only [modifyFirst_id hd] at hstored
        obtain ⟨r, -, he⟩ := List.mem_map.mp hstored
        split at he
        · exact congrArg (·.resumeInput) he.symm
        · next hne => exact absurd (congrArg (·.id) he) hne
    · have hw' : (materializeOne state t).waits r'.id = some wait := by
        rcases materializeOne_cases state t with ⟨-, h⟩ | ⟨wait', -, h⟩
        · rw [h]
          exact hw
        · rw [h]
          simp only [FMap.remove_of_ne _ (Ne.symm hid), hw]
      obtain ⟨mid, hmid, hinput⟩ := ih hd' hr' hw' (by
        rcases List.mem_cons.mp hm with he | hm
        · exact absurd he.symm hid
        · exact hm)
      refine ⟨mid, rows_trans (fun _ _ _ h h' => h.trans h') (hone.imp fun r r' hi => ?_) hmid, hinput⟩
      rcases hi with rfl | ⟨-, input, rfl⟩
      · exact .refl r'
      · exact ⟨rfl, fun h => ⟨h, rfl⟩⟩

/-! ### Claims -/

variable (store : MemoryTaskStore) {state after : MemoryState} {node : Uuid}
  {claims : List (LaneClaim × Uuid)} {result : TaskPoll}

/-- What runs after a claim turn and had a wait before it was handed out by the turn. -/
theorem claimed_of_wait (hd : state.Distinct) (hj : Joins state)
    (h : claimTasks store node claims now state = (.ok result, after)) {parent : TaskRecord}
    (hp : parent ∈ after.tasks) (hs : parent.status = .running) {wait : TaskWait}
    (hw : state.waits parent.id = some wait) :
    ∃ p ∈ state.tasks, p.id = parent.id ∧ p.status ≠ .suspended ∧
      ∃ mid : MemoryState, Rows KeepsResult state.tasks mid.tasks ∧
        parent.resumeInput = some (aggregate mid parent.id wait) := by
  obtain ⟨conf, turn, polls, hconf, hcollect, hafter, -⟩ := claimTasks_ok h
  have hhandled : Rows Handled state.tasks turn.state.tasks := collect_handled hconf hcollect
  have hclaims : claimTasksState node claims store.leaseDuration now state.begin = (.ok ⟨[], polls.lanes⟩, turn) := by
    simp only [claimTasksState, Step.bind_ok, Step.get_ok]
    refine ⟨_, _, ⟨rfl, rfl⟩, ?_⟩
    have hbegin : state.begin.state.conf = some conf := hconf
    rw [hbegin]
    exact Step.bind_ok.mpr ⟨_, _, hcollect, Step.pure_ok.mpr ⟨rfl, rfl⟩⟩
  have hworks := claimTasksState_works hclaims
  have hwaits : turn.state.waits = state.waits := (works_frame hworks).2
  have hdturn : turn.state.Distinct := by
    rw [MemoryState.Distinct, hhandled.map_eq fun _ _ h => h.id]
    exact hd
  -- settling leaves what runs as the inputs left it
  have hmaterialized : parent ∈ (materialized turn.state polls.tasks).tasks := by
    obtain ⟨cleared, locks, hlocks⟩ := settleTurn_delivered turn [] [] state.phases polls [] now
    rw [hafter, hlocks] at hp
    obtain ⟨r, hr, rfl | ⟨-, -, hpending⟩⟩ := (delivered_woken now _ _).mem_right hp
    · rw [MemoryState.adopt, List.append_nil] at hr
      exact hr
    · rw [hs] at hpending
      cases hpending
  obtain ⟨r, hr, hinput⟩ := (materialized_rows polls.tasks turn.state).mem_right hmaterialized
  have hrow : r.id = parent.id ∧ r.status = .running := by
    rcases hinput with rfl | ⟨-, input, rfl⟩ <;> exact ⟨rfl, hs⟩
  obtain ⟨p, hpm, hmoved⟩ := hhandled.mem_right hr
  have hid : p.id = parent.id := hmoved.id.symm.trans hrow.1
  have hgranted : parent.id ∈ polls.tasks.map (·.id) := by
    rcases works_running hworks r hr hrow.2 with ⟨r₀, hr₀, hid₀, hs₀⟩ | ⟨t, ht, hidt⟩
    · -- what ran before had no wait
      have hnone := hj.running r₀ hr₀ hs₀
      rw [hid₀, hrow.1, hw] at hnone
      cases hnone
    · rw [← hrow.1, ← hidt]
      exact List.mem_map_of_mem ht
  obtain ⟨mid, hmid, hinput'⟩ := materialized_input hdturn hmaterialized (hwaits ▸ hw) hgranted
  refine ⟨p, hpm, hid, fun hsleep => ?_, mid,
    rows_trans (fun _ _ _ h h' => h.trans h') (works_keepsResult hworks) hmid, hinput'⟩
  have hrunning : r.status.terminal = false := by
    rw [hrow.2]
    rfl
  have hslept := (hmoved.asleep hrunning).mpr hsleep
  rw [hrow.2] at hslept
  cases hslept

/-- CORRECT: a parent that a claim hands out with a wait resumes with the results of all members of its
    group, in their order and as they stood before the claim: every member had ended, and the wait is
    gone. It never resumes with the complaint that it was claimed too early. -/
theorem claimed_parent_gathers (h : Reachable StartedChecked (Steps store Orderly) state)
    (hclaim : claimTasks store node claims now state = (.ok result, after)) {parent : TaskRecord}
    (hp : parent ∈ after.tasks) (hs : parent.status = .running) {wait : TaskWait}
    (hw : state.waits parent.id = some wait) :
    after.waits parent.id = none ∧ (∀ child ∈ wait.children, unfinished state.tasks child = false) ∧
      parent.resumeInput = some (joined parent.id (wait.children.map (memberResult state.tasks))) := by
  obtain ⟨hd, hbounded, hj⟩ := reachable_joins store h
  obtain ⟨p, hpm, hid, hawake, mid, hmid, hinput⟩ := claimed_of_wait store hd hj hclaim hp hs hw
  obtain ⟨q, hq, hqid, -, -, -, -, hcount, hasleep⟩ := hj.counted hd hw
  obtain rfl := hd.eq hq hpm (hqid.trans hid.symm)
  have hzero : (wait.children.countP (unfinished state.tasks) : ℤ) = 0 := by
    have hnot : ¬ 0 < wait.remainingCompletions := fun hpos => hawake (hasleep.mpr hpos)
    omega
  have hended : ∀ child ∈ wait.children, unfinished state.tasks child = false := by
    intro child hchild
    have hnone := List.countP_eq_zero.mp (Int.natCast_eq_zero.mp hzero) child hchild
    exact Bool.eq_false_of_not_eq_true hnone
  refine ⟨?_, hended, ?_⟩
  · have hafter : (exec store (.claimTasks node claims now) state).2 = after := by
      rw [exec, respondPoll_snd, hclaim]
    have hjoins : Joins (exec store (.claimTasks node claims now) state).2 :=
      exec_joins store hd hbounded trivial hj
    rw [hafter] at hjoins
    exact hjoins.running parent hp hs
  · rw [hinput, aggregate_eq mid parent.id (by rw [hcount, hzero])]
    congr 2
    exact List.map_congr_left fun child hchild => memberResult_kept hmid (hended child hchild)

end

attribute [local instance] lenientSerde in
theorem claimed_parent_gathers_pair :
    let state := (MemoryState.new smallConf).execs smallStore (joinedPair.take 7)
    ∃ result after parent, claimTasks smallStore 7 (openClaim 1) 8 state = (.ok result, after) ∧
      parent ∈ after.tasks ∧ parent.id = ⟨1⟩ ∧
      parent.resumeInput = some (joined ⟨1⟩ [some unitResult, some unitResult]) := by
  intro state
  have hok : (claimTasks smallStore 7 (openClaim 1) 8 state).1.isOk = true := by decide
  have hrow : ((claimTasks smallStore 7 (openClaim 1) 8 state).2.tasks.find? (fun r => r.id = ⟨1⟩)).map (·.status) =
      some .running := by decide
  have hwait : (state.waits ⟨1⟩).map (·.children) = some [⟨2⟩, ⟨3⟩] := by decide
  rcases hrun : claimTasks smallStore 7 (openClaim 1) 8 state with ⟨answer, after⟩
  rw [hrun] at hok hrow
  cases answer with
  | error failure => cases hok
  | ok result =>
    obtain ⟨parent, hf, hs⟩ := Option.map_eq_some_iff.mp hrow
    obtain ⟨wait, hw, hchildren⟩ := Option.map_eq_some_iff.mp hwait
    have hid : parent.id = ⟨1⟩ := by simpa using List.find?_some hf
    have hp : parent ∈ after.tasks := List.mem_of_find?_eq_some hf
    obtain ⟨-, -, hinput⟩ := claimed_parent_gathers smallStore (joinedPair_reachable 7) hrun hp hs (hid ▸ hw)
    have hresults : wait.children.map (memberResult state.tasks) = [some unitResult, some unitResult] := by
      rw [hchildren]
      decide
    rw [hresults, hid] at hinput
    exact ⟨result, after, parent, rfl, hp, hid, hinput⟩

end Vyuh.Tasks.Memory
