import Vyuh.Tasks.Store.Memory.Attempts

/-! Every stored row is in a configured lane: writes, children and reassignments are checked against the
    configuration, and nothing else changes a lane. -/

namespace Vyuh.Tasks.Memory
open Lib

/-- The lane of a name is configured. -/
def Configured (state : MemoryState) (name : String) : Prop :=
  ∃ conf lane, state.conf = some conf ∧ conf.laneNamed name = some lane

/-- Every row is in a configured lane. -/
def MemoryState.LanesConfigured (state : MemoryState) : Prop := ∀ r ∈ state.tasks, Configured state r.lane

section

variable {state s s' : MemoryState}

theorem Configured.of_conf {name : String} (hc : s'.conf = s.conf) (h : Configured s name) :
    Configured s' name := by
  obtain ⟨conf, lane, hconf, hlane⟩ := h
  exact ⟨conf, lane, hc.trans hconf, hlane⟩

theorem requireLane_ok {name : String} (h : requireLane state name = .ok ()) : Configured state name := by
  rw [requireLane] at h
  split at h
  · next hany =>
    obtain ⟨conf, hconf, hlane⟩ := (Option.any_eq_true _ _).mp hany
    refine ⟨conf, ?_⟩
    cases hfound : conf.laneNamed name with
    | some lane => exact ⟨lane, hconf, rfl⟩
    | none =>
      obtain ⟨entry, hm, hname⟩ := List.any_eq_true.mp hlane
      have hnone := List.find?_eq_none.mp hfound entry hm
      rw [decide_eq_true_eq] at hname
      simp [hname] at hnone
  · exact nomatch h

theorem validateWriteLanes_ok : ∀ {writes : List TaskWrite}, validateWriteLanes state writes = .ok () →
    ∀ write ∈ writes, Configured state write.record.lane
  | [], _ => fun _ hm => nomatch hm
  | write :: writes, h => by
    rw [validateWriteLanes] at h
    obtain ⟨_, hlane, h⟩ := Step.except_bind_ok.mp h
    obtain ⟨_, -, h⟩ := Step.except_bind_ok.mp h
    intro other hm
    rcases List.mem_cons.mp hm with rfl | hm
    · exact requireLane_ok hlane
    · exact validateWriteLanes_ok h other hm

/-- Members of an accepted group are in configured lanes. -/
theorem validateMembers_ok {conf : TaskStoreConf} (hconf : state.conf = some conf) :
    ∀ {ids : List TaskId} {keys : List (String × String)} {children : List TaskWrite},
      validateMembers conf ids keys children = .ok () →
        ∀ child ∈ children, Configured state child.record.lane
  | _, _, [], _ => fun _ hm => nomatch hm
  | ids, keys, child :: children, h => by
    rw [validateMembers] at h
    split at h
    · exact nomatch h
    · next hvalid =>
      have hlane : Configured state child.record.lane := by
        refine requireLane_ok ?_
        simp only [invalidChild, Bool.or_eq_true, not_or, Bool.not_eq_true'] at hvalid
        rw [requireLane, hconf, Option.any_some, if_pos]
        simpa using hvalid.1.1.1.2
      have hrest : ∀ other ∈ children, Configured state other.record.lane := by
        split at h
        · exact validateMembers_ok hconf h
        · split at h
          · exact nomatch h
          · exact validateMembers_ok hconf h
      intro other hm
      rcases List.mem_cons.mp hm with rfl | hm
      · exact hlane
      · exact hrest other hm

variable {now : DateTime}

/-- Prepared children are in configured lanes. -/
theorem prepareSpawn_lanes {conf : TaskStoreConf} {parent : TaskRecord} {asked outcome : TaskOutcome}
    {children children' : List TaskRecord} (hconf : state.conf = some conf)
    (hb : Batch state.tasks now children) (hc : ∀ t ∈ children, Configured state t.lane)
    (h : prepareSpawn state parent asked children now = .ok (outcome, children')) :
    ∀ t ∈ children', Configured state t.lane := by
  cases asked with
  | all checkpoint group =>
    rw [prepareSpawn, prepare, hconf] at h
    simp only at h
    split at h
    · obtain ⟨rfl, rfl⟩ := Prod.mk.inj (Except.ok.inj h)
      exact hc
    · next hvalid =>
      split at h
      · next new hmembers =>
        obtain ⟨rfl, rfl⟩ := Prod.mk.inj (Except.ok.inj h)
        obtain ⟨-, members, rfl, hfrom⟩ := prepareMembers_some group _ _ hb hmembers
        have hlanes : ∀ child ∈ group, Configured state child.record.lane := by
          rw [validateGroup] at hvalid
          split at hvalid
          · cases hvalid
          · exact validateMembers_ok hconf hvalid
        intro t ht
        rcases List.mem_append.mp ht with ht | ht
        · exact hc t ht
        · obtain ⟨write, hw, hstamp⟩ := hfrom.mem ht
          obtain ⟨ready, rfl⟩ := childStamp hstamp
          exact hlanes write hw
      · obtain ⟨rfl, rfl⟩ := Prod.mk.inj (Except.ok.inj h)
        exact hc
  | spawn checkpoint child =>
    rw [prepareSpawn] at h
    obtain ⟨_, hlane, h⟩ := Step.except_bind_ok.mp h
    split at h
    · cases h
    · split at h
      · next id new hone =>
        obtain ⟨rfl, rfl⟩ := Prod.mk.inj (Except.ok.inj h)
        obtain ⟨record, hstamp, hsub⟩ := stageWrite_ok hone
        cases hsub with
        | queued fresh unheld =>
          intro t ht
          rcases List.mem_append.mp ht with ht | ht
          · exact hc t ht
          · obtain rfl := List.mem_singleton.mp ht
            obtain ⟨ready, rfl⟩ := childStamp hstamp
            exact validateWriteLanes_ok hlane child (List.mem_singleton_self _)
      all_goals first
        | (obtain ⟨rfl, rfl⟩ := Prod.mk.inj (Except.ok.inj h); exact hc)
        | cases h
  | complete | completeWith output | suspend checkpoint | sleep checkpoint delay | retry error
  | fail error =>
    obtain ⟨rfl, rfl⟩ := Prod.mk.inj (Except.ok.inj h)
    exact hc

theorem effectiveOutcome_lanes {conf : TaskStoreConf} {parent : TaskRecord} {commit : TaskCommit}
    {outcome : TaskOutcome} {children children' : List TaskRecord} (hconf : state.conf = some conf)
    (hb : Batch state.tasks now children) (hc : ∀ t ∈ children, Configured state t.lane)
    (h : effectiveOutcome state conf parent commit children now = .ok (outcome, children')) :
    ∀ t ∈ children', Configured state t.lane := by
  rw [effectiveOutcome] at h
  split at h
  · obtain ⟨rfl, rfl⟩ := Prod.mk.inj (Except.ok.inj h)
    exact hc
  · split at h
    · obtain ⟨rfl, rfl⟩ := Prod.mk.inj (Except.ok.inj h)
      exact hc
    · exact prepareSpawn_lanes hconf hb hc h

/-- All of the rows are in lanes the store is configured with. -/
def Lodged (state : MemoryState) (rows : List TaskRecord) : Prop := ∀ r ∈ rows, Configured state r.lane

/-- A rewrite that keeps the lane. -/
def SameLane (r r' : TaskRecord) : Prop := r'.lane = r.lane

theorem SameLane.refl (r : TaskRecord) : SameLane r r := rfl

theorem SameLane.trans {a b c : TaskRecord} (h : SameLane a b) (h' : SameLane b c) : SameLane a c :=
  Eq.trans h' h

theorem Lodged.moved {rows rows' : List TaskRecord} (h : Lodged state rows)
    (hmove : Rows SameLane rows rows') : Lodged state rows' := by
  intro r' hr'
  obtain ⟨r, hr, hlane⟩ := hmove.mem_right hr'
  rw [hlane]
  exact h r hr

theorem Lodged.append {rows new : List TaskRecord} (h : Lodged state rows) (hn : Lodged state new) :
    Lodged state (rows ++ new) := by
  intro r hr
  rcases List.mem_append.mp hr with hr | hr
  · exact h r hr
  · exact hn r hr

/-- Submissions that were checked are in configured lanes. -/
theorem lodged_stamped (now : DateTime) {writes : List TaskWrite} {staged : List TaskRecord}
    (hv : validateWriteLanes state writes = .ok ()) (h : StampedFrom writes now staged) :
    Lodged state staged := by
  intro t ht
  obtain ⟨write, hw, hstamp⟩ := h t ht
  obtain ⟨ready, rfl⟩ := stampWrite_ok hstamp
  exact validateWriteLanes_ok hv write hw

theorem Promotes.lanes {eligible : ℕ → TaskRecord → Prop} {node : Uuid} {i : ℕ}
    {rows rows' taken : List TaskRecord} (h : Promotes eligible node now i rows rows' taken) :
    Rows SameLane rows rows' := by
  refine h.moves.imp fun r r' hr => ?_
  rcases hr with rfl | ⟨-, hgrant⟩
  · exact SameLane.refl r'
  · exact (grant_counts hgrant).2.1

variable [Serde]

/-- The children of a staged batch are in configured lanes. -/
theorem Staging.lanes {commits : List TaskCommit} {final : Staged}
    (h : Staging state now commits Staged.empty final) : ∀ t ∈ final.children, Configured state t.lane := by
  refine (h.inv (P := fun staged => Batch state.tasks now staged.children ∧
    ∀ t ∈ staged.children, Configured state t.lane) ?_ ⟨Batch.nil _ _, fun _ hm => nomatch hm⟩).2
  intro commit hc index row task children deliveries staged haccepts hstages ⟨hb, hs⟩
  obtain ⟨conf, lane, outcome, -, hp, -⟩ := stagedTask_prepares hb hstages
  obtain ⟨conf', lane', outcome', ht, ho, -⟩ := stagedTask_ok hstages
  exact ⟨hp.batch_of hb, effectiveOutcome_lanes ht.configured hb hs ho⟩

/-- No event of a turn changes a lane. -/
theorem works_lanes {runner : Option Uuid} {turn turn' : Turn} {tasks : List TaskRecord}
    (h : Works runner now turn tasks turn') :
    Rows SameLane turn.state.tasks turn'.state.tasks := by
  obtain ⟨events, hrun, -⟩ := h
  induction hrun with
  | nil turn => exact rows_refl SameLane.refl _
  | cons first _ ih =>
    refine rows_trans (fun _ _ _ h h' => h.trans h') ?_ ih
    cases first with
    | conclude mark stored active concludes =>
      exact rows_set SameLane.refl _ _ _ _ stored concludes.concluded.lane
    | grant who stored due wanted granted =>
      exact rows_set SameLane.refl _ _ _ _ stored (grant_counts granted).2.1
    | release stored running => exact rows_set SameLane.refl _ _ _ _ stored rfl
    | coordinate rates locks => exact rows_refl SameLane.refl _

variable (store : MemoryTaskStore)

theorem claimOperation_lodged (hd : state.Distinct) (h : Lodged state state.tasks) (node : Uuid)
    (claims : List (LaneClaim × Uuid)) (batch : ℕ) (lease : Duration) (now : DateTime) :
    Lodged state (atomicOperation (some node) claims [] batch lease now state).2.tasks := by
  rcases claimOperation_cases hd node claims batch lease now with hkept | ⟨turn, poll, hclaims, hsettled⟩
  · rw [hkept]
    exact h
  · rw [hsettled]
    have hworks : Rows SameLane state.tasks turn.state.tasks :=
      works_lanes (claimTasksState_works hclaims)
    have hsettle := settleTurn_rests turn [] [] state.phases poll [] now
    rw [List.append_nil] at hsettle
    exact (h.moved hworks).moved (hsettle.imp fun _ _ h => h.lane)

theorem commitOperation_lodged (hd : state.Distinct) (h : Lodged state state.tasks)
    (commits : List TaskCommit) (batch : ℕ) (lease : Duration) (now : DateTime) :
    Lodged state (atomicOperation none [] commits batch lease now state).2.tasks := by
  rcases commitOperation_cases hd commits batch lease now with hkept | ⟨staged, turn, hcommits, hsettled⟩
  · rw [hkept]
    exact h
  · rw [hsettled]
    have hworks : Rows SameLane state.tasks turn.state.tasks :=
      works_lanes (hcommits.works none)
    have hchildren : Lodged state staged.children := hcommits.staging.lanes
    exact ((h.moved hworks).append hchildren).moved
      ((settleTurn_rests _ _ _ _ _ _ _).imp fun _ _ h => h.lane)

theorem exec_quiet_lodged {op : Op} (hop : op.quiet = true) (h : Lodged state state.tasks) :
    Lodged state (exec store op state).2.tasks := by
  have hedit := exec_edits store hop state
  generalize (exec store op state).2 = after at hedit ⊢
  cases hedit with
  | refused | registered => exact h
  | retired | returned =>
    refine h.moved (rows_map _ _ fun r _ => ?_)
    split <;> rfl
  | @stored _ now _ _ _ _ _ hlanes _ hstamped hwalk =>
    exact h.append ((lodged_stamped now hlanes hstamped).moved hwalk.lanes)
  | reassigned _ hlane =>
    intro r' hr'
    obtain ⟨i, hi, rfl⟩ := List.mem_mapIdx.mp hr'
    split
    · exact requireLane_ok hlane
    · exact h _ (List.getElem_mem hi)
  | resumed =>
    refine h.moved (modifyFirst_rows _ _ SameLane.refl (fun r _ => ?_) state.tasks)
    rfl

theorem exec_lodged (hd : state.Distinct) (op : Op) (h : Lodged state state.tasks) :
    Lodged state (exec store op state).2.tasks := by
  cases hop : op.quiet with
  | true => exact exec_quiet_lodged store hop h
  | false =>
    have hdone := exec_performs store hop state
    generalize (exec store op state).2 = after at hdone ⊢
    cases hdone with
    | refused => exact h
    | setUp ratesNow hconf => exact h
    | claimed _ => exact claimOperation_lodged hd h _ _ _ _ _
    | committed ht => exact commitOperation_lodged hd h _ _ _ _
    | @admitted _ _ _ now _ _ _ _ _ _ hturn hwalk =>
      have hcommit := commitOperation_lodged hd h op.commits store.commitBatchSize store.leaseDuration now
      rw [hturn] at hcommit
      exact hcommit.moved hwalk.lanes
    | @recovered now _ staged _ _ cancelled _ hgiven _ hturn =>
      have hrows : Lodged staged staged.tasks := fun r hr =>
        (h.moved (hgiven.rows.imp fun _ _ h => h.rests.lane) r hr).of_conf hgiven.conf
      have hcommit := commitOperation_lodged (hgiven.distinct hd) hrows cancelled store.commitBatchSize
        store.leaseDuration now
      rw [hturn] at hcommit
      exact fun r hr => (hcommit r hr).of_conf hgiven.conf.symm

/-- In every reachable state, rows are in configured lanes. -/
theorem reachable_lanes {call : MemoryState → Op → Prop}
    (h : Reachable Started (Steps store call) state) : state.LanesConfigured := by
  refine (h.inv (I := fun s => s.Distinct ∧ s.LanesConfigured) ?_ ?_).2
  · rintro _ ⟨conf, rfl⟩
    exact ⟨List.nodup_nil, fun _ hr => nomatch hr⟩
  · rintro s op s' ⟨hd, hl⟩ ⟨-, rfl⟩
    have hext := exec_extends store hd op
    exact ⟨hext.distinct hd, fun r hr => (exec_lodged store hd op hl r hr).of_conf hext.conf⟩

end

end Vyuh.Tasks.Memory
