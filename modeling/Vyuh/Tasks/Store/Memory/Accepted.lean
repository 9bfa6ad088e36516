import Vyuh.Tasks.Deployment
import Vyuh.Tasks.Store.Memory.JoinRuns
import Vyuh.Tasks.Store.Memory.RetryRuns
import Vyuh.Tasks.Store.Memory.Wakeups

/-! The store of an accepted site. What results about the store ask of its configuration, the checks of a site
    establish. -/

namespace Vyuh.Tasks.Memory
open Lib Step

/-- What results about a store assume of its configuration. -/
structure Assumed (conf : TaskStoreConf) : Prop where
  distinct : (conf.lanes.map (·.lane)).Nodup
  checked : LanesChecked conf
  retries : RetriesAllowed conf
  groups : 1 ≤ conf.maxAllChildren ∧ conf.maxAllChildren ≤ maxBatchSize
  cohorts : ∀ lane ∈ conf.lanes, ∀ lock, lane.laneLock = some lock → lock.Valid lane.claimBatchSize
  default : ∃ lane ∈ conf.lanes, lane.lane = defaultTaskLane
  handlers : (conf.handlers.map Prod.fst).Nodup

/-- The configuration knows a task: its kind, the lane it runs on, and how long its keys are kept. -/
structure Knows (conf : TaskStoreConf) (name : String) (task : TaskEntry) (lane : LaneDefinition) : Prop where
  handler : (name, task.kind) ∈ conf.handlers
  served : conf.laneNamed task.effectiveLane.asStr = some lane.toTaskLaneConf
  policy : conf.idempotencyFor name = task.idempotency.map fun _ => lane.idempotencyRetention

section

variable [SemaphoreLimit] {r : TaskRegistry}

theorem handlers_nodup (h : r.Finalized) : ((r.tasks.toList.map fun e => (e.2.name, e.2.kind)).map Prod.fst).Nodup := by
  have hnames : (r.tasks.toList.map fun e => (e.2.name, e.2.kind)).map Prod.fst = r.tasks.toList.map Prod.fst := by
    rw [List.map_map]
    exact List.map_congr_left fun e hm => h.named e.1 e.2 (Dict.mem_toList.mp hm)
  rw [hnames]
  exact Dict.nodup_keys_toList r.tasks

/-- The store configuration of a finalized registry. -/
theorem finalized_storeConf (h : r.Finalized) : ∃ conf, r.storeConf = .ok conf ∧ Assumed conf ∧
    ∀ name task, r.tasks.lookup name = some task →
      ∃ lane ∈ r.lanes, lane.lane = task.effectiveLane ∧ Knows conf name task lane := by
  obtain ⟨policies, hpolicies, hmem⟩ := h.idempotencyConf
  have hstores : r.storeConf = .ok {
      maxAllChildren := r.config.maxAllChildren
      handlers := r.tasks.toList.map fun entry => (entry.2.name, entry.2.kind)
      lanes := r.lanes.map fun lane => lane.toTaskLaneConf
      idempotency := policies
      pollInterval := r.config.pollInterval } := by
    rw [TaskRegistry.storeConf, hpolicies]
    rfl
  refine ⟨_, hstores, ?_, ?_⟩
  · refine ⟨?_, ?_, ?_, h.inRange.children, ?_, ?_, handlers_nodup h⟩
    · rw [List.map_map]
      exact h.lanes.distinct
    · intro conf hconf
      obtain ⟨lane, hm, rfl⟩ := List.mem_map.mp hconf
      exact ⟨(h.lanes.valid lane hm).claim.1, (h.lanes.valid lane hm).globalRate⟩
    · intro conf hconf
      obtain ⟨lane, hm, rfl⟩ := List.mem_map.mp hconf
      exact (h.lanes.valid lane hm).attempts.1
    · intro conf hconf
      obtain ⟨lane, hm, rfl⟩ := List.mem_map.mp hconf
      exact (h.lanes.valid lane hm).lock
    · obtain ⟨lane, hm, hname⟩ := h.lanes.default
      exact ⟨_, List.mem_map_of_mem hm, hname⟩
  · intro name task hlookup
    obtain ⟨lane, hlane, heq⟩ := h.placed name task hlookup
    refine ⟨lane, hlane, heq, ?_, ?_, ?_⟩
    · have hname := h.named name task hlookup
      exact List.mem_map.mpr ⟨(name, task), Dict.mem_toList.mpr hlookup, by rw [hname]⟩
    · have hnames : ((r.lanes.map fun lane => lane.toTaskLaneConf).map (·.lane.asStr)).Nodup := by
        rw [List.map_map]
        exact nodup_lane_names.mpr h.lanes.distinct
      rw [← heq]
      exact find?_key hnames (List.mem_map_of_mem hlane)
    · cases hpolicy : task.idempotency with
      | none =>
        have hnone : policies.find? (fun policy => policy.handler = name) = none := by
          refine List.find?_eq_none.mpr fun policy hm hname => ?_
          rw [decide_eq_true_eq] at hname
          obtain ⟨other, task', lane', hlookup', -, -, hsome, rfl⟩ := (hmem policy).mp hm
          obtain rfl : other = name := hname
          rw [hlookup] at hlookup'
          obtain rfl := Option.some.inj hlookup'
          rw [hpolicy] at hsome
          cases hsome
        rw [TaskStoreConf.idempotencyFor, hnone]
        rfl
      | some policy =>
        have hm : ⟨name, lane.idempotencyRetention⟩ ∈ policies :=
          (hmem _).mpr ⟨name, task, lane, hlookup, hlane, heq, by rw [hpolicy]; rfl, rfl⟩
        cases hfind : policies.find? fun policy => policy.handler = name with
        | none => exact absurd (decide_eq_true rfl) (List.find?_eq_none.mp hfind _ hm)
        | some found =>
          have hname := List.find?_some hfind
          rw [decide_eq_true_eq] at hname
          obtain ⟨other, task', lane', hlookup', hlane', heq', -, rfl⟩ := (hmem found).mp (List.mem_of_find?_eq_some hfind)
          obtain rfl : other = name := hname
          rw [hlookup] at hlookup'
          obtain rfl := Option.some.inj hlookup'
          obtain rfl := List.inj_on_of_nodup_map h.lanes.distinct hlane' hlane (heq'.trans heq.symm)
          rw [TaskStoreConf.idempotencyFor, hfind]
          rfl

variable {assembly : Assembly} {config : TaskConf}

/-- CORRECT: an accepted site always gets its store configuration, `lane_retention` never reports an unknown
    lane, and that configuration is as results about the store assume it. Every registered task is known to it with
    its kind, the lane it runs on is one of the site's, and its keys are kept as that lane says, if it has any. -/
theorem accepted_store_conf (h : assembly.deploy config = .ok r) : ∃ conf, r.storeConf = .ok conf ∧ Assumed conf ∧
    ∀ name task, r.tasks.lookup name = some task →
      ∃ lane ∈ r.lanes, lane.lane = task.effectiveLane ∧ Knows conf name task lane :=
  finalized_storeConf (Assembly.deploy_finalized h)

end

attribute [local instance] wideSemaphores in
theorem accepted_store_conf_mail : ∃ r conf, laneThenTask.deploy .default = .ok r ∧ r.storeConf = .ok conf ∧
    Assumed conf := by
  obtain ⟨r, hr⟩ := laneThenTask_accepted
  obtain ⟨conf, hconf, hassumed, -⟩ := accepted_store_conf hr
  exact ⟨r, conf, hr, hconf, hassumed⟩

end Vyuh.Tasks.Memory
