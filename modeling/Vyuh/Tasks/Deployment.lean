import Vyuh.Lib.Table
import Vyuh.Tasks.Assembly

/-! A site's registry once it is finalized: what every finalized registry has, and that it does not depend on the
    order in which bundles came together. -/

namespace Vyuh.Tasks
open Lib Step

/-- The registry a site runs with. -/
def Assembly.deploy [SemaphoreLimit] (assembly : Assembly) (config : TaskConf) : Except RegistryError TaskRegistry := do
  let registry ← assembly.run
  (registry.finalize config).mapError .runtime

namespace TaskRegistry

variable {r r' s : TaskRegistry} {items : List Item} {config : TaskConf}

/-- Registries with the same registrations differ at most in the order of their hash maps. -/
theorem Holds.same (h : Holds r items) (h' : Holds s items) : r.laneDefaults = s.laneDefaults ∧
    (∀ name, r.tasks.lookup name = s.tasks.lookup name) ∧
    ∀ typeId, r.typedMap.lookup typeId = s.typedMap.lookup typeId := by
  refine ⟨h.sorted.ext h'.sorted fun ⟨key, lane⟩ => ?_, fun name => Option.ext fun task => ?_,
    fun typeId => Option.ext fun name => ?_⟩
  · rw [h.lanes, h'.lanes]
  · rw [h.tasks, h'.tasks]
  · rw [h.typed, h'.typed]

/-- What finalization does: the lanes are resolved, and every task against them. -/
theorem finalize_ok [SemaphoreLimit] (h : r.finalize config = .ok r') :
    config.resolveLanes r.laneDefaults.values = .ok r'.lanes ∧ r'.config = config ∧
      (∀ typeId, r'.typedMap.lookup typeId = r.typedMap.lookup typeId) ∧
      ∀ name, Option.Rel (fun task task' => finalizeTask config r'.lanes task = .ok task')
        (r.tasks.lookup name) (r'.tasks.lookup name) := by
  rw [finalize] at h
  obtain ⟨lanes, hlanes, h⟩ := except_bind_ok.mp h
  obtain ⟨tasks, htasks, h⟩ := except_bind_ok.mp h
  cases h
  exact ⟨hlanes, rfl, fun _ => rfl, Dict.mapValues_ok htasks⟩

theorem finalize_total [SemaphoreLimit] {lanes : List LaneDefinition}
    (hlanes : config.resolveLanes r.laneDefaults.values = .ok lanes)
    (htasks : ∀ name task, r.tasks.lookup name = some task → ∃ task', finalizeTask config lanes task = .ok task') :
    ∃ r', r.finalize config = .ok r' := by
  obtain ⟨tasks, hmap⟩ := Dict.mapValues_total htasks
  rw [finalize]
  exact ⟨_, except_bind_ok.mpr ⟨lanes, hlanes, except_bind_ok.mpr ⟨tasks, hmap, rfl⟩⟩⟩

/-- Registries with the same registrations finalize together, to the same lanes and tasks. -/
theorem Holds.finalized_same [SemaphoreLimit] (h : Holds r items) (h' : Holds s items)
    (hok : r.finalize config = .ok r') : ∃ s', s.finalize config = .ok s' ∧ s'.config = r'.config ∧
      s'.lanes = r'.lanes ∧ (∀ name, s'.tasks.lookup name = r'.tasks.lookup name) ∧
      ∀ typeId, s'.typedMap.lookup typeId = r'.typedMap.lookup typeId := by
  obtain ⟨hdefaults, htasks, htyped⟩ := h.same h'
  obtain ⟨hlanes, hconfig, htyped', hrel⟩ := finalize_ok hok
  rw [hdefaults] at hlanes
  obtain ⟨s', hs⟩ : ∃ s', s.finalize config = .ok s' := by
    refine finalize_total hlanes fun name task htask => ?_
    have hone := hrel name
    rw [htasks, htask] at hone
    generalize r'.tasks.lookup name = final at hone
    cases hone with
    | some hfinal => exact ⟨_, hfinal⟩
  obtain ⟨hlanes', hconfig', htyped'', hrel'⟩ := finalize_ok hs
  have hsame : s'.lanes = r'.lanes := Except.ok.inj (hlanes'.symm.trans hlanes)
  refine ⟨s', hs, hconfig'.trans hconfig.symm, hsame, fun name => ?_, fun typeId => ?_⟩
  · have hone := hrel name
    have hone' := hrel' name
    rw [htasks] at hone
    rw [hsame] at hone'
    generalize s.tasks.lookup name = found, r'.tasks.lookup name = final, s'.tasks.lookup name = final' at hone hone' ⊢
    cases hone with
    | none =>
      cases hone' with
      | none => rfl
    | some hfinal =>
      cases hone' with
      | some hfinal' => rw [Except.ok.inj (hfinal'.symm.trans hfinal)]
  · rw [htyped'', htyped', htyped]

end TaskRegistry

/-! ### Finalized registries -/

/-- What every registry has that a site runs with. -/
structure TaskRegistry.Finalized [SemaphoreLimit] (r : TaskRegistry) : Prop where
  inRange : r.config.InRange
  lanes : LaneSet r.lanes r.config.concurrency
  ascending : r.lanes.Pairwise (·.lane < ·.lane)
  named : ∀ name task, r.tasks.lookup name = some task → task.name = name
  placed : ∀ name task, r.tasks.lookup name = some task → ∃ lane ∈ r.lanes, lane.lane = task.effectiveLane
  revised : ∀ name task, r.tasks.lookup name = some task → validateKeyRevision task.idempotency = .ok ()

/-- A declared lane is kept where the site has it, and otherwise becomes the default lane, if the site lets it. -/
theorem resolveLane_ok {config : TaskConf} {lanes : List LaneDefinition} {declared effective : TaskLane} {fallback : Bool}
    (h : config.resolveLane lanes declared = .ok (effective, fallback)) :
    (effective = declared ∧ ∃ lane ∈ lanes, lane.lane = declared) ∨
      (effective = defaultTaskLane ∧ config.missingLane = .useDefault ∧ ∀ lane ∈ lanes, lane.lane ≠ declared) := by
  rw [TaskConf.resolveLane] at h
  split at h
  next hany =>
    cases h
    obtain ⟨lane, hm, hname⟩ := List.any_eq_true.mp hany
    exact .inl ⟨rfl, lane, hm, of_decide_eq_true hname⟩
  next hnone =>
    have hall : ∀ lane ∈ lanes, lane.lane ≠ declared := fun lane hm heq =>
      hnone (List.any_eq_true.mpr ⟨lane, hm, decide_eq_true heq⟩)
    split at h
    next hpolicy =>
      cases h
      exact .inr ⟨rfl, hpolicy, hall⟩
    next => cases h

theorem finalizeTask_ok {config : TaskConf} {lanes : List LaneDefinition} {task task' : TaskEntry}
    (h : TaskRegistry.finalizeTask config lanes task = .ok task') :
    validateKeyRevision task.idempotency = .ok () ∧ ∃ effective fallback,
      config.resolveLane lanes task.declaredLane = .ok (effective, fallback) ∧
        task' = { task with effectiveLane := effective } := by
  rw [TaskRegistry.finalizeTask, except_seq_ok] at h
  obtain ⟨hrevision, h⟩ := h
  refine ⟨hrevision, ?_⟩
  split at h
  · cases h
  next effective fallback heq =>
    cases h
    exact ⟨effective, fallback, heq, rfl⟩

namespace Assembly

variable [SemaphoreLimit] {assembly other : Assembly} {config : TaskConf} {r : TaskRegistry}

theorem deploy_ok : assembly.deploy config = .ok r ↔
    ∃ built, assembly.run = .ok built ∧ built.finalize config = .ok r := by
  rw [deploy, except_bind_ok]
  refine exists_congr fun built => and_congr_right fun _ => ?_
  cases built.finalize config with
  | error error => exact ⟨fun h => (by cases h), fun h => (by cases h)⟩
  | ok final => exact ⟨fun h => congrArg _ (Except.ok.inj h), fun h => congrArg _ (Except.ok.inj h)⟩

/-- CORRECT: the order and the nesting in which bundles are registered and merged do not matter. Two assemblies of
    the same registrations are accepted together, and the registries they give have the same configuration, the
    same lanes, the same tasks under every name and the same name for every input type. -/
theorem assembly_order_irrelevant (hperm : assembly.items.Perm other.items) (h : assembly.deploy config = .ok r) :
    ∃ s, other.deploy config = .ok s ∧ s.config = r.config ∧ s.lanes = r.lanes ∧
      (∀ name, s.tasks.lookup name = r.tasks.lookup name) ∧
      ∀ typeId, s.typedMap.lookup typeId = r.typedMap.lookup typeId := by
  obtain ⟨built, hrun, hfinal⟩ := deploy_ok.mp h
  have hholds := ((run_holds assembly).2 built hrun).perm hperm
  obtain ⟨built', hrun'⟩ := (run_holds other).1.mpr hholds.admissible
  obtain ⟨s, hs, hsame⟩ := hholds.finalized_same ((run_holds other).2 built' hrun') hfinal
  exact ⟨s, deploy_ok.mpr ⟨built', hrun', hs⟩, hsame⟩

end Assembly

/-! ### A lane and its task in two bundles -/

/-- As many permits as `tokio` allows on 64 bits. -/
@[reducible] def wideSemaphores : SemaphoreLimit := ⟨2 ^ 61 - 1⟩

def mailLane : LaneDefinition := .new ⟨"mail"⟩ 4

def sendMail : TaskEntry where
  name := "send-mail"
  kind := .work
  effectiveLane := ⟨"mail"⟩
  batch := false
  typeId := ⟨1⟩
  declaredLane := ⟨"mail"⟩
  idempotency := some ⟨"v1"⟩

def laneThenTask : Assembly := .merge (.register .new (.lane mailLane)) (.register .new (.task sendMail))

def taskThenLane : Assembly := .register (.merge .new (.register .new (.task sendMail))) (.lane mailLane)

attribute [local instance] wideSemaphores in
theorem laneThenTask_accepted : ∃ r, laneThenTask.deploy .default = .ok r := by
  have hsome : (laneThenTask.deploy .default).toOption.isSome = true := by decide +kernel
  obtain ⟨r, hr⟩ := Option.isSome_iff_exists.mp hsome
  exact ⟨r, except_toOption_eq_some.mp hr⟩

attribute [local instance] wideSemaphores in
theorem assembly_order_irrelevant_mail : ∃ r s, laneThenTask.deploy .default = .ok r ∧
    taskThenLane.deploy .default = .ok s ∧ s.lanes = r.lanes ∧
      s.tasks.lookup "send-mail" = r.tasks.lookup "send-mail" := by
  obtain ⟨r, hr⟩ := laneThenTask_accepted
  have hperm : laneThenTask.items.Perm taskThenLane.items := List.Perm.swap _ _ _
  obtain ⟨s, hs, -, hlanes, htasks, -⟩ := Assembly.assembly_order_irrelevant hperm hr
  exact ⟨r, s, hr, hs, hlanes, htasks _⟩

/-! ### What is finalized -/

namespace Assembly

variable [SemaphoreLimit] {assembly : Assembly} {config : TaskConf} {r : TaskRegistry}

/-- Every accepted assembly gives a finalized registry. -/
theorem deploy_finalized (h : assembly.deploy config = .ok r) : r.Finalized := by
  obtain ⟨built, hrun, hfinal⟩ := deploy_ok.mp h
  have hholds := (run_holds assembly).2 built hrun
  obtain ⟨hlanes, rfl, -, hrel⟩ := TaskRegistry.finalize_ok hfinal
  obtain ⟨hrange, -, -, hset, hperm, hascending⟩ := resolveLanes_ok_iff.mp hlanes
  have htask : ∀ name task, r.tasks.lookup name = some task → ∃ task₀, built.tasks.lookup name = some task₀ ∧
      TaskRegistry.finalizeTask r.config r.lanes task₀ = .ok task := fun name task hlookup => by
    have hone := hrel name
    rw [hlookup] at hone
    generalize built.tasks.lookup name = found at hone ⊢
    cases hone with
    | some hok => exact ⟨_, rfl, hok⟩
  refine ⟨hrange, hset.perm hperm.symm, hascending, fun name task hlookup => ?_, fun name task hlookup => ?_,
    fun name task hlookup => ?_⟩
  · obtain ⟨task₀, hbuilt, hok⟩ := htask name task hlookup
    obtain ⟨-, effective, fallback, -, rfl⟩ := finalizeTask_ok hok
    exact ((hholds.tasks name task₀).mp hbuilt).2
  · obtain ⟨task₀, -, hok⟩ := htask name task hlookup
    obtain ⟨-, effective, fallback, hresolve, rfl⟩ := finalizeTask_ok hok
    rcases resolveLane_ok hresolve with ⟨rfl, hlane⟩ | ⟨rfl, -, -⟩
    · exact hlane
    · exact (hset.perm hperm.symm).default
  · obtain ⟨task₀, -, hok⟩ := htask name task hlookup
    obtain ⟨hrevision, effective, fallback, -, rfl⟩ := finalizeTask_ok hok
    exact hrevision

end Assembly

namespace TaskRegistry

variable [SemaphoreLimit] {r : TaskRegistry}

omit [SemaphoreLimit] in
theorem laneRetention_ok {lanes : List LaneDefinition} {lane : LaneDefinition} (h : (lanes.map (·.lane)).Nodup)
    (hm : lane ∈ lanes) : laneRetention lanes lane.lane = .ok lane.idempotencyRetention := by
  rw [laneRetention, find?_key h hm]

/-- Every idempotent task finds the retention of its lane: `lane_retention` cannot fail any more. -/
theorem Finalized.idempotencyConf (h : r.Finalized) : ∃ policies, r.idempotencyConf = .ok policies ∧
    ∀ policy, policy ∈ policies ↔ ∃ name task lane, r.tasks.lookup name = some task ∧ lane ∈ r.lanes ∧
      lane.lane = task.effectiveLane ∧ task.idempotency.isSome = true ∧
      policy = ⟨name, lane.idempotencyRetention⟩ := by
  have hone : ∀ entry ∈ r.tasks.toList, ∀ result, taskPolicy r.lanes entry.2 = some result ↔ ∃ lane ∈ r.lanes,
      lane.lane = entry.2.effectiveLane ∧ entry.2.idempotency.isSome = true ∧
        result = .ok ⟨entry.1, lane.idempotencyRetention⟩ := by
    rintro ⟨name, task⟩ hm result
    have hlookup := Dict.mem_toList.mp hm
    obtain ⟨lane, hlane, heq⟩ := h.placed name task hlookup
    have hretention := laneRetention_ok h.lanes.distinct hlane
    rw [heq] at hretention
    simp only [taskPolicy, Option.map_eq_some_iff, Option.isSome_iff_exists, hretention, h.named name task hlookup]
    constructor
    · rintro ⟨policy, hpolicy, rfl⟩
      exact ⟨lane, hlane, heq, ⟨policy, hpolicy⟩, rfl⟩
    · rintro ⟨other, hother, hother', ⟨policy, hpolicy⟩, rfl⟩
      rw [List.inj_on_of_nodup_map h.lanes.distinct hother hlane (hother'.trans heq.symm)]
      exact ⟨policy, hpolicy, rfl⟩
  obtain ⟨policies, hpolicies⟩ : ∃ policies, r.idempotencyConf = .ok policies := by
    refine except_mapM_total fun result hm => ?_
    obtain ⟨entry, hentry, hresult⟩ := List.mem_filterMap.mp hm
    obtain ⟨lane, -, -, -, rfl⟩ := (hone entry hentry result).mp hresult
    exact ⟨_, rfl⟩
  refine ⟨policies, hpolicies, fun policy => ?_⟩
  constructor
  · intro hm
    obtain ⟨result, hresult, hpolicy⟩ := except_mapM_mem hpolicies hm
    obtain ⟨entry, hentry, hmapped⟩ := List.mem_filterMap.mp hresult
    obtain ⟨lane, hlane, heq, hsome, rfl⟩ := (hone entry hentry result).mp hmapped
    exact ⟨entry.1, entry.2, lane, Dict.mem_toList.mp hentry, hlane, heq, hsome, (Except.ok.inj hpolicy).symm⟩
  · rintro ⟨name, task, lane, hlookup, hlane, heq, hsome, rfl⟩
    have hentry : (name, task) ∈ r.tasks.toList := Dict.mem_toList.mpr hlookup
    have hresult : .ok ⟨name, lane.idempotencyRetention⟩ ∈
        r.tasks.toList.filterMap fun entry => taskPolicy r.lanes entry.2 :=
      List.mem_filterMap.mpr ⟨_, hentry, (hone _ hentry _).mpr ⟨lane, hlane, heq, hsome, rfl⟩⟩
    obtain ⟨i, hi⟩ := List.mem_iff_getElem?.mp hresult
    have hrel := except_mapM_rel hpolicies i
    rw [hi] at hrel
    generalize hget : policies[i]? = found at hrel
    cases hrel with
    | some hok =>
      rw [← Except.ok.inj hok] at hget
      exact List.mem_of_getElem? hget

end TaskRegistry

end Vyuh.Tasks
