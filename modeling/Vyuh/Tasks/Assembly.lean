import Vyuh.Tasks.Registry

/-! How the registry of a site comes about: bundles register lanes and tasks and are merged, in whatever order and
    nesting. A registry that was assembled without an error holds just what was registered, and whether there is an
    error does not depend on the order either. -/

namespace Vyuh.Tasks
open Lib

/-- One registration of a bundle. -/
inductive Item where
  | lane (lane : LaneDefinition)
  | task (task : TaskEntry)

namespace Item

/-- Two registrations that do not collide: lanes have names of their own, and tasks names and input types. -/
def Apart : Item → Item → Prop
  | .lane a, .lane b => a.lane ≠ b.lane
  | .task a, .task b => a.name ≠ b.name ∧ a.typeId ≠ b.typeId
  | _, _ => True

/-- A registration that is allowed whatever else is registered. -/
def Allowed : Item → Prop
  | .lane a => a.lane ≠ defaultTaskLane
  | .task t => validateTaskName t.name = .ok ()

theorem Apart.symm {a b : Item} (h : a.Apart b) : b.Apart a := by
  cases a with
  | lane a =>
    cases b with
    | lane b => exact Ne.symm h
    | task b => trivial
  | task a =>
    cases b with
    | lane b => trivial
    | task b => exact ⟨h.1.symm, h.2.symm⟩

instance : Std.Symm Apart := ⟨fun _ _ => Apart.symm⟩

theorem not_apart_self (a : Item) : ¬ a.Apart a := by
  cases a with
  | lane a => exact fun h => h rfl
  | task a => exact fun h => h.1 rfl

end Item

/-- Registrations that can all be made at one site. -/
structure Admissible (items : List Item) : Prop where
  allowed : ∀ item ∈ items, item.Allowed
  apart : items.Pairwise Item.Apart

namespace Admissible

variable {items others : List Item}

theorem nil : Admissible [] := ⟨fun _ hm => (by cases hm), .nil⟩

theorem perm (h : Admissible items) (hperm : items.Perm others) : Admissible others where
  allowed item hm := h.allowed item (hperm.mem_iff.mpr hm)
  apart := (hperm.pairwise_iff Item.Apart.symm).mp h.apart

theorem append : Admissible (items ++ others) ↔ Admissible items ∧ Admissible others ∧
    ∀ a ∈ items, ∀ b ∈ others, a.Apart b := by
  constructor
  · intro h
    obtain ⟨hitems, hothers, hcross⟩ := List.pairwise_append.mp h.apart
    exact ⟨⟨fun item hm => h.allowed item (List.mem_append_left _ hm), hitems⟩,
      ⟨fun item hm => h.allowed item (List.mem_append_right _ hm), hothers⟩, hcross⟩
  · rintro ⟨h, h', hcross⟩
    refine ⟨fun item hm => ?_, List.pairwise_append.mpr ⟨h.apart, h'.apart, hcross⟩⟩
    rcases List.mem_append.mp hm with hm | hm
    · exact h.allowed item hm
    · exact h'.allowed item hm

theorem singleton {item : Item} : Admissible [item] ↔ item.Allowed :=
  ⟨fun h => h.allowed item List.mem_cons_self, fun h =>
    ⟨fun _ hm => List.mem_singleton.mp hm ▸ h, List.pairwise_singleton _ _⟩⟩

theorem nodup (h : Admissible items) : items.Nodup :=
  h.apart.imp fun {a b} hapart heq => by
    subst heq
    exact Item.not_apart_self a hapart

end Admissible

namespace TaskRegistry

def registerItem (self : TaskRegistry) : Item → Except RegistryError TaskRegistry
  | .lane lane => self.registerLane lane
  | .task task => self.register task

/-- A registry that holds just what was registered. -/
structure Holds (registry : TaskRegistry) (items : List Item) : Prop where
  admissible : Admissible items
  sorted : registry.laneDefaults.Sorted
  lanes : ∀ key lane, (key, lane) ∈ registry.laneDefaults ↔ .lane lane ∈ items ∧ lane.lane = key
  tasks : ∀ name task, registry.tasks.lookup name = some task ↔ .task task ∈ items ∧ task.name = name
  typed : ∀ typeId name, registry.typedMap.lookup typeId = some name ↔
    ∃ task, .task task ∈ items ∧ task.typeId = typeId ∧ task.name = name

variable {r r' s : TaskRegistry} {items others : List Item}

theorem Holds.new : Holds new [] := by
  refine ⟨.nil, .nil, fun key lane => ?_, fun name task => ?_, fun typeId name => ?_⟩
  · simp [TaskRegistry.new]
  · simp [TaskRegistry.new]
  · simp [TaskRegistry.new]

theorem Holds.perm (h : Holds r items) (hperm : items.Perm others) : Holds r others where
  admissible := h.admissible.perm hperm
  sorted := h.sorted
  lanes key lane := by rw [h.lanes, hperm.mem_iff]
  tasks name task := by rw [h.tasks, hperm.mem_iff]
  typed typeId name := by simp only [h.typed, hperm.mem_iff]

/-- A name is free exactly when no registered task has it. -/
theorem Holds.free_name (h : Holds r items) {name : String} :
    ¬ (r.tasks.lookup name).isSome = true ↔ ∀ task, .task task ∈ items → task.name ≠ name := by
  rw [Option.not_isSome_iff_eq_none, Option.eq_none_iff_forall_ne_some]
  simp only [ne_eq, h.tasks, not_and]

theorem Holds.free_type (h : Holds r items) {typeId : TypeId} :
    ¬ (r.typedMap.lookup typeId).isSome = true ↔ ∀ task, .task task ∈ items → task.typeId ≠ typeId := by
  rw [Option.not_isSome_iff_eq_none, Option.eq_none_iff_forall_ne_some]
  simp only [ne_eq, h.typed, not_exists, not_and]
  exact ⟨fun hfree task hm heq => hfree task.name task hm heq rfl, fun hfree name task hm heq _ => hfree task hm heq⟩

theorem Holds.free_lane (h : Holds r items) {key : TaskLane} :
    ¬ r.laneDefaults.containsKey key = true ↔ ∀ lane, .lane lane ∈ items → lane.lane ≠ key := by
  rw [BTreeMap.containsKey_iff, not_exists]
  simp only [h.lanes, not_and, ne_eq]

/-- A registration that comes to those there are. -/
theorem Holds.join_iff (h : Holds r items) {item : Item} :
    Admissible (items ++ [item]) ↔ item.Allowed ∧ ∀ a ∈ items, a.Apart item := by
  rw [Admissible.append, Admissible.singleton]
  simp only [List.mem_singleton, forall_eq]
  exact ⟨fun h => h.2, fun hjoin => ⟨h.admissible, hjoin⟩⟩

/-- A task is registered exactly when it collides with nothing, and then it is one of the registrations. -/
theorem register_ok (h : Holds r items) {task : TaskEntry} :
    r.register task = .ok r' ↔ Admissible (items ++ [.task task]) ∧
      r' = { r with
        typedMap := r.typedMap.insert task.typeId task.name
        tasks := r.tasks.insert task.name task } := by
  have hjoin : (∀ a ∈ items, a.Apart (.task task)) ↔
      (∀ other, .task other ∈ items → other.name ≠ task.name) ∧
        ∀ other, .task other ∈ items → other.typeId ≠ task.typeId := by
    constructor
    · intro hall
      exact ⟨fun other hm => (hall _ hm).1, fun other hm => (hall _ hm).2⟩
    · rintro ⟨hname, htype⟩ (lane | other) hm
      · trivial
      · exact ⟨hname other hm, htype other hm⟩
  rw [h.join_iff, hjoin, ← h.free_name, ← h.free_type, register, Item.Allowed]
  cases hvalid : validateTaskName task.name with
  | error error => simp
  | ok done =>
    simp only [Step.except_check_ok, not_or, Except.ok.injEq, true_and]
    exact and_congr_right fun _ => eq_comm

theorem registerLane_ok (h : Holds r items) {lane : LaneDefinition} :
    r.registerLane lane = .ok r' ↔ Admissible (items ++ [.lane lane]) ∧
      r' = { r with laneDefaults := BTreeMap.insert r.laneDefaults lane.lane lane } := by
  have hjoin : (∀ a ∈ items, a.Apart (.lane lane)) ↔ ∀ other, .lane other ∈ items → other.lane ≠ lane.lane := by
    constructor
    · exact fun hall other hm => hall _ hm
    · rintro hname (other | task) hm
      · exact hname other hm
      · trivial
  rw [h.join_iff, hjoin, ← h.free_lane, registerLane, Item.Allowed]
  simp only [Step.except_check_ok, Except.ok.injEq, and_assoc]
  exact and_congr_right fun _ => and_congr_right fun _ => eq_comm

theorem Holds.registered (h : Holds r items) {task : TaskEntry} (hok : r.register task = .ok r') :
    Holds r' (items ++ [.task task]) := by
  obtain ⟨hadmissible, rfl⟩ := (register_ok h).mp hok
  have hnew := (h.join_iff.mp hadmissible).2
  refine ⟨hadmissible, h.sorted, fun key lane => ?_, fun name other => ?_, fun typeId name => ?_⟩
  · simp [h.lanes]
  · rw [Dict.lookup_insert_apply]
    simp only [List.mem_append, List.mem_singleton, Item.task.injEq]
    split
    next heq =>
      subst heq
      rw [Option.some.injEq]
      constructor
      · rintro rfl
        exact ⟨.inr rfl, rfl⟩
      · rintro ⟨hm | rfl, hname⟩
        · exact absurd hname (hnew _ hm).1
        · rfl
    next hne =>
      rw [h.tasks]
      constructor
      · exact fun ⟨hm, hname⟩ => ⟨.inl hm, hname⟩
      · rintro ⟨hm | rfl, hname⟩
        · exact ⟨hm, hname⟩
        · exact absurd hname.symm hne
  · rw [Dict.lookup_insert_apply]
    simp only [List.mem_append, List.mem_singleton, Item.task.injEq]
    split
    next heq =>
      subst heq
      rw [Option.some.injEq]
      constructor
      · rintro rfl
        exact ⟨task, .inr rfl, rfl, rfl⟩
      · rintro ⟨other, hm | rfl, htype, hname⟩
        · exact absurd htype (hnew _ hm).2
        · exact hname
    next hne =>
      rw [h.typed]
      constructor
      · exact fun ⟨other, hm, hother⟩ => ⟨other, .inl hm, hother⟩
      · rintro ⟨other, hm | rfl, htype, hname⟩
        · exact ⟨other, hm, htype, hname⟩
        · exact absurd htype.symm hne

theorem Holds.registeredLane (h : Holds r items) {lane : LaneDefinition} (hok : r.registerLane lane = .ok r') :
    Holds r' (items ++ [.lane lane]) := by
  obtain ⟨hadmissible, rfl⟩ := (registerLane_ok h).mp hok
  have hnew := (h.join_iff.mp hadmissible).2
  refine ⟨hadmissible, h.sorted.insert _ _, fun key other => ?_, fun name task => ?_, fun typeId name => ?_⟩
  · rw [BTreeMap.mem_insert, h.lanes, Prod.mk.injEq, List.mem_append, List.mem_singleton, Item.lane.injEq]
    constructor
    · rintro (⟨rfl, rfl⟩ | ⟨⟨hm, rfl⟩, -⟩)
      · exact ⟨.inr rfl, rfl⟩
      · exact ⟨.inl hm, rfl⟩
    · rintro ⟨hm | rfl, rfl⟩
      · exact .inr ⟨⟨hm, rfl⟩, hnew _ hm⟩
      · exact .inl ⟨rfl, rfl⟩
  · simp [h.tasks]
  · simp [h.typed]

/-- One registration: it is made exactly when it may be, and then it is held with the others. -/
theorem Holds.item (h : Holds r items) (item : Item) :
    ((∃ r', r.registerItem item = .ok r') ↔ Admissible (items ++ [item])) ∧
      ∀ r', r.registerItem item = .ok r' → Holds r' (items ++ [item]) := by
  cases item with
  | lane lane =>
    refine ⟨⟨fun ⟨r', hok⟩ => ((registerLane_ok h).mp hok).1, fun hadmissible => ?_⟩, fun r' hok => h.registeredLane hok⟩
    exact ⟨_, (registerLane_ok h).mpr ⟨hadmissible, rfl⟩⟩
  | task task =>
    refine ⟨⟨fun ⟨r', hok⟩ => ((register_ok h).mp hok).1, fun hadmissible => ?_⟩, fun r' hok => h.registered hok⟩
    exact ⟨_, (register_ok h).mpr ⟨hadmissible, rfl⟩⟩

/-- Registrations one after the other. -/
theorem Holds.fold : ∀ (new : List Item) {items : List Item} {r : TaskRegistry}, Holds r items →
    ((∃ r', new.foldlM registerItem r = .ok r') ↔ Admissible (items ++ new)) ∧
      ∀ r', new.foldlM registerItem r = .ok r' → Holds r' (items ++ new)
  | [], items, r, h => by
    simp only [List.foldlM_nil, List.append_nil]
    refine ⟨⟨fun _ => h.admissible, fun _ => ⟨r, rfl⟩⟩, fun r' hok => ?_⟩
    cases hok
    exact h
  | item :: new, items, r, h => by
    simp only [List.foldlM_cons, Step.except_bind_ok, List.append_cons items item new]
    obtain ⟨hiff, hholds⟩ := h.item item
    constructor
    · constructor
      · rintro ⟨r', mid, hmid, hrest⟩
        exact (Holds.fold new (hholds mid hmid)).1.mp ⟨r', hrest⟩
      · intro hadmissible
        obtain ⟨mid, hmid⟩ := hiff.mpr (Admissible.append.mp hadmissible).1
        obtain ⟨r', hrest⟩ := (Holds.fold new (hholds mid hmid)).1.mpr hadmissible
        exact ⟨r', mid, hmid, hrest⟩
    · rintro r' ⟨mid, hmid, hrest⟩
      exact (Holds.fold new (hholds mid hmid)).2 r' hrest

/-- The registrations a registry brings into a merge, in the order they are taken over. -/
def contents (r : TaskRegistry) : List Item :=
  r.laneDefaults.values.map .lane ++ r.tasks.toList.map fun entry => .task entry.2

/-- Under its own name a merged task is a registered one. -/
theorem mergeTask_eq (r : TaskRegistry) (task : TaskEntry) : r.mergeTask task.name task = r.register task := by
  rw [mergeTask, register]
  cases validateTaskName task.name with
  | error error => rfl
  | ok done =>
    simp only
    split_ifs with hname hor htype hor hor
    · rfl
    · exact absurd (.inl hname) hor
    · rfl
    · exact absurd (.inr htype) hor
    · exact absurd hor (not_or.mpr ⟨hname, htype⟩)
    · rfl

/-- A merge registers what the other registry holds. -/
theorem Holds.merge_eq (h : Holds s others) (r : TaskRegistry) : r.merge s = s.contents.foldlM registerItem r := by
  have hlanes : ∀ (lanes : List LaneDefinition) (r : TaskRegistry),
      (lanes.map Item.lane).foldlM registerItem r = lanes.foldlM registerLane r := by
    intro lanes r
    rw [List.foldlM_map]
    rfl
  have htasks : ∀ (entries : List (String × TaskEntry)) (r : TaskRegistry), (∀ e ∈ entries, e.2.name = e.1) →
      (entries.map fun e => Item.task e.2).foldlM registerItem r =
        entries.foldlM (fun r e => r.mergeTask e.1 e.2) r := by
    intro entries
    induction entries with
    | nil => exact fun r _ => rfl
    | cons entry entries ih =>
      intro r hnames
      obtain ⟨hentry, hrest⟩ := List.forall_mem_cons.mp hnames
      rw [List.map_cons, List.foldlM_cons, List.foldlM_cons, ← hentry, mergeTask_eq, registerItem]
      exact bind_congr fun r' => ih r' hrest
  have hnames : ∀ e ∈ s.tasks.toList, e.2.name = e.1 := fun e hm =>
    ((h.tasks e.1 e.2).mp (Dict.mem_toList.mp hm)).2
  rw [merge, contents, List.foldlM_append, hlanes]
  exact bind_congr fun r' => (htasks _ r' hnames).symm

theorem Holds.contents_perm (h : Holds s others) : s.contents.Perm others := by
  have hkeys : ∀ key lane, (key, lane) ∈ s.laneDefaults → key = lane.lane := fun key lane hm =>
    ((h.lanes key lane).mp hm).2.symm
  have hlanes : s.laneDefaults.values.Nodup := BTreeMap.nodup_values h.sorted.nodup_keys fun key other lane hm hother =>
    (hkeys key lane hm).trans (hkeys other lane hother).symm
  have htasks : (s.tasks.toList.map fun entry => Item.task entry.2).Nodup := by
    refine List.Nodup.map_on ?_ (List.Nodup.of_map Prod.fst (Dict.nodup_keys_toList s.tasks))
    rintro ⟨name, task⟩ hm ⟨name', task'⟩ hm' heq
    obtain rfl := Item.task.inj heq
    rw [← ((h.tasks name task).mp (Dict.mem_toList.mp hm)).2, ((h.tasks name' task).mp (Dict.mem_toList.mp hm')).2]
  have hnodup : s.contents.Nodup := by
    refine List.nodup_append.mpr ⟨hlanes.map fun a b heq => Item.lane.inj heq, htasks, ?_⟩
    intro a ha b hb heq
    obtain ⟨lane, -, rfl⟩ := List.mem_map.mp ha
    obtain ⟨entry, -, rfl⟩ := List.mem_map.mp hb
    cases heq
  refine (List.perm_ext_iff_of_nodup hnodup h.admissible.nodup).mpr fun item => ?_
  rw [contents, List.mem_append, BTreeMap.values, List.map_map, List.mem_map, List.mem_map]
  cases item with
  | lane lane =>
    constructor
    · rintro (⟨⟨key, other⟩, hm, heq⟩ | ⟨entry, -, heq⟩)
      · obtain rfl := Item.lane.inj heq
        exact ((h.lanes key other).mp hm).1
      · cases heq
    · exact fun hm => .inl ⟨(lane.lane, lane), (h.lanes _ _).mpr ⟨hm, rfl⟩, rfl⟩
  | task task =>
    constructor
    · rintro (⟨entry, -, heq⟩ | ⟨⟨name, other⟩, hm, heq⟩)
      · cases heq
      · obtain rfl := Item.task.inj heq
        exact ((h.tasks name other).mp (Dict.mem_toList.mp hm)).1
    · exact fun hm => .inr ⟨(task.name, task), Dict.mem_toList.mpr ((h.tasks _ _).mpr ⟨hm, rfl⟩), rfl⟩

/-- Two registries merge exactly when nothing of one collides with anything of the other. -/
theorem Holds.merged (h : Holds r items) (h' : Holds s others) :
    ((∃ r', r.merge s = .ok r') ↔ Admissible (items ++ others)) ∧
      ∀ r', r.merge s = .ok r' → Holds r' (items ++ others) := by
  have hperm := (List.perm_append_left_iff items).mpr h'.contents_perm
  obtain ⟨hiff, hholds⟩ := Holds.fold s.contents h
  rw [h'.merge_eq]
  refine ⟨hiff.trans ⟨fun hadmissible => hadmissible.perm hperm, fun hadmissible => hadmissible.perm hperm.symm⟩, ?_⟩
  exact fun r' hok => (hholds r' hok).perm hperm

end TaskRegistry

/-! ### Assemblies -/

/-- How the registry of a site is made: registrations and merges of bundles that were made in the same way. -/
inductive Assembly where
  | new
  | register (assembly : Assembly) (item : Item)
  | merge (assembly other : Assembly)

namespace Assembly

def items : Assembly → List Item
  | .new => []
  | .register assembly item => assembly.items ++ [item]
  | .merge assembly other => assembly.items ++ other.items

def run : Assembly → Except RegistryError TaskRegistry
  | .new => .ok .new
  | .register assembly item => do
    let registry ← assembly.run
    registry.registerItem item
  | .merge assembly other => do
    let registry ← assembly.run
    let other ← other.run
    registry.merge other

/-- An assembly succeeds exactly when its registrations can all be made at one site, and then holds them. -/
theorem run_holds : ∀ assembly : Assembly, ((∃ r, assembly.run = .ok r) ↔ Admissible assembly.items) ∧
    ∀ r, assembly.run = .ok r → r.Holds assembly.items
  | .new => by
    refine ⟨⟨fun _ => .nil, fun _ => ⟨_, rfl⟩⟩, fun r hok => ?_⟩
    cases hok
    exact .new
  | .register assembly item => by
    obtain ⟨hiff, hholds⟩ := run_holds assembly
    simp only [run, items, Step.except_bind_ok]
    constructor
    · constructor
      · rintro ⟨r', r, hrun, hok⟩
        exact ((hholds r hrun).item item).1.mp ⟨r', hok⟩
      · intro hadmissible
        obtain ⟨r, hrun⟩ := hiff.mpr (Admissible.append.mp hadmissible).1
        obtain ⟨r', hok⟩ := ((hholds r hrun).item item).1.mpr hadmissible
        exact ⟨r', r, hrun, hok⟩
    · rintro r' ⟨r, hrun, hok⟩
      exact ((hholds r hrun).item item).2 r' hok
  | .merge assembly other => by
    obtain ⟨hiff, hholds⟩ := run_holds assembly
    obtain ⟨hiff', hholds'⟩ := run_holds other
    simp only [run, items, Step.except_bind_ok]
    constructor
    · constructor
      · rintro ⟨r', r, hrun, s, hrun', hok⟩
        exact ((hholds r hrun).merged (hholds' s hrun')).1.mp ⟨r', hok⟩
      · intro hadmissible
        obtain ⟨hleft, hright, -⟩ := Admissible.append.mp hadmissible
        obtain ⟨r, hrun⟩ := hiff.mpr hleft
        obtain ⟨s, hrun'⟩ := hiff'.mpr hright
        obtain ⟨r', hok⟩ := ((hholds r hrun).merged (hholds' s hrun')).1.mpr hadmissible
        exact ⟨r', r, hrun, s, hrun', hok⟩
    · rintro r' ⟨r, hrun, s, hrun', hok⟩
      exact ((hholds r hrun).merged (hholds' s hrun')).2 r' hok

end Assembly

end Vyuh.Tasks
