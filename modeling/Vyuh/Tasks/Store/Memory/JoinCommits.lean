import Vyuh.Tasks.Store.Memory.JoinStaging

/-! Commit turns keep the joins of a store. A task that a batch puts to sleep ran, so it was owed nothing
    and had no wait: when its wait is installed and its children are stored, what it is owed is what was
    staged for it. -/

namespace Vyuh.Tasks.Memory
open Lib

/-! ### Installing waits -/

/-- The parents of empty groups wake. -/
def woken (waits : List (TaskId × TaskWait)) (now : DateTime) (r : TaskRecord) : TaskRecord :=
  if waits.any (fun entry => entry.1 = r.id && entry.2.children.isEmpty) then wake now r else r

theorem woken_frame (waits : List (TaskId × TaskWait)) (now : DateTime) (r : TaskRecord) :
    (woken waits now r).id = r.id ∧ (woken waits now r).parentId = r.parentId ∧
      (woken waits now r).cancelled = r.cancelled := by
  rw [woken]
  split <;> exact ⟨rfl, rfl, rfl⟩

/-- A record with no wait to install stays. -/
theorem woken_of_free {waits : List (TaskId × TaskWait)} {now : DateTime} {r : TaskRecord}
    (h : r.id ∉ waits.map (·.1)) : woken waits now r = r := by
  rw [woken, if_neg]
  simp only [List.any_eq_true, Bool.and_eq_true, decide_eq_true_eq, not_exists, not_and]
  rintro entry he hid -
  exact h (hid ▸ List.mem_map_of_mem he)

theorem woken_cons (entry : TaskId × TaskWait) (waits : List (TaskId × TaskWait)) (now : DateTime)
    (r : TaskRecord) : woken waits now (woken [entry] now r) = woken (entry :: waits) now r := by
  rw [woken, (woken_frame [entry] now r).1, woken, woken, List.any_cons, List.any_cons, List.any_nil,
    Bool.or_false]
  cases (decide (entry.1 = r.id) && entry.2.children.isEmpty) <;>
    cases waits.any (fun entry => entry.1 = r.id && entry.2.children.isEmpty) <;> rfl

/-- Rewriting the one row with an identifier. -/
theorem modifyFirst_id {id : TaskId} {f : TaskRecord → TaskRecord} : ∀ {rows : List TaskRecord},
    (rows.map (·.id)).Nodup →
      modifyFirst (fun r => r.id = id) f rows = rows.map (fun r => if r.id = id then f r else r)
  | [], _ => rfl
  | r :: rows, hd => by
    rw [List.map_cons, List.nodup_cons] at hd
    rw [modifyFirst, List.map_cons]
    split
    · next hid =>
      have hid := of_decide_eq_true hid
      have hrest : rows.map (fun r => if r.id = id then f r else r) = rows.map (fun r => r) :=
        List.map_congr_left fun other ho => by
          rw [if_neg fun he => hd.1 (List.mem_map.mpr ⟨other, ho, he.trans hid.symm⟩)]
      rw [if_pos hid, hrest, List.map_id']
    · next hid =>
      rw [if_neg (by simpa using hid), modifyFirst_id hd.2]

/-- Installing waits wakes the parents of empty groups and stores every wait. -/
theorem installed_eq (now : DateTime) : ∀ (waits : List (TaskId × TaskWait)) (state : MemoryState),
    state.Distinct → (waits.map (·.1)).Nodup →
      (installed now state waits).tasks = state.tasks.map (woken waits now) ∧
        ∀ id, (installed now state waits).waits id =
          ((waits.find? (fun entry => entry.1 = id)).map (·.2)).or (state.waits id)
  | [], state, _, _ => by
    have hmap : state.tasks.map (woken [] now) = state.tasks := by
      rw [List.map_congr_left fun r _ => woken_of_free (by simp), List.map_id']
    exact ⟨hmap.symm, fun _ => rfl⟩
  | entry :: waits, state, hd, hn => by
    rw [List.map_cons, List.nodup_cons] at hn
    have hone : (installOne now state entry).tasks = state.tasks.map (woken [entry] now) ∧
        (installOne now state entry).waits = state.waits.insert entry.1 entry.2 := by
      rcases installOne_cases now state entry with ⟨he, hnone⟩ | ⟨hempty, he⟩
      · rw [he]
        refine ⟨?_, rfl⟩
        have hid : ∀ r ∈ state.tasks, woken [entry] now r = r := fun r hr => by
          rw [woken, if_neg]
          simp only [List.any_cons, List.any_nil, Bool.or_false, Bool.and_eq_true, decide_eq_true_eq,
            List.isEmpty_iff, not_and]
          intro hid hchildren
          rcases hnone with hne | hno
          · exact hne hchildren
          · exact hno r hr hid.symm
        rw [List.map_congr_left hid, List.map_id']
      · rw [he]
        refine ⟨?_, rfl⟩
        simp only
        rw [modifyFirst_id hd]
        refine List.map_congr_left fun r _ => ?_
        rw [woken]
        simp [hempty, eq_comm]
    have hd' : (installOne now state entry).Distinct := by
      rw [MemoryState.Distinct, hone.1, List.map_map]
      have hids : ((·.id) ∘ woken [entry] now) = (·.id) := by
        funext r
        exact (woken_frame _ _ r).1
      rw [hids]
      exact hd
    obtain ⟨htasks, hwaits⟩ := installed_eq now waits (installOne now state entry) hd' hn.2
    rw [installed, List.foldl_cons, ← installed]
    refine ⟨?_, fun id => ?_⟩
    · rw [htasks, hone.1, List.map_map]
      exact List.map_congr_left fun r _ => woken_cons entry waits now r
    · rw [hwaits, hone.2, List.find?_cons]
      split
      · next hid =>
        have hid := of_decide_eq_true hid
        have hnone : waits.find? (fun entry => entry.1 = id) = none := by
          rw [List.find?_eq_none]
          intro other ho he
          exact hn.1 (List.mem_map.mpr ⟨other, ho, (of_decide_eq_true he).trans hid.symm⟩)
        rw [hnone, hid, FMap.insert_self]
        rfl
      · next hid =>
        rw [FMap.insert_of_ne _ _ fun he => by simp [he] at hid]

theorem find_of_free {waits : List (TaskId × TaskWait)} {id : TaskId} (h : id ∉ waits.map (·.1)) :
    waits.find? (fun entry => entry.1 = id) = none := by
  rw [List.find?_eq_none]
  intro entry he hid
  exact h (of_decide_eq_true hid ▸ List.mem_map_of_mem he)

/-! ### The children of a batch -/

theorem owing_le_members (children : List TaskRecord) (parent : TaskId) :
    owing creditor children parent ≤ (members children parent).length := by
  rw [owing, members, List.countP_eq_length_filter]
  refine List.Sublist.length_le (List.monotone_filter_right _ fun child hc => ?_)
  rw [decide_eq_true_eq, creditor_eq_some] at hc
  exact decide_eq_true hc.2

theorem owing_eq_members {children : List TaskRecord} {parent : TaskId}
    (h : ∀ child ∈ members children parent, child.status = .pending) :
    owing creditor children parent = (members children parent).length := by
  rw [owing, members, ← List.countP_eq_length_filter]
  refine List.countP_congr fun child hc => ?_
  rw [decide_eq_true_eq, decide_eq_true_eq, creditor_eq_some]
  refine and_iff_right_of_imp fun hp => ?_
  rw [h child (List.mem_filter.mpr ⟨hc, decide_eq_true hp⟩)]
  rfl

section

variable [Serde] {state : MemoryState} {now : DateTime} {commits : List TaskCommit} {staged : Staged}
  {turn : Turn}

/-- A row of a written batch is an old one, or the next version of one of the batch's tasks. -/
theorem Commits.row_cases (hd : state.Distinct) (h : Commits now commits state.begin staged turn) :
    ∀ r ∈ turn.state.tasks, (r ∈ state.tasks ∧ r.id ∉ staged.updates.map (·.2.id)) ∨
      ∃ update ∈ staged.updates, update.2 = r := by
  intro r hr
  obtain ⟨i, hi⟩ := List.mem_iff_getElem?.mp hr
  by_cases hm : i ∈ staged.updates.map (·.1)
  · obtain ⟨update, hu, rfl⟩ := List.mem_map.mp hm
    exact .inr ⟨update, hu, Option.some.inj ((h.written hu).symm.trans hi)⟩
  · rw [h.result, overwrite_untouched _ _ _ hm] at hi
    have hi : state.tasks[i]? = some r := hi
    refine .inl ⟨List.mem_of_getElem? hi, fun hid => hm ?_⟩
    obtain ⟨update, hu, he⟩ := List.mem_map.mp hid
    rcases h.staging.updated update hu with hu' | ⟨commit, -, row, ha, conf, lane, outcome, ht⟩
    · cases hu'
    · have hrow : row.id = r.id := ht.concludes.concluded.id.symm.trans he
      have hlt := (List.getElem?_eq_some_iff.mp hi).1
      have hstored : state.tasks[update.1]? = some row := ha.stored
      have hsame : (state.tasks.map (·.id))[i]? = (state.tasks.map (·.id))[update.1]? := by
        rw [List.getElem?_map, List.getElem?_map, hi, hstored, Option.map_some, Option.map_some, hrow]
      have hindex : i = update.1 := (List.getElem?_inj (by simpa using hlt) hd).mp hsame
      exact List.mem_map.mpr ⟨update, hu, hindex.symm⟩

/-- A task of a batch was active; what is not ended afterwards ran before, and is not cancelled. -/
theorem Commits.update_cases (h : Commits now commits state.begin staged turn) {update : ℕ × TaskRecord}
    (hu : update ∈ staged.updates) : ∃ row ∈ state.tasks, row.id = update.2.id ∧
      row.parentId = update.2.parentId ∧ isActive row.status = true ∧ update.2.status ≠ .running ∧
      state.tasks[update.1]? = some row ∧
      (update.2.status.terminal = false → row.status = .running ∧ update.2.cancelled = false) := by
  rcases h.staging.updated update hu with hu' | ⟨commit, -, row, ha, conf, lane, outcome, ht⟩
  · cases hu'
  · have hc := ht.concludes.concluded
    refine ⟨row, List.mem_of_getElem? ha.stored, hc.id.symm, hc.parentId.symm,
      isActive_of_accepts ha.evidence, hc.stopped, ha.stored, fun hopen => ?_⟩
    have hlive : (marked commit.isCancel row).cancelled = false := by
      cases hm : (marked commit.isCancel row).cancelled with
      | false => rfl
      | true =>
        have hcancels := ht.concludes
        rw [ht.cancelled hm] at hcancels
        rw [concludes_cancellation hcancels] at hopen
        cases hopen
    refine ⟨?_, hc.cancelled.trans hlive⟩
    have hevidence := ha.evidence
    cases commit with
    | cancel id =>
      simp [marked, TaskCommit.isCancel] at hlive
    | outcome node attempts id lane result token =>
      simp only [TaskCommit.accepts, Bool.and_eq_true, decide_eq_true_eq] at hevidence
      exact hevidence.1.1

/-- A task of a batch that is not ended was owed nothing, is owed nothing and had no wait. -/
theorem Commits.open_update (hj : Joins state) (h : Commits now commits state.begin staged turn)
    {update : ℕ × TaskRecord} (hu : update ∈ staged.updates) (hopen : update.2.status.terminal = false) :
    owing creditor turn.state.tasks update.2.id = 0 ∧ posted turn.deliveries update.2.id = 0 ∧
      state.waits update.2.id = none := by
  obtain ⟨row, hrow, hid, -, -, -, -, hran⟩ := h.update_cases hu
  obtain ⟨hrunning, -⟩ := hran hopen
  have hexpects := (hj.books.expects row hrow).awake (by rw [hrunning]; rfl) (by rw [hrunning]; simp)
  have howed := works_owed (h.works none) row.id
  change _ = owing creditor state.tasks row.id + 0 at howed
  rw [← hid]
  exact ⟨by omega, by omega, hj.running row hrow hrunning⟩

/-! ### After the batch -/

/-- The store between the installation of a batch's waits and its deliveries. -/
def MemoryState.placed (state : MemoryState) (staged : Staged) (now : DateTime) : MemoryState :=
  (installed now state staged.waits).adopt staged.children

/-- Where the rows and waits of a placed batch come from, and what a parent is owed there. -/
structure Placed (state : MemoryState) (staged : Staged) (now : DateTime) (turn : Turn) (after : MemoryState) :
    Prop where
  distinct : after.Distinct
  rows : ∀ r ∈ after.tasks, r ∈ staged.children ∨
    (r ∈ state.tasks ∧ r.id ∉ staged.updates.map (·.2.id)) ∨
    ∃ update ∈ staged.updates, r = woken staged.waits now update.2
  stored : ∀ r ∈ state.tasks, ∃ r' ∈ after.tasks, r'.id = r.id ∧ r'.parentId = r.parentId
  children : ∀ child ∈ staged.children, child ∈ after.tasks
  waits : ∀ id, after.waits id =
    ((staged.waits.find? (fun entry => entry.1 = id)).map (·.2)).or (state.waits id)
  owed : ∀ id, owing creditor after.tasks id =
    owing creditor turn.state.tasks id + owing creditor staged.children id

theorem Commits.placed (hd : state.Distinct) (h : Commits now commits state.begin staged turn) {limit : ℕ}
    (hshape : Shaped staged limit) : Placed state staged now turn (turn.state.placed staged now) := by
  have hinstallable := h.installable hd
  have hrows := works_rows (h.works none)
  have hids : turn.state.tasks.map (·.id) = state.tasks.map (·.id) := hrows.map_eq fun _ _ h => h.id
  have hdturn : turn.state.Distinct := by
    rw [MemoryState.Distinct, hids]
    exact hd
  have hwaits : turn.state.waits = state.waits := (works_frame (h.works none)).2
  obtain ⟨htasks, hinstalled⟩ := installed_eq now staged.waits turn.state hdturn hinstallable.distinct
  have hplaced : (turn.state.placed staged now).tasks =
      turn.state.tasks.map (woken staged.waits now) ++ staged.children := by
    rw [MemoryState.placed, MemoryState.adopt, htasks]
  obtain ⟨hbatch, -⟩ := h.staging.adopts
  refine ⟨?_, fun r hr => ?_, fun r hr => ?_, fun child hc => ?_, fun id => ?_, fun id => ?_⟩
  · have hwoken : ((·.id) ∘ woken staged.waits now) = (·.id) := by
      funext r
      exact (woken_frame _ _ r).1
    rw [MemoryState.Distinct, hplaced, List.map_append, List.map_map, hwoken, hids]
    exact hbatch.nodup hd
  · rw [hplaced, List.mem_append] at hr
    rcases hr with hr | hr
    · obtain ⟨r₀, hr₀, rfl⟩ := List.mem_map.mp hr
      rcases h.row_cases hd r₀ hr₀ with ⟨hold, hfree⟩ | ⟨update, hu, rfl⟩
      · refine .inr (.inl ?_)
        rw [woken_of_free fun hm => hfree ?_]
        · exact ⟨hold, hfree⟩
        · obtain ⟨update, hu, he⟩ := hshape.waits _ hm
          exact List.mem_map.mpr ⟨update, hu, he⟩
      · exact .inr (.inr ⟨update, hu, rfl⟩)
    · exact .inl hr
  · obtain ⟨r₀, hr₀, hsteady⟩ := hrows.mem_left hr
    obtain ⟨hid, hparent, -⟩ := woken_frame staged.waits now r₀
    refine ⟨woken staged.waits now r₀, ?_, hid.trans hsteady.id, hparent.trans hsteady.parentId⟩
    rw [hplaced]
    exact List.mem_append_left _ (List.mem_map_of_mem hr₀)
  · rw [hplaced]
    exact List.mem_append_right _ hc
  · rw [← hwaits]
    exact hinstalled id
  · rw [hplaced, owing_append]
    congr 1
    refine owing_rows (rows_map _ _ fun r hr => ?_) id
    rw [woken]
    split
    · next hwake =>
      obtain ⟨entry, he, hentry⟩ := List.any_eq_true.mp hwake
      simp only [Bool.and_eq_true, decide_eq_true_eq] at hentry
      have hs := hinstallable.suspended entry he r hr hentry.1.symm
      rw [creditor, creditor, hs]
      rfl
    · rfl

omit [Serde] in
/-- The wait a batch installs for one of its tasks, and what becomes of the task. -/
theorem Stages.cases (now : DateTime) {limit : ℕ} {task : TaskRecord} (h : Stages staged limit task)
    (hn : (staged.waits.map (·.1)).Nodup) :
    (staged.waits.find? (fun entry => entry.1 = task.id) =
        some (task.id, preparedWait task.id staged.children) ∧ task.status = .suspended ∧
      (members staged.children task.id).length ≤ limit ∧
      (∀ child ∈ members staged.children task.id, child.status = .pending) ∧
      woken staged.waits now task = if members staged.children task.id = [] then wake now task else task) ∨
    (staged.waits.find? (fun entry => entry.1 = task.id) = none ∧ woken staged.waits now task = task ∧
      (members staged.children task.id).length ≤ 1 ∧
      (task.status ≠ .suspended → members staged.children task.id = [])) := by
  rcases h with ⟨ha, hsmall, hpend, hw⟩ | ⟨ha, hone, hfree⟩ | ⟨ha, hnone, hfree⟩
  · refine .inl ⟨find?_key hn hw, ha, hsmall, hpend, ?_⟩
    have hany : staged.waits.any (fun entry => entry.1 = task.id && entry.2.children.isEmpty) =
        decide (members staged.children task.id = []) := by
      rw [Bool.eq_iff_iff, List.any_eq_true, decide_eq_true_eq]
      constructor
      · rintro ⟨entry, he, hentry⟩
        simp only [Bool.and_eq_true, decide_eq_true_eq, List.isEmpty_iff] at hentry
        have hsame : entry = (task.id, preparedWait task.id staged.children) :=
          List.inj_on_of_nodup_map hn he hw hentry.1
        have hchildren : entry.2.children = [] := hentry.2
        rw [hsame, preparedWait_children] at hchildren
        exact List.map_eq_nil_iff.mp hchildren
      · intro hnil
        refine ⟨_, hw, ?_⟩
        simp [preparedWait_children, hnil]
    rw [woken, hany]
    simp
  · exact .inr ⟨find_of_free hfree, woken_of_free hfree, hone, fun hs => absurd ha hs⟩
  · exact .inr ⟨find_of_free hfree, woken_of_free hfree, by simp [hnone], fun _ => hnone⟩

end

end Vyuh.Tasks.Memory
