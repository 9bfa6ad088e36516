import Vyuh.Lib.Sorting
import Vyuh.Tasks.Store.Memory.Lifecycle

/-! The two passes of a claim over one lane's due tasks. The first finalizes the finished tasks among
    the first `limit` of them (`failExhausted_fails`); the second selects again from what is left
    (`claimLane_grants`). What is left is computed from the rows before the first pass: `standing` is
    the lane's queue without the finished tasks of its first `limit` places. -/

namespace Vyuh.Tasks.Memory
open Lib

variable {queue : List ℕ} {tasks tasks' : List TaskRecord} {i : ℕ} {row : TaskRecord}

/-! ### The queue -/

/-- A lane's due tasks in the order they are claimed. -/
def waiting (tasks : List TaskRecord) (lane : String) (now : DateTime) : List ℕ :=
  sortByReadiness tasks now (dueIndices tasks lane now)

/-- Whether the row at a position meets `p`. -/
def rowMeets (tasks : List TaskRecord) (p : TaskRecord → Bool) (index : ℕ) : Bool := tasks[index]?.any p

theorem rowMeets_iff {p : TaskRecord → Bool} :
    rowMeets tasks p i = true ↔ ∃ row, tasks[i]? = some row ∧ p row = true := Option.any_eq_true _ _

/-- Whether a task has used up its lane's attempts. -/
def spent (retry : TaskRetry) (task : TaskRecord) : Bool :=
  decide (retry.maxAttempts ≤ task.stepAttempts.toNat)

/-- Whether the first pass finalizes a task it looks at. -/
def finalizes (retry : TaskRetry) (task : TaskRecord) : Bool := task.cancelled || spent retry task

/-- Work that has not been cancelled. -/
def wantedWork (task : TaskRecord) : Bool := task.kind = .work && !task.cancelled

/-- A lane's queue after the first pass. -/
def standing (tasks : List TaskRecord) (lane : String) (limit : ℕ) (now : DateTime) (retry : TaskRetry) :
    List ℕ :=
  ((waiting tasks lane now).take limit).filter (fun i => !rowMeets tasks (finalizes retry) i) ++
    (waiting tasks lane now).drop limit

theorem readinessLe_trans {a b c : Option (DateTime × DateTime × TaskId)} (h : readinessLe a b = true)
    (h' : readinessLe b c = true) : readinessLe a c = true := by
  rcases a with _ | ⟨a, a', a''⟩
  · rfl
  rcases b with _ | ⟨b, b', b''⟩
  · exact nomatch h
  rcases c with _ | ⟨c, c', c''⟩
  · exact nomatch h'
  simp only [readinessLe, Bool.or_eq_true, Bool.and_eq_true, decide_eq_true_eq, BitVec.le_def] at *
  rcases h with h | ⟨rfl, h | ⟨rfl, h⟩⟩
  · rcases h' with h' | ⟨rfl, -⟩
    · exact .inl (lt_trans h h')
    · exact .inl h
  · rcases h' with h' | ⟨rfl, h' | ⟨rfl, -⟩⟩
    · exact .inl h'
    · exact .inr ⟨rfl, .inl (lt_trans h h')⟩
    · exact .inr ⟨rfl, .inl h⟩
  · rcases h' with h' | ⟨rfl, h' | ⟨rfl, h'⟩⟩
    · exact .inl h'
    · exact .inr ⟨rfl, .inl h'⟩
    · exact .inr ⟨rfl, .inr ⟨rfl, le_trans h h'⟩⟩

theorem readinessLe_total (a b : Option (DateTime × DateTime × TaskId)) :
    readinessLe a b = true ∨ readinessLe b a = true := by
  rcases a with _ | ⟨a, a', a''⟩
  · exact .inl rfl
  rcases b with _ | ⟨b, b', b''⟩
  · exact .inr rfl
  simp only [readinessLe, Bool.or_eq_true, Bool.and_eq_true, decide_eq_true_eq, BitVec.le_def]
  rcases lt_trichotomy a b with h | rfl | h
  · exact .inl (.inl h)
  · rcases lt_trichotomy a' b' with h | rfl | h
    · exact .inl (.inr ⟨rfl, .inl h⟩)
    · rcases le_total a''.uuid.toNat b''.uuid.toNat with h | h
      · exact .inl (.inr ⟨rfl, .inr ⟨rfl, h⟩⟩)
      · exact .inr (.inr ⟨rfl, .inr ⟨rfl, h⟩⟩)
    · exact .inr (.inr ⟨rfl, .inl h⟩)
  · exact .inr (.inl h)

/-- Dropping candidates before or after sorting them is the same. -/
theorem filter_sortByReadiness (tasks : List TaskRecord) (now : DateTime) (p : ℕ → Bool)
    (indices : List ℕ) :
    (sortByReadiness tasks now indices).filter p = sortByReadiness tasks now (indices.filter p) := by
  have : IsTrans ℕ (fun i j =>
      readinessLe (tasks[i]?.map (readiness · now)) (tasks[j]?.map (readiness · now)) = true) :=
    ⟨fun _ _ _ h h' => readinessLe_trans h h'⟩
  have : Std.Total (fun i j : ℕ =>
      readinessLe (tasks[i]?.map (readiness · now)) (tasks[j]?.map (readiness · now)) = true) :=
    ⟨fun _ _ => readinessLe_total _ _⟩
  exact filter_insertionSort p indices

/-- Sorting reads only the rows it sorts. -/
theorem sortByReadiness_congr {indices : List ℕ} (now : DateTime)
    (h : ∀ i ∈ indices, tasks'[i]? = tasks[i]?) :
    sortByReadiness tasks' now indices = sortByReadiness tasks now indices := by
  refine insertionSort_congr fun i hi j hj => ?_
  rw [h i hi, h j hj]

theorem waiting_nodup (tasks : List TaskRecord) (lane : String) (now : DateTime) :
    (waiting tasks lane now).Nodup :=
  (sortByReadiness_perm tasks now _).nodup_iff.mpr (dueIndices_nodup tasks lane now)

theorem mem_waiting {lane : String} {now : DateTime} :
    i ∈ waiting tasks lane now ↔ ∃ row, tasks[i]? = some row ∧ row.lane = lane ∧ isDue row now = true := by
  rw [waiting, (sortByReadiness_perm tasks now _).mem_iff]
  refine ⟨mem_dueIndices, ?_⟩
  rintro ⟨row, hrow, hlane, hdue⟩
  refine List.mem_filter.mpr ⟨List.mem_range.mpr (List.getElem?_eq_some_iff.mp hrow).1, ?_⟩
  rw [hrow, Option.any_some, hdue, hlane]
  simp

/-- What stands after the first pass: the queue without the finished tasks it looked at. -/
theorem standing_eq_filter (tasks : List TaskRecord) (lane : String) (limit : ℕ) (now : DateTime)
    (retry : TaskRetry) : standing tasks lane limit now retry = (waiting tasks lane now).filter (fun i =>
      !(decide (i ∈ (waiting tasks lane now).take limit) && rowMeets tasks (finalizes retry) i)) := by
  have hsplit := (List.take_append_drop limit (waiting tasks lane now)).symm
  have hnodup := waiting_nodup tasks lane now
  have hlater : ∀ i ∈ (waiting tasks lane now).drop limit, i ∉ (waiting tasks lane now).take limit := by
    intro i hd ht
    rw [hsplit] at hnodup
    exact (List.nodup_append.mp hnodup).2.2 i ht i hd rfl
  conv_rhs => rw [hsplit]
  rw [List.filter_append, standing]
  congr 1
  · refine List.filter_congr fun i hi => ?_
    rw [List.take_append_drop]
    simp [hi]
  · rw [List.take_append_drop, List.filter_eq_self.mpr]
    intro i hi
    simp [hlater i hi]

/-! ### The first pass -/

/-- Where the check passes, it says whether the task is over, and a task that is not cancelled has a
    count of attempts. -/
theorem finished_ok {retry : TaskRetry} {b : Bool} (h : finished retry row = .ok b) :
    b = finalizes retry row ∧ (row.cancelled = false → 0 ≤ row.stepAttempts) := by
  rw [finished] at h
  split at h
  · next hc =>
    cases h
    refine ⟨?_, fun hn => ?_⟩
    · rw [finalizes, hc, Bool.true_or]
    · rw [hc] at hn
      exact nomatch hn
  · next hc =>
    simp only [TaskRetry.exhausted, Step.except_check_ok] at h
    obtain ⟨hcount, h⟩ := h
    cases h
    refine ⟨?_, fun _ => not_lt.mp hcount⟩
    rw [finalizes, spent, Bool.eq_false_of_not_eq_true hc, Bool.false_or]

section

variable [Serde] {now : DateTime} {conf : TaskStoreConf} {retry : TaskRetry}

/-- A finalized task has failed, with its attempts as they were. -/
theorem Concludes.failed {cancelled : Bool} {row row' : TaskRecord}
    (h : Concludes conf retry now (exhaustedOutcome cancelled) row row') :
    row'.status = .failed ∧ row'.stepAttempts = row.stepAttempts := by
  obtain ⟨applied, happ, hfin⟩ := h
  obtain ⟨⟨expiry, rfl⟩, -⟩ := finalizeIdempotency_ok hfin
  simp only [applyOutcome, Step.bind_ok, Step.modify_ok] at happ
  obtain ⟨_, mid, hmid, rfl⟩ := happ
  cases cancelled <;>
  · obtain rfl := Step.modify_ok.mp hmid
    exact ⟨rfl, rfl⟩

/-- What finalizing the candidates at `indices` leaves of the rows. -/
structure Fails (now : DateTime) (conf : TaskStoreConf) (retry : TaskRetry) (indices : List ℕ)
    (rows rows' : List TaskRecord) : Prop where
  length : rows'.length = rows.length
  kept : ∀ i, (i ∈ indices → rowMeets rows (finalizes retry) i = false) → rows'[i]? = rows[i]?
  ended : ∀ i ∈ indices, ∀ row, rows[i]? = some row → finalizes retry row = true →
    ∃ row', rows'[i]? = some row' ∧ Concludes conf retry now (exhaustedOutcome row.cancelled) row row'
  counted : ∀ i ∈ indices, ∀ row, rows[i]? = some row → row.cancelled = false → 0 ≤ row.stepAttempts

/-- Nothing of the store but its rows changes. -/
def RowsOnly (turn turn' : Turn) : Prop :=
  turn'.state = { turn.state with tasks := turn'.state.tasks }

omit [Serde] in
theorem RowsOnly.trans {a b c : Turn} (h : RowsOnly a b) (h' : RowsOnly b c) : RowsOnly a c := by
  rw [RowsOnly] at *
  rw [h] at h'
  exact h'

theorem failCandidate_fails {turn turn' : Turn} {u : Unit}
    (h : failCandidate now conf retry i turn = (.ok u, turn')) :
    RowsOnly turn turn' ∧ Fails now conf retry [i] turn.state.tasks turn'.state.tasks := by
  simp only [failCandidate, Step.bind_ok, Step.lift_ok] at h
  obtain ⟨row, _, hread, b, _, ⟨hfinished, rfl⟩, h⟩ := h
  obtain ⟨hrow, rfl⟩ := taskAt_ok.mp hread
  obtain ⟨rfl, hcount⟩ := finished_ok hfinished
  have hcounted : ∀ j ∈ [i], ∀ r, turn.state.tasks[j]? = some r → r.cancelled = false →
      0 ≤ r.stepAttempts := by
    intro j hj r hr
    obtain rfl := List.mem_singleton.mp hj
    obtain rfl := Option.some.inj (hrow.symm.trans hr)
    exact hcount
  cases hover : finalizes retry row with
  | false =>
    rw [hover] at h
    obtain rfl := (Step.pure_ok.mp h).2
    refine ⟨rfl, rfl, fun _ _ => rfl, fun j hj r hr ho => ?_, hcounted⟩
    obtain rfl := List.mem_singleton.mp hj
    obtain rfl := Option.some.inj (hrow.symm.trans hr)
    rw [hover] at ho
    cases ho
  | true =>
    rw [hover, if_pos rfl] at h
    simp only [Step.bind_ok, Step.pure_ok] at h
    obtain ⟨new, _, ht, -, rfl⟩ := h
    obtain ⟨deliveries, hm, rfl⟩ := touch_ok ht
    obtain ⟨hc, rfl⟩ := failRow_ok hm
    refine ⟨rfl, List.length_set, fun j hj => ?_, fun j hj r hr _ => ?_, hcounted⟩
    · refine List.getElem?_set_ne ?_
      rintro rfl
      have hnot := hj (List.mem_singleton_self _)
      rw [rowMeets, hrow, Option.any_some, hover] at hnot
      cases hnot
    · obtain rfl := List.mem_singleton.mp hj
      obtain rfl := Option.some.inj (hrow.symm.trans hr)
      exact ⟨new, List.getElem?_set_self (List.getElem?_eq_some_iff.mp hrow).1, hc⟩

theorem Fails.nil (rows : List TaskRecord) : Fails now conf retry [] rows rows :=
  ⟨rfl, fun _ _ => rfl, fun _ h => (nomatch h), fun _ h => nomatch h⟩

/-- The work on one candidate leaves the others to be done. -/
theorem Fails.cons {indices : List ℕ} {rows rows' rows'' : List TaskRecord} (hi : i ∉ indices)
    (h : Fails now conf retry [i] rows rows') (h' : Fails now conf retry indices rows' rows'') :
    Fails now conf retry (i :: indices) rows rows'' := by
  have hlater : ∀ j ∈ indices, rows'[j]? = rows[j]? := fun j hj =>
    h.kept j fun hmem => absurd (List.mem_singleton.mp hmem ▸ hj) hi
  refine ⟨h'.length.trans h.length, fun j hj => ?_, fun j hj row hrow hover => ?_,
    fun j hj row hrow => ?_⟩
  · rw [h'.kept j, h.kept j]
    · intro hmem
      exact hj (List.mem_singleton.mp hmem ▸ List.mem_cons_self)
    · intro hmem
      rw [rowMeets, hlater j hmem]
      exact hj (List.mem_cons_of_mem _ hmem)
  · rcases List.mem_cons.mp hj with rfl | hj
    · obtain ⟨row', hrow', hc⟩ := h.ended j (List.mem_singleton_self _) row hrow hover
      exact ⟨row', by rw [h'.kept j fun hmem => absurd hmem hi, hrow'], hc⟩
    · exact h'.ended j hj row ((hlater j hj).trans hrow) hover
  · rcases List.mem_cons.mp hj with rfl | hj
    · exact h.counted j (List.mem_singleton_self _) row hrow
    · exact h'.counted j hj row ((hlater j hj).trans hrow)

theorem failEach_fails : ∀ (indices : List ℕ) (turn turn' : Turn) (u : Unit), indices.Nodup →
    Step.each (failCandidate now conf retry) indices turn = (.ok u, turn') →
      RowsOnly turn turn' ∧ Fails now conf retry indices turn.state.tasks turn'.state.tasks
  | [], turn, _, _, _, h => by
    obtain rfl := (Step.pure_ok.mp h).2
    exact ⟨rfl, .nil _⟩
  | i :: indices, turn, turn', u, hn, h => by
    rw [Step.each, Step.bind_ok] at h
    obtain ⟨_, turn₁, h₁, h₂⟩ := h
    obtain ⟨hi, hn⟩ := List.nodup_cons.mp hn
    obtain ⟨hframe, hfirst⟩ := failCandidate_fails h₁
    obtain ⟨hframe', hrest⟩ := failEach_fails indices turn₁ turn' u hn h₂
    exact ⟨hframe.trans hframe', .cons hi hfirst hrest⟩

/-- The first pass finalizes the finished tasks of the window and leaves every other row alone. -/
theorem failExhausted_fails {lane : String} {limit : ℕ} {turn turn' : Turn} {u : Unit}
    (h : failExhausted lane limit now conf retry turn = (.ok u, turn')) :
    RowsOnly turn turn' ∧ Fails now conf retry ((waiting turn.state.tasks lane now).take limit)
      turn.state.tasks turn'.state.tasks := by
  simp only [failExhausted, Step.bind_ok, Step.get_ok] at h
  obtain ⟨_, _, ⟨rfl, rfl⟩, h⟩ := h
  exact failEach_fails _ _ _ _ ((waiting_nodup _ _ _).sublist (List.take_sublist _ _)) h

variable {lane : String} {limit : ℕ} {rows rows' : List TaskRecord}

/-- After the first pass the lane's queue is what stood. -/
theorem Fails.waiting_eq (h : Fails now conf retry ((waiting rows lane now).take limit) rows rows') :
    waiting rows' lane now = standing rows lane limit now retry := by
  let gone : ℕ → Bool := fun i =>
    decide (i ∈ (waiting rows lane now).take limit) && rowMeets rows (finalizes retry) i
  have hkept : ∀ i, gone i = false → rows'[i]? = rows[i]? := by
    intro i hi
    refine h.kept i fun hmem => ?_
    simpa [gone, hmem] using hi
  have hdue : dueIndices rows' lane now = (dueIndices rows lane now).filter (fun i => !gone i) := by
    rw [dueIndices, dueIndices, h.length, List.filter_filter]
    refine List.filter_congr fun i _ => ?_
    cases hg : gone i with
    | false => rw [hkept i hg, Bool.not_false, Bool.true_and]
    | true =>
      -- a finalized row has failed, so it is not due
      simp only [gone, Bool.and_eq_true, decide_eq_true_eq] at hg
      obtain ⟨row, hrow, hover⟩ := rowMeets_iff.mp hg.2
      obtain ⟨row', hrow', hc⟩ := h.ended i hg.1 row hrow hover
      rw [hrow', Option.any_some, isDue, hc.failed.1]
      simp
  have hrows : ∀ i ∈ (dueIndices rows lane now).filter (fun i => !gone i), rows'[i]? = rows[i]? := by
    intro i hi
    exact hkept i (by simpa using (List.mem_filter.mp hi).2)
  rw [standing_eq_filter, waiting, hdue, sortByReadiness_congr now hrows, ← filter_sortByReadiness]
  rfl

/-- What stands after the first pass stands on rows it left alone. -/
theorem Fails.standing_kept (h : Fails now conf retry ((waiting rows lane now).take limit) rows rows')
    (hi : i ∈ standing rows lane limit now retry) : rows'[i]? = rows[i]? := by
  refine h.kept i fun hmem => ?_
  rw [standing_eq_filter] at hi
  simpa [hmem] using (List.mem_filter.mp hi).2

end

/-! ### The second pass -/

/-- The part of a queue a claim selects from: without permits only Flow tasks. -/
def selectable (tasks : List TaskRecord) (queue : List ℕ) (permits : ℕ) : List ℕ :=
  if permits = 0 then queue.filter (rowMeets tasks (·.kind = .flow)) else queue

/-- The candidates a claim takes from a queue. -/
def selected (tasks : List TaskRecord) (queue : List ℕ) (permits limit : ℕ) : List ℕ :=
  retainPermitted tasks permits ((selectable tasks queue permits).take limit)

/-- The places of a queue before the one that holds `i`. -/
def ahead (queue : List ℕ) (i : ℕ) : List ℕ := queue.take (queue.idxOf i)

theorem laneCandidates_eq (tasks : List TaskRecord) (lane : String) (permits : ℕ) (now : DateTime) :
    laneCandidates tasks lane permits now = selectable tasks (waiting tasks lane now) permits := by
  rw [laneCandidates, selectable]
  split
  · exact (filter_sortByReadiness tasks now _ _).symm
  · rfl

theorem selectable_sublist (tasks : List TaskRecord) (queue : List ℕ) (permits : ℕ) :
    (selectable tasks queue permits).Sublist queue := by
  rw [selectable]
  split
  · exact List.filter_sublist
  · exact List.Sublist.refl _

theorem selected_sublist (tasks : List TaskRecord) (queue : List ℕ) (permits limit : ℕ) :
    (selected tasks queue permits limit).Sublist queue := by
  exact ((retainPermitted_sublist tasks permits _).trans (List.take_sublist limit _)).trans
    (selectable_sublist tasks queue permits)

/-- Selecting reads only the rows of the queue. -/
theorem retainPermitted_congr (permits : ℕ) (h : ∀ i ∈ queue, tasks'[i]? = tasks[i]?) :
    retainPermitted tasks' permits queue = retainPermitted tasks permits queue := by
  induction queue generalizing permits with
  | nil => rfl
  | cons i queue ih =>
    have hrec := fun permits => ih permits fun j hj => h j (List.mem_cons_of_mem _ hj)
    rw [retainPermitted.eq_def, retainPermitted.eq_def tasks permits]
    simp only [h i List.mem_cons_self, hrec]

theorem selectable_congr (permits : ℕ) (h : ∀ i ∈ queue, tasks'[i]? = tasks[i]?) :
    selectable tasks' queue permits = selectable tasks queue permits := by
  rw [selectable, selectable]
  split
  · refine List.filter_congr fun i hi => ?_
    rw [rowMeets, h i hi]
    rfl
  · rfl

theorem selected_congr (permits limit : ℕ) (h : ∀ i ∈ queue, tasks'[i]? = tasks[i]?) :
    selected tasks' queue permits limit = selected tasks queue permits limit := by
  rw [selected, selected, selectable_congr permits h]
  refine retainPermitted_congr permits fun i hi => h i ?_
  exact (selectable_sublist tasks queue permits).subset (List.mem_of_mem_take hi)

/-- How much Work a claim retains: as much as it has permits for, of the wanted Work it looks at. -/
theorem retainPermitted_work (permits : ℕ) (hrows : ∀ i ∈ queue, ∃ row, tasks[i]? = some row) :
    (retainPermitted tasks permits queue).countP (rowMeets tasks (·.kind = .work)) =
      min permits (queue.countP (rowMeets tasks wantedWork)) := by
  induction queue generalizing permits with
  | nil => rw [retainPermitted, List.countP_nil, List.countP_nil, Nat.min_zero]
  | cons i queue ih =>
    have hrec := fun permits => ih permits fun j hj => hrows j (List.mem_cons_of_mem _ hj)
    obtain ⟨row, hrow⟩ := hrows i List.mem_cons_self
    rw [retainPermitted.eq_def]
    simp only [hrow]
    cases hc : row.cancelled with
    | true =>
      have hskip : rowMeets tasks wantedWork i = false := by simp [rowMeets, hrow, wantedWork, hc]
      rw [if_pos rfl, hrec, List.countP_cons_of_neg (by simp [hskip])]
    | false =>
      rw [if_neg Bool.false_ne_true]
      cases hk : row.kind with
      | flow =>
        have hskip : rowMeets tasks wantedWork i = false := by simp [rowMeets, hrow, wantedWork, hk]
        have hflow : rowMeets tasks (·.kind = .work) i = false := by simp [rowMeets, hrow, hk]
        rw [if_pos rfl, List.countP_cons_of_neg (by simp [hflow]), hrec,
          List.countP_cons_of_neg (by simp [hskip])]
      | work =>
        have hwanted : rowMeets tasks wantedWork i = true := by simp [rowMeets, hrow, wantedWork, hk, hc]
        have hwork : rowMeets tasks (·.kind = .work) i = true := by simp [rowMeets, hrow, hk]
        rw [if_neg (by simp), List.countP_cons_of_pos hwanted]
        cases permits with
        | zero => simp only [hrec, Nat.zero_min]
        | succ permits =>
          simp only
          rw [List.countP_cons_of_pos hwork, hrec, Nat.succ_min_succ]

theorem ahead_cons_self (i : ℕ) (queue : List ℕ) : ahead (i :: queue) i = [] := by
  rw [ahead, List.idxOf_cons_self, List.take_zero]

theorem ahead_cons_ne {i j : ℕ} (h : j ≠ i) (queue : List ℕ) :
    ahead (j :: queue) i = j :: ahead queue i := by
  rw [ahead, ahead, List.idxOf_cons_ne queue h, List.take_succ_cons]

theorem mem_take_iff_ahead {i limit : ℕ} :
    i ∈ queue.take limit ↔ i ∈ queue ∧ (ahead queue i).length < limit := by
  constructor
  · intro hm
    have hi := List.mem_of_mem_take hm
    refine ⟨hi, lt_of_le_of_lt (List.length_take_le _ _) ?_⟩
    exact (List.mem_take_iff_idxOf_lt hi).mp hm
  · rintro ⟨hi, hlt⟩
    rw [ahead, List.length_take, Nat.min_eq_left List.idxOf_le_length] at hlt
    exact (List.mem_take_iff_idxOf_lt hi).mpr hlt

theorem ahead_take {i limit : ℕ} (h : i ∈ queue.take limit) :
    ahead (queue.take limit) i = ahead queue i := by
  induction queue generalizing limit with
  | nil => simp [ahead]
  | cons j queue ih =>
    cases limit with
    | zero => exact nomatch h
    | succ limit =>
      rw [List.take_succ_cons] at h ⊢
      by_cases hij : j = i
      · rw [hij, ahead_cons_self, ahead_cons_self]
      · have hm := (List.mem_cons.mp h).resolve_left (Ne.symm hij)
        rw [ahead_cons_ne hij, ahead_cons_ne hij, ih hm]

/-- A candidate's own turn to be retained. -/
theorem mem_retainPermitted_head {permits : ℕ} (hi : i ∉ queue) (hrow : tasks[i]? = some row) :
    i ∈ retainPermitted tasks permits (i :: queue) ↔
      row.cancelled = false ∧ (row.kind = .flow ∨ 0 < permits) := by
  have hrest : ∀ permits, i ∉ retainPermitted tasks permits queue := fun permits hm =>
    hi ((retainPermitted_sublist tasks permits queue).subset hm)
  rw [retainPermitted.eq_def]
  simp only [hrow]
  cases row.cancelled with
  | true => simp [hrest]
  | false =>
    cases row.kind with
    | flow => simp
    | work => cases permits <;> simp [hrest]

/-- What an earlier candidate leaves to a later one. -/
theorem mem_retainPermitted_tail {permits : ℕ} {i j : ℕ} (h : j ≠ i) :
    i ∈ retainPermitted tasks permits (j :: queue) ↔
      i ∈ retainPermitted tasks (if rowMeets tasks wantedWork j then permits - 1 else permits) queue := by
  rw [retainPermitted.eq_def]
  cases hrow : tasks[j]? with
  | none => simp [rowMeets, hrow]
  | some row =>
    cases hc : row.cancelled with
    | true => simp [rowMeets, hrow, wantedWork, hc]
    | false =>
      cases hk : row.kind with
      | flow => simp [rowMeets, hrow, wantedWork, hc, hk, Ne.symm h]
      | work => cases permits <;> simp [rowMeets, hrow, wantedWork, hc, hk, Ne.symm h]

/-- Which candidates a claim retains: Flow tasks, and Work that a permit is left for. -/
theorem mem_retainPermitted_iff (permits : ℕ) (hn : queue.Nodup) (hrow : tasks[i]? = some row) :
    i ∈ retainPermitted tasks permits queue ↔ i ∈ queue ∧ row.cancelled = false ∧
      (row.kind = .flow ∨ (ahead queue i).countP (rowMeets tasks wantedWork) < permits) := by
  induction queue generalizing permits with
  | nil => simp [retainPermitted]
  | cons j queue ih =>
    obtain ⟨hj, hn⟩ := List.nodup_cons.mp hn
    by_cases hij : j = i
    · subst hij
      rw [mem_retainPermitted_head hj hrow, ahead_cons_self, List.countP_nil]
      simp
    · have hcount : ∀ n, (if rowMeets tasks wantedWork j then n + 1 else n) < permits ↔
          n < (if rowMeets tasks wantedWork j then permits - 1 else permits) := by
        intro n
        split <;> omega
      rw [mem_retainPermitted_tail hij, ih _ hn, ahead_cons_ne hij, List.countP_cons, List.mem_cons,
        or_iff_right (Ne.symm hij), ← hcount]
      refine and_congr_right fun _ => and_congr_right fun _ => or_congr_right ?_
      split <;> rfl

/-- Which tasks of a queue a claim takes: uncancelled ones it looks at, Flow or paid for. -/
theorem mem_selected_iff (permits limit : ℕ) (hn : queue.Nodup) (hrow : tasks[i]? = some row) :
    i ∈ selected tasks queue permits limit ↔ i ∈ selectable tasks queue permits ∧
      (ahead (selectable tasks queue permits) i).length < limit ∧ row.cancelled = false ∧
      (row.kind = .flow ∨
        (ahead (selectable tasks queue permits) i).countP (rowMeets tasks wantedWork) < permits) := by
  have hnodup : (selectable tasks queue permits).Nodup := hn.sublist (selectable_sublist _ _ _)
  rw [selected, mem_retainPermitted_iff permits (hnodup.sublist (List.take_sublist limit _)) hrow,
    mem_take_iff_ahead, and_assoc]
  refine and_congr_right fun hi => and_congr_right fun hlt => ?_
  rw [ahead_take (mem_take_iff_ahead.mpr ⟨hi, hlt⟩)]

/-! ### Granting -/

/-- What granting the candidates at `indices` to `node` leaves of the rows. -/
structure Grants (node : Uuid) (now : DateTime) (indices : List ℕ) (rows : List TaskRecord)
    (tasks rows' : List TaskRecord) : Prop where
  length : rows'.length = rows.length
  kept : ∀ i, i ∉ indices → rows'[i]? = rows[i]?
  granted : List.Forall₂ (fun i task => rows'[i]? = some task ∧
    ∃ row, rows[i]? = some row ∧ grant node now row = (.ok (), task)) indices tasks

section

variable {node : Uuid} {now : DateTime}

theorem claimCandidates_grants : ∀ (indices : List ℕ) (turn turn' : Turn)
    (tasks : List TaskRecord), indices.Nodup →
    Step.collect (claimCandidate node now) indices turn = (.ok tasks, turn') →
      RowsOnly turn turn' ∧ Grants node now indices turn.state.tasks tasks turn'.state.tasks
  | [], turn, _, _, _, h => by
    obtain ⟨rfl, rfl⟩ := Step.pure_ok.mp h
    exact ⟨rfl, rfl, fun _ _ => rfl, .nil⟩
  | i :: indices, turn, turn', tasks, hn, h => by
    simp only [Step.collect, Step.bind_ok, Step.pure_ok] at h
    obtain ⟨new, turn₁, h₁, tasks, _, h₂, rfl, rfl⟩ := h
    obtain ⟨hi, hn⟩ := List.nodup_cons.mp hn
    simp only [claimCandidate, Step.bind_ok] at h₁
    obtain ⟨row, _, hread, ht⟩ := h₁
    obtain ⟨hrow, rfl⟩ := taskAt_ok.mp hread
    obtain ⟨deliveries, hm, rfl⟩ := touch_ok ht
    obtain ⟨hgrant, rfl⟩ := onRow_ok.mp hm
    obtain ⟨hframe, hrest⟩ := claimCandidates_grants indices _ _ _ hn h₂
    have hne : ∀ j ∈ indices, i ≠ j := fun j hj he => hi (he ▸ hj)
    refine ⟨hframe, hrest.length.trans List.length_set, fun j hj => ?_, .cons ⟨?_, row, hrow, hgrant⟩ ?_⟩
    · rw [hrest.kept j fun hm => hj (List.mem_cons_of_mem _ hm)]
      exact List.getElem?_set_ne fun he : i = j => hj (he ▸ List.mem_cons_self)
    · rw [hrest.kept i hi]
      exact List.getElem?_set_self (List.getElem?_eq_some_iff.mp hrow).1
    · refine ((List.forall₂_and_left _ _).mpr ⟨hne, hrest.granted⟩).imp ?_
      rintro j task ⟨hne, hnew, old, hold, hg⟩
      rw [List.getElem?_set_ne hne] at hold
      exact ⟨hnew, old, hold, hg⟩

/-- The second pass grants what it selects from the lane's queue. -/
theorem claimLane_grants {claim : LaneClaim} {permits : ℕ} {turn turn' : Turn} {poll : LanePoll}
    (h : claimLane node claim permits now turn = (.ok poll, turn')) :
    RowsOnly turn turn' ∧ Grants node now (selected turn.state.tasks
        (waiting turn.state.tasks claim.lane.asStr now) permits claim.limit) turn.state.tasks poll.tasks
        turn'.state.tasks ∧ poll.lane = claim.lane ∧
      poll.saturated = (decide (0 < claim.limit) && decide (claim.limit ≤
        (selectable turn.state.tasks (waiting turn.state.tasks claim.lane.asStr now) permits).length)) := by
  simp only [claimLane, Step.bind_ok, Step.get_ok, Step.pure_ok, laneCandidates_eq] at h
  obtain ⟨_, _, ⟨rfl, rfl⟩, claimed, _, h, rfl, rfl⟩ := h
  have hnodup := (waiting_nodup turn.state.tasks claim.lane.asStr now).sublist
    (selected_sublist turn.state.tasks _ permits claim.limit)
  obtain ⟨hframe, hgrants⟩ := claimCandidates_grants _ _ _ _ hnodup h
  exact ⟨hframe, hgrants, rfl, rfl⟩

/-- A granted task keeps its kind. -/
theorem granted_kinds {rows rows' : List TaskRecord} {indices : List ℕ}
    (h : List.Forall₂ (fun i task => rows'[i]? = some task ∧ ∃ row, rows[i]? = some row ∧
      grant node now row = (.ok (), task)) indices tasks)
    (p : TaskKind → Bool) :
    tasks.countP (fun task => p task.kind) = indices.countP (rowMeets rows (fun task => p task.kind)) := by
  induction h with
  | nil => rfl
  | @cons i task indices tasks hi _ ih =>
    obtain ⟨-, row, hrow, hg⟩ := hi
    have hkind : task.kind = row.kind := by
      have hkeeps := keeps_grant node now row
      rw [hg] at hkeeps
      exact hkeeps.kind
    rw [List.countP_cons, List.countP_cons, ih, rowMeets, hrow, Option.any_some, hkind]

end

/-- The due, uncancelled Work of a lane, counted along its queue. -/
theorem workCandidates_eq (tasks : List TaskRecord) (lane : String) (now : DateTime) :
    workCandidates tasks lane now = (waiting tasks lane now).countP (rowMeets tasks wantedWork) := by
  rw [workCandidates, ← List.countP_eq_length_filter, ← countP_positions, waiting,
    (sortByReadiness_perm tasks now _).countP_eq, dueIndices, List.countP_filter]
  refine List.countP_congr fun i _ => ?_
  cases hrow : tasks[i]? with
  | none => simp [rowMeets, hrow]
  | some row =>
    simp only [rowMeets, hrow, Option.any_some, wantedWork, Bool.and_eq_true, decide_eq_true_eq]
    tauto

end Vyuh.Tasks.Memory
