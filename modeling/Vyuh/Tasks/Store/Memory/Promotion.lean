import Vyuh.Tasks.Store.Memory.Lifecycle

/-! Direct admission as a walk over rows: each row is kept, or it was eligible and is granted to the
    admitting node exactly as a claim would grant it. `Promotes` records the walk; both admission paths
    of the store are such walks. -/

namespace Vyuh.Tasks.Memory
open Lib

/-- A walk over rows from position `i` on: `taken` are the granted rows, in order. -/
inductive Promotes (eligible : ℕ → TaskRecord → Prop) (node : Uuid) (now : DateTime) :
    ℕ → List TaskRecord → List TaskRecord → List TaskRecord → Prop
  | nil (i : ℕ) : Promotes eligible node now i [] [] []
  | keep {i : ℕ} {rows rows' taken : List TaskRecord} (r : TaskRecord)
      (rest : Promotes eligible node now (i + 1) rows rows' taken) :
      Promotes eligible node now i (r :: rows) (r :: rows') taken
  | take {i : ℕ} {rows rows' taken : List TaskRecord} {r r' : TaskRecord} (ready : eligible i r)
      (granted : claimTask node now r = (.ok (), r'))
      (rest : Promotes eligible node now (i + 1) rows rows' taken) :
      Promotes eligible node now i (r :: rows) (r' :: rows') (r' :: taken)

section

variable {eligible : ℕ → TaskRecord → Prop} {node : Uuid} {now : DateTime} {i : ℕ}
  {rows rows' taken : List TaskRecord}

/-- A walk that takes nothing. -/
theorem Promotes.refl (node : Uuid) : ∀ (i : ℕ) (rows : List TaskRecord),
    Promotes eligible node now i rows rows []
  | i, [] => .nil i
  | i, r :: rows => .keep r (Promotes.refl node (i + 1) rows)

/-- A row of the walk is what it was, or granted. -/
theorem Promotes.moves (h : Promotes eligible node now i rows rows' taken) :
    Rows (fun r r' => r' = r ∨ ((∃ j, eligible j r) ∧ claimTask node now r = (.ok (), r'))) rows rows' := by
  induction h with
  | nil i => exact .nil
  | keep r rest ih => exact .cons (.inl rfl) ih
  | take ready granted rest ih => exact .cons (.inr ⟨⟨_, ready⟩, granted⟩) ih

/-- Eligibility may use where a row stands. -/
theorem Promotes.imp {eligible' : ℕ → TaskRecord → Prop}
    (h : Promotes eligible node now i rows rows' taken)
    (himp : ∀ j r, rows[j]? = some r → eligible (i + j) r → eligible' (i + j) r) :
    Promotes eligible' node now i rows rows' taken := by
  induction h with
  | nil i => exact .nil i
  | @keep i rows rows' taken r rest ih =>
    refine .keep r (ih fun j t hj ht => ?_)
    rw [show i + 1 + j = i + (j + 1) by omega] at ht ⊢
    exact himp (j + 1) t hj ht
  | @take i rows rows' taken r r' ready granted rest ih =>
    refine .take (himp 0 r rfl ready) granted (ih fun j t hj ht => ?_)
    rw [show i + 1 + j = i + (j + 1) by omega] at ht ⊢
    exact himp (j + 1) t hj ht

/-- Promotion of pending rows is a steady move. -/
theorem Promotes.steady (h : Promotes eligible node now i rows rows' taken)
    (hp : ∀ j r, eligible j r → r.status = .pending) :
    Rows (Steady (· = node) (· = now)) rows rows' := by
  refine h.moves.imp fun r r' hr => ?_
  rcases hr with rfl | ⟨⟨j, hready⟩, hgrant⟩
  · exact Steady.refl r'
  · exact steady_grant (by rw [hp j r hready]; rfl) hgrant

/-- Nothing eligible, nothing granted. -/
theorem Promotes.none (h : Promotes eligible node now i rows rows' taken)
    (hno : ∀ j r, rows[j]? = some r → ¬ eligible (i + j) r) : rows' = rows := by
  induction h with
  | nil i => rfl
  | @keep i rows rows' taken r rest ih =>
    rw [ih fun j t hj ht => hno (j + 1) t hj (by rwa [show i + (j + 1) = i + 1 + j by omega])]
  | @take i rows rows' taken r r' ready granted rest ih => exact absurd ready (hno 0 r rfl)

end

theorem direct_pending {record : TaskRecord} {conf : TaskStoreConf} {now : DateTime}
    (h : direct record conf now = true) : record.status = .pending := by
  simp only [direct, Bool.and_eq_true, decide_eq_true_eq] at h
  exact h.1.1.1

theorem exec_ok_iff {m : Step TaskRecord TaskRuntimeError Unit} {r t : TaskRecord} :
    m.exec r = .ok t ↔ m r = (.ok (), t) := by
  rw [Step.exec_ok]
  exact ⟨fun ⟨_, h⟩ => h, fun h => ⟨(), h⟩⟩

/-! ### Submissions -/

section

variable {conf : TaskStoreConf} {node : Uuid} {now : DateTime}

/-- Staged submissions are promoted where they stand, within the limit. -/
theorem admitStaged_promotes : ∀ (staged : List TaskRecord) (i limit : ℕ) (rows tasks : List TaskRecord),
    admitStaged conf node now limit staged = .ok (rows, tasks) →
      Promotes (fun _ r => direct r conf now = true) node now i staged rows tasks ∧
        tasks.length ≤ limit
  | [], i, limit, rows, tasks, h => by
    obtain ⟨rfl, rfl⟩ := Prod.mk.inj (Except.ok.inj h)
    exact ⟨.nil i, Nat.zero_le _⟩
  | record :: staged, i, limit, rows, tasks, h => by
    rw [admitStaged] at h
    split at h
    · next hdirect =>
      obtain ⟨admitted, ha, h⟩ := Step.except_bind_ok.mp h
      obtain ⟨⟨rows', tasks'⟩, hrest, h⟩ := Step.except_bind_ok.mp h
      obtain ⟨rfl, rfl⟩ := Prod.mk.inj (Except.ok.inj h)
      obtain ⟨hwalk, hlen⟩ := admitStaged_promotes staged (i + 1) (limit - 1) rows' tasks' hrest
      refine ⟨.take hdirect.2 (exec_ok_iff.mp ha) hwalk, ?_⟩
      rw [List.length_cons]
      omega
    · obtain ⟨⟨rows', tasks'⟩, hrest, h⟩ := Step.except_bind_ok.mp h
      obtain ⟨rfl, rfl⟩ := Prod.mk.inj (Except.ok.inj h)
      obtain ⟨hwalk, hlen⟩ := admitStaged_promotes staged (i + 1) limit rows' tasks' hrest
      exact ⟨.keep record hwalk, hlen⟩

/-- A grant only fails when a counter is full. -/
theorem grant_total (node : Uuid) (now : DateTime) {r : TaskRecord} (ha : checkedAdd32 r.attempts 1 = some (r.attempts + 1))
    (hs : checkedAdd32 r.stepAttempts 1 = some (r.stepAttempts + 1)) :
    ∃ r', grant node now r = (.ok (), r') := ⟨_, grant_ok.mpr ⟨ha, hs, rfl⟩⟩

/-- Promotion of rows whose counters are not full succeeds. -/
theorem admitStaged_total : ∀ (staged : List TaskRecord) (limit : ℕ),
    (∀ r ∈ staged, checkedAdd32 r.attempts 1 = some (r.attempts + 1) ∧
      checkedAdd32 r.stepAttempts 1 = some (r.stepAttempts + 1)) →
    ∃ rows tasks, admitStaged conf node now limit staged = .ok (rows, tasks)
  | [], limit, _ => ⟨[], [], rfl⟩
  | record :: staged, limit, h => by
    have hrest := fun limit => admitStaged_total staged limit fun r hr => h r (List.mem_cons_of_mem _ hr)
    rw [admitStaged]
    split
    · obtain ⟨ha, hs⟩ := h record List.mem_cons_self
      obtain ⟨admitted, hgrant⟩ := grant_total node now ha hs
      obtain ⟨rows, tasks, hok⟩ := hrest (limit - 1)
      refine ⟨admitted :: rows, admitted :: tasks, ?_⟩
      have hexec : (admitRecord node now).exec record = .ok admitted := exec_ok_iff.mpr hgrant
      rw [hexec, hok]
      rfl
    · obtain ⟨rows, tasks, hok⟩ := hrest limit
      refine ⟨record :: rows, tasks, ?_⟩
      rw [hok]
      rfl

theorem promote_promotes {conf : Option TaskStoreConf} {limit : ℕ} {staged rows tasks : List TaskRecord}
    (h : promote conf node now limit staged = .ok (rows, tasks)) :
    Promotes (fun _ r => ∃ c, conf = some c ∧ direct r c now = true) node now 0 staged rows tasks ∧
      tasks.length ≤ limit := by
  cases conf with
  | none =>
    obtain ⟨rfl, rfl⟩ := Prod.mk.inj (Except.ok.inj h)
    exact ⟨keep_all staged 0, Nat.zero_le _⟩
  | some conf =>
    obtain ⟨hwalk, hlen⟩ := admitStaged_promotes staged 0 limit rows tasks h
    exact ⟨hwalk.imp fun _ r _ hr => ⟨conf, rfl, hr⟩, hlen⟩
where
  keep_all {eligible : ℕ → TaskRecord → Prop} : ∀ (l : List TaskRecord) (i : ℕ),
      Promotes eligible node now i l l []
    | [], i => .nil i
    | r :: l, i => .keep r (keep_all l (i + 1))

theorem promote_rows {conf : Option TaskStoreConf} {limit : ℕ} {staged rows tasks : List TaskRecord}
    (h : promote conf node now limit staged = .ok (rows, tasks)) :
    Rows (Steady (· = node) (· = now)) staged rows := by
  refine (promote_promotes h).1.steady ?_
  rintro _ r ⟨c, -, hdirect⟩
  exact direct_pending hdirect

/-! ### Commits -/

/-- One row of `admit_committed`: kept, or admissible and granted within the limit. -/
inductive AdmitsRow (eligible : Prop) (node : Uuid) (now : DateTime) (acc : Admission) (r : TaskRecord) :
    Admission × TaskRecord → Prop
  | keep (shown : List TaskRecord) : AdmitsRow eligible node now acc r
      (⟨acc.index + 1, acc.limit, acc.tasks ++ shown⟩, r)
  | take {r' : TaskRecord} (shown : List TaskRecord) (ready : eligible) (slots : 0 < acc.limit)
      (granted : claimTask node now r = (.ok (), r')) : AdmitsRow eligible node now acc r
      (⟨acc.index + 1, acc.limit - 1, acc.tasks ++ r' :: shown⟩, r')

theorem admitRow_cases {state : MemoryState} {before : ℕ} {commits : List TaskCommit}
    {cached : List TaskRecord} {rejected : List TaskId} (acc : Admission) (r : TaskRecord) :
    AdmitsRow (admissible state conf before cached now acc.index r = true) node now acc r
      (admitRow state conf before commits node cached now rejected acc r) := by
  rw [admitRow]
  generalize hopt : (if admissible state conf before cached now acc.index r = true ∧ 0 < acc.limit then
    ((admitRecord node now).exec r).toOption else none) = opt
  -- a committed flow adds the row once more as a checkpoint
  cases opt with
  | none =>
    simp only [Option.getD_none, Option.toList_none, Option.isSome_none, Bool.false_eq_true, if_false]
    split
    · simpa only [List.append_nil] using AdmitsRow.keep [r]
    · exact .keep []
  | some r' =>
    have htaken : (admissible state conf before cached now acc.index r = true ∧ 0 < acc.limit) ∧
        claimTask node now r = (.ok (), r') := by
      split at hopt
      · next hadm =>
        cases hg : (admitRecord node now).exec r with
        | error e => rw [hg] at hopt; exact nomatch hopt
        | ok admitted =>
          rw [hg] at hopt
          obtain rfl := Option.some.inj hopt
          exact ⟨hadm, exec_ok_iff.mp hg⟩
      · exact nomatch hopt
    obtain ⟨⟨hready, hslots⟩, hgrant⟩ := htaken
    simp only [Option.getD_some, Option.toList_some, Option.isSome_some, if_true]
    split
    · rw [List.append_assoc]
      exact .take [r'] hready hslots hgrant
    · exact .take [] hready hslots hgrant

/-- The walk of `admit_committed`: the rows, and the snapshots it adds to the answer. -/
theorem admitRows_promotes (conf : TaskStoreConf) (state : MemoryState) (before : ℕ)
    (commits : List TaskCommit) (node : Uuid) (cached : List TaskRecord) (now : DateTime)
    (rejected : List TaskId) : ∀ (rows : List TaskRecord) (acc : Admission),
    ∃ taken shown, Promotes (fun i r => admissible state conf before cached now i r = true) node now
        acc.index rows (mapAccum (admitRow state conf before commits node cached now rejected) acc rows).2
        taken ∧
      taken.length ≤ acc.limit ∧ taken.Sublist shown ∧
      (mapAccum (admitRow state conf before commits node cached now rejected) acc rows).1.tasks =
        acc.tasks ++ shown
  | [], acc => ⟨[], [], .nil _, Nat.zero_le _, .slnil, (List.append_nil _).symm⟩
  | r :: rows, acc => by
    rw [mapAccum]
    have hrow : AdmitsRow (admissible state conf before cached now acc.index r = true) node now acc r
      (admitRow state conf before commits node cached now rejected acc r) := admitRow_cases acc r
    generalize admitRow state conf before commits node cached now rejected acc r = out at hrow
    obtain ⟨taken, shown, hwalk, hlen, hsub, htasks⟩ :=
      admitRows_promotes conf state before commits node cached now rejected rows out.1
    cases hrow with
    | keep more =>
      refine ⟨taken, more ++ shown, .keep r hwalk, hlen, ?_, ?_⟩
      · exact hsub.trans (List.sublist_append_right _ _)
      · rw [htasks, List.append_assoc]
    | @take r' more ready slots granted =>
      refine ⟨r' :: taken, r' :: (more ++ shown), .take ready granted hwalk, ?_, ?_, ?_⟩
      · simp only [List.length_cons] at hlen ⊢
        omega
      · exact (hsub.trans (List.sublist_append_right _ _)).cons_cons _
      · rw [htasks, List.append_assoc]
        rfl

/-- Promotion after a commit: a walk over the committed store. -/
theorem admitCommitted_promotes (state : MemoryState) (before : ℕ) (commits : List TaskCommit)
    (node : Uuid) (limit : ℕ) (cached : List TaskRecord) (now : DateTime) (result : CommitResult) :
    ∃ rows taken shown,
      Promotes (fun i r => ∃ conf, state.conf = some conf ∧
        admissible state conf before cached now i r = true) node now 0 state.tasks rows taken ∧
      taken.length ≤ limit ∧ taken.Sublist shown ∧
      admitCommitted state before commits node limit cached now result =
        ({ state with tasks := rows }, { result with tasks := result.tasks ++ shown }) := by
  cases hc : state.conf with
  | none =>
    refine ⟨state.tasks, [], [], promote_promotes.keep_all state.tasks 0, Nat.zero_le _, .slnil, ?_⟩
    have hsame : admitCommitted state before commits node limit cached now result = (state, result) := by
      rw [admitCommitted, hc]
    rw [hsame, List.append_nil, ← hc]
  | some conf =>
    obtain ⟨taken, shown, hwalk, hlen, hsub, htasks⟩ := admitRows_promotes conf state before commits
      node cached now result.rejected state.tasks ⟨0, limit, result.tasks⟩
    rw [admitCommitted, hc]
    refine ⟨_, taken, shown, hwalk.imp fun i r _ hr => ⟨conf, rfl, hr⟩, hlen, hsub, ?_⟩
    simp only [htasks]

/-- An admissible row is ownerless and passes the checks of a direct admission. -/
theorem direct_of_admissible {state : MemoryState} {conf : TaskStoreConf} {before : ℕ}
    {cached : List TaskRecord} {now : DateTime} {i : ℕ} {r : TaskRecord}
    (h : admissible state conf before cached now i r = true) :
    r.nodeId = none ∧ direct r conf now = true := by
  simp only [admissible, Bool.and_eq_true] at h
  exact ⟨Option.isNone_iff_eq_none.mp h.1.1.1.1.2, h.2⟩

theorem admitCommitted_rows (state : MemoryState) (before : ℕ) (commits : List TaskCommit) (node : Uuid)
    (limit : ℕ) (cached : List TaskRecord) (now : DateTime) (result : CommitResult) :
    (admitCommitted state before commits node limit cached now result).1.conf = state.conf ∧
      Rows (Steady (· = node) (· = now)) state.tasks
        (admitCommitted state before commits node limit cached now result).1.tasks := by
  obtain ⟨rows, taken, shown, hwalk, -, -, heq⟩ :=
    admitCommitted_promotes state before commits node limit cached now result
  rw [heq]
  refine ⟨rfl, hwalk.steady ?_⟩
  rintro i r ⟨conf, -, hadm⟩
  exact direct_pending (direct_of_admissible hadm).2

end

end Vyuh.Tasks.Memory
