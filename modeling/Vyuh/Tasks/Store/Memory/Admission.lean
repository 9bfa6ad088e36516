import Vyuh.Tasks.Store.Memory.Fencing

/-! Direct admission agrees with the claim path. Both admissions are walks over the rows that
    `store_tasks` or `commit_tasks` alone would leave, and each row they take is one a claim at the same
    time could have taken, turned into what the claim would have made of it. New rows have no wait: the
    keys of the wait table are always identifiers of rows stored earlier. -/

namespace Vyuh.Tasks.Memory
open Lib

/-- A row an ordinary claim at `now` could take, and that waits for no group. -/
structure Claimable (state : MemoryState) (now : DateTime) (r : TaskRecord) : Prop where
  pending : r.status = .pending
  due : isDue r now = true
  wanted : r.cancelled = false
  lane : ∃ conf lane, state.conf = some conf ∧ conf.laneNamed r.lane = some lane ∧
    lane.laneLock = none ∧ (r.kind = .flow ∨ lane.globalRate = none)
  settled : state.waits r.id = none

/-- The store `state'` is `state` with at most `limit` claimable rows granted to the node; `taken` are
    the granted rows. -/
def Admits (state : MemoryState) (node : Uuid) (limit : ℕ) (now : DateTime) (state' : MemoryState)
    (taken : List TaskRecord) : Prop :=
  ∃ rows, Promotes (fun _ r => Claimable state now r) node now 0 state.tasks rows taken ∧
    taken.length ≤ limit ∧ state' = { state with tasks := rows }

/-- A submission as the framework builds it. -/
structure FreshWrite (write : TaskWrite) : Prop where
  status : write.record.status = .pending
  attempts : write.record.attempts = 0
  stepAttempts : write.record.stepAttempts = 0
  nodeId : write.record.nodeId = none

/-! ### The keys of the wait table -/

/-- Waits belong to stored rows. -/
def MemoryState.WaitsStored (state : MemoryState) : Prop :=
  ∀ id, (state.waits id).isSome = true → id ∈ state.tasks.map (·.id)

/-- Every wait of `s'` was there before or belongs to a row of `s`. -/
def WaitsFrom (s s' : MemoryState) : Prop :=
  ∀ id, (s'.waits id).isSome = true → (s.waits id).isSome = true ∨ id ∈ s.tasks.map (·.id)

theorem WaitsFrom.of_eq {s s' : MemoryState} (h : s'.waits = s.waits) : WaitsFrom s s' :=
  fun _ hid => .inl (h ▸ hid)

section

variable {state : MemoryState}

theorem installed_waits (now : DateTime) : ∀ (waits : List (TaskId × TaskWait)) (state : MemoryState)
    (id : TaskId), ((installed now state waits).waits id).isSome = true →
      (state.waits id).isSome = true ∨ id ∈ waits.map (·.1)
  | [], state, id, h => .inl h
  | entry :: waits, state, id, h => by
    rw [installed, List.foldl_cons, ← installed] at h
    have hone : (installOne now state entry).waits = state.waits.insert entry.1 entry.2 := by
      rcases installOne_cases now state entry with ⟨he, -⟩ | ⟨-, he⟩ <;> rw [he]
    rcases installed_waits now waits _ id h with hid | hid
    · rw [hone, FMap.insert_apply] at hid
      split at hid
      · next he => exact .inr (List.mem_cons.mpr (.inl he))
      · exact .inl hid
    · exact .inr (List.mem_cons_of_mem _ hid)

theorem delivered_waits (now : DateTime) (state : MemoryState) (grouped : List Grouped) (id : TaskId)
    (h : ((delivered now state grouped).waits id).isSome = true) : (state.waits id).isSome = true := by
  refine foldl_rel (R := fun s s' : MemoryState => (s'.waits id).isSome = true → (s.waits id).isSome = true)
    (fun _ h => h) (fun _ _ _ h h' hc => h (h' hc)) _ grouped state (fun s entry _ => ?_) h
  have hone := deliverOne_cases now s entry
  generalize deliverOne now s entry = s' at hone
  cases hone with
  | nobody hf => exact fun h => h
  | direct hf hw => exact fun h => h
  | underflow hf hw hd =>
    intro hid
    simp only [FMap.remove_apply] at hid
    split at hid
    · cases hid
    · exact hid
  | waiting hf hw hd | settled hf hw hd =>
    intro hid
    simp only [FMap.insert_apply] at hid
    split at hid
    · next he => rw [he, hw]; rfl
    · exact hid

theorem clearTerminal_waits (state : MemoryState) (touched : List TaskRecord) (id : TaskId)
    (h : ((clearTerminal state touched).waits id).isSome = true) : (state.waits id).isSome = true := by
  refine foldl_rel (R := fun s s' : MemoryState => (s'.waits id).isSome = true → (s.waits id).isSome = true)
    (fun _ h => h) (fun _ _ _ h h' hc => h (h' hc)) _ touched state (fun s task _ hid => ?_) h
  split at hid
  · simp only [FMap.remove_apply] at hid
    split at hid
    · cases hid
    · exact hid
  · exact hid

/-! ### The two admissions -/

/-- What `direct` checks, on an ownerless row without a wait. -/
theorem claimable_of_direct {conf : TaskStoreConf} {now : DateTime} {r : TaskRecord}
    (hc : state.conf = some conf) (h : direct r conf now = true) (hn : r.nodeId = none)
    (hw : state.waits r.id = none) : Claimable state now r := by
  simp only [direct, Bool.and_eq_true, decide_eq_true_eq, Bool.not_eq_true', Option.any_eq_true,
    Bool.or_eq_true, Option.isNone_iff_eq_none] at h
  obtain ⟨⟨⟨hpending, hwanted⟩, hready⟩, lane, hlane, hlock, hrate⟩ := h
  refine ⟨hpending, ?_, hwanted, ⟨conf, lane, hc, hlane, hlock, hrate⟩, hw⟩
  rw [isDue, hpending, hn, hready]
  rfl

/-- A walk that keeps the rows in front of it. -/
theorem Promotes.behind {eligible : ℕ → TaskRecord → Prop} {node : Uuid} {now : DateTime}
    {rows rows' taken : List TaskRecord} : ∀ (front : List TaskRecord) (i : ℕ),
    Promotes eligible node now (i + front.length) rows rows' taken →
      Promotes eligible node now i (front ++ rows) (front ++ rows') taken
  | [], _, h => h
  | r :: front, i, h => by
    refine .keep r (Promotes.behind front (i + 1) ?_)
    rwa [List.length_cons, show i + (front.length + 1) = i + 1 + front.length by omega] at h

/-- Where a walk starts does not matter when eligibility does not look at positions. -/
theorem Promotes.shift {eligible : TaskRecord → Prop} {node : Uuid} {now : DateTime} {i : ℕ}
    {rows rows' taken : List TaskRecord} (h : Promotes (fun _ r => eligible r) node now i rows rows' taken) :
    ∀ j, Promotes (fun _ r => eligible r) node now j rows rows' taken := by
  induction h with
  | nil i => exact fun j => .nil j
  | keep r rest ih => exact fun j => .keep r (ih (j + 1))
  | take ready granted rest ih => exact fun j => .take ready granted (ih (j + 1))

/-- Submissions: the store `store_tasks` leaves, with claimable new rows granted. -/
theorem storeAdmitted_admits {writes : List TaskWrite} {node : Uuid} (limit : ℕ) {now : DateTime}
    {receipts : List TaskReceipt} {state₁ : MemoryState} (hw : state.WaitsStored)
    (hf : ∀ write ∈ writes, FreshWrite write) (hn : (state.nodes node).isSome = true)
    (h : storeTasks writes now state = (.ok receipts, state₁)) :
    ∃ tasks state', storeAdmitted writes node limit now state = (.ok (receipts, tasks), state') ∧
      Admits state₁ node limit now state' tasks := by
  rcases storeTasks_cases writes now state with ⟨error, he⟩ | ⟨receipts', staged, hv, hs, hok⟩
  · rw [he] at h
    exact nomatch congrArg Prod.fst h
  rw [hok] at h
  obtain ⟨hreceipts, rfl⟩ := Prod.mk.inj h
  obtain rfl := Except.ok.inj hreceipts
  obtain ⟨hbatch, hstamped⟩ := stageWrites_fresh hs
  have hrecord : ∀ r ∈ staged, r.attempts = 0 ∧ r.stepAttempts = 0 ∧ r.nodeId = none := by
    intro r hr
    obtain ⟨write, hm, hstamp⟩ := hstamped r hr
    obtain ⟨ready, rfl⟩ := stampWrite_ok hstamp
    exact ⟨(hf write hm).attempts, (hf write hm).stepAttempts, (hf write hm).nodeId⟩
  -- fresh counters never overflow, so promotion succeeds
  obtain ⟨rows, tasks, hp⟩ : ∃ rows tasks, promote state.conf node now limit staged = .ok (rows, tasks) := by
    cases state.conf with
    | none => exact ⟨staged, [], rfl⟩
    | some conf =>
      refine admitStaged_total staged limit fun r hr => ?_
      obtain ⟨ha, hsteps, -⟩ := hrecord r hr
      rw [ha, hsteps]
      exact ⟨rfl, rfl⟩
  refine ⟨tasks, { state with tasks := state.tasks ++ rows }, ?_, ?_⟩
  · have hnone : (state.nodes node).isNone = false := by rw [← Option.not_isSome, hn]; rfl
    simp only [storeAdmitted, Step.bind_run, Step.get_run, hnone, Bool.false_eq_true, if_false,
      Step.lift_run, hv, hs, hp]
    rfl
  · obtain ⟨hwalk, hlen⟩ := promote_promotes hp
    have hwalk' : Promotes (fun _ r => Claimable { state with tasks := state.tasks ++ staged } now r)
        node now 0 staged rows tasks := by
      refine hwalk.imp ?_
      rintro j r hj ⟨conf, hc, hdirect⟩
      have hr := List.mem_of_getElem? hj
      refine claimable_of_direct hc hdirect (hrecord r hr).2.2 ?_
      cases hwait : state.waits r.id with
      | none => rfl
      | some wait =>
        obtain ⟨old, ho, hid⟩ := List.mem_map.mp (hw r.id (by rw [hwait]; rfl))
        exact absurd hid (hbatch.fresh r hr old ho)
    exact ⟨state.tasks ++ rows, .behind state.tasks 0 (hwalk'.shift _), hlen, rfl⟩

/-- A submission that fails, fails the same way when it asks for admission. -/
theorem storeAdmitted_error {writes : List TaskWrite} {node : Uuid} (limit : ℕ) {now : DateTime}
    {error : TaskRuntimeError} {state₁ : MemoryState} (hn : (state.nodes node).isSome = true)
    (h : storeTasks writes now state = (.error error, state₁)) :
    storeAdmitted writes node limit now state = (.error error, state₁) := by
  have hnone : (state.nodes node).isNone = false := by rw [← Option.not_isSome, hn]; rfl
  simp only [storeTasks, Step.bind_run, Step.get_run, Step.lift_run] at h
  simp only [storeAdmitted, Step.bind_run, Step.get_run, hnone, Bool.false_eq_true, if_false,
    Step.lift_run]
  cases hv : validateWriteLanes state writes with
  | error e =>
    rw [hv] at h
    obtain ⟨he, rfl⟩ := Prod.mk.inj h
    obtain rfl := Except.error.inj he
    rfl
  | ok u =>
    cases hs : stageWrites state.tasks now [] writes with
    | error e =>
      simp only [hv, hs] at h
      obtain ⟨he, rfl⟩ := Prod.mk.inj h
      obtain rfl := Except.error.inj he
      rfl
    | ok entry =>
      simp only [hv, hs] at h
      cases congrArg Prod.fst h

theorem respond_error {α : Type} {f : α → Response} {run : Except TaskRuntimeError α × MemoryState}
    {error : TaskRuntimeError} {s : MemoryState} (hf : ∀ a, f a ≠ .error error)
    (h : respond f run = (.error error, s)) : run = (.error error, s) := by
  obtain ⟨r, s'⟩ := run
  cases r with
  | ok a => exact absurd (congrArg Prod.fst h) (hf a)
  | error e =>
    obtain ⟨he, rfl⟩ := Prod.mk.inj h
    obtain rfl := Response.error.inj he
    rfl

theorem respondCommit_ok {run : Except (StoreFailure CommitResult) CommitResult × MemoryState}
    {result : CommitResult} {s : MemoryState} (h : respondCommit run = (.committed result, s)) :
    run = (.ok result, s) :=
  Prod.ext (respondCommit_committed (congrArg Prod.fst h))
    ((respondCommit_snd run).symm.trans (congrArg Prod.snd h))

end

/-! ### Runs -/

section

variable [Serde] (store : MemoryTaskStore) {state : MemoryState}

/-- Settling adds only the waits it installs. -/
theorem settleTurn_waits (turn : Turn) (children : List TaskRecord) (waits : List (TaskId × TaskWait))
    (phases : FMap String LaneOwnerPhase) (poll : TaskPoll) (commits : List TaskCommit) (now : DateTime)
    (id : TaskId)
    (h : ((settleTurn turn children waits phases poll commits now).1.waits id).isSome = true) :
    (turn.state.waits id).isSome = true ∨ id ∈ waits.map (·.1) := by
  obtain ⟨locks, hs⟩ := settleTurn_fst turn children waits phases poll commits now
  rw [hs] at h
  have hdelivered := clearTerminal_waits (delivered now
    ((installed now (materialized turn.state poll.tasks) waits).adopt children)
    (groupDeliveries turn.deliveries)) turn.undo id h
  have hinstalled := delivered_waits now ((installed now (materialized turn.state poll.tasks) waits).adopt
    children) (groupDeliveries turn.deliveries) id hdelivered
  rcases installed_waits now waits _ id hinstalled with hid | hid
  · rw [materialized_waits] at hid
    split at hid
    · exact nomatch hid
    · exact .inl hid
  · exact .inr hid

/-- A claim turn adds no wait. -/
theorem claimOperation_waits (hd : state.Distinct) (node : Uuid) (claims : List (LaneClaim × Uuid))
    (batch : ℕ) (lease : Duration) (now : DateTime) :
    WaitsFrom state (atomicOperation (some node) claims [] batch lease now state).2 := by
  rcases claimOperation_cases hd node claims batch lease now with he | ⟨turn, poll, hclaims, he⟩
  · exact .of_eq (congrArg MemoryState.waits he)
  · have hlogged := (keeps_claimTasksState node claims lease now state.begin).waits
    rw [hclaims] at hlogged
    rw [he]
    intro id hid
    rcases settleTurn_waits turn _ _ _ _ _ now id hid with hid | hid
    · rw [hlogged] at hid
      exact .inl hid
    · cases hid

/-- A commit turn adds waits for stored rows only. -/
theorem commitOperation_waits (hd : state.Distinct) (commits : List TaskCommit) (batch : ℕ)
    (lease : Duration) (now : DateTime) :
    WaitsFrom state (atomicOperation none [] commits batch lease now state).2 := by
  rcases commitOperation_cases hd commits batch lease now with he | ⟨staged, turn, hcommits, he⟩
  · exact .of_eq (congrArg MemoryState.waits he)
  · rw [he]
    intro id hid
    rcases settleTurn_waits turn _ _ _ _ _ now id hid with hid | hid
    · rw [hcommits.result] at hid
      exact .inl hid
    · obtain ⟨entry, hm, rfl⟩ := List.mem_map.mp hid
      obtain ⟨update, hu, huid, -⟩ := hcommits.staging.waits_suspended entry hm
      rcases hcommits.staging.updated update hu with hu | ⟨commit, -, row, ha, conf, lane, outcome, ht⟩
      · cases hu
      · refine .inr (List.mem_map.mpr ⟨row, List.mem_of_getElem? ha.stored, ?_⟩)
        rw [← huid, ht.concludes.concluded.id]
        rfl

/-- No operation adds a wait for a row that was not stored before. -/
theorem exec_waits (hd : state.Distinct) (op : Op) : WaitsFrom state (exec store op state).2 := by
  cases hop : op.quiet with
  | true => exact .of_eq (exec_quiet store hop state).waits
  | false =>
    have hdone := exec_performs store hop state
    generalize (exec store op state).2 = after at hdone ⊢
    cases hdone with
    | refused => exact .of_eq rfl
    | setUp ratesNow hconf => exact .of_eq rfl
    | claimed _ => exact claimOperation_waits hd _ _ _ _ _
    | committed ht => exact commitOperation_waits hd _ _ _ _
    | @admitted _ _ _ now _ _ _ _ _ _ hturn hwalk =>
      have hwaits := commitOperation_waits hd op.commits store.commitBatchSize store.leaseDuration now
      rw [hturn] at hwaits
      exact hwaits
    | @recovered now _ staged _ _ cancelled _ hgiven _ hturn =>
      have hwaits := commitOperation_waits (hgiven.distinct hd) cancelled store.commitBatchSize
        store.leaseDuration now
      rw [hturn] at hwaits
      intro id hid
      rcases hwaits id hid with hid | hid
      · rw [hgiven.waits] at hid
        exact .inl hid
      · rw [hgiven.steady.map_eq fun _ _ h => h.id] at hid
        exact .inr hid

/-- In every reachable state, waits belong to stored rows. -/
theorem reachable_waitsStored {call : MemoryState → Op → Prop}
    (h : Reachable Started (Steps store call) state) : state.WaitsStored := by
  refine (h.inv (I := fun s => s.Distinct ∧ s.WaitsStored) ?_ ?_).2
  · rintro _ ⟨conf, rfl⟩
    exact ⟨List.nodup_nil, fun id hid => nomatch hid⟩
  · rintro s op s' ⟨hd, hw⟩ ⟨-, rfl⟩
    have hext := exec_extends store hd op
    refine ⟨hext.distinct hd, fun id hid => ?_⟩
    have hmem : id ∈ s.tasks.map (·.id) := by
      rcases exec_waits store hd op id hid with hid | hid
      · exact hw id hid
      · exact hid
    obtain ⟨moved, origins, new, ht, hrows, -⟩ := hext.rows
    rw [ht, List.map_append, hrows.map_eq fun _ _ h => h.id]
    exact List.mem_append_left _ hmem

/-- New rows have no wait when a commit turn is over. -/
theorem commitOperation_settled (commits : List TaskCommit) (batch : ℕ) (lease : Duration) (now : DateTime)
    (hd : state.Distinct) (hw : state.WaitsStored) {i : ℕ} {r : TaskRecord} (hi : state.tasks.length ≤ i)
    (hr : (atomicOperation none [] commits batch lease now state).2.tasks[i]? = some r) :
    (atomicOperation none [] commits batch lease now state).2.waits r.id = none := by
  have hext := commitOperation_extends hd commits batch lease now
  have hwaits := commitOperation_waits hd commits batch lease now
  have hd' := hext.distinct hd
  obtain ⟨moved, origins, new, ht, hrows, -⟩ := hext.rows
  have hlen : moved.length = state.tasks.length := hrows.length_eq.symm
  rw [ht, List.getElem?_append_right (by omega)] at hr
  rw [MemoryState.Distinct, ht, List.map_append] at hd'
  cases hwait : (atomicOperation none [] commits batch lease now state).2.waits r.id with
  | none => rfl
  | some wait =>
    have hold : r.id ∈ state.tasks.map (·.id) := by
      rcases hwaits r.id (by rw [hwait]; rfl) with hid | hid
      · exact hw r.id hid
      · exact hid
    rw [← hrows.map_eq fun _ _ h => h.id] at hold
    exact absurd rfl ((List.nodup_append.mp hd').2.2 _ hold _
      (List.mem_map_of_mem (List.mem_of_getElem? hr)))

/-- Commits: the store `commit_tasks` leaves, with claimable new or resumed rows granted. -/
theorem admitCommitted_admits {commits : List TaskCommit} (node : Uuid) (limit : ℕ)
    (cached : List TaskRecord) {batch : ℕ} {lease : Duration} {now : DateTime} {poll : TaskPoll}
    {result : CommitResult} {state₁ : MemoryState} (hd : state.Distinct) (hw : state.WaitsStored)
    (h : atomicOperation none [] commits batch lease now state = (.ok (poll, result), state₁)) :
    ∃ taken shown, taken.Sublist shown ∧
      (admitCommitted state₁ state.tasks.length commits node limit cached now result).2 =
        { result with tasks := result.tasks ++ shown } ∧
      Admits state₁ node limit now
        (admitCommitted state₁ state.tasks.length commits node limit cached now result).1 taken := by
  obtain ⟨rows, taken, shown, hwalk, hlen, hsub, heq⟩ :=
    admitCommitted_promotes state₁ state.tasks.length commits node limit cached now result
  refine ⟨taken, shown, hsub, by rw [heq], rows, hwalk.imp ?_, hlen, by rw [heq]⟩
  rintro j r hj ⟨conf, hc, hadm⟩
  obtain ⟨hn, hdirect⟩ := direct_of_admissible hadm
  refine claimable_of_direct hc hdirect hn ?_
  simp only [admissible, Bool.and_eq_true, Bool.or_eq_true, decide_eq_true_eq, Option.isNone_iff_eq_none,
    Nat.zero_add] at hadm
  rcases hadm.1.1.1.1.1 with hnew | ⟨-, hnone⟩
  · have hstored : (atomicOperation none [] commits batch lease now state).2.tasks[j]? = some r := by
      rw [h]
      exact hj
    have hsettled := commitOperation_settled commits batch lease now hd hw hnew hstored
    rw [h] at hsettled
    exact hsettled
  · exact hnone

variable (state) in
/-- CORRECT: in every reachable state, a direct admission leaves the store that `store_tasks` or
    `commit_tasks` alone would leave, except that at most `limit` rows a claim could have taken are
    granted to the calling node as a claim would grant them; it fails when the plain operation fails. -/
theorem admissions_are_claims (h : Reachable Started (Steps store AnyCall) state) (node : Uuid) (limit : ℕ)
    (now : DateTime) :
    (∀ writes, (∀ write ∈ writes, FreshWrite write) → (state.nodes node).isSome = true →
      (∀ error state₁, exec store (.storeTasks writes now) state = (.error error, state₁) →
        exec store (.storeAdmitted writes node limit now) state = (.error error, state₁)) ∧
      ∀ receipts state₁, exec store (.storeTasks writes now) state = (.stored receipts, state₁) →
        ∃ tasks state', exec store (.storeAdmitted writes node limit now) state =
          (.admitted receipts tasks, state') ∧ Admits state₁ node limit now state' tasks) ∧
    (∀ writes, state.nodes node = none →
      exec store (.storeAdmitted writes node limit now) state = (.error nodeMissing, state)) ∧
    ∀ commits cached,
      (∀ error state₁, exec store (.commitTasks commits now) state = (.error error, state₁) →
        exec store (.commitAdmitted commits node limit cached now) state = (.error error, state₁)) ∧
      ∀ result state₁, exec store (.commitTasks commits now) state = (.committed result, state₁) →
        ∃ taken shown state', exec store (.commitAdmitted commits node limit cached now) state =
          (.committed { result with tasks := result.tasks ++ shown }, state') ∧
          taken.Sublist shown ∧ Admits state₁ node limit now state' taken := by
  have hd := reachable_distinct store h
  have hw := reachable_waitsStored store h
  refine ⟨fun writes hf hn => ⟨fun error state₁ he => ?_, fun receipts state₁ hok => ?_⟩,
    fun writes hn => ?_, fun commits cached => ⟨fun error state₁ he => ?_, fun result state₁ hok => ?_⟩⟩
  · rw [exec, storeAdmitted_error limit hn (respond_error (fun _ => by simp) he)]
    rfl
  · have hstore : storeTasks writes now state = (.ok receipts, state₁) := by
      rcases storeTasks_cases writes now state with ⟨error, he⟩ | ⟨receipts', staged, -, -, heq⟩
      · rw [exec, he] at hok
        cases congrArg Prod.fst hok
      · rw [exec, heq] at hok
        obtain ⟨hr, rfl⟩ := Prod.mk.inj hok
        obtain rfl := Response.stored.inj hr
        exact heq
    obtain ⟨tasks, state', heq, hadm⟩ := storeAdmitted_admits limit hw hf hn hstore
    refine ⟨tasks, state', ?_, hadm⟩
    rw [exec, heq]
    rfl
  · simp only [exec, storeAdmitted, Step.bind_run, Step.get_run, hn, Option.isNone_none, if_true]
    rfl
  · rcases commitAdmitted_cases store commits node limit cached now state with
      ⟨error', state₂, hop, heq⟩ | ⟨poll, result, state₂, hop, heq⟩
    · have hplain : commitTasks store commits now state = (.error (.beforeCommit error'), state₂) := by
        simp only [commitTasks, Step.bind_run, beforeCommit, hop]
      rw [exec, hplain] at he
      rw [exec, heq]
      exact he
    · have hplain : commitTasks store commits now state = (.ok result, state₂) := by
        simp only [commitTasks, Step.bind_run, beforeCommit, hop]
        rfl
      rw [exec, hplain] at he
      cases congrArg Prod.fst he
  · have hplain : commitTasks store commits now state = (.ok result, state₁) := respondCommit_ok hok
    obtain ⟨poll, hop⟩ := commitTasks_ok hplain
    rcases commitAdmitted_cases store commits node limit cached now state with
      ⟨error', state₂, hop', heq⟩ | ⟨poll', result', state₂, hop', heq⟩
    · rw [hop] at hop'
      cases congrArg Prod.fst hop'
    · rw [hop] at hop'
      obtain ⟨hr, rfl⟩ := Prod.mk.inj hop'
      obtain ⟨-, rfl⟩ := Prod.mk.inj (Except.ok.inj hr)
      obtain ⟨taken, shown, hsub, hresult, hadm⟩ := admitCommitted_admits node limit cached hd hw hop
      refine ⟨taken, shown, _, ?_, hsub, hadm⟩
      rw [exec, heq, hresult]
      rfl

end

attribute [local instance] acceptingSerde in
/-- A registered node submits two tasks and is admitted to the first one. -/
theorem admissions_are_claims_one_slot :
    ∃ tasks state', exec smallStore (.storeAdmitted
        [plainWrite (freshRecord 1 .work "open"), plainWrite (freshRecord 2 .work "open")] 7 1 2)
        (exec smallStore (.registerNode 7 1) (MemoryState.new smallConf)).2 =
      (.admitted [.queued ⟨1⟩, .queued ⟨2⟩] tasks, state') ∧
      Admits (exec smallStore (.storeTasks
          [plainWrite (freshRecord 1 .work "open"), plainWrite (freshRecord 2 .work "open")] 2)
        (exec smallStore (.registerNode 7 1) (MemoryState.new smallConf)).2).2 7 1 2 state' tasks := by
  have hreach : Reachable Started (Steps smallStore AnyCall)
      (exec smallStore (.registerNode 7 1) (MemoryState.new smallConf)).2 :=
    ⟨MemoryState.new smallConf, [.registerNode 7 1], ⟨smallConf, rfl⟩, .single ⟨trivial, rfl⟩⟩
  refine ((admissions_are_claims smallStore _ hreach 7 1 2).1 _ ?_ rfl).2 _ _ rfl
  intro write hw
  rcases List.mem_cons.mp hw with rfl | hw
  · exact ⟨rfl, rfl, rfl, rfl⟩
  · obtain rfl := List.mem_singleton.mp hw
    exact ⟨rfl, rfl, rfl, rfl⟩

end Vyuh.Tasks.Memory
