import Vyuh.Tasks.Store.Memory.JoinPlacing
import Vyuh.Tasks.Store.Memory.Admission
import Vyuh.Tasks.Store.Memory.Results

/-! The joins of a store over its runs. Callers submit roots without a parent and do not resume a task
    that waits for children; then every operation keeps `Joins`, and in every reachable state a wait
    counts the unfinished members of its group. -/

namespace Vyuh.Tasks.Memory
open Lib

/-- What callers promise: submissions are roots, and nobody resumes a parent that sleeps until its
    children end. -/
def Orderly (state : MemoryState) : Op → Prop
  | .storeTasks writes _ => ∀ write ∈ writes, write.record.parentId = none
  | .storeAdmitted writes _ _ _ => ∀ write ∈ writes, write.record.parentId = none
  | .storeScheduled scheduled _ => scheduled.write.record.parentId = none
  | .resume id _ _ => ∀ p ∈ state.tasks, p.id = id → p.status = .suspended →
      state.waits id = none ∧ ∀ r ∈ state.tasks, creditor r ≠ some id
  | _ => True

/-- A store that was just built from a configuration whose group limit passed its check. -/
def StartedChecked (state : MemoryState) : Prop :=
  ∃ conf, conf.maxAllChildren ≤ maxBatchSize ∧ state = MemoryState.new conf

/-- The group limit of a store's configuration, as far as its check bounds it. -/
def GroupsBounded (state : MemoryState) : Prop :=
  ∀ conf, state.conf = some conf → conf.maxAllChildren ≤ maxBatchSize

theorem maxBatchSize_fits : (maxBatchSize : ℤ) ≤ i32Max := by
  rw [maxBatchSize, i32Max]
  norm_num

/-- Waits belong to stored rows. -/
theorem Joins.waitsStored {state : MemoryState} (h : Joins state) : state.WaitsStored := by
  intro id hid
  obtain ⟨wait, hw⟩ := Option.isSome_iff_exists.mp hid
  obtain ⟨p, hp, hpid, -⟩ := (h.books.groups id wait hw).root
  exact List.mem_map.mpr ⟨p, hp, hpid⟩

theorem Joins.new (conf : TaskStoreConf) : Joins (MemoryState.new conf) := by
  refine ⟨⟨fun r hr => ?_, fun r hr => ?_, fun parent wait hw => ?_⟩, fun r hr => ?_, fun r hr => ?_⟩
  · cases hr
  · cases hr
  · cases hw
  · cases hr
  · cases hr

/-! ### Rows that move between turns -/

/-- A rewrite that ends nothing and starts nothing that has a wait. -/
structure Shifts (waits : FMap TaskId TaskWait) (r r' : TaskRecord) : Prop extends Claimed r r' where
  owes : creditor r' = creditor r
  started : r'.status = .running → r.status = .running ∨ waits r.id = none
  closed : r'.status.terminal = true → r.status.terminal = true

theorem Shifts.refl (waits : FMap TaskId TaskWait) (r : TaskRecord) : Shifts waits r r :=
  ⟨.refl r, rfl, .inl, fun h => h⟩

/-- A rewrite of fields that joins do not look at. -/
theorem Shifts.of_eq {waits : FMap TaskId TaskWait} {r r' : TaskRecord} (hid : r'.id = r.id)
    (hparent : r'.parentId = r.parentId) (hcancelled : r'.cancelled = r.cancelled)
    (hstatus : r'.status = r.status) : Shifts waits r r' where
  id := hid
  parentId := hparent
  ended h := hstatus ▸ h
  slept h := ⟨hstatus ▸ h, hcancelled⟩
  asleep _ := by rw [hstatus]
  owes := by rw [creditor, creditor, hstatus, hparent]
  started h := .inl (hstatus ▸ h)
  closed h := hstatus ▸ h

/-- A grant of a pending row without a wait. -/
theorem Shifts.of_grant {waits : FMap TaskId TaskWait} {node : Uuid} {now : DateTime} {r r' : TaskRecord}
    (hpending : r.status = .pending) (hw : waits r.id = none) (h : claimTask node now r = (.ok (), r')) :
    Shifts waits r r' := by
  obtain ⟨-, -, rfl⟩ := grant_ok.mp h
  refine ⟨⟨⟨rfl, rfl, fun ht => ?_, fun hs => (by cases hs)⟩, fun _ => ?_⟩, ?_, fun _ => .inr hw, fun ht => ?_⟩
  · rw [hpending] at ht
    cases ht
  · simp [hpending]
  · rw [creditor, creditor, hpending]
    rfl
  · cases ht

theorem Joins.shifted {state after : MemoryState} (h : Joins state) (hwaits : after.waits = state.waits)
    (hrows : Rows (Shifts state.waits) state.tasks after.tasks) : Joins after := by
  have howing : ∀ k, owing creditor after.tasks k = owing creditor state.tasks k :=
    owing_rows (hrows.imp fun _ _ h => h.owes)
  have hbooks : Books after.tasks after.waits fun _ => 0 := by
    rw [hwaits]
    exact h.books.claimed (hrows.imp fun _ _ h => h.toClaimed) fun k => by rw [howing]
  refine ⟨hbooks, fun r' hr' hs => ?_, fun r' hr' ht => ?_⟩
  · obtain ⟨r, hr, hshift⟩ := hrows.mem_right hr'
    rw [hwaits, hshift.id]
    rcases hshift.started hs with hrunning | hnone
    · exact h.running r hr hrunning
    · exact hnone
  · obtain ⟨r, hr, hshift⟩ := hrows.mem_right hr'
    rw [hwaits, hshift.id]
    exact h.ended r hr (hshift.closed ht)

/-- Fresh rows without a parent join nobody. -/
theorem Joins.submitted {state after : MemoryState} {new : List TaskRecord} (h : Joins state)
    (hwaits : after.waits = state.waits) (htasks : after.tasks = state.tasks ++ new)
    (hfresh : ∀ t ∈ new, ∀ r ∈ state.tasks, r.id ≠ t.id) (hroots : ∀ t ∈ new, t.parentId = none) :
    Joins after := by
  have howed : ∀ k, owing creditor after.tasks k = owing creditor state.tasks k := fun k => by
    have hnone : owing creditor new k = 0 := owing_eq_zero.mpr fun t ht ho => by
      rw [creditor_eq_some, hroots t ht] at ho
      cases ho.2
    rw [htasks, owing_append, hnone, Nat.add_zero]
  have hlone : ∀ t ∈ new, owing creditor state.tasks t.id = 0 ∧ state.waits t.id = none := fun t ht => by
    refine ⟨owing_eq_zero.mpr fun r hr ho => ?_, ?_⟩
    · obtain ⟨p, hp, hid⟩ := h.books.lineage r hr t.id (creditor_eq_some.mp ho).2
      exact hfresh t ht p hp hid
    · by_contra hne
      obtain ⟨wait, hw⟩ := Option.ne_none_iff_exists'.mp hne
      obtain ⟨p, hp, hid, -⟩ := (h.books.groups t.id wait hw).root
      exact hfresh t ht p hp hid
  have hold : ∀ {r : TaskRecord}, r ∈ state.tasks → r ∈ after.tasks := fun hr => by
    rw [htasks]
    exact List.mem_append_left _ hr
  have hcases : ∀ r ∈ after.tasks, r ∈ state.tasks ∨ r ∈ new := fun r hr =>
    List.mem_append.mp (htasks ▸ hr)
  refine ⟨⟨fun r hr parent hp => ?_, fun r hr => ?_, fun parent wait hw => ?_⟩, fun r hr hs => ?_,
    fun r hr ht => ?_⟩
  · rcases hcases r hr with hr | hr
    · obtain ⟨p, hpm, hid⟩ := h.books.lineage r hr parent hp
      exact ⟨p, hold hpm, hid⟩
    · rw [hroots r hr] at hp
      cases hp
  · rw [howed, hwaits]
    rcases hcases r hr with hr | hr
    · exact h.books.expects r hr
    · obtain ⟨hzero, hnone⟩ := hlone r hr
      rw [hzero]
      refine ⟨fun _ _ => ⟨rfl, fun wait hw => ?_⟩, fun _ _ => Nat.zero_le _, fun _ wait hw => ?_⟩
      · rw [hnone] at hw
        cases hw
      · rw [hnone] at hw
        cases hw
  · rw [hwaits] at hw
    obtain ⟨⟨p, hp, hid, hlive⟩, hdistinct, hstored, hopen, hfits⟩ := h.books.groups parent wait hw
    refine ⟨⟨p, hold hp, hid, hlive⟩, hdistinct, fun child hchild => ?_, fun r hr ho => ?_, hfits⟩
    · obtain ⟨r, hr, hrow⟩ := hstored child hchild
      exact ⟨r, hold hr, hrow⟩
    · rcases hcases r hr with hr | hr
      · exact hopen r hr ho
      · rw [creditor_eq_some, hroots r hr] at ho
        cases ho.2
  · rw [hwaits]
    rcases hcases r hr with hr | hr
    · exact h.running r hr hs
    · exact (hlone r hr).2
  · rw [hwaits]
    rcases hcases r hr with hr | hr
    · exact h.ended r hr ht
    · exact (hlone r hr).2

/-- Waking a task that waits for nobody. -/
theorem Joins.resumed {state after : MemoryState} {id : TaskId} {task : TaskRecord}
    {f : TaskRecord → TaskRecord} (h : Joins state) (hwaits : after.waits = state.waits)
    (htasks : after.tasks = modifyFirst (fun r => r.id = id) f state.tasks)
    (hf : state.tasks.find? (fun r => r.id = id) = some task) (hs : task.status = .suspended)
    (hwoken : (f task).id = task.id ∧ (f task).parentId = task.parentId ∧ (f task).status = .pending)
    (hnone : state.waits id = none) (hlone : ∀ r ∈ state.tasks, creditor r ≠ some id) : Joins after := by
  obtain ⟨hid, hparent, hpending⟩ := hwoken
  have htask : task.id = id := by simpa using List.find?_some hf
  have hminds : Minds task (f task) := by
    refine ⟨hid, hparent, fun ht => ?_, fun hw => ?_⟩
    · rw [hs] at ht
      cases ht
    · rw [hpending] at hw
      cases hw
  have hrows : Rows Minds state.tasks after.tasks := htasks ▸ rows_modifyFound Minds.refl hf hminds
  have howing : ∀ k, owing creditor after.tasks k = owing creditor state.tasks k := fun k => by
    obtain ⟨i, hi, he⟩ := modifyFirst_some (fun r => r.id = id) f state.tasks task hf
    rw [htasks, he]
    refine owing_set_kept hi ?_ k
    rw [creditor, creditor, hpending, hs, hparent]
    rfl
  have hcases : ∀ r ∈ after.tasks, r = f task ∨ r ∈ state.tasks := fun r hr => by
    obtain ⟨i, hi, he⟩ := modifyFirst_some (fun r => r.id = id) f state.tasks task hf
    rw [htasks, he] at hr
    exact (List.mem_or_eq_of_mem_set hr).symm
  refine ⟨h.books.moved hrows (fun r hr => ?_) fun parent wait hw => ?_, fun r hr hrunning => ?_,
    fun r hr ht => ?_⟩
  · rw [howing, hwaits]
    rcases hcases r hr with rfl | hr
    · rw [hid, htask, owing_eq_zero.mpr hlone]
      refine ⟨fun _ _ => ⟨rfl, fun wait hw => ?_⟩, fun _ _ => Nat.zero_le _, fun hw => ?_⟩
      · rw [hid, htask, hnone] at hw
        cases hw
      · rw [hpending] at hw
        cases hw
    · exact h.books.expects r hr
  · rw [hwaits] at hw
    exact ⟨wait, hw, rfl, (h.books.groups parent wait hw).fits⟩
  · rw [hwaits]
    rcases hcases r hr with rfl | hr
    · rw [hpending] at hrunning
      cases hrunning
    · exact h.running r hr hrunning
  · rw [hwaits]
    rcases hcases r hr with rfl | hr
    · rw [hpending] at ht
      cases ht
    · exact h.ended r hr ht

section

variable [Serde] {state : MemoryState} (store : MemoryTaskStore)

/-! ### The turn of an operation -/

/-- What a turn is asked for: who claims what, the commits, the clock and the store it starts from. -/
structure TurnCall where
  runner : Option Uuid
  claims : List (LaneClaim × Uuid)
  commits : List TaskCommit
  now : DateTime
  start : MemoryState

/-- The turn an operation asks for. Recovery commits cancellations to the store it has staged. -/
def Op.turn (state : MemoryState) : Op → Option TurnCall
  | .claimTasks node claims now | .coordinateLanes node claims now =>
    some ⟨some node, claims, [], now, state⟩
  | .commitTasks commits now | .commitAdmitted commits _ _ _ now | .recoverOutputs _ commits _ now =>
    some ⟨none, [], commits, now, state⟩
  | .recoverClaims node claims prepared now =>
    match recoverLanes node claims prepared now store.leaseDuration state [] prepared.lanes with
    | .ok (staged, cancelled, _) => some ⟨none, [], cancelled, now, staged⟩
    | .error _ => none
  | _ => none

omit [Serde] in
/-- A turn claims from the store, or commits to it and to what recovery leaves of it. -/
theorem Op.turn_cases {op : Op} {call : TurnCall} (h : op.turn store state = some call) :
    (∃ node claims now, call = ⟨some node, claims, [], now, state⟩) ∨
      ∃ commits now start, call = ⟨none, [], commits, now, start⟩ ∧ Releases now state start := by
  cases op with
  | claimTasks node claims now | coordinateLanes node claims now =>
    obtain rfl := Option.some.inj h
    exact .inl ⟨node, claims, now, rfl⟩
  | commitTasks commits now | commitAdmitted commits node limit cached now
  | recoverOutputs node commits prepared now =>
    obtain rfl := Option.some.inj h
    exact .inr ⟨commits, now, state, rfl, .refl now state⟩
  | recoverClaims node claims prepared now =>
    simp only [Op.turn] at h
    split at h
    · next hl =>
      obtain rfl := Option.some.inj h
      exact .inr ⟨_, now, _, rfl, recoverLanes_releases _ _ _ _ _ _ hl⟩
    · cases h
  | _ => cases h

/-- What a turn leaves when it succeeds, and what a promotion makes of it. -/
def Leaves (call : TurnCall) (after : MemoryState) : Prop :=
  ∃ result turn' rows,
    runTurn call.runner call.claims call.commits store.leaseDuration call.now call.start.begin =
      (.ok result, turn') ∧
    Rows (fun r r' => r' = r ∨ r.status = .pending ∧ turn'.state.waits r.id = none ∧
      ∃ node, claimTask node call.now r = (.ok (), r')) turn'.state.tasks rows ∧
    after = { turn'.state with tasks := rows }

theorem atomicOperation_leaves (call : TurnCall) (hd : call.start.Distinct) :
    (atomicOperation call.runner call.claims call.commits store.commitBatchSize store.leaseDuration call.now
      call.start).2 = call.start ∨ Leaves store call (atomicOperation call.runner call.claims call.commits
        store.commitBatchSize store.leaseDuration call.now call.start).2 := by
  rcases atomicOperation_cases hd call.runner call.claims call.commits store.commitBatchSize
    store.leaseDuration call.now with ⟨error, he⟩ | ⟨result, turn', hrun, hok⟩
  · exact .inl (congrArg Prod.snd he)
  · exact .inr ⟨result, turn', turn'.state.tasks, hrun, rows_refl (fun _ => .inl rfl) _, congrArg Prod.snd hok⟩

/-- What a commit may promote is pending and has no wait. -/
theorem admitted_ready {commits : List TaskCommit} {cached rows taken : List TaskRecord} {node : Uuid}
    {now : DateTime} {result : TaskPoll × CommitResult} {state₁ : MemoryState} (hd : state.Distinct)
    (hw : state.WaitsStored)
    (hturn : atomicOperation none [] commits store.commitBatchSize store.leaseDuration now state =
      (.ok result, state₁))
    (hwalk : Promotes (fun i r => ∃ conf, state₁.conf = some conf ∧
      admissible state₁ conf state.tasks.length cached now i r = true) node now 0 state₁.tasks rows taken) :
    Rows (fun r r' => r' = r ∨ r.status = .pending ∧ state₁.waits r.id = none ∧
      ∃ node, claimTask node now r = (.ok (), r')) state₁.tasks rows := by
  have hready : Promotes (fun _ r => r.status = .pending ∧ state₁.waits r.id = none) node now 0
      state₁.tasks rows taken := by
    refine hwalk.imp ?_
    rintro j r hj ⟨conf, -, hadmissible⟩
    rw [Nat.zero_add] at hadmissible
    simp only [admissible, Bool.and_eq_true, Bool.or_eq_true, decide_eq_true_eq,
      Option.isNone_iff_eq_none] at hadmissible
    obtain ⟨⟨⟨⟨⟨hplace, -⟩, -⟩, -⟩, -⟩, hdirect⟩ := hadmissible
    refine ⟨direct_pending hdirect, ?_⟩
    rcases hplace with hnew | ⟨-, hnone⟩
    · -- a row the commit stored has no wait yet
      have hsettled := commitOperation_settled (i := j) (r := r) commits store.commitBatchSize
        store.leaseDuration now hd hw hnew
      rw [hturn] at hsettled
      exact hsettled hj
    · exact hnone
  refine hready.moves.imp fun r r' hr => ?_
  rcases hr with rfl | ⟨⟨-, hpending, hnone⟩, hgrant⟩
  · exact .inl rfl
  · exact .inr ⟨hpending, hnone, node, hgrant⟩

/-- An operation that may run a turn leaves rows and waits, or leaves what its turn leaves. -/
theorem exec_turn (hd : state.Distinct) (hw : state.WaitsStored) {op : Op} (hop : op.quiet = false) :
    ((exec store op state).2.waits = state.waits ∧ (exec store op state).2.tasks = state.tasks) ∨
      ∃ call, op.turn store state = some call ∧ Leaves store call (exec store op state).2 := by
  have hplain : ∀ call : TurnCall, call.start = state → op.turn store state = some call →
      ∀ after, after = (atomicOperation call.runner call.claims call.commits store.commitBatchSize
        store.leaseDuration call.now call.start).2 →
      (after.waits = state.waits ∧ after.tasks = state.tasks) ∨
        ∃ call, op.turn store state = some call ∧ Leaves store call after := by
    rintro call rfl hcall after rfl
    rcases atomicOperation_leaves store call hd with hkept | hleaves
    · rw [hkept]
      exact .inl ⟨rfl, rfl⟩
    · exact .inr ⟨call, hcall, hleaves⟩
  have hdone := exec_performs store hop state
  generalize (exec store op state).2 = after at hdone ⊢
  cases hdone with
  | refused | setUp => exact .inl ⟨rfl, rfl⟩
  | @claimed node now claims hfound =>
    refine hplain ⟨some node, claims, [], now, state⟩ rfl ?_ _ rfl
    rcases hfound with rfl | rfl <;> rfl
  | @committed now _ hfound =>
    refine hplain ⟨none, [], op.commits, now, state⟩ rfl ?_ _ rfl
    rcases hfound with hfound | ⟨node, prepared, hfound⟩ | ⟨node, limit, cached, hfound⟩ <;> rw [hfound] <;> rfl
  | @admitted node limit cached now _ state₁ result rows taken hfound hturn hwalk =>
    rcases atomicOperation_cases hd none [] op.commits store.commitBatchSize store.leaseDuration now with
      ⟨error, hfailed⟩ | ⟨result', turn', hrun, hok⟩
    · rw [hturn] at hfailed
      cases congrArg Prod.fst hfailed
    · obtain rfl : state₁ = turn'.state := congrArg Prod.snd (hturn.symm.trans hok)
      refine .inr ⟨⟨none, [], op.commits, now, state⟩, ?_, result', turn', rows, hrun,
        admitted_ready store hd hw hturn hwalk, rfl⟩
      rw [hfound]
      rfl
  | @recovered now _ staged _ _ cancelled _ hgiven _ hturn hfound =>
    obtain ⟨node, claims, prepared, lanes, rfl, hl⟩ := hfound
    rcases atomicOperation_cases (hgiven.distinct hd) none [] cancelled store.commitBatchSize
      store.leaseDuration now with ⟨error, hfailed⟩ | ⟨result', turn', hrun, hok⟩
    · rw [hturn] at hfailed
      cases congrArg Prod.fst hfailed
    · obtain rfl : after = turn'.state := congrArg Prod.snd (hturn.symm.trans hok)
      refine .inr ⟨⟨none, [], cancelled, now, staged⟩, ?_, result', turn', turn'.state.tasks, hrun,
        rows_refl (fun _ => .inl rfl) _, rfl⟩
      simp only [Op.turn, hl]

/-! ### Every operation -/

omit [Serde] in
/-- Orderly operations submit roots. -/
theorem Orderly.submissions {op : Op} (h : Orderly state op) :
    ∀ write ∈ op.submissions, write.record.parentId = none := by
  cases op with
  | storeTasks | storeAdmitted => exact h
  | storeScheduled => exact fun write hw => List.mem_singleton.mp hw ▸ h
  | _ => exact fun write hw => (by cases hw)

omit [Serde] in
/-- Stamped roots are roots. -/
theorem roots_stamped {now : DateTime} {writes : List TaskWrite} {staged : List TaskRecord}
    (hroots : ∀ write ∈ writes, write.record.parentId = none) (h : StampedFrom writes now staged) :
    ∀ t ∈ staged, t.parentId = none := by
  intro t ht
  obtain ⟨write, hw, hstamp⟩ := h t ht
  obtain ⟨ready, rfl⟩ := stampWrite_ok hstamp
  exact hroots write hw

/-- Operations outside turns keep the joins. -/
theorem exec_quiet_joins {op : Op} (hop : op.quiet = true) (hcall : Orderly state op) (h : Joins state) :
    Joins (exec store op state).2 := by
  have hedit := exec_edits store hop state
  generalize (exec store op state).2 = after at hedit ⊢
  cases hedit with
  | refused => exact h
  | registered => exact h.shifted rfl (rows_refl (Shifts.refl _) _)
  | retired =>
    refine h.shifted rfl (rows_map _ _ fun r _ => ?_)
    split
    · exact .of_eq rfl rfl rfl rfl
    · exact .refl _ r
  | @returned _ now =>
    refine h.shifted rfl (rows_map _ _ fun r _ => ?_)
    split
    · by_cases hs : r.status = .running
      · -- a claim that is taken back waits for nobody, as before
        have hreturned : (returnTask now r).status = .pending := by rw [returnTask, if_pos hs]
        refine ⟨⟨⟨rfl, rfl, fun ht => ?_, fun hw => ?_⟩, fun _ => ?_⟩, ?_, fun hw => ?_, fun ht => ?_⟩
        · rw [hs] at ht
          cases ht
        · rw [hreturned] at hw
          cases hw
        · rw [hreturned, hs]
          simp
        · rw [creditor, creditor, hreturned, hs]
          rfl
        · rw [hreturned] at hw
          cases hw
        · rw [hreturned] at ht
          cases ht
      · exact .of_eq rfl rfl rfl (by rw [returnTask, if_neg hs])
    · exact .refl _ r
  | @stored _ now staged rows _ _ _ _ hbatch hstamped hwalk =>
    have hroots := roots_stamped hcall.submissions hstamped
    have hkept : Rows (fun r r' => r'.id = r.id ∧ r'.parentId = r.parentId) staged rows := by
      refine hwalk.moves.imp fun r r' hr => ?_
      rcases hr with rfl | ⟨-, hgrant⟩
      · exact ⟨rfl, rfl⟩
      · obtain ⟨-, -, rfl⟩ := grant_ok.mp hgrant
        exact ⟨rfl, rfl⟩
    refine h.submitted rfl rfl (fun t ht r hr => ?_) fun t ht => ?_
    · obtain ⟨t₀, ht₀, hid, -⟩ := hkept.mem_right ht
      rw [hid]
      exact hbatch.fresh t₀ ht₀ r hr
    · obtain ⟨t₀, ht₀, -, hparent⟩ := hkept.mem_right ht
      rw [hparent]
      exact hroots t₀ ht₀
  | reassigned =>
    refine h.shifted rfl (rows_mapIdx _ _ fun i r => ?_)
    split
    · exact .of_eq rfl rfl rfl rfl
    · exact .refl _ r
  | @resumed id _ _ task hfound₁ _ hfound _ hsuspended =>
    subst hfound₁
    have hid : task.id = id := by simpa using List.find?_some hfound
    obtain ⟨hnone, hlone⟩ := hcall task (List.mem_of_find?_eq_some hfound) hid hsuspended
    exact h.resumed rfl rfl hfound hsuspended ⟨rfl, rfl, rfl⟩ hnone hlone

omit [Serde] in
/-- What recovery gives up joins nobody and frees nobody. -/
theorem Joins.released {now : DateTime} {staged : MemoryState} (h : Joins state)
    (hgiven : Releases now state staged) : Joins staged := by
  refine h.shifted hgiven.waits (hgiven.rows.imp fun r r' hr => ?_)
  rcases hr with rfl | ⟨-, rfl⟩
  · exact .refl _ r'
  · exact .of_eq rfl rfl rfl rfl

/-- Every operation keeps the joins. -/
theorem exec_joins (hd : state.Distinct) (hconf : GroupsBounded state) {op : Op}
    (hcall : Orderly state op) (h : Joins state) : Joins (exec store op state).2 := by
  cases hop : op.quiet with
  | true => exact exec_quiet_joins store hop hcall h
  | false =>
    rcases exec_turn store hd h.waitsStored hop with
      ⟨hwaits, htasks⟩ | ⟨call, hturn, result, turn', rows, hrun, hrows, hexec⟩
    · exact h.shifted hwaits (htasks ▸ rows_refl (Shifts.refl _) _)
    · rw [hexec]
      have hturned : Joins turn'.state := by
        rcases Op.turn_cases store hturn with ⟨node, claims, now, rfl⟩ | ⟨commits, now, start, rfl, hgiven⟩
        · exact claimTurn_joins hd h hrun
        · exact commitTurn_joins (hgiven.distinct hd) (h.released hgiven) maxBatchSize_fits
            (fun conf hc => hconf conf (hgiven.conf ▸ hc)) hrun
      refine hturned.shifted rfl (hrows.imp fun r r' hr => ?_)
      rcases hr with rfl | ⟨hpending, hnone, node, hgrant⟩
      · exact .refl _ r'
      · exact .of_grant hpending hnone hgrant

/-- In every reachable state, identifiers are distinct and joins are in order. -/
theorem reachable_joins (h : Reachable StartedChecked (Steps store Orderly) state) :
    state.Distinct ∧ GroupsBounded state ∧ Joins state := by
  refine h.inv (I := fun s => s.Distinct ∧ GroupsBounded s ∧ Joins s) ?_ ?_
  · rintro _ ⟨conf, hlimit, rfl⟩
    exact ⟨List.nodup_nil, fun _ hc => Option.some.inj hc ▸ hlimit, .new conf⟩
  · rintro s op s' ⟨hd, hconf, hjoins⟩ ⟨hcall, rfl⟩
    have hext := exec_extends store hd op
    exact ⟨hext.distinct hd, fun conf hc => hconf conf (hext.conf ▸ hc),
      exec_joins store hd hconf hcall hjoins⟩

/-! ### What a wait counts -/

/-- Whether the stored task `id` is not ended yet. -/
def unfinished (rows : List TaskRecord) (id : TaskId) : Bool :=
  rows.any (fun r => r.id = id && !r.status.terminal)

omit [Serde] in
/-- A parent is owed one completion for each unfinished member of its group. -/
theorem owing_unfinished {parent : TaskId} {wait : TaskWait} (hd : state.Distinct)
    (h : GroupOf state.tasks parent wait) :
    owing creditor state.tasks parent = wait.children.countP (unfinished state.tasks) := by
  have hmembers : owing creditor state.tasks parent = wait.children.countP (fun m =>
      state.tasks.any (fun a => a.id = m && creditor a = some parent)) :=
    owing_members hd h.distinct h.unfinished
  rw [hmembers]
  refine List.countP_congr fun child hchild => ?_
  obtain ⟨r, hr, hid, hparent⟩ := h.stored child hchild
  -- a member's row is the only one with its identifier
  have hrow : ∀ {p : TaskRecord → Bool}, (∃ a ∈ state.tasks, (decide (a.id = child) && p a) = true) ↔ p r = true := by
    intro p
    constructor
    · rintro ⟨a, ha, hp⟩
      simp only [Bool.and_eq_true, decide_eq_true_eq] at hp
      obtain rfl := hd.eq ha hr (hp.1.trans hid.symm)
      exact hp.2
    · exact fun hp => ⟨r, hr, by simp [hid, hp]⟩
  rw [unfinished, List.any_eq_true, List.any_eq_true, hrow, hrow, decide_eq_true_eq, creditor_eq_some]
  simp [hparent]

omit [Serde] in
/-- What a wait says about its parent and its members. -/
theorem Joins.counted (hd : state.Distinct) (hj : Joins state) {parent : TaskId} {wait : TaskWait}
    (hw : state.waits parent = some wait) :
    ∃ p ∈ state.tasks, p.id = parent ∧ p.status.terminal = false ∧ p.status ≠ .running ∧
      wait.children.Nodup ∧
      (∀ child ∈ wait.children, ∃ r ∈ state.tasks, r.id = child ∧ r.parentId = some parent) ∧
      wait.remainingCompletions = wait.children.countP (unfinished state.tasks) ∧
      (p.status = .suspended ↔ 0 < wait.remainingCompletions) := by
  have hgroup := hj.books.groups parent wait hw
  obtain ⟨p, hp, rfl, -⟩ := hgroup.root
  have hopen : p.status.terminal = false := by
    cases ht : p.status.terminal with
    | false => rfl
    | true =>
      rw [hj.ended p hp ht] at hw
      cases hw
  have hstopped : p.status ≠ .running := fun hs => by
    rw [hj.running p hp hs] at hw
    cases hw
  have howing := owing_unfinished hd hgroup
  have hexpects := hj.books.expects p hp
  refine ⟨p, hp, rfl, hopen, hstopped, hgroup.distinct, hgroup.stored, ?_⟩
  by_cases hs : p.status = .suspended
  · obtain ⟨hcount, hpos⟩ := hexpects.joined hs wait hw
    rw [Nat.add_zero, howing] at hcount hpos
    refine ⟨hcount, fun _ => ?_, fun _ => hs⟩
    rw [hcount]
    exact Int.natCast_pos.mpr hpos
  · obtain ⟨hnone, hzero⟩ := hexpects.awake hopen hs
    rw [Nat.add_zero, howing] at hnone
    rw [hnone, hzero wait hw]
    exact ⟨rfl, by simp [hs]⟩

/-- CORRECT: in every reachable state, a wait belongs to a stored parent that has not ended and names
    distinct stored children of that parent. A sleeping parent's counter is the number of its unfinished
    members, at least one; a parent that is awake again has nothing to count and no unfinished member. -/
theorem joins_count_members (h : Reachable StartedChecked (Steps store Orderly) state) {parent : TaskId}
    {wait : TaskWait} (hw : state.waits parent = some wait) :
    ∃ p ∈ state.tasks, p.id = parent ∧ p.status.terminal = false ∧ p.status ≠ .running ∧
      wait.children.Nodup ∧
      (∀ child ∈ wait.children, ∃ r ∈ state.tasks, r.id = child ∧ r.parentId = some parent) ∧
      wait.remainingCompletions = wait.children.countP (unfinished state.tasks) ∧
      (p.status = .suspended ↔ 0 < wait.remainingCompletions) := by
  obtain ⟨hd, -, hj⟩ := reachable_joins store h
  exact hj.counted hd hw

/-- CORRECT: children never outlive the sleep of their parent. In every reachable state, the parent of an
    unfinished task is stored, and it sleeps or has ended; it is neither pending nor running. A sleeping
    parent without a group has at most one unfinished child. -/
theorem unfinished_child_parent (h : Reachable StartedChecked (Steps store Orderly) state) {r : TaskRecord}
    (hr : r ∈ state.tasks) (hopen : r.status.terminal = false) {parent : TaskId}
    (hparent : r.parentId = some parent) :
    ∃ p ∈ state.tasks, p.id = parent ∧ (p.status.terminal = true ∨ p.status = .suspended ∧
      (state.waits parent = none → ∀ other ∈ state.tasks, other.parentId = some parent →
        other.status.terminal = false → other = r)) := by
  obtain ⟨hd, -, hjoins⟩ := reachable_joins store h
  obtain ⟨p, hp, rfl⟩ := hjoins.books.lineage r hr parent hparent
  have howes : creditor r = some p.id := creditor_eq_some.mpr ⟨hopen, hparent⟩
  have hpos : 0 < owing creditor state.tasks p.id := owing_pos hr howes
  have hexpects := hjoins.books.expects p hp
  refine ⟨p, hp, rfl, ?_⟩
  cases ht : p.status.terminal with
  | true => exact .inl rfl
  | false =>
    by_cases hs : p.status = .suspended
    · refine .inr ⟨hs, fun hnone other hother hsibling hother' => ?_⟩
      -- two unfinished children would be owed twice
      have hone := hexpects.single hs hnone
      rw [Nat.add_zero] at hone
      exact owing_unique hone hother (creditor_eq_some.mpr ⟨hother', hsibling⟩) hr howes
    · obtain ⟨hzero, -⟩ := hexpects.awake ht hs
      omega

end

/-- A flow task of node 7 waits for two children, which end one after the other. -/
def joinedPair : List Op :=
  [.registerNode 7 1, .storeTasks [plainWrite (freshRecord 1 .flow "open")] 2, .claimTasks 7 (openClaim 1) 3,
    .commitTasks [.outcome 7 1 (freshRecord 1 .flow "open").id ⟨"open"⟩
      (.all "s" [plainWrite (freshRecord 2 .work "open"), plainWrite (freshRecord 3 .work "open")]) none] 4,
    .claimTasks 7 (openClaim 2) 5,
    .commitTasks [.outcome 7 1 (freshRecord 2 .work "open").id ⟨"open"⟩ .complete none] 6,
    .commitTasks [.outcome 7 1 (freshRecord 3 .work "open").id ⟨"open"⟩ .complete none] 7]

theorem joinedPair_orderly {op : Op} (h : op ∈ joinedPair) (state : MemoryState) : Orderly state op := by
  simp only [joinedPair, List.mem_cons, List.not_mem_nil, or_false] at h
  rcases h with rfl | rfl | rfl | rfl | rfl | rfl | rfl
  · trivial
  · intro write hw
    obtain rfl := List.mem_singleton.mp hw
    rfl
  · trivial
  · trivial
  · trivial
  · trivial
  · trivial

attribute [local instance] lenientSerde in
/-- The calls are in order, however far the run goes. -/
theorem joinedPair_reachable (n : ℕ) : Reachable StartedChecked (Steps smallStore Orderly)
    ((MemoryState.new smallConf).execs smallStore (joinedPair.take n)) :=
  ⟨_, joinedPair.take n, ⟨smallConf, by decide, rfl⟩, MemoryState.execs_run smallStore _ _ fun _ hm s =>
    joinedPair_orderly (List.mem_of_mem_take hm) s⟩

attribute [local instance] lenientSerde in
theorem joins_count_members_half_joined :
    let state := (MemoryState.new smallConf).execs smallStore (joinedPair.take 6)
    ∃ wait p, state.waits ⟨1⟩ = some wait ∧ wait.children = [⟨2⟩, ⟨3⟩] ∧ p ∈ state.tasks ∧ p.id = ⟨1⟩ ∧
      p.status = .suspended ∧ wait.remainingCompletions = 1 := by
  intro state
  have hwait : (state.waits ⟨1⟩).map (fun wait => (wait.children, wait.remainingCompletions)) =
      some ([⟨2⟩, ⟨3⟩], 1) := by decide
  obtain ⟨wait, hw, he⟩ := Option.map_eq_some_iff.mp hwait
  obtain ⟨hchildren, hone⟩ := Prod.mk.inj he
  obtain ⟨p, hp, hid, -, -, -, -, -, hs⟩ := joins_count_members smallStore (joinedPair_reachable 6) hw
  exact ⟨wait, p, hw, hchildren, hp, hid, hs.mpr (by rw [hone]; exact Int.one_pos), hone⟩

attribute [local instance] lenientSerde in
theorem unfinished_child_parent_half_joined :
    let state := (MemoryState.new smallConf).execs smallStore (joinedPair.take 6)
    (∃ r ∈ state.tasks, r.id = ⟨3⟩ ∧ r.status.terminal = false) ∧ ∃ p ∈ state.tasks, p.id = ⟨1⟩ ∧
      (p.status.terminal = true ∨ p.status = .suspended) := by
  intro state
  have hrow : (state.tasks.find? (fun r => r.id = ⟨3⟩)).map (fun r => (r.status.terminal, r.parentId)) =
      some (false, some ⟨1⟩) := by decide
  obtain ⟨r, hf, he⟩ := Option.map_eq_some_iff.mp hrow
  obtain ⟨hopen, hparent⟩ := Prod.mk.inj he
  have hr : r ∈ state.tasks := List.mem_of_find?_eq_some hf
  obtain ⟨p, hp, hid, hcase⟩ := unfinished_child_parent smallStore (joinedPair_reachable 6) hr hopen hparent
  exact ⟨⟨r, hr, by simpa using List.find?_some hf, hopen⟩, p, hp, hid, hcase.imp_right And.left⟩

end Vyuh.Tasks.Memory
