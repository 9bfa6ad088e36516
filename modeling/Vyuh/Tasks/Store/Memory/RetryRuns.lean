import Vyuh.Tasks.Store.Memory.Attempts

/-! Runs within the retry budget. A store whose lanes allow at least one attempt, and to which fresh tasks
    are submitted, keeps every record within the budget of its lane as long as claim turns spare the
    exhausted tasks behind their windows and no lane is moved into one that allows fewer attempts than its
    records have had. -/

namespace Vyuh.Tasks.Memory
open Lib

/-- Within the budget of the lane the record is in. -/
def InBudget (conf : TaskStoreConf) (r : TaskRecord) : Prop :=
  ∀ lane, conf.laneNamed r.lane = some lane → r.stepAttempts ≤ lane.retry.maxAttempts

/-- What an operation leaves of the rows when it keeps to the budget. -/
structure Passes (conf : TaskStoreConf) (rows rows' : List TaskRecord) : Prop where
  counted : ∃ moved new, rows' = moved ++ new ∧ Rows Counts rows moved ∧ ∀ t ∈ new, Parked t
  within : (∀ r ∈ rows, InBudget conf r) → ∀ r ∈ rows', InBudget conf r

/-- A lane allows at least one attempt; the configuration is checked for it. -/
def RetriesAllowed (conf : TaskStoreConf) : Prop := ∀ lane ∈ conf.lanes, 0 < lane.retry.maxAttempts

section

variable {conf : TaskStoreConf} {a b c : List TaskRecord}

theorem laneNamed_asStr (lane : TaskLane) : conf.laneNamed lane.asStr = conf.laneOf lane := by
  rw [TaskStoreConf.laneNamed, TaskStoreConf.laneOf]
  congr 1
  funext entry
  obtain ⟨name⟩ := lane
  obtain ⟨⟨name'⟩, _⟩ := entry
  simp

/-- A record that starts a step is within any budget. -/
theorem inBudget_start {r : TaskRecord} (h : r.stepAttempts = 0) : InBudget conf r := by
  intro lane _
  rw [h]
  omega

theorem Rests.inBudget {r r' : TaskRecord} (h : Rests r r') (hr : InBudget conf r) : InBudget conf r' := by
  rcases h.steps h.ungranted with hs | hs
  · intro lane hlane
    rw [h.lane] at hlane
    rw [hs]
    exact hr lane hlane
  · exact inBudget_start hs

theorem Passes.of_counts (h : Rows Counts a b)
    (hw : (∀ r ∈ a, InBudget conf r) → ∀ r ∈ b, InBudget conf r) : Passes conf a b :=
  ⟨⟨b, [], (List.append_nil b).symm, h, fun _ hm => nomatch hm⟩, hw⟩

theorem Passes.refl (a : List TaskRecord) : Passes conf a a :=
  .of_counts (rows_refl Counts.refl a) fun h => h

/-- Rewrites without grants, of the rows and of fresh ones behind them. -/
theorem Passes.of_rests (new : List TaskRecord) (h : Rows Rests (a ++ new) b)
    (hn : ∀ t ∈ new, t.stepAttempts = 0) : Passes conf a b := by
  obtain ⟨moved, new', rfl, hmoved, hnew⟩ := h.split
  refine ⟨⟨moved, new', rfl, hmoved.imp fun _ _ h => h.toCounts, fun t ht => ?_⟩, fun hw r hr => ?_⟩
  · obtain ⟨t₀, ht₀, hrests⟩ := hnew.mem_right ht
    exact hrests.parked fun _ => hn t₀ ht₀
  · obtain ⟨r₀, hr₀, hrests⟩ := h.mem_right hr
    refine hrests.inBudget ?_
    rcases List.mem_append.mp hr₀ with hold | hnew
    · exact hw r₀ hold
    · exact inBudget_start (hn r₀ hnew)

theorem Passes.of_rows (h : Rows Rests a b) : Passes conf a b := by
  refine .of_rests [] ?_ fun _ hm => nomatch hm
  rwa [List.append_nil]

theorem Passes.trans (h : Passes conf a b) (h' : Passes conf b c) : Passes conf a c := by
  refine ⟨?_, fun hw => h'.within (h.within hw)⟩
  obtain ⟨moved, new, rfl, hmoved, hnew⟩ := h.counted
  obtain ⟨moved', new', rfl, hmoved', hnew'⟩ := h'.counted
  obtain ⟨front, back, rfl, hfront, hback⟩ := hmoved'.split
  refine ⟨front, back ++ new', List.append_assoc _ _ _,
    rows_trans (fun _ _ _ h h' => h.trans h') hmoved hfront, fun t ht => ?_⟩
  rcases List.mem_append.mp ht with ht | ht
  · obtain ⟨t₀, ht₀, hcounts⟩ := hback.mem_right ht
    exact hcounts.parked (hnew t₀ ht₀)
  · exact hnew' t ht

/-- Grants to records with attempts left. -/
theorem Passes.of_grants (node : Uuid) (now : DateTime) (h : Rows (fun r r' => Rests r r' ∨
      grant node now r = (.ok (), r') ∧ ∀ lane, conf.laneNamed r.lane = some lane →
        r.stepAttempts < lane.retry.maxAttempts) a b) : Passes conf a b := by
  refine .of_counts (h.imp fun r r' hr => ?_) fun hw r' hr' => ?_
  · rcases hr with hr | ⟨hg, -⟩
    · exact hr.toCounts
    · exact (grant_counts hg).1
  · obtain ⟨r, hr, hrests | ⟨hg, hlt⟩⟩ := h.mem_right hr'
    · exact hrests.inBudget (hw r hr)
    · obtain ⟨-, hlane, hstep⟩ := grant_counts hg
      intro lane hl
      rw [hstep]
      exact Int.add_one_le_iff.mpr (hlt lane (hlane ▸ hl))

/-! ### Claim turns -/

variable [Serde] {node : Uuid} {lease : Duration} {now : DateTime} {turn turn' : Turn} {poll : LanePoll}

/-- What a claim leaves of each row. -/
theorem Serves.rows {w : LaneWindow} {permits : ℕ} {rateWake : Option Duration}
    (h : Serves node conf w permits rateWake turn poll turn') : Rows (fun r r' => Rests r r' ∨
      grant node w.now r = (.ok (), r') ∧ ∃ i ∈ selected turn.state.tasks (w.queue turn.state.tasks) permits
        w.limit, turn.state.tasks[i]? = some r) turn.state.tasks turn'.state.tasks := by
  refine h.moves.imp fun r r' hr => ?_
  rcases hr with rfl | hended | hgranted
  · exact .inl (.refl r')
  · exact .inl hended.rests
  · exact .inr hgranted

/-- A lane's turn that spares the exhausted tasks keeps to the budget. -/
theorem claimOne_passes {entry : LaneClaim × Uuid} (hconf : turn.state.conf = some conf)
    (hspares : LaneSpares node conf lease now entry turn)
    (h : claimOne node conf lease now entry turn = (.ok poll, turn')) :
    Passes conf turn.state.tasks turn'.state.tasks := by
  obtain ⟨laneConf, hlane, ⟨hclaims, permits, rateWake, hserves⟩ | ⟨-, hsilent⟩⟩ := claimOne_serves hconf h
  · refine .of_grants node now (hserves.rows.imp fun r r' hr => ?_)
    rcases hr with hr | ⟨hg, i, hi, hrow⟩
    · exact .inl hr
    · refine .inr ⟨hg, fun lane hl => ?_⟩
      have hlt := Memory.spares_iff.mp (hspares laneConf hlane hclaims)
      rw [← hserves.reserves] at hlt
      have hnamed : r.lane = entry.1.lane.asStr :=
        (LaneWindow.queue_due ((selected_sublist _ _ _ _).subset hi) hrow).1
      rw [hnamed, laneNamed_asStr, hlane] at hl
      obtain rfl := Option.some.inj hl
      exact hlt i hi r hrow
  · exact .of_rows (hsilent.rows.imp fun _ _ h => h.rests)

theorem collect_passes : ∀ (claims : List (LaneClaim × Uuid)) (turn turn' : Turn)
    (polls : List LanePoll), turn.state.conf = some conf →
    Throughout node conf lease now (LaneSpares node conf lease now) claims turn →
    Step.collect (claimOne node conf lease now) claims turn = (.ok polls, turn') →
      Passes conf turn.state.tasks turn'.state.tasks
  | [], _, _, _, _, _, h => by
    obtain ⟨-, rfl⟩ := Step.pure_ok.mp h
    exact .refl _
  | entry :: claims, turn, turn', _, hconf, hspares, h => by
    simp only [Step.collect, Step.bind_ok, Step.pure_ok] at h
    obtain ⟨poll, turn₁, h₁, polls, turn₂, h₂, rfl, rfl⟩ := h
    have hconf₁ : turn₁.state.conf = some conf :=
      (works_frame (claimOne_works h₁)).1.conf.trans hconf
    rw [Throughout, h₁] at hspares
    exact (claimOne_passes hconf hspares.1 h₁).trans (collect_passes claims _ _ _ hconf₁ hspares.2 h₂)

end

/-! ### Operations -/

/-- The cached bases an operation presents. -/
def Op.cached : Op → List TaskRecord
  | .commitAdmitted _ _ _ cached _ => cached
  | _ => []

section

variable [Serde] (store : MemoryTaskStore) (conf : TaskStoreConf)

/-- What a claim or a reassignment must respect, in the state it finds. -/
def Op.Spares (op : Op) (state : MemoryState) : Prop :=
  match op with
  | .claimTasks node claims now | .coordinateLanes node claims now =>
    Throughout node conf store.leaseDuration now (LaneSpares node conf store.leaseDuration now) claims
      state.begin
  | .reassignLane source target _ => ∀ r ∈ state.tasks, reassignable source r = true →
    ∀ lane, conf.laneNamed target = some lane → r.stepAttempts ≤ lane.retry.maxAttempts
  | _ => True

/-- Operations of a framework whose tasks are built fresh, that keep to the budget. -/
structure Op.Budgeted (op : Op) (state : MemoryState) : Prop where
  submissions : ∀ write ∈ op.submissions, FreshWrite write
  children : ∀ commit ∈ op.commits, ∀ write ∈ commit.writes, FreshWrite write
  spares : op.Spares store conf state

/-- No row stands past the checkpoint it is cached at. -/
def Settled (cached rows : List TaskRecord) : Prop :=
  ∀ base ∈ cached, base.status = .suspended → ∀ r ∈ rows, r.id = base.id → r.attempts = base.attempts →
    r.stepAttempts = 0

variable {store conf} {state : MemoryState}

theorem claimOperation_passes (hd : state.Distinct) (hconf : state.conf = some conf) {node : Uuid}
    {claims : List (LaneClaim × Uuid)} {lease : Duration} {now : DateTime}
    (hspares : Throughout node conf lease now (LaneSpares node conf lease now) claims state.begin)
    (batch : ℕ) : Passes conf state.tasks
      (atomicOperation (some node) claims [] batch lease now state).2.tasks := by
  rcases claimOperation_cases hd node claims batch lease now with hkept | ⟨turn, poll, hclaims, hsettled⟩
  · rw [hkept]
    exact .refl _
  · rw [hsettled]
    have hsettle := settleTurn_rests turn [] [] state.phases poll [] now
    rw [List.append_nil] at hsettle
    refine Passes.trans ?_ (.of_rows hsettle)
    obtain ⟨_, hconf', hcollect⟩ := claimTasksState_ok hclaims
    obtain rfl := Option.some.inj (hconf'.symm.trans hconf)
    exact collect_passes claims _ _ _ hconf hspares hcollect

/-- A commit turn grants nothing and stores fresh children. -/
theorem commitOperation_rests (hd : state.Distinct) {commits : List TaskCommit}
    (hf : ∀ commit ∈ commits, ∀ write ∈ commit.writes, FreshWrite write) (batch : ℕ) (lease : Duration)
    (now : DateTime) : ∃ new, Rows Rests (state.tasks ++ new)
      (atomicOperation none [] commits batch lease now state).2.tasks ∧ ∀ t ∈ new, t.stepAttempts = 0 := by
  rcases commitOperation_cases hd commits batch lease now with hkept | ⟨staged, turn, hcommits, hsettled⟩
  · refine ⟨[], ?_, fun _ hm => nomatch hm⟩
    rw [hkept, List.append_nil]
    exact rows_refl Rests.refl _
  · refine ⟨staged.children, ?_, fun child hchild => ?_⟩
    · rw [hsettled]
      have hworks : Rows Rests state.tasks turn.state.tasks := works_rests (hcommits.works none)
      exact rests_trans (hworks.append (rows_refl Rests.refl _)) (settleTurn_rests _ _ _ _ _ _ _)
    · obtain ⟨commit, hm, -, row, -, write, hw, hstamp⟩ := hcommits.staging.adopts.2 child hchild
      obtain ⟨ready, rfl⟩ := childStamp hstamp
      exact (hf commit hm write hw).stepAttempts

omit [Serde] in
/-- Promotions of records that start a step. -/
theorem Promotes.passes {eligible : ℕ → TaskRecord → Prop} {node : Uuid} {now : DateTime} {i : ℕ}
    {rows rows' taken : List TaskRecord} (h : Promotes eligible node now i rows rows' taken)
    (hallowed : RetriesAllowed conf) (hstart : ∀ j r, eligible j r → r.stepAttempts = 0) :
    Passes conf rows rows' := by
  refine .of_grants node now (h.moves.imp fun r r' hr => ?_)
  rcases hr with rfl | ⟨⟨j, hready⟩, hgrant⟩
  · exact .inl (.refl _)
  · refine .inr ⟨hgrant, fun lane hl => ?_⟩
    rw [hstart j r hready]
    exact Int.natCast_pos.mpr (hallowed lane (List.mem_of_find?_eq_some hl))

omit [Serde] in
/-- What the direct admission of a commit promotes starts a step. -/
theorem admitted_start {cached : List TaskRecord} {new rows : List TaskRecord}
    (hrests : Rows Rests (state.tasks ++ new) rows) (hnew : ∀ t ∈ new, t.stepAttempts = 0)
    (hsettled : Settled cached state.tasks) {s₁ : MemoryState} {conf₁ : TaskStoreConf} {now : DateTime}
    {j : ℕ} {r : TaskRecord} (hj : rows[j]? = some r)
    (h : admissible s₁ conf₁ state.tasks.length cached now j r = true) : r.stepAttempts = 0 := by
  obtain ⟨old, hold, hrest⟩ := hrests.get_right hj
  have hstart : old.stepAttempts = 0 := by
    simp only [admissible, Bool.and_eq_true, Bool.or_eq_true, decide_eq_true_eq] at h
    rcases h.1.1.1.1.1 with hbehind | ⟨⟨⟨hmatch, -⟩, -⟩, -⟩
    · rw [List.getElem?_append_right hbehind] at hold
      exact hnew old (List.mem_of_getElem? hold)
    · rcases List.mem_append.mp (List.mem_of_getElem? hold) with hm | hm
      · obtain ⟨base, hbase, hmatch⟩ := List.any_eq_true.mp hmatch
        simp only [Bool.and_eq_true, decide_eq_true_eq] at hmatch
        obtain ⟨⟨⟨⟨hid, -⟩, hattempts⟩, hsuspended⟩, -⟩ := hmatch
        exact hsettled base hbase hsuspended old hm (hrest.id.symm.trans hid.symm)
          (hrest.ungranted.symm.trans hattempts.symm)
      · exact hnew old hm
  rcases hrest.steps hrest.ungranted with hs | hs
  · exact hs.trans hstart
  · exact hs

omit [Serde] in
/-- Fresh submissions stored behind the rows. -/
theorem Passes.of_submissions {writes : List TaskWrite} (now : DateTime) {rows staged : List TaskRecord}
    (hf : ∀ write ∈ writes, FreshWrite write) (hstamp : StampedFrom writes now staged) :
    Passes conf rows (rows ++ staged) := by
  refine .of_rests staged (rows_refl Rests.refl _) fun t ht => ?_
  obtain ⟨write, hw, hs⟩ := hstamp t ht
  obtain ⟨ready, rfl⟩ := stampWrite_ok hs
  exact (hf write hw).stepAttempts

/-- Operations outside turns grant only what they store. -/
theorem exec_quiet_passes {op : Op} (hop : op.quiet = true) (hallowed : RetriesAllowed conf)
    (hcall : op.Budgeted store conf state) : Passes conf state.tasks (exec store op state).2.tasks := by
  have hedit := exec_edits store hop state
  generalize (exec store op state).2 = after at hedit ⊢
  cases hedit with
  | refused | registered => exact .refl _
  | retired =>
    refine .of_rows (rows_map _ _ fun r _ => ?_)
    split
    · exact .of_eq rfl rfl rfl rfl fun h => h
    · exact .refl r
  | returned =>
    refine .of_rows (rows_map _ _ fun r _ => ?_)
    split
    · refine .of_eq rfl rfl rfl rfl fun h => ?_
      simp only [returnTask] at h
      split at h
      · cases h
      · exact h
    · exact .refl r
  | @stored node now staged rows taken _ _ _ _ hstamped hwalk =>
    have hfresh : ∀ t ∈ staged, t.stepAttempts = 0 := by
      intro t ht
      obtain ⟨write, hw, hs⟩ := hstamped t ht
      obtain ⟨ready, rfl⟩ := stampWrite_ok hs
      exact (hcall.submissions write hw).stepAttempts
    refine (Passes.of_submissions now hcall.submissions hstamped).trans ?_
    -- the walk over the new rows, behind the old ones
    have hstaged : Promotes (fun _ r => r ∈ staged) node now 0 staged rows taken :=
      hwalk.imp fun j r hj _ => List.mem_of_getElem? hj
    have hbehind := Promotes.behind state.tasks 0 (hstaged.shift (0 + state.tasks.length))
    exact hbehind.passes hallowed fun _ r hm => hfresh r hm
  | @reassigned source target clock hfound =>
    refine .of_counts (rows_mapIdx _ _ fun i r => ?_) fun hw r' hr' => ?_
    · split
      · exact ⟨rfl, le_refl _, fun _ => .inl rfl, fun h => h⟩
      · exact .refl r
    · obtain ⟨i, hi, rfl⟩ := List.mem_mapIdx.mp hr'
      have hm := List.getElem_mem hi
      have hspares := hcall.spares
      subst hfound
      split
      · next hmoved => exact fun lane hl => hspares state.tasks[i] hm hmoved lane hl
      · exact hw _ hm
  | resumed => exact .of_rows (wake_rests _ _ _ fun r => .of_eq rfl rfl rfl rfl fun h => (by cases h))

/-- An operation that keeps to the budget, and whose cached bases are checkpoints the rows still stand at,
    keeps every record within it. -/
theorem exec_passes (hd : state.Distinct) (hconf : state.conf = some conf) (hallowed : RetriesAllowed conf)
    {op : Op} (hcall : op.Budgeted store conf state) (hsettled : Settled op.cached state.tasks) :
    Passes conf state.tasks (exec store op state).2.tasks := by
  cases hop : op.quiet with
  | true => exact exec_quiet_passes hop hallowed hcall
  | false =>
    have hdone := exec_performs store hop state
    generalize (exec store op state).2 = after at hdone ⊢
    cases hdone with
    | refused => exact .refl _
    | setUp ratesNow hconf => exact .refl _
    | claimed hclaim =>
      refine claimOperation_passes hd hconf ?_ _
      have hspares := hcall.spares
      rcases hclaim with rfl | rfl <;> exact hspares
    | committed ht =>
      obtain ⟨new, hrests, hnew⟩ := commitOperation_rests hd hcall.children store.commitBatchSize
        store.leaseDuration _
      exact .of_rests new hrests hnew
    | @admitted node limit cached now _ state₁ result rows taken hfound hturn hwalk =>
      obtain ⟨new, hrests, hnew⟩ := commitOperation_rests hd hcall.children store.commitBatchSize
        store.leaseDuration now
      rw [hturn] at hrests
      refine (Passes.of_rests new hrests hnew).trans ?_
      have hcached : Settled cached state.tasks := by
        rw [hfound] at hsettled
        exact hsettled
      have hstart : Promotes (fun _ r => r.stepAttempts = 0) node now 0 state₁.tasks rows taken := by
        refine hwalk.imp fun j r hj hready => ?_
        obtain ⟨conf₁, -, hadmissible⟩ := hready
        rw [Nat.zero_add] at hadmissible
        exact admitted_start hrests hnew hcached hj hadmissible
      exact hstart.passes hallowed fun _ _ hzero => hzero
    | @recovered now _ staged _ _ cancelled _ hgiven hcancels hturn =>
      obtain ⟨new, hrests, hnew⟩ := commitOperation_rests (hgiven.distinct hd) (childless_of_cancels hcancels)
        store.commitBatchSize store.leaseDuration now
      rw [hturn] at hrests
      exact (Passes.of_rows (hgiven.rows.imp fun _ _ h => h.rests)).trans (.of_rests new hrests hnew)

end

/-! ### Runs -/

/-- A store with every row it has held. -/
structure Recorded where
  state : MemoryState
  held : List TaskRecord

section

variable [Serde] (store : MemoryTaskStore) (conf : TaskStoreConf)

/-- One operation of the framework's runners, whose cached bases are rows the store has held. -/
structure Remembers (s : Recorded) (op : Op) (s' : Recorded) : Prop where
  step : Steps store (fun state op => op.Budgeted store conf state) s.state op s'.state
  cached : ∀ base ∈ op.cached, base ∈ s.held
  held : s'.held = s.held ++ s'.state.tasks

omit [Serde] in
/-- A store just built. -/
def Unused (s : Recorded) : Prop := s = ⟨MemoryState.new conf, []⟩

/-- What holds of every recorded store: a row with the attempts of a checkpoint that was held stands at
    the start of a step. -/
structure KeepsBudget (s : Recorded) : Prop where
  configured : s.state.conf = some conf
  distinct : s.state.Distinct
  within : ∀ r ∈ s.state.tasks, InBudget conf r
  parked : ∀ r ∈ s.state.tasks, Parked r
  stored : ∀ base ∈ s.held, base.id ∈ s.state.tasks.map (·.id)
  settled : ∀ base ∈ s.held, base.status = .suspended → ∀ r ∈ s.state.tasks, r.id = base.id →
    base.attempts ≤ r.attempts ∧ (r.attempts = base.attempts → r.stepAttempts = 0)

variable {store conf}

omit [Serde] in
/-- The checkpoints a store has held stay settled while its rows are counted. -/
theorem KeepsBudget.settles {s : Recorded} (hi : KeepsBudget conf s) {rows : List TaskRecord}
    (hp : Passes conf s.state.tasks rows) (hd : (rows.map (·.id)).Nodup) {base : TaskRecord}
    (hbase : base ∈ s.held) (hsuspended : base.status = .suspended) {r : TaskRecord} (hr : r ∈ rows)
    (hid : r.id = base.id) :
    base.attempts ≤ r.attempts ∧ (r.attempts = base.attempts → r.stepAttempts = 0) := by
  obtain ⟨moved, new, rfl, hmoved, -⟩ := hp.counted
  rcases List.mem_append.mp hr with hm | hm
  · obtain ⟨r₀, hr₀, hcounts⟩ := hmoved.mem_right hm
    obtain ⟨hle, hstart⟩ := hi.settled base hbase hsuspended r₀ hr₀ (hcounts.id.symm.trans hid)
    refine ⟨hle.trans hcounts.attempts, fun heq => ?_⟩
    have hsame : r.attempts = r₀.attempts := le_antisymm (heq ▸ hle) hcounts.attempts
    rcases hcounts.steps hsame with hs | hs
    · exact hs.trans (hstart (hsame.symm.trans heq))
    · exact hs
  · -- a new row has an identifier of its own
    have hstored := hi.stored base hbase
    rw [← hmoved.map_eq fun _ _ h => h.id] at hstored
    rw [List.map_append, List.nodup_append] at hd
    exact absurd hid.symm (hd.2.2 base.id hstored r.id (List.mem_map_of_mem hm))

theorem remembers_keeps (hallowed : RetriesAllowed conf) (s : Recorded) (op : Op) (s' : Recorded)
    (hi : KeepsBudget conf s) (h : Remembers store conf s op s') : KeepsBudget conf s' := by
  obtain ⟨hcall, hstate⟩ := h.step
  have hcached : Settled op.cached s.state.tasks := by
    intro base hbase hsuspended r hr hid
    exact (hi.settled base (h.cached base hbase) hsuspended r hr hid).2
  have hp := exec_passes hi.distinct hi.configured hallowed hcall hcached
  have hext := exec_extends store hi.distinct op
  rw [← hstate] at hp hext
  have hd := hext.distinct hi.distinct
  have hparked : ∀ r ∈ s'.state.tasks, Parked r := by
    obtain ⟨moved, new, hrows, hmoved, hnew⟩ := hp.counted
    intro r hr
    rw [hrows] at hr
    rcases List.mem_append.mp hr with hm | hm
    · obtain ⟨r₀, hr₀, hcounts⟩ := hmoved.mem_right hm
      exact hcounts.parked (hi.parked r₀ hr₀)
    · exact hnew r hm
  refine ⟨hext.conf.trans hi.configured, hd, hp.within hi.within, hparked, fun base hbase => ?_,
    fun base hbase hsuspended r hr hid => ?_⟩
  · rw [h.held] at hbase
    rcases List.mem_append.mp hbase with hm | hm
    · obtain ⟨moved, new, hrows, hmoved, -⟩ := hp.counted
      rw [hrows, List.map_append, hmoved.map_eq fun _ _ h => h.id]
      exact List.mem_append_left _ (hi.stored base hm)
    · exact List.mem_map_of_mem hm
  · rw [h.held] at hbase
    rcases List.mem_append.mp hbase with hm | hm
    · exact hi.settles hp hd hm hsuspended hr hid
    · obtain rfl := List.inj_on_of_nodup_map hd hr hm hid
      exact ⟨le_refl _, fun _ => hparked r hm hsuspended⟩

/-- INCORRECT without a condition: a claim turn grants no task past its lane's attempts exactly when every
    lane's claim spares the exhausted tasks behind its window; and in runs of fresh submissions whose
    claim turns do, and in which no lane is reassigned to one that allows fewer attempts, every record
    stays within the budget of its lane. -/
theorem retry_budget_kept_iff (store : MemoryTaskStore) :
    (∀ node conf lease now claims turn turn' poll, turn.state.conf = some conf →
      claimTasksState node claims lease now turn = (.ok poll, turn') →
        (WithinRetry conf poll.lanes ↔
          Throughout node conf lease now (LaneSpares node conf lease now) claims turn)) ∧
      ∀ conf, RetriesAllowed conf → ∀ s, Reachable (Unused conf) (Remembers store conf) s →
        ∀ r ∈ s.state.tasks, ∀ lane, conf.laneNamed r.lane = some lane →
          r.stepAttempts ≤ lane.retry.maxAttempts := by
  refine ⟨?_, fun conf hallowed s h => ?_⟩
  · intro node conf lease now claims turn turn' poll hconf hclaims
    obtain ⟨_, hconf', hcollect⟩ := claimTasksState_ok hclaims
    obtain rfl := Option.some.inj (hconf'.symm.trans hconf)
    exact collect_within claims _ _ _ hconf hcollect
  · have hkeeps : KeepsBudget conf s := by
      refine h.inv (I := KeepsBudget conf) ?_ (remembers_keeps hallowed)
      rintro _ rfl
      exact ⟨rfl, List.nodup_nil, fun _ hr => (nomatch hr), fun _ hr => (nomatch hr),
        fun _ hb => (nomatch hb), fun _ hb => nomatch hb⟩
    exact hkeeps.within

end

/-! ### Two tasks abandoned three times -/

/-- The node claims both tasks and loses them, three times: all the attempts the lane allows. -/
def abandonedThrice : List Op :=
  twoSubmitted ++ (List.replicate 3 [.claimTasks 7 (openClaim 2) 3, .returnClaims (some 7) 3]).flatten

attribute [local instance] acceptingSerde in
/-- A claim of one task fails the first of the two and grants the second a fourth attempt. -/
theorem exhausted_task_is_granted :
    ∃ s, Reachable Started (Steps smallStore AnyCall) s ∧ ∃ r ∈ s.tasks, ∃ lane,
      smallConf.laneNamed r.lane = some lane ∧ r.status = .running ∧ r.stepAttempts = 4 ∧
      lane.retry.maxAttempts = 3 := by
  let ops := abandonedThrice ++ [.claimTasks 7 (openClaim 1) 4]
  have hgranted : ((MemoryState.new smallConf).execs smallStore ops).tasks.any (fun r =>
      (smallConf.laneNamed r.lane).any (fun lane =>
        r.status = .running && r.stepAttempts = 4 && lane.retry.maxAttempts = 3)) = true := by
    decide +kernel
  obtain ⟨r, hr, hlane⟩ := List.any_eq_true.mp hgranted
  obtain ⟨lane, hnamed, hcounts⟩ := (Option.any_eq_true _ _).mp hlane
  simp only [Bool.and_eq_true, decide_eq_true_eq] at hcounts
  exact ⟨_, ⟨_, ops, ⟨smallConf, rfl⟩, MemoryState.execs_run smallStore ops _ fun _ _ _ => trivial⟩, r, hr,
    lane, hnamed, hcounts.1.1, hcounts.1.2, hcounts.2⟩

attribute [local instance] acceptingSerde in
/-- Nothing stands behind a window of two. -/
theorem two_spared : (Op.claimTasks 7 (openClaim 2) 3).Spares smallStore smallConf
    ((MemoryState.new smallConf).execs smallStore twoSubmitted) := by
  refine ⟨fun laneConf hlane _ i hi => ?_, trivial⟩
  obtain rfl := Option.some.inj hlane
  have hempty : (waiting ((MemoryState.new smallConf).execs smallStore twoSubmitted).tasks "open" 3).drop 2 =
      [] := by
    decide +kernel
  exact nomatch hempty ▸ hi

theorem remembers_next [Serde] {store : MemoryTaskStore} {conf : TaskStoreConf} (s : Recorded) (op : Op)
    (hcall : op.Budgeted store conf s.state) (hcached : op.cached = []) : Remembers store conf s op
      ⟨(exec store op s.state).2, s.held ++ (exec store op s.state).2.tasks⟩ := by
  refine ⟨⟨hcall, rfl⟩, fun base hbase => ?_, rfl⟩
  rw [hcached] at hbase
  exact nomatch hbase

attribute [local instance] acceptingSerde in
/-- A claim of both fresh tasks keeps to the budget. -/
theorem retry_budget_kept_iff_fresh :
    (∃ poll turn', claimTasksState 7 (openClaim 2) smallStore.leaseDuration 3
        ((MemoryState.new smallConf).execs smallStore twoSubmitted).begin = (.ok poll, turn') ∧
      WithinRetry smallConf poll.lanes) ∧
    ∀ r ∈ ((MemoryState.new smallConf).execs smallStore (twoSubmitted ++ [.claimTasks 7 (openClaim 2) 3])).tasks,
      ∀ lane, smallConf.laneNamed r.lane = some lane → r.stepAttempts ≤ lane.retry.maxAttempts := by
  obtain ⟨hturn, hruns⟩ := retry_budget_kept_iff smallStore
  constructor
  · have hpolled : ((claimTasksState 7 (openClaim 2) smallStore.leaseDuration 3
        ((MemoryState.new smallConf).execs smallStore twoSubmitted).begin).1.toOption.map
          fun poll => poll.tasks.length) = some 2 := by
      decide +kernel
    obtain ⟨poll, turn', hrun, -⟩ := ok_of_toOption hpolled
    have hconf : ((MemoryState.new smallConf).execs smallStore twoSubmitted).begin.state.conf =
        some smallConf := by
      decide +kernel
    exact ⟨poll, turn', hrun, (hturn 7 smallConf _ 3 _ _ turn' poll hconf hrun).mpr two_spared⟩
  · have hallowed : ∀ lane ∈ smallConf.lanes, 0 < lane.retry.maxAttempts := by decide
    have hfresh : ∀ write ∈ [plainWrite (freshRecord 1 .work "open"), plainWrite (freshRecord 2 .work "open")],
        FreshWrite write := by
      intro write hm
      rcases List.mem_pair.mp hm with rfl | rfl <;> exact ⟨rfl, rfl, rfl, rfl⟩
    refine hruns smallConf hallowed _ ⟨⟨MemoryState.new smallConf, []⟩, _, rfl,
      .cons (remembers_next _ (.registerNode 7 1) ⟨?_, ?_, trivial⟩ rfl)
        (.cons (remembers_next _ (.storeTasks _ 2) ⟨hfresh, ?_, trivial⟩ rfl)
          (.cons (remembers_next _ (.claimTasks 7 (openClaim 2) 3) ⟨?_, ?_, two_spared⟩ rfl) (.nil _)))⟩
    all_goals exact fun _ h => nomatch h

end Vyuh.Tasks.Memory
