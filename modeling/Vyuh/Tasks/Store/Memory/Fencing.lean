import Vyuh.Tasks.Store.Memory.LaneFence

/-! Fenced acceptance. An accepted commit leaves a row that no equal commit can be accepted on again:
    an outcome spends its attempt, a cancellation makes the row terminal, and every later step keeps it
    so. A batch presented once more therefore has the effect of its formerly rejected entries alone. -/

namespace Vyuh.Tasks.Memory
open Lib

variable {commit : TaskCommit} {ops : List Op} {op : Op} {now : DateTime}

/-- The attempt is over: a later one began, or nobody owns the row any more. -/
def Spent (attempts : ℤ) (r : TaskRecord) : Prop :=
  attempts < r.attempts ∨ (r.attempts = attempts ∧ r.nodeId = none)

/-- The row took the commit: its attempt is spent, or it was cancelled for good. -/
def Done (commit : TaskCommit) (r : TaskRecord) : Prop :=
  match commit with
  | .outcome _ attempts _ _ _ _ => Spent attempts r
  | .cancel _ => r.status = .failed ∧ r.nodeId = none

theorem Spent.evolves {grantee : Uuid → Prop} {clock : DateTime → Prop} {attempts : ℤ}
    {r r' : TaskRecord} (h : Spent attempts r) (he : Evolves grantee clock r r') : Spent attempts r' := by
  rcases h with hlt | ⟨rfl, hnone⟩
  · exact .inl (lt_of_lt_of_le hlt he.attempts)
  · rcases lt_or_eq_of_le he.attempts with hlt | heq
    · exact .inl hlt
    · refine .inr ⟨heq.symm, ?_⟩
      rcases he.owner heq with hsame | hgone
      · rw [hsame, hnone]
      · exact hgone

theorem Done.steady {grantee : Uuid → Prop} {clock : DateTime → Prop} {r r' : TaskRecord}
    (h : Done commit r) (hs : Steady grantee clock r r') : Done commit r' := by
  cases commit with
  | outcome node attempts id lane result token => exact Spent.evolves h hs.toEvolves
  | cancel id =>
    obtain ⟨hfailed, hnone⟩ := h
    have hterm : r.status.terminal = true := by rw [hfailed]; rfl
    have howned : Owned r := fun hn => by rw [hnone] at hn; exact nomatch hn
    rw [hs.terminal howned hterm]
    exact ⟨hfailed, hnone⟩

/-- The commit fits no row that took it, nor does another outcome of the same attempt. -/
theorem Spent.refuses {attempts : ℤ} {r : TaskRecord} (h : Spent attempts r) (node : Uuid) (id : TaskId)
    (lane : TaskLane) (result : TaskOutcome) (token : Option String) :
    acceptsRow (.outcome node attempts id lane result token) r = false := by
  rw [acceptsRow, TaskCommit.accepts]
  rcases h with hlt | ⟨-, hnone⟩
  · simp [hlt.ne']
  · simp [hnone]

theorem Done.refuses {r : TaskRecord} (h : Done commit r) :
    acceptsRow commit r = false := by
  cases commit with
  | outcome node attempts id lane result token => exact Spent.refuses h node id lane result token
  | cancel id =>
    rw [acceptsRow, TaskCommit.accepts, h.1]
    simp

/-- An accepted commit is done on the row it left. -/
theorem Takes.done {state after : MemoryState} {index : ℕ} {row concluded final : TaskRecord}
    (h : Takes state op commit after now index row concluded final) :
    Done commit final := by
  refine Done.steady ?_ h.moved
  cases commit with
  | outcome node attempts id lane result token =>
    refine .inr ⟨?_, h.result.owner⟩
    have hev := h.accepts.evidence
    simp only [TaskCommit.accepts, Bool.and_eq_true, decide_eq_true_eq] at hev
    exact h.result.attempts.trans hev.2
  | cancel id => exact ⟨h.cancels rfl, h.result.owner⟩

section

variable [Serde] {store : MemoryTaskStore} {call : MemoryState → Op → Prop} {state state' : MemoryState}

/-- A row that took a commit keeps it through every run. -/
theorem run_done (h : Run (Steps store call) state ops state') (hd : state.Distinct) {i : ℕ}
    {r : TaskRecord} (hi : state.tasks[i]? = some r) (hr : Done commit r) :
    ∃ r', state'.tasks[i]? = some r' ∧ r'.id = r.id ∧ Done commit r' := by
  induction h generalizing r with
  | nil state => exact ⟨r, hi, rfl, hr⟩
  | @cons state state₁ state' op ops first rest ih =>
    have hd₁ := steps_distinct store _ _ _ hd first
    obtain ⟨-, rfl⟩ := first
    obtain ⟨r₁, hi₁, hs⟩ := (exec_extends store hd op).get hi
    obtain ⟨r', hi', hid, hdone⟩ := ih hd₁ hi₁ (hr.steady hs)
    exact ⟨r', hi', hid.trans hs.id, hdone⟩

theorem run_distinct (h : Run (Steps store call) state ops state') (hd : state.Distinct) :
    state'.Distinct := h.inv (steps_distinct store) hd

theorem run_conf (h : Run (Steps store call) state ops state') (hd : state.Distinct) :
    state'.conf = state.conf := by
  induction h with
  | nil state => rfl
  | cons first rest ih =>
    have hd₁ := steps_distinct store _ _ _ hd first
    obtain ⟨-, rfl⟩ := first
    exact (ih hd₁).trans (exec_extends store hd _).conf

/-- After an accepted commit and any run, every row with the commit's identifier took it. -/
theorem Accepted.done_later (hd : state.Distinct) (h : Accepted store state op commit)
    (hrun : Run (Steps store call) (exec store op state).2 ops state') :
    ∀ r ∈ state'.tasks, r.id = commit.taskId → Done commit r := by
  obtain ⟨now, index, row, concluded, final, htakes⟩ := h.takes hd
  have hd₁ := (exec_extends store hd op).distinct hd
  obtain ⟨r', hi', hid, hdone⟩ := run_done hrun hd₁ htakes.stored htakes.done
  intro r hr hrid
  have hfinal : final.id = commit.taskId :=
    htakes.moved.id.trans (htakes.result.id.trans htakes.accepts.id)
  rw [(run_distinct hrun hd₁).eq hr (List.mem_of_getElem? hi') (hrid.trans (hid.trans hfinal).symm)]
  exact hdone

theorem Accepted.refused_later (hd : state.Distinct) (h : Accepted store state op commit)
    (hrun : Run (Steps store call) (exec store op state).2 ops state') :
    ∀ r ∈ state'.tasks, acceptsRow commit r = false := by
  intro r hr
  by_cases hid : r.id = commit.taskId
  · exact (h.done_later hd hrun r hr hid).refuses
  · rw [acceptsRow, decide_eq_false hid, Bool.false_and]

/-! ### Batches with refused entries -/

omit [Serde] in
theorem totalWeight_sublist {few commits : List TaskCommit} (h : few.Sublist commits) :
    ∀ {sum sum' total : ℕ}, sum' ≤ sum → totalWeight commits sum = some total →
      ∃ total', totalWeight few sum' = some total' ∧ total' ≤ total := by
  induction h with
  | slnil =>
    intro sum sum' total hle ht
    obtain rfl := Option.some.inj ht
    exact ⟨sum', rfl, hle⟩
  | @cons few commits commit _ ih =>
    intro sum sum' total hle ht
    rw [totalWeight] at ht
    obtain ⟨next, hn, ht⟩ := Option.bind_eq_some_iff.mp ht
    rw [checkedAddUsize] at hn
    split at hn
    · obtain rfl := Option.some.inj hn
      exact ih (by omega) ht
    · exact nomatch hn
  | @cons_cons few commits commit _ ih =>
    intro sum sum' total hle ht
    rw [totalWeight] at ht ⊢
    obtain ⟨next, hn, ht⟩ := Option.bind_eq_some_iff.mp ht
    rw [checkedAddUsize] at hn
    split at hn
    · next hfits =>
      obtain rfl := Option.some.inj hn
      rw [checkedAddUsize, if_pos (by omega), Option.bind_some]
      exact ih (by omega) ht
    · exact nomatch hn

omit [Serde] in
/-- A selection of a valid batch is valid. -/
theorem validateTurn_sublist {few commits : List TaskCommit} {batch maximum : ℕ}
    (h : few.Sublist commits) (hv : validateTurn commits batch maximum = .ok ()) :
    validateTurn few batch maximum = .ok () := by
  rw [validateTurn] at hv ⊢
  split
  · rfl
  · next hall =>
    have hall' : ¬ (!commits.any (·.isAll)) = true := by
      simp only [Bool.not_eq_true', Bool.not_eq_false, List.any_eq_true] at hall ⊢
      obtain ⟨commit, hm, ha⟩ := hall
      exact ⟨commit, h.mem hm, ha⟩
    rw [if_neg hall'] at hv
    split at hv
    · exact nomatch hv
    · next hfits =>
      simp only [Bool.or_eq_true, decide_eq_true_eq, not_or, Option.all_eq_true, not_forall] at hfits
      obtain ⟨hlen, total, ht, hle⟩ := hfits
      obtain ⟨total', ht', hle'⟩ := totalWeight_sublist h (le_refl 0) ht
      rw [if_neg]
      simp only [Bool.or_eq_true, decide_eq_true_eq, not_or, ht', Option.all_some]
      exact ⟨fun hlt => hlen (lt_of_lt_of_le hlt h.length_le), fun hlt => hle (lt_of_lt_of_le hlt hle')⟩

/-- A commit no row takes leaves nothing staged. -/
theorem stageCommit_refused {allowed : Bool} (ha : memoryCommitAllowed state commit now = .ok allowed)
    (hr : ∀ r ∈ state.tasks, acceptsRow commit r = false) (staged : Staged) :
    stageCommit state commit now staged = .ok staged := by
  have hnone : ownedTask state commit = .ok none := by
    have hf : state.tasks.findIdx? (acceptsRow commit) = none :=
      List.findIdx?_eq_none_iff.mpr hr
    rw [ownedTask, hf]
  rw [stageCommit, ha]
  cases allowed with
  | false => rfl
  | true =>
    rw [hnone]
    rfl

/-- Entries that stage nothing may be left out of a batch. -/
theorem stageOutcomes_filter {now : DateTime} (keep : TaskCommit → Bool) :
    ∀ (commits : List TaskCommit) (seen seen' : List TaskId) (staged : Staged),
      (commits.map (·.taskId)).Nodup → (∀ commit ∈ commits, commit.taskId ∉ seen) →
      (∀ commit ∈ commits, commit.taskId ∉ seen') →
      (∀ commit ∈ commits, keep commit = false →
        ∀ staged, stageCommit state commit now staged = .ok staged) →
      stageOutcomes state now seen staged commits =
        stageOutcomes state now seen' staged (commits.filter keep)
  | [], seen, seen', staged, _, _, _, _ => rfl
  | commit :: commits, seen, seen', staged, hn, hs, hs', hskip => by
    rw [List.map_cons, List.nodup_cons] at hn
    have hfresh : ∀ {ids : List TaskId}, (∀ c ∈ commit :: commits, c.taskId ∉ ids) →
        ∀ c ∈ commits, c.taskId ∉ commit.taskId :: ids := by
      intro ids hids c hc hmem
      rcases List.mem_cons.mp hmem with he | hmem
      · exact hn.1 (he ▸ List.mem_map_of_mem hc)
      · exact hids c (List.mem_cons_of_mem _ hc) hmem
    have hrest := fun seen₁ staged₁ hseen₁ => stageOutcomes_filter keep commits (commit.taskId :: seen)
      seen₁ staged₁ hn.2 (hfresh hs) hseen₁ fun c hc => hskip c (List.mem_cons_of_mem _ hc)
    rw [stageOutcomes, if_neg (hs commit List.mem_cons_self)]
    cases hk : keep commit with
    | false =>
      rw [hskip commit List.mem_cons_self hk, List.filter_cons_of_neg (by simp [hk])]
      exact hrest seen' staged fun c hc => hs' c (List.mem_cons_of_mem _ hc)
    | true =>
      rw [List.filter_cons_of_pos hk, stageOutcomes, if_neg (hs' commit List.mem_cons_self)]
      cases stageCommit state commit now staged with
      | error error => rfl
      | ok staged₁ => exact hrest (commit.taskId :: seen') staged₁ (hfresh hs')

/-- A turn with idle entries left out ends in the same store, one way or the other. -/
theorem atomicOperation_filter {commits : List TaskCommit} {batch : ℕ} {lease : Duration}
    (keep : TaskCommit → Bool)
    (hv : validateTurn commits batch ((state.conf.map (·.maxAllChildren)).getD 256) = .ok ())
    (hn : (commits.map (·.taskId)).Nodup)
    (hskip : ∀ commit ∈ commits, keep commit = false →
      ∀ staged, stageCommit state commit now staged = .ok staged) :
    (atomicOperation none [] commits batch lease now state).2 =
        (atomicOperation none [] (commits.filter keep) batch lease now state).2 ∧
      (atomicOperation none [] commits batch lease now state).1.isOk =
        (atomicOperation none [] (commits.filter keep) batch lease now state).1.isOk := by
  have hstage := stageOutcomes_filter keep commits [] [] Staged.empty hn (fun _ _ hm => nomatch hm)
    (fun _ _ hm => nomatch hm) hskip
  have hfallible : fallibleTurn none [] commits lease now ⟨state, [], []⟩ =
      fallibleTurn none [] (commits.filter keep) lease now ⟨state, [], []⟩ := by
    simp only [fallibleTurn, commitOutcomesState, Step.bind_run, Step.get_run, hstage]
  rw [atomicOperation, atomicOperation]
  simp only [hv, validateTurn_sublist List.filter_sublist hv]
  simp only [runTurn, Step.bind_run, hfallible]
  rcases fallibleTurn none [] (commits.filter keep) lease now ⟨state, [], []⟩ with ⟨r, turn⟩
  cases r with
  | error error => exact ⟨rfl, rfl⟩
  | ok out => exact ⟨rfl, rfl⟩

omit [Serde] in
/-- Promotion looks at the rows; what it reports about the batch does not matter. -/
theorem admitRows_congr (conf : TaskStoreConf) (before : ℕ) (commits commits' : List TaskCommit)
    (node : Uuid) (cached : List TaskRecord) (now : DateTime) (rejected rejected' : List TaskId) :
    ∀ (rows : List TaskRecord) (acc acc' : Admission), acc.index = acc'.index → acc.limit = acc'.limit →
      (mapAccum (admitRow state conf before commits node cached now rejected) acc rows).2 =
        (mapAccum (admitRow state conf before commits' node cached now rejected') acc' rows).2
  | [], _, _, _, _ => rfl
  | row :: rows, acc, acc', hi, hl => by
    rw [mapAccum, mapAccum]
    have hrow : (admitRow state conf before commits node cached now rejected acc row).2 =
        (admitRow state conf before commits' node cached now rejected' acc' row).2 := by
      simp only [admitRow, hi, hl]
    have hrest := admitRows_congr conf before commits commits' node cached now rejected rejected' rows
      (admitRow state conf before commits node cached now rejected acc row).1
      (admitRow state conf before commits' node cached now rejected' acc' row).1
      (by simp only [admitRow, hi]) (by simp only [admitRow, hi, hl])
    simp only [hrow, hrest]

omit [Serde] in
theorem admitCommitted_congr {before : ℕ} (commits commits' : List TaskCommit) {node : Uuid} {limit : ℕ}
    {cached : List TaskRecord} (result result' : CommitResult) :
    (admitCommitted state before commits node limit cached now result).1 =
      (admitCommitted state before commits' node limit cached now result').1 := by
  rw [admitCommitted, admitCommitted]
  cases state.conf with
  | none => rfl
  | some conf =>
    simp only
    rw [admitRows_congr conf before commits commits' node cached now result.rejected result'.rejected
      state.tasks ⟨0, limit, result.tasks⟩ ⟨0, limit, result'.tasks⟩ rfl rfl]

omit [Serde] in
/-- The same commit operation with another batch. -/
def Op.present (commits : List TaskCommit) : Op → Op
  | .commitTasks _ now => .commitTasks commits now
  | .commitAdmitted _ node limit cached now => .commitAdmitted commits node limit cached now
  | .recoverOutputs node _ prepared now => .recoverOutputs node commits prepared now
  | op => op

/-- Any commit operation with idle entries left out ends in the same store. -/
theorem exec_filter (op : Op) (keep : TaskCommit → Bool)
    (hv : validateTurn op.commits store.commitBatchSize ((state.conf.map (·.maxAllChildren)).getD 256) =
      .ok ())
    (hn : (op.commits.map (·.taskId)).Nodup)
    (hskip : ∀ now, ∀ commit ∈ op.commits, keep commit = false →
      ∀ staged, stageCommit state commit now staged = .ok staged) :
    (exec store op state).2 = (exec store (op.present (op.commits.filter keep)) state).2 := by
  cases op with
  | commitTasks commits now =>
    simp only [Op.present, exec, respondCommit_snd, commitTasks_snd]
    exact (atomicOperation_filter keep hv hn (hskip now)).1
  | recoverOutputs node commits prepared now =>
    simp only [Op.present, exec, respondCommit_snd, recoverOutputs_snd, commitTasks_snd]
    exact (atomicOperation_filter keep hv hn (hskip now)).1
  | commitAdmitted commits node limit cached now =>
    rw [Op.present, Op.commits, exec, exec, respondCommit_snd, respondCommit_snd]
    obtain ⟨hstate, hok⟩ := atomicOperation_filter keep hv hn (hskip now)
    rcases commitAdmitted_cases store commits node limit cached now state with
      ⟨error, state₁, hop, he⟩ | ⟨poll, result, state₁, hop, he⟩
    · rcases commitAdmitted_cases store (commits.filter keep) node limit cached now state with
        ⟨error', state₂, hop', he'⟩ | ⟨poll', result', state₂, hop', he'⟩
      · rw [Op.commits, hop, hop'] at hstate
        rw [he, he']
        exact hstate
      · rw [Op.commits, hop, hop'] at hok
        cases hok
    · rcases commitAdmitted_cases store (commits.filter keep) node limit cached now state with
        ⟨error', state₂, hop', he'⟩ | ⟨poll', result', state₂, hop', he'⟩
      · rw [Op.commits, hop, hop'] at hok
        cases hok
      · rw [Op.commits, hop, hop'] at hstate
        obtain rfl : state₁ = state₂ := hstate
        rw [he, he']
        exact admitCommitted_congr _ _ _ _
  | _ => rfl

/-- An empty batch changes nothing. -/
theorem atomicOperation_nil (batch : ℕ) (lease : Duration) (now : DateTime) :
    (atomicOperation none [] [] batch lease now state).2 = state := by
  rw [atomicOperation]
  simp only [validateTurn, List.any_nil, Bool.not_false, if_true]
  simp only [runTurn, fallibleTurn, commitOutcomesState, stageOutcomes, Staged.empty, Step.bind_run,
    Step.get_run, Step.lift_run, Step.each, Step.pure_run, Step.modify_run, List.append_nil]
  exact settleTurn_nothing state _ _ now

/-! ### Acceptance over runs -/

/-- The batch of an acknowledged commit operation was valid and named no task twice. -/
theorem committed_batch {result : CommitResult} (h : (exec store op state).1 = .committed result) :
    validateTurn op.commits store.commitBatchSize ((state.conf.map (·.maxAllChildren)).getD 256) =
      .ok () ∧ (op.commits.map (·.taskId)).Nodup := by
  obtain ⟨now, out, state₁, -, -, -, hop, -⟩ := committed_turn h
  obtain ⟨hv, turn, hrun, -⟩ := atomicOperation_ok hop
  obtain ⟨staged, turn₁, hcommits, -⟩ := runTurn_commits hrun
  exact ⟨hv, hcommits.distinct⟩

/-- A commit that was allowed once never fails its lane check later. -/
theorem Accepts.allowed_later {index : ℕ} {row : TaskRecord} (hd : state.Distinct)
    (h : Accepts state now commit index row)
    (hrun : Run (Steps store call) (exec store op state).2 ops state') (later : DateTime) :
    ∃ allowed, memoryCommitAllowed state' commit later = .ok allowed := by
  cases commit with
  | cancel id => exact ⟨true, rfl⟩
  | outcome node attempts id lane result token =>
    have hconf : state'.conf = state.conf :=
      (run_conf hrun ((exec_extends store hd op).distinct hd)).trans (exec_extends store hd op).conf
    have hallowed := h.allowed
    rw [memoryCommitAllowed] at hallowed ⊢
    rw [hconf]
    split
    · next hlock =>
      rw [if_pos hlock] at hallowed
      cases ho : state.laneLocks lane.asStr with
      | none => rw [ho] at hallowed; cases hallowed
      | some o =>
        obtain ⟨o₁, -, ho₁, -⟩ := exec_lane store op ho
        obtain ⟨o', -, ho', -⟩ := run_lane store hrun ho₁
        rw [ho']
        exact ⟨_, rfl⟩
    · exact ⟨true, rfl⟩

/-- What was accepted stages nothing when it is presented again. -/
theorem Accepted.idle_later (hd : state.Distinct) (h : Accepted store state op commit)
    (hrun : Run (Steps store call) (exec store op state).2 ops state') (later : DateTime)
    (staged : Staged) : stageCommit state' commit later staged = .ok staged := by
  obtain ⟨now, index, row, concluded, final, htakes⟩ := h.takes hd
  obtain ⟨allowed, hallowed⟩ := htakes.accepts.allowed_later hd hrun later
  exact stageCommit_refused hallowed (h.refused_later hd hrun) staged

/-- One attempt of one task. -/
def OutcomeOf (id : TaskId) (attempts : ℤ) (commit : TaskCommit) : Prop :=
  ∃ node lane result token, commit = .outcome node attempts id lane result token

/-- A spent attempt takes no second outcome, from whomever it comes. -/
theorem Accepted.spent_later {op op' : Op} {commit commit' : TaskCommit} {id : TaskId} {attempts : ℤ}
    (hd : state.Distinct) (hc : OutcomeOf id attempts commit) (hc' : OutcomeOf id attempts commit')
    (h : Accepted store state op commit)
    (hrun : Run (Steps store call) (exec store op state).2 ops state') :
    ¬ Accepted store state' op' commit' := by
  intro h'
  obtain ⟨node, lane, result, token, rfl⟩ := hc
  obtain ⟨node', lane', result', token', rfl⟩ := hc'
  have hd' := run_distinct hrun ((exec_extends store hd op).distinct hd)
  obtain ⟨now, index, row, concluded, final, htakes⟩ := h'.takes hd'
  have hspent : Spent attempts row :=
    h.done_later hd hrun row (List.mem_of_getElem? htakes.accepts.stored) htakes.accepts.id
  have hrefused := hspent.refuses node' id lane' result' token'
  rw [acceptsRow, decide_eq_true htakes.accepts.id, htakes.accepts.evidence] at hrefused
  cases hrefused

theorem Accepted.not_again {op op' : Op} (hd : state.Distinct) (h : Accepted store state op commit)
    (hrun : Run (Steps store call) (exec store op state).2 ops state') :
    ¬ Accepted store state' op' commit := by
  intro h'
  have hd' := run_distinct hrun ((exec_extends store hd op).distinct hd)
  obtain ⟨now, index, row, concluded, final, htakes⟩ := h'.takes hd'
  have hrefused := h.refused_later hd hrun row (List.mem_of_getElem? htakes.accepts.stored)
  rw [acceptsRow, decide_eq_true htakes.accepts.id, htakes.accepts.evidence] at hrefused
  cases hrefused

variable (store) in
/-- CORRECT: `attempts` never goes down and pays for every new owner; no attempt of a task takes two
    outcomes, in one operation or over any run; and a batch presented again has every entry it had
    accepted rejected and leaves the store its formerly rejected entries alone would leave. -/
theorem acceptance_is_fenced {state : MemoryState} (h : Reachable Started (Steps store AnyCall) state)
    (op : Op) :
    (∀ (i : ℕ) (r : TaskRecord), state.tasks[i]? = some r →
      ∃ r' : TaskRecord, (exec store op state).2.tasks[i]? = some r' ∧ r'.id = r.id ∧
      r.attempts ≤ r'.attempts ∧
      ∀ node, r'.nodeId = some node → r.nodeId = some node ∨ r.attempts < r'.attempts) ∧
    (∀ node now r t, grant node now r = (.ok (), t) → t.nodeId = some node ∧ r.attempts < t.attempts) ∧
    (∀ commit commit' id attempts, OutcomeOf id attempts commit → OutcomeOf id attempts commit' →
      Accepted store state op commit → Accepted store state op commit' → commit = commit') ∧
    ∀ ops state', Run (Steps store AnyCall) (exec store op state).2 ops state' → ∀ op' : Op,
      (∀ commit commit' id attempts, OutcomeOf id attempts commit → OutcomeOf id attempts commit' →
        Accepted store state op commit → ¬ Accepted store state' op' commit') ∧
      ∀ result, (exec store op state).1 = .committed result → op'.commits = op.commits →
        (∀ commit ∈ op.commits, commit.taskId ∉ result.rejected → ¬ Accepted store state' op' commit) ∧
        (exec store op' state').2 = (exec store
          (op'.present (op.commits.filter fun commit => commit.taskId ∈ result.rejected)) state').2 ∧
        (result.rejected = [] → ∀ now, (op' = .commitTasks op.commits now ∨
          ∃ node prepared, op' = .recoverOutputs node op.commits prepared now) →
          (exec store op' state').2 = state') := by
  have hd := reachable_distinct store h
  refine ⟨fun i r hi => ?_, fun node now r t hg => ?_, ?_, fun ops state' hrun op' => ⟨?_, ?_⟩⟩
  · obtain ⟨r', hi', hs⟩ := (exec_extends store hd op).get hi
    refine ⟨r', hi', hs.id, hs.attempts, fun node hn => ?_⟩
    rcases lt_or_eq_of_le hs.attempts with hlt | heq
    · exact .inr hlt
    · rcases hs.owner heq with hsame | hgone
      · exact .inl (hsame ▸ hn)
      · rw [hgone] at hn; exact nomatch hn
  · obtain ⟨-, -, rfl⟩ := grant_ok.mp hg
    exact ⟨rfl, Int.lt_succ r.attempts⟩
  · rintro commit commit' id attempts ⟨_, _, _, _, rfl⟩ ⟨_, _, _, _, rfl⟩ ⟨result, hr, hm, -⟩ ⟨_, -, hm', -⟩
    exact List.inj_on_of_nodup_map (committed_batch hr).2 hm hm' rfl
  · intro commit commit' id attempts hc hc' hacc
    exact hacc.spent_later hd hc hc' hrun
  · intro result hresult hsame
    have hacc : ∀ commit ∈ op.commits, commit.taskId ∉ result.rejected →
        Accepted store state op commit := fun commit hm hnot => ⟨result, hresult, hm, hnot⟩
    have hconf : state'.conf = state.conf :=
      (run_conf hrun ((exec_extends store hd op).distinct hd)).trans (exec_extends store hd op).conf
    obtain ⟨hv, hn⟩ := committed_batch hresult
    have hfilter := exec_filter op' (fun commit => decide (commit.taskId ∈ result.rejected))
      (by rw [hconf, hsame]; exact hv) (by rw [hsame]; exact hn) (fun now commit hm hk => by
        rw [hsame] at hm
        exact (hacc commit hm (of_decide_eq_false hk)).idle_later hd hrun now)
    rw [hsame] at hfilter
    refine ⟨fun commit hm hnot => (hacc commit hm hnot).not_again hd hrun, hfilter, ?_⟩
    intro hall now hop'
    have hempty : op.commits.filter (fun commit => decide (commit.taskId ∈ result.rejected)) = [] := by
      rw [hall]
      simp
    rw [hfilter, hempty]
    rcases hop' with rfl | ⟨node, prepared, rfl⟩
    · rw [Op.present, exec, respondCommit_snd, commitTasks_snd]
      exact atomicOperation_nil _ _ _
    · rw [Op.present, exec, respondCommit_snd, recoverOutputs_snd, commitTasks_snd]
      exact atomicOperation_nil _ _ _

end

attribute [local instance] acceptingSerde in
/-- A cancellation that was applied and accepted changes nothing the second time. -/
theorem acceptance_is_fenced_cancel_twice :
    (exec smallStore (.commitTasks [.cancel ⟨1⟩] 2)
      (exec smallStore (.commitTasks [.cancel ⟨1⟩] 1)
        (exec smallStore (.storeTasks [plainWrite (freshRecord 1 .work "open")] 0)
          (MemoryState.new smallConf)).2).2).2 =
    (exec smallStore (.commitTasks [.cancel ⟨1⟩] 1)
      (exec smallStore (.storeTasks [plainWrite (freshRecord 1 .work "open")] 0)
        (MemoryState.new smallConf)).2).2 := by
  have hreach : Reachable Started (Steps smallStore AnyCall)
      (exec smallStore (.storeTasks [plainWrite (freshRecord 1 .work "open")] 0)
        (MemoryState.new smallConf)).2 :=
    ⟨MemoryState.new smallConf, [_], ⟨smallConf, rfl⟩, .single ⟨trivial, rfl⟩⟩
  exact (((acceptance_is_fenced smallStore hreach (.commitTasks [.cancel ⟨1⟩] 1)).2.2.2 [] _ (.nil _)
    (.commitTasks [.cancel ⟨1⟩] 2)).2 _ rfl rfl).2.2 rfl 2 (.inl rfl)

attribute [local instance] acceptingSerde in
/-- A batch whose entry was rejected the first time: the cancelled task is stored in between, and
    presenting the batch again cancels it. -/
theorem rejected_cancellation_is_not_spent :
    ¬ ∀ (state state' : MemoryState) (op op' : Op) (ops : List Op) (result : CommitResult),
      Reachable Started (Steps smallStore AnyCall) state →
      Run (Steps smallStore AnyCall) (exec smallStore op state).2 ops state' →
      (exec smallStore op state).1 = .committed result → op'.commits = op.commits →
      (exec smallStore op' state').2.tasks = state'.tasks := by
  intro hall
  have hsame := hall (MemoryState.new smallConf) _ (.commitTasks [.cancel ⟨1⟩] 0)
    (.commitTasks [.cancel ⟨1⟩] 2) [.storeTasks [plainWrite (freshRecord 1 .work "open")] 1] _
    ⟨MemoryState.new smallConf, [], ⟨smallConf, rfl⟩, .nil _⟩ (.single ⟨trivial, rfl⟩) rfl rfl
  exact absurd hsame (by decide)

end Vyuh.Tasks.Memory
