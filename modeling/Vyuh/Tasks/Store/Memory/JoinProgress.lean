import Vyuh.Tasks.Store.Memory.JoinRuns

/-! What becomes of a group. An operation leaves a wait to its sleeping parent while a member is unfinished,
    resumes the parent in the turn that ends the last member, and takes the wait away when the parent is
    claimed or ends. So a group resumes its parent once, and the error branches of a join are never taken. -/

namespace Vyuh.Tasks.Memory
open Lib

section

variable [Serde] (store : MemoryTaskStore) {state : MemoryState}

/-! ### The error branches of a join -/

/-- The store a turn pays its deliveries in: the inputs of what it claimed are stored, its waits and its
    children are in place. -/
def Turn.settling (turn : Turn) (children : List TaskRecord) (waits : List (TaskId × TaskWait))
    (poll : TaskPoll) (now : DateTime) : MemoryState :=
  (installed now (materialized turn.state poll.tasks) waits).adopt children

/-- A turn that settles through an error branch of a join: it aggregates for a parent whose counter is not
    zero, or a delivery takes a counter below zero. -/
inductive Missteps (now : DateTime) (turn : Turn) (children : List TaskRecord)
    (waits : List (TaskId × TaskWait)) (poll : TaskPoll) : Prop
  | premature {before after : List TaskRecord} {snapshot : TaskRecord} {wait : TaskWait}
      (claimed : poll.tasks = before ++ snapshot :: after)
      (waiting : (materialized turn.state before).waits snapshot.id = some wait)
      (counting : wait.remainingCompletions ≠ 0) : Missteps now turn children waits poll
  | underflow {before after : List Grouped} {entry : Grouped} {parent : TaskRecord} {wait : TaskWait}
      (queued : groupDeliveries turn.deliveries = before ++ entry :: after)
      (awaited : (delivered now (turn.settling children waits poll now) before).tasks.find? (awaits entry.1) =
        some parent)
      (waiting : (delivered now (turn.settling children waits poll now) before).waits entry.1 = some wait)
      (below : deliverWait wait entry.2.1 = .underflow) : Missteps now turn children waits poll

omit [Serde] in
/-- A turn whose queue is on the books takes no counter below zero. -/
theorem settling_within {now : DateTime} {mid : MemoryState} {deliveries : List Delivery} (hd : mid.Distinct)
    (h : Books mid.tasks mid.waits (posted deliveries)) {before after : List Grouped} {entry : Grouped}
    {parent : TaskRecord} {wait : TaskWait} (hqueue : groupDeliveries deliveries = before ++ entry :: after)
    (hf : (delivered now mid before).tasks.find? (awaits entry.1) = some parent)
    (hw : (delivered now mid before).waits entry.1 = some wait) : deliverWait wait entry.2.1 ≠ .underflow := by
  have hascending := (groupDeliveries_spec deliveries).1
  rw [posted_eq_tally] at h
  rw [hqueue] at h hascending
  exact delivered_within now before hd hascending h hf hw

theorem claims_sound {node : Uuid} {claims : List (LaneClaim × Uuid)} {lease : Duration} {now : DateTime}
    {turn : Turn} {poll : TaskPoll} (hd : state.Distinct) (hj : Joins state)
    (h : claimTasksState node claims lease now state.begin = (.ok poll, turn)) :
    ¬ Missteps now turn [] [] poll := by
  have hgathers := claims_gathers hd hj h
  rintro (@⟨before, after, snapshot, wait, hclaimed, hwaiting, hcounting⟩ |
    @⟨before, after, entry, parent, wait, hqueue, hawaited, hwaiting, hbelow⟩)
  · -- what was handed out was awake, so its counter was zero
    have hw : state.waits snapshot.id = some wait := by
      rw [materialized_waits] at hwaiting
      split at hwaiting
      · cases hwaiting
      · exact (congrFun (works_frame (claimTasksState_works h)).2 snapshot.id).symm.trans hwaiting
    have hm : snapshot ∈ poll.tasks := by rw [hclaimed]; simp
    obtain ⟨p, hp, hid, -, -, -, -, hcount, hasleep⟩ := hj.counted hd hw
    have hawake := ((hgathers.granted snapshot hm).1 p hp hid).1
    have hnot : ¬ 0 < wait.remainingCompletions := fun hpos => hawake (hasleep.mpr hpos)
    omega
  · have hsettling : turn.settling [] [] poll now = materialized turn.state poll.tasks := by
      rw [Turn.settling, MemoryState.adopt, List.append_nil]
      rfl
    rw [hsettling] at hawaited hwaiting
    exact settling_within hgathers.distinct hgathers.books hqueue hawaited hwaiting hbelow

theorem commits_sound {commits : List TaskCommit} {now : DateTime} {turn : Turn} {children : List TaskRecord}
    {waits : List (TaskId × TaskWait)} (hd : state.Distinct) (hj : Joins state) (hconf : GroupsBounded state)
    (h : commitOutcomesState commits now state.begin = (.ok (children, waits), turn)) :
    ¬ Missteps now turn children waits { wakeLanes := [], lanes := [] } := by
  obtain ⟨staged, hcommits, rfl, rfl⟩ := commitOutcomesState_ok h
  have hshape := hcommits.shaped hconf
  have hp := hcommits.placed hd hshape
  rintro (@⟨before, after, snapshot, wait, hclaimed, -, -⟩ |
    @⟨before, after, entry, parent, wait, hqueue, hawaited, hwaiting, hbelow⟩)
  · simp [TaskPoll.tasks] at hclaimed
  · exact settling_within hp.distinct (hcommits.placed_books hd hj maxBatchSize_fits hshape hp) hqueue
      hawaited hwaiting hbelow

/-- No turn that an operation asks for settles through an error branch. -/
theorem turn_sound (hd : state.Distinct) (hj : Joins state) (hconf : GroupsBounded state) {op : Op}
    {call : TurnCall} (hcall : op.turn store state = some call) {children : List TaskRecord}
    {waits : List (TaskId × TaskWait)} {phases : FMap String LaneOwnerPhase} {poll : TaskPoll} {turn : Turn}
    (h : fallibleTurn call.runner call.claims call.commits store.leaseDuration call.now call.start.begin =
      (.ok (children, waits, phases, poll), turn)) : ¬ Missteps call.now turn children waits poll := by
  rcases Op.turn_cases store hcall with ⟨node, claims, now, rfl⟩ | ⟨commits, now, start, rfl, hgiven⟩
  · obtain ⟨rfl, rfl, -, hclaim⟩ := fallibleTurn_claims h
    exact claims_sound hd hj hclaim
  · obtain ⟨hcommit, -, rfl⟩ := fallibleTurn_outcomes h
    exact commits_sound (hgiven.distinct hd) (hj.released hgiven)
      (fun conf hc => hconf conf (hgiven.conf ▸ hc)) hcommit

/-! ### What an operation leaves of a group -/

/-- An operation leaves a group, or hands its parent out. -/
theorem exec_group (hd : state.Distinct) (hj : Joins state) (hconf : GroupsBounded state) (op : Op)
    {id : TaskId} {wait : TaskWait} (hw : state.waits id = some wait) :
    Stays (exec store op state).2 id wait ∨ Taken state (exec store op state).2 id := by
  have hkept : ∀ {after : MemoryState}, after.waits = state.waits → Stays after id wait := fun hwaits =>
    .inl ⟨wait, hwaits ▸ hw, .refl wait⟩
  cases hop : op.quiet with
  | true => exact .inl (hkept (exec_quiet store hop state).waits)
  | false =>
    rcases exec_turn store hd hj.waitsStored hop with
      ⟨hwaits, -⟩ | ⟨call, hcall, result, turn', rows, hrun, hrows, hexec⟩
    · exact .inl (hkept hwaits)
    · rw [hexec]
      -- a promotion takes pending rows only, so it passes by a parent that ended
      have hended : ∀ p' ∈ rows, p'.id = id → (∀ p ∈ turn'.state.tasks, p.id = id → p.status.terminal = true) →
          p'.status.terminal = true := by
        intro p' hp' hid hall
        obtain ⟨p, hp, rfl | ⟨hpending, -, node, hgrant⟩⟩ := hrows.mem_right hp'
        · exact hall p' hp hid
        · obtain ⟨-, -, rfl⟩ := grant_ok.mp hgrant
          have hopen := hall p hp hid
          rw [hpending] at hopen
          cases hopen
      rcases Op.turn_cases store hcall with ⟨node, claims, now, rfl⟩ | ⟨commits, now, start, rfl, hgiven⟩
      · rcases claimTurn_group hd hj hrun hw with (hstays | ⟨hgone, hall⟩) | ⟨hgone, hawake, hruns⟩
        · exact .inl (.inl hstays)
        · exact .inl (.inr ⟨hgone, fun p hp hid => hended p hp hid hall⟩)
        · refine .inr ⟨hgone, hawake, fun p' hp' hid => ?_⟩
          obtain ⟨p, hp, rfl | ⟨-, -, node, hgrant⟩⟩ := hrows.mem_right hp'
          · exact hruns p' hp hid
          · obtain ⟨-, -, rfl⟩ := grant_ok.mp hgrant
            exact .inl rfl
      · rcases commitTurn_group (hgiven.distinct hd) (hj.released hgiven) maxBatchSize_fits
          (fun conf hc => hconf conf (hgiven.conf ▸ hc)) hrun (hgiven.waits ▸ hw) with hstays | ⟨hgone, hall⟩
        · exact .inl (.inl hstays)
        · exact .inl (.inr ⟨hgone, fun p hp hid => hended p hp hid hall⟩)

/-- A wait as its group stands: the parent has not ended, the members are its stored children, and the
    counter is what a sleeping parent still waits for. -/
structure Stands (state : MemoryState) (parent : TaskId) (wait : TaskWait) (p : TaskRecord) : Prop where
  stored : p ∈ state.tasks
  id : p.id = parent
  live : p.status.terminal = false
  distinct : wait.children.Nodup
  members : ∀ child ∈ wait.children, ∃ r ∈ state.tasks, r.id = child ∧ r.parentId = some parent
  asleep : p.status = .suspended →
    wait.remainingCompletions = wait.children.countP (unfinished state.tasks) ∧ 0 < wait.remainingCompletions
  awake : p.status ≠ .suspended →
    wait.remainingCompletions = 0 ∧ ∀ child ∈ wait.children, unfinished state.tasks child = false

omit [Serde] in
theorem Joins.stands (hd : state.Distinct) (hj : Joins state) {parent : TaskId} {wait : TaskWait}
    (hw : state.waits parent = some wait) : ∃ p, Stands state parent wait p := by
  obtain ⟨p, hp, hid, hlive, -, hdistinct, hmembers, hcount, hasleep⟩ := hj.counted hd hw
  refine ⟨p, hp, hid, hlive, hdistinct, hmembers, fun hs => ⟨hcount, hasleep.mp hs⟩, fun hs => ?_⟩
  have hnot : ¬ 0 < wait.remainingCompletions := fun hpos => hs (hasleep.mpr hpos)
  have hzero : wait.children.countP (unfinished state.tasks) = 0 := by omega
  exact ⟨by omega, fun child hchild => Bool.eq_false_of_not_eq_true (List.countP_eq_zero.mp hzero child hchild)⟩

/-- What one operation makes of a group whose parent is `p` before it and `p'` after it. -/
inductive Proceeds (state after : MemoryState) (wait : TaskWait) (p p' : TaskRecord) : Prop
  | waits {wait' : TaskWait} (slept : p.status = .suspended) (sleeps : p'.status = .suspended)
      (left : after.waits p.id = some wait') (same : wait'.children = wait.children)
      (member : ∃ child ∈ wait.children, unfinished after.tasks child = true) : Proceeds state after wait p p'
  | resumes {wait' : TaskWait} (slept : p.status = .suspended) (woken : p'.status = .pending)
      (left : after.waits p.id = some wait') (same : wait'.children = wait.children)
      (member : ∃ child ∈ wait.children, unfinished state.tasks child = true)
      (finished : ∀ child ∈ wait.children, unfinished after.tasks child = false) : Proceeds state after wait p p'
  | ready (pending : p.status = .pending) (still : p'.status = .pending) (left : after.waits p.id = some wait) :
      Proceeds state after wait p p'
  | claimed (pending : p.status = .pending) (runs : p'.status = .running) (gone : after.waits p.id = none) :
      Proceeds state after wait p p'
  | ended (finished : p'.status.terminal = true) (gone : after.waits p.id = none) : Proceeds state after wait p p'

omit [Serde] in
theorem Stands.member {parent : TaskId} {wait : TaskWait} {p : TaskRecord} (h : Stands state parent wait p)
    (hs : p.status = .suspended) : ∃ child ∈ wait.children, unfinished state.tasks child = true := by
  obtain ⟨hcount, hpos⟩ := h.asleep hs
  rw [hcount] at hpos
  exact List.countP_pos_iff.mp (Int.natCast_pos.mp hpos)

omit [Serde] in
/-- A parent with a wait sleeps or is pending. -/
theorem Joins.parent_status (hd : state.Distinct) (hj : Joins state) {p : TaskRecord} (hp : p ∈ state.tasks)
    {wait : TaskWait} (hw : state.waits p.id = some wait) : p.status = .suspended ∨ p.status = .pending := by
  obtain ⟨q, hq, hid, hlive, hstopped, -⟩ := hj.counted hd hw
  obtain rfl := hd.eq hq hp hid
  cases hs : q.status with
  | pending => exact .inr rfl
  | suspended => exact .inl rfl
  | running => exact absurd hs hstopped
  | succeeded | failed =>
    rw [hs] at hlive
    cases hlive

/-- One operation: a group goes on waiting, resumes its parent with its last member, stays ready, is
    claimed, or is over with its parent. -/
theorem exec_proceeds (hd : state.Distinct) (hj : Joins state) (hconf : GroupsBounded state) {op : Op}
    (hcall : Orderly state op) {wait : TaskWait} {p : TaskRecord} (hp : p ∈ state.tasks)
    (hw : state.waits p.id = some wait) :
    ∃ p' ∈ (exec store op state).2.tasks, p'.id = p.id ∧ Proceeds state (exec store op state).2 wait p p' := by
  have hext := exec_extends store hd op
  have hd' := hext.distinct hd
  have hj' := exec_joins store hd hconf hcall hj
  have hgroup := exec_group store hd hj hconf op hw
  obtain ⟨i, hi⟩ := List.mem_iff_getElem?.mp hp
  obtain ⟨p', hi', hsteady⟩ := hext.get hi
  have hp' := List.mem_of_getElem? hi'
  generalize (exec store op state).2 = after at hd' hj' hgroup hp'
  refine ⟨p', hp', hsteady.id, ?_⟩
  obtain ⟨q, hstands⟩ := hj.stands hd hw
  obtain rfl := hd.eq hstands.stored hp hstands.id
  rcases hgroup with (⟨wait', hw', hsame, hle⟩ | ⟨hgone, hall⟩) | ⟨hgone, hawake, hruns⟩
  · have hleft : after.waits p'.id = some wait' := hsteady.id.symm ▸ hw'
    obtain ⟨q', hstands'⟩ := hj'.stands hd' hleft
    obtain rfl := hd'.eq hstands'.stored hp' hstands'.id
    rcases hj.parent_status hd hp hw with hs | hs <;> rcases hj'.parent_status hd' hp' hleft with hs' | hs'
    · exact .waits hs hs' hw' hsame (hsame ▸ hstands'.member hs')
    · exact .resumes hs hs' hw' hsame (hstands.member hs)
        (hsame ▸ (hstands'.awake (by rw [hs']; simp)).2)
    · -- a counter at zero stays there, so the parent does not fall asleep again
      have hzero := (hstands.awake (by rw [hs]; simp)).1
      have hpos := (hstands'.asleep hs').2
      omega
    · have hzero := (hstands.awake (by rw [hs]; simp)).1
      have hzero' := (hstands'.awake (by rw [hs']; simp)).1
      have hkept : wait' = wait := by
        cases wait
        cases wait'
        simp only at hsame hzero hzero'
        rw [hsame, hzero, hzero']
      exact .ready hs hs' (hkept ▸ hw')
  · exact .ended (hall p' hp' hsteady.id) hgone
  · rcases hj.parent_status hd hp hw with hs | hs
    · exact absurd hs (hawake q hp rfl)
    · rcases hruns p' hp' hsteady.id with hrunning | hended
      · exact .claimed hs hrunning hgone
      · exact .ended hended hgone

/-! ### Runs -/

omit [Serde] in
/-- Whether the stored task `id` sleeps. -/
def sleeping (state : MemoryState) (id : TaskId) : Bool :=
  state.tasks.any (fun p => p.id = id && p.status = .suspended)

/-- How often a run wakes a parent. -/
def resumptions (parent : TaskId) : MemoryState → List Op → ℕ
  | _, [] => 0
  | state, op :: ops =>
    (if sleeping state parent && !sleeping (exec store op state).2 parent then 1 else 0) +
      resumptions parent (exec store op state).2 ops

/-- Calls in order that leave the wait of `parent` in its place. -/
def Holding (parent : TaskId) (state : MemoryState) (op : Op) : Prop :=
  Orderly state op ∧ ((exec store op state).2.waits parent).isSome = true

omit [Serde] in
theorem sleeping_eq (hd : state.Distinct) {p : TaskRecord} (hp : p ∈ state.tasks) :
    sleeping state p.id = decide (p.status = .suspended) := by
  rw [sleeping, Bool.eq_iff_iff, List.any_eq_true, decide_eq_true_eq]
  constructor
  · rintro ⟨q, hq, h⟩
    simp only [Bool.and_eq_true, decide_eq_true_eq] at h
    obtain rfl := hd.eq hq hp h.1
    exact h.2
  · exact fun hs => ⟨p, hp, by simp [hs]⟩

/-- While its wait is there, a sleeping parent is woken once or still sleeps, and a woken one stays awake. -/
theorem run_resumes {parent : TaskId} {ops : List Op} {last : MemoryState}
    (hrun : Run (Steps store (Holding store parent)) state ops last) : state.Distinct → Joins state →
    GroupsBounded state → ∀ wait : TaskWait, state.waits parent = some wait →
      (∃ wait', last.waits parent = some wait' ∧ wait'.children = wait.children) ∧
        resumptions store parent state ops + (if sleeping last parent then 1 else 0) =
          if sleeping state parent then 1 else 0 := by
  induction hrun with
  | nil state => exact fun _ _ _ wait hw => ⟨⟨wait, hw, rfl⟩, Nat.zero_add _⟩
  | @cons state after last op ops hstep _ ih =>
    intro hd hj hconf wait hw
    obtain ⟨⟨hcall, hheld⟩, rfl⟩ := hstep
    have hext := exec_extends store hd op
    have hd' := hext.distinct hd
    have hnext := ih hd' (exec_joins store hd hconf hcall hj) fun conf hc => hconf conf (hext.conf ▸ hc)
    obtain ⟨p, hstands⟩ := hj.stands hd hw
    obtain rfl := hstands.id
    obtain ⟨p', hp', hid, hproceeds⟩ := exec_proceeds store hd hj hconf hcall hstands.stored hw
    have hsleeping := sleeping_eq hd hstands.stored
    have hsleeping' := sleeping_eq hd' hp'
    rw [hid] at hsleeping'
    rw [resumptions, hsleeping, hsleeping']
    rw [hsleeping'] at hnext
    cases hproceeds with
    | waits slept sleeps left same _ =>
      obtain ⟨⟨wait'', hlast, hsame⟩, hcount⟩ := hnext _ left
      refine ⟨⟨wait'', hlast, hsame.trans same⟩, ?_⟩
      simpa [slept, sleeps] using hcount
    | resumes slept woken left same _ _ =>
      obtain ⟨⟨wait'', hlast, hsame⟩, hcount⟩ := hnext _ left
      refine ⟨⟨wait'', hlast, hsame.trans same⟩, ?_⟩
      simp only [woken, reduceCtorEq, decide_false, if_false, Bool.false_eq_true] at hcount
      simp [slept, woken, Nat.add_assoc, hcount]
    | ready pending still left =>
      obtain ⟨hlast, hcount⟩ := hnext wait left
      refine ⟨hlast, ?_⟩
      simpa [pending, still] using hcount
    | claimed _ _ gone | ended _ gone =>
      rw [gone] at hheld
      cases hheld

/-- Calls that may come in any state hold a wait as long as it is there after each of them. -/
theorem execs_holding (parent : TaskId) : ∀ (ops : List Op) (state : MemoryState),
    (∀ op ∈ ops, ∀ s, Orderly s op) →
    (∀ n < ops.length, ((state.execs store (ops.take (n + 1))).waits parent).isSome = true) →
      Run (Steps store (Holding store parent)) state ops (state.execs store ops)
  | [], state, _, _ => .nil state
  | op :: ops, state, horderly, hheld =>
    .cons ⟨⟨horderly op List.mem_cons_self state, hheld 0 (Nat.succ_pos _)⟩, rfl⟩
      (execs_holding parent ops _ (fun op hm => horderly op (List.mem_cons_of_mem _ hm)) fun n hn =>
        hheld (n + 1) (Nat.succ_lt_succ hn))

/-- CORRECT: in every reachable state each wait belongs to a parent that has not ended and names its
    distinct stored children; its counter is the number of unfinished members, at least one, while the
    parent sleeps, and zero with no unfinished member once it is awake. No turn takes the branches for an
    early claim or for a counter below zero. An operation resumes the parent exactly when it ends the last
    member, and as long as the wait is there a run resumes the parent once. -/
theorem groups_resume_once (h : Reachable StartedChecked (Steps store Orderly) state) :
    (∀ parent wait, state.waits parent = some wait → ∃ p, Stands state parent wait p) ∧
      (∀ op call children waits phases poll turn, Op.turn store state op = some call →
        fallibleTurn call.runner call.claims call.commits store.leaseDuration call.now call.start.begin =
          (.ok (children, waits, phases, poll), turn) → ¬ Missteps call.now turn children waits poll) ∧
      (∀ op, Orderly state op → ∀ wait, ∀ p ∈ state.tasks, state.waits p.id = some wait →
        ∃ p' ∈ (exec store op state).2.tasks, p'.id = p.id ∧
          Proceeds state (exec store op state).2 wait p p') ∧
      ∀ parent wait ops last, state.waits parent = some wait →
        Run (Steps store (Holding store parent)) state ops last →
          (∃ wait', last.waits parent = some wait' ∧ wait'.children = wait.children) ∧
            resumptions store parent state ops + (if sleeping last parent then 1 else 0) =
              if sleeping state parent then 1 else 0 := by
  obtain ⟨hd, hconf, hj⟩ := reachable_joins store h
  refine ⟨fun parent wait hw => hj.stands hd hw, fun op call children waits phases poll turn hcall hrun =>
    turn_sound store hd hj hconf hcall hrun, fun op hcall wait p hp hw =>
    exec_proceeds store hd hj hconf hcall hp hw, fun parent wait ops last hw hrun =>
    run_resumes store hrun hd hj hconf wait hw⟩

end

attribute [local instance] lenientSerde in
/-- A pair of children ends one after the other: their parent is resumed once, with the second. -/
theorem groups_resume_once_pair :
    let state := (MemoryState.new smallConf).execs smallStore (joinedPair.take 4)
    (∃ wait p, state.waits ⟨1⟩ = some wait ∧ wait.children = [⟨2⟩, ⟨3⟩] ∧ Stands state ⟨1⟩ wait p) ∧
      resumptions smallStore ⟨1⟩ state (joinedPair.drop 4) = 1 := by
  intro state
  have hwait : (state.waits ⟨1⟩).map (·.children) = some [⟨2⟩, ⟨3⟩] := by decide
  obtain ⟨wait, hw, hchildren⟩ := Option.map_eq_some_iff.mp hwait
  obtain ⟨hstands, -, -, honce⟩ := groups_resume_once smallStore (joinedPair_reachable 4)
  obtain ⟨p, hp⟩ := hstands ⟨1⟩ wait hw
  have hrun := execs_holding smallStore ⟨1⟩ (joinedPair.drop 4) state
    (fun op hm s => joinedPair_orderly (List.mem_of_mem_drop hm) s) (by decide)
  have hsum := (honce ⟨1⟩ wait _ _ hw hrun).2
  have hbefore : sleeping state ⟨1⟩ = true := by decide
  have hafter : sleeping (state.execs smallStore (joinedPair.drop 4)) ⟨1⟩ = false := by decide
  rw [hbefore, hafter, if_neg Bool.false_ne_true, Nat.add_zero, if_pos rfl] at hsum
  exact ⟨⟨wait, p, hw, hchildren, hp⟩, hsum⟩

end Vyuh.Tasks.Memory
