import Vyuh.Tasks.Store.Memory.Fencing

/-! Owners are registered. Ownership is granted by claims and by the two direct admissions, each on
    behalf of a node; all three refuse a node that is not registered, or have nothing to grant it: an
    unregistered node owns no row, so none of its outcomes is accepted, and a commit that accepts
    nothing leaves no row whose update time is the commit's. -/

namespace Vyuh.Tasks.Memory
open Lib

/-- A call a runner makes: claims have a positive limit, a committing runner presents its own outcomes,
    and submissions arrive pending and ownerless. -/
structure RunnerShaped (state : MemoryState) (op : Op) : Prop where
  claims : ∀ node claims now,
    op = .claimTasks node claims now ∨ op = .coordinateLanes node claims now →
      ∀ entry ∈ claims, 1 ≤ entry.1.limit
  commits : ∀ commits node limit cached now, op = .commitAdmitted commits node limit cached now →
    ∀ commit ∈ commits, ∃ attempts id lane result token,
      commit = .outcome node attempts id lane result token
  submissions : ∀ write ∈ op.submissions, write.record.status = .pending ∧ write.record.nodeId = none

/-- Every owner is registered. -/
def MemoryState.OwnersRegistered (state : MemoryState) : Prop :=
  ∀ r ∈ state.tasks, ∀ node, r.nodeId = some node → (state.nodes node).isSome = true

/-- What holds of the store and its clock at every moment. -/
structure OwnedStore (s : Timed) : Prop where
  distinct : s.state.Distinct
  owned : s.state.AllOwned
  registered : s.state.OwnersRegistered
  updated : ∀ r ∈ s.state.tasks, r.updatedAt ≤ s.clock

section

variable [Serde] (store : MemoryTaskStore) {state : MemoryState}

/-! ### What turns leave alone -/

/-- A turn leaves the registry, the configuration and the schedules alone, whichever way it ends. -/
theorem atomicOperation_frame (s : MemoryState) (runner : Option Uuid) (claims : List (LaneClaim × Uuid))
    (commits : List TaskCommit) (batch : ℕ) (lease : Duration) (now : DateTime) :
    SameFrame s (atomicOperation runner claims commits batch lease now s).2 := by
  rw [atomicOperation]
  split
  · exact .refl s
  · have hlogged := keeps_fallibleTurn runner claims commits lease now ⟨s, [], []⟩
    simp only [runTurn, Step.bind_run, Step.get_run]
    rcases hf : fallibleTurn runner claims commits lease now ⟨s, [], []⟩ with ⟨r, turn⟩
    rw [hf] at hlogged
    have hframe : SameFrame s turn.state := ⟨hlogged.nodes, hlogged.conf, hlogged.schedules⟩
    cases r with
    | error error => exact ⟨hframe.nodes, hframe.conf, hframe.schedules⟩
    | ok out => exact hframe.trans (settleTurn_frame turn out.1 out.2.1 out.2.2.1 out.2.2.2 commits now)

/-- So do the operations that run turns, and the one that sets the store up. -/
theorem exec_frame {op : Op} (hop : op.quiet = false) : SameFrame state (exec store op state).2 := by
  have hdone := exec_performs store hop state
  generalize (exec store op state).2 = after at hdone ⊢
  cases hdone with
  | refused => exact .refl state
  | setUp ratesNow hconf => exact ⟨rfl, rfl, rfl⟩
  | claimed _ => exact atomicOperation_frame state _ _ _ _ _ _
  | committed ht => exact atomicOperation_frame state _ _ _ _ _ _
  | @admitted _ _ _ now _ _ _ _ _ _ hturn hwalk =>
    have hframe := atomicOperation_frame state none [] op.commits store.commitBatchSize
      store.leaseDuration now
    rw [hturn] at hframe
    exact ⟨hframe.nodes, hframe.conf, hframe.schedules⟩
  | @recovered now _ staged _ _ cancelled _ hgiven _ hturn =>
    have hframe := atomicOperation_frame staged none [] cancelled store.commitBatchSize
      store.leaseDuration now
    rw [hturn] at hframe
    exact SameFrame.trans ⟨hgiven.nodes, hgiven.conf, hgiven.schedules⟩ hframe

/-- Only a heartbeat removes nodes. -/
theorem exec_nodes {op : Op} (hop : ∀ node staleAfter now, op ≠ .heartbeat node staleAfter now)
    {node : Uuid} (h : (state.nodes node).isSome = true) :
    ((exec store op state).2.nodes node).isSome = true := by
  cases op with
  | heartbeat node staleAfter now => exact absurd rfl (hop node staleAfter now)
  | registerNode other now =>
    rw [exec, respond_snd]
    simp only [registerNode, Step.modify_run, FMap.orInsert, FMap.insert_apply]
    split
    · rfl
    · exact h
  | initializeStore | claimTasks | coordinateLanes | commitTasks | recoverOutputs | commitAdmitted
  | recoverClaims =>
    rw [(exec_frame store (by rfl)).nodes]
    exact h
  | returnClaims | storeTasks | storeAdmitted | storeScheduled | reassignLane | resume =>
    rw [(exec_quiet store (by rfl) state).nodes rfl]
    exact h

/-! ### Nodes that are not registered -/

/-- A claim that asks for no lane changes nothing. -/
theorem atomicOperation_claimless (node : Uuid) (batch : ℕ) (lease : Duration) (now : DateTime) :
    (atomicOperation (some node) [] [] batch lease now state).2 = state := by
  rw [atomicOperation]
  simp only [validateTurn, List.any_nil, Bool.not_false, if_true]
  simp only [runTurn, fallibleTurn, commitOutcomesState, stageOutcomes, Staged.empty, claimTasksState,
    Step.bind_run, Step.get_run, Step.lift_run, Step.each, Step.pure_run, Step.modify_run,
    List.append_nil]
  cases hc : state.conf with
  | none => rfl
  | some conf => exact settleTurn_nothing state state.phases [] now

/-- An unregistered node claims nothing. -/
theorem claimTasks_unregistered {node : Uuid} {claims : List (LaneClaim × Uuid)} (now : DateTime)
    (hn : state.nodes node = none) (hl : ∀ entry ∈ claims, 1 ≤ entry.1.limit) :
    (claimTasks store node claims now state).2 = state := by
  cases claims with
  | nil =>
    rcases claimTasks_snd store node [] now state with h | h
    · exact h
    · rw [h, atomicOperation_claimless]
  | cons entry claims =>
    have hlimit : 0 < entry.1.limit := hl entry List.mem_cons_self
    simp only [claimTasks, Step.bind_run, Step.get_run, hn, Option.isNone_none, List.any_cons,
      decide_eq_true hlimit, Bool.true_or, Bool.and_self, if_true]
    rfl

/-- A batch none of whose entries is accepted changes nothing. -/
theorem atomicOperation_refused {commits : List TaskCommit} {batch : ℕ} {lease : Duration}
    {now : DateTime} {out : TaskPoll × CommitResult} {state' : MemoryState}
    (hr : ∀ commit ∈ commits, ∀ index row, ¬ Accepts state now commit index row)
    (h : atomicOperation none [] commits batch lease now state = (.ok out, state')) : state' = state := by
  obtain ⟨-, turn', hrun, rfl⟩ := atomicOperation_ok h
  obtain ⟨staged, turn, hcommits, hsettle⟩ := runTurn_commits hrun
  have hempty : ∀ {commits : List TaskCommit} {staged final : Staged},
      Staging state now commits staged final →
      (∀ commit ∈ commits, ∀ index row, ¬ Accepts state now commit index row) → final = staged := by
    intro commits staged final hs
    induction hs with
    | nil staged => exact fun _ => rfl
    | refuse refused rest ih => exact fun hall => ih fun c hc => hall c (List.mem_cons_of_mem _ hc)
    | accept accepts stages rest ih =>
      exact fun hall => absurd accepts (hall _ List.mem_cons_self _ _)
  obtain rfl := hempty hcommits.staging hr
  have hturn : turn = ⟨state, [], []⟩ := hcommits.result
  have hstate : turn'.state = _ := congrArg Prod.fst hsettle
  rw [hstate, hturn]
  exact settleTurn_nothing state _ _ now

/-- An unregistered node that owns nothing commits nothing and is granted nothing. -/
theorem commitAdmitted_unregistered {commits : List TaskCommit} {node : Uuid} {limit : ℕ}
    {cached : List TaskRecord} {now : DateTime} (hd : state.Distinct)
    (hown : ∀ r ∈ state.tasks, r.nodeId ≠ some node) (hold : ∀ r ∈ state.tasks, r.updatedAt < now)
    (hc : ∀ commit ∈ commits, ∃ attempts id lane result token,
      commit = .outcome node attempts id lane result token) :
    (commitAdmitted store commits node limit cached now state).2 = state := by
  rcases commitAdmitted_cases store commits node limit cached now state with
    ⟨error, state₁, hop, he⟩ | ⟨poll, result, state₁, hop, he⟩
  · rw [he]
    rcases atomicOperation_cases hd none [] commits store.commitBatchSize store.leaseDuration now with
      ⟨error', hsame⟩ | ⟨_, _, -, hok⟩
    · rw [hop] at hsame
      exact congrArg Prod.snd hsame
    · rw [hop] at hok
      exact nomatch congrArg Prod.fst hok
  · have hsame : state₁ = state := by
      refine atomicOperation_refused (fun commit hm index row ha => ?_) hop
      obtain ⟨attempts, id, lane, outcome, token, rfl⟩ := hc commit hm
      have hev := ha.evidence
      simp only [TaskCommit.accepts, Bool.and_eq_true, decide_eq_true_eq] at hev
      exact hown row (List.mem_of_getElem? ha.stored) hev.1.2
    subst hsame
    obtain ⟨rows, taken, shown, hwalk, -, -, heq⟩ :=
      admitCommitted_promotes state₁ state₁.tasks.length commits node limit cached now result
    rw [he, heq]
    have hrows : rows = state₁.tasks := by
      refine hwalk.none fun j r hj => ?_
      rintro ⟨conf, -, hadm⟩
      have hr := List.mem_of_getElem? hj
      have hlt : j < state₁.tasks.length := (List.getElem?_eq_some_iff.mp hj).1
      simp only [admissible, Bool.and_eq_true, Bool.or_eq_true, decide_eq_true_eq] at hadm
      rcases hadm.1.1.1.1.1 with hnew | ⟨⟨-, htime⟩, -⟩
      · omega
      · exact absurd htime (hold r hr).ne
    rw [hrows]

/-! ### One operation -/

omit [Serde] in
/-- Owners stay registered when the registry only grows and new owners are in it. -/
theorem Extends.registered {grantee : Uuid → Prop} {clock : DateTime → Prop} {fresh : TaskRecord → Prop}
    {s s' : MemoryState} (h : Extends grantee clock fresh s s') (hs : s.OwnersRegistered)
    (hnodes : ∀ node, (s.nodes node).isSome = true → (s'.nodes node).isSome = true)
    (hgrant : ∀ node, grantee node → (s'.nodes node).isSome = true)
    (hfresh : ∀ t, fresh t → t.nodeId = none) : s'.OwnersRegistered := by
  refine h.inv (P := fun r => ∀ node, r.nodeId = some node → (s'.nodes node).isSome = true)
    (fun r hr node hn => hnodes node (hs r hr node hn)) (fun t ht node hn => ?_)
    (fun r r' hsteady hr node hn => ?_)
  · rw [hfresh t ht] at hn; exact nomatch hn
  · rcases hsteady.granted node hn with hold | hnew
    · exact hr node hold
    · exact hgrant node hnew

omit [Serde] in
/-- A heartbeat sweep gives up the executions of exactly the nodes it removes. -/
theorem heartbeat_registered (node : Uuid) (staleAfter : Duration) (now : DateTime)
    (hs : state.OwnersRegistered) : (heartbeat node staleAfter now state).2.OwnersRegistered := by
  rw [heartbeat]
  cases (fromStd staleAfter).bind (checkedSubSigned now) with
  | none => exact hs
  | some cutoff =>
    simp only [Step.bind_run, Step.get_run]
    cases hn : state.nodes node with
    | none => exact hs
    | some entry =>
      simp only [Step.bind_run, Step.modify_run, Step.pure_run]
      intro r hr owner howner
      obtain ⟨r₀, hr₀, rfl⟩ := List.mem_map.mp hr
      split at howner
      · cases howner
      · next hkept =>
        rw [howner, Option.any_some, Bool.not_eq_true] at hkept
        simp only [retireNodes, hkept, Bool.false_eq_true, if_false, FMap.insert_apply]
        split
        · rfl
        · exact hs r₀ hr₀ owner howner

omit [Serde] in
theorem Op.Origin.ownerless {op : Op} {r : TaskRecord}
    (hs : ∀ write ∈ op.submissions, write.record.nodeId = none) (h : op.Origin r) : r.nodeId = none := by
  rcases h with ⟨write, hw, now, -, hstamp⟩ | ⟨commit, -, write, -, parent, now, -, hstamp⟩
  · obtain ⟨ready, rfl⟩ := stampWrite_ok hstamp
    exact hs write hw
  · obtain ⟨ready, rfl⟩ := childStamp hstamp
    rfl

theorem exec_registered {op : Op} (hd : state.Distinct) (hs : state.OwnersRegistered)
    (hcall : RunnerShaped state op) (hold : ∀ r ∈ state.tasks, ∀ time, op.clock time → r.updatedAt < time) :
    (exec store op state).2.OwnersRegistered := by
  have hfresh : ∀ t, op.Origin t → t.nodeId = none := fun t ht =>
    ht.ownerless fun write hw => (hcall.submissions write hw).2
  have hother : (∀ node staleAfter now, op ≠ .heartbeat node staleAfter now) →
      (∀ node, op.grantee node → (state.nodes node).isSome = true) →
      (exec store op state).2.OwnersRegistered := fun hop hgrant =>
    (exec_extends store hd op).registered hs (fun _ h => exec_nodes store hop h)
      (fun node hn => exec_nodes store hop (hgrant node hn)) hfresh
  -- the operations that grant do so for one node: registered, or with nothing to be granted
  have hclaims : ∀ node claims now, (∀ entry ∈ claims, 1 ≤ entry.1.limit) → state.nodes node = none →
      (claimTasks store node claims now state).2.OwnersRegistered := by
    intro node claims now hl hn
    rw [claimTasks_unregistered store now hn hl]
    exact hs
  cases op with
  | heartbeat node staleAfter now =>
    rw [exec, respond_snd]
    exact heartbeat_registered node staleAfter now hs
  | claimTasks node claims now =>
    cases hn : state.nodes node with
    | some entry =>
      refine hother (fun _ _ _ => by simp) fun owner ho => ?_
      rw [show owner = node from ho, hn]
      rfl
    | none =>
      rw [exec, respondPoll_snd]
      exact hclaims node claims now (hcall.claims node claims now (.inl rfl)) hn
  | coordinateLanes node claims now =>
    cases hn : state.nodes node with
    | some entry =>
      refine hother (fun _ _ _ => by simp) fun owner ho => ?_
      rw [show owner = node from ho, hn]
      rfl
    | none =>
      rw [exec, respondPoll_snd]
      rcases coordinateLanes_snd store node claims now state with he | he
      · rw [he]; exact hs
      · rw [he]
        exact hclaims node claims now (hcall.claims node claims now (.inr rfl)) hn
  | commitAdmitted commits node limit cached now =>
    cases hn : state.nodes node with
    | some entry =>
      refine hother (fun _ _ _ => by simp) fun owner ho => ?_
      rw [show owner = node from ho, hn]
      rfl
    | none =>
      have hown : ∀ r ∈ state.tasks, r.nodeId ≠ some node := by
        intro r hr howner
        have hsome := hs r hr node howner
        rw [hn] at hsome
        cases hsome
      rw [exec, respondCommit_snd, commitAdmitted_unregistered store hd hown
        (fun r hr => hold r hr now rfl) (hcall.commits commits node limit cached now rfl)]
      exact hs
  | storeAdmitted writes node limit now =>
    cases hn : state.nodes node with
    | some entry =>
      refine hother (fun _ _ _ => by simp) fun owner ho => ?_
      rw [show owner = node from ho, hn]
      rfl
    | none =>
      rw [exec, respond_snd]
      rcases storeAdmitted_cases writes node limit now state with
        ⟨error, he⟩ | ⟨receipts, staged, rows, tasks, hsome, -⟩
      · rw [he]; exact hs
      · rw [hn] at hsome
        cases hsome
  | _ => exact hother (fun _ _ _ => by simp) fun _ hn => (by cases hn)

/-! ### Runs -/

theorem ticks_owned (s : Timed) (op : Op) (s' : Timed) (hs : OwnedStore s)
    (h : Ticks store (· < ·) RunnerShaped s op s') : OwnedStore s' := by
  obtain ⟨hcall, hstate⟩ := h.step
  have hext := exec_extends store hs.distinct op
  have hold : ∀ r ∈ s.state.tasks, ∀ time, op.clock time → r.updatedAt < time := fun r hr time ht =>
    lt_of_le_of_lt (hs.updated r hr) (h.reads time ht).1
  refine ⟨?_, ?_, ?_, ?_⟩
  · rw [hstate]
    exact hext.distinct hs.distinct
  · rw [hstate]
    refine exec_allOwned store hs.distinct hs.owned fun write hw hn => ?_
    rw [(hcall.submissions write hw).2] at hn
    exact nomatch hn
  · rw [hstate]
    exact exec_registered store hs.distinct hs.registered hcall hold
  · rw [hstate]
    refine hext.inv (P := fun r => r.updatedAt ≤ s'.clock)
      (fun r hr => le_trans (hs.updated r hr) h.mono) (fun t ht => ?_) (fun r r' hsteady hr => ?_)
    · rcases ht with ⟨write, -, now, hn, hstamp⟩ | ⟨commit, -, write, -, parent, now, hn, hstamp⟩
      · obtain ⟨ready, rfl⟩ := stampWrite_ok hstamp
        exact (h.reads now hn).2
      · obtain ⟨ready, rfl⟩ := childStamp hstamp
        exact (h.reads now hn).2
    · rcases hsteady.updated with he | hn
      · rw [he]; exact hr
      · exact (h.reads _ hn).2

/-- CORRECT: in every state runner-shaped calls reach under a strictly increasing clock, owned tasks
    are running and their owners registered; returning a node's claims leaves it no task, and so does
    the heartbeat that removes it. -/
theorem owners_are_registered {s : Timed}
    (h : Reachable (fun s : Timed => Started s.state) (Ticks store (· < ·) RunnerShaped) s) :
    (∀ r ∈ s.state.tasks, ∀ node, r.nodeId = some node →
      r.status = .running ∧ (s.state.nodes node).isSome = true) ∧
    (∀ node now, ∀ r ∈ (exec store (.returnClaims (some node) now) s.state).2.tasks,
      r.nodeId ≠ some node) ∧
    ∀ node staleAfter now owner,
      (exec store (.heartbeat node staleAfter now) s.state).2.nodes owner = none →
      ∀ r ∈ (exec store (.heartbeat node staleAfter now) s.state).2.tasks, r.nodeId ≠ some owner := by
  have hs : OwnedStore s := by
    refine h.inv ?_ (ticks_owned store)
    rintro s ⟨conf, hs⟩
    refine ⟨?_, ?_, ?_, ?_⟩ <;> rw [hs]
    · exact List.nodup_nil
    · exact fun _ hr => (by cases hr)
    · exact fun _ hr => (by cases hr)
    · exact fun _ hr => (by cases hr)
  have hrunning : ∀ r ∈ s.state.tasks, ∀ node, r.nodeId = some node → r.status = .running :=
    fun r hr node hn => hs.owned r hr (by rw [hn]; rfl)
  refine ⟨fun r hr node hn => ⟨hrunning r hr node hn, hs.registered r hr node hn⟩, ?_, ?_⟩
  · intro node now r hr hn
    obtain ⟨r₀, hr₀, rfl⟩ := List.mem_map.mp hr
    split at hn
    · cases hn
    · next hkept =>
      refine hkept ?_
      simp only [returnable, hrunning r₀ hr₀ node hn, hn, decide_true, Bool.true_or, Option.all_some,
        Bool.and_self]
  · intro node staleAfter now owner hgone r hr hn
    rw [exec, respond_snd] at hgone hr
    have hsome := heartbeat_registered node staleAfter now hs.registered r hr owner hn
    rw [hgone] at hsome
    cases hsome

end

attribute [local instance] acceptingSerde in
/-- Node 7 registers, submits a task and claims it. -/
theorem owners_are_registered_one_claim :
    (∃ r ∈ (exec smallStore (.claimTasks 7 [(⟨⟨"open"⟩, 1, none⟩, 0)] 3)
        (exec smallStore (.storeTasks [plainWrite (freshRecord 1 .work "open")] 2)
          (exec smallStore (.registerNode 7 1) (MemoryState.new smallConf)).2).2).2.tasks,
      r.nodeId = some 7) ∧
    ∀ r ∈ (exec smallStore (.claimTasks 7 [(⟨⟨"open"⟩, 1, none⟩, 0)] 3)
        (exec smallStore (.storeTasks [plainWrite (freshRecord 1 .work "open")] 2)
          (exec smallStore (.registerNode 7 1) (MemoryState.new smallConf)).2).2).2.tasks,
      r.nodeId = some 7 → r.status = .running := by
  refine ⟨by decide, fun r hr hn => ?_⟩
  have hreach : Reachable (fun s : Timed => Started s.state) (Ticks smallStore (· < ·) RunnerShaped)
      ⟨3, (exec smallStore (.claimTasks 7 [(⟨⟨"open"⟩, 1, none⟩, 0)] 3)
        (exec smallStore (.storeTasks [plainWrite (freshRecord 1 .work "open")] 2)
          (exec smallStore (.registerNode 7 1) (MemoryState.new smallConf)).2).2).2⟩ := by
    have hregister : Ticks smallStore (· < ·) RunnerShaped ⟨0, MemoryState.new smallConf⟩
        (.registerNode 7 1) ⟨1, (exec smallStore (.registerNode 7 1) (MemoryState.new smallConf)).2⟩ := by
      refine ⟨⟨⟨by simp, by simp, by simp [Op.submissions]⟩, rfl⟩, ?_, by decide⟩
      rintro time rfl
      exact ⟨by decide, le_refl _⟩
    have hstore : ∀ state, Ticks smallStore (· < ·) RunnerShaped ⟨1, state⟩
        (.storeTasks [plainWrite (freshRecord 1 .work "open")] 2)
        ⟨2, (exec smallStore (.storeTasks [plainWrite (freshRecord 1 .work "open")] 2) state).2⟩ := by
      intro state
      refine ⟨⟨⟨by simp, by simp, ?_⟩, rfl⟩, ?_, (by decide : (1 : DateTime) ≤ 2)⟩
      · intro write hw
        obtain rfl := List.mem_singleton.mp hw
        exact ⟨rfl, rfl⟩
      · rintro time rfl
        exact ⟨(by decide : (1 : DateTime) < 2), le_refl _⟩
    have hclaim : ∀ state, Ticks smallStore (· < ·) RunnerShaped ⟨2, state⟩
        (.claimTasks 7 [(⟨⟨"open"⟩, 1, none⟩, 0)] 3)
        ⟨3, (exec smallStore (.claimTasks 7 [(⟨⟨"open"⟩, 1, none⟩, 0)] 3) state).2⟩ := by
      intro state
      refine ⟨⟨⟨?_, by simp, by simp [Op.submissions]⟩, rfl⟩, ?_, (by decide : (2 : DateTime) ≤ 3)⟩
      · rintro node claims now (he | he)
        · obtain ⟨rfl, rfl, rfl⟩ := Op.claimTasks.inj he
          intro entry hm
          obtain rfl := List.mem_singleton.mp hm
          exact le_refl _
        · exact nomatch he
      · rintro time rfl
        exact ⟨(by decide : (2 : DateTime) < 3), le_refl _⟩
    exact ⟨⟨0, MemoryState.new smallConf⟩, _, ⟨smallConf, rfl⟩,
      .cons hregister (.cons (hstore _) (.single (hclaim _)))⟩
  exact ((owners_are_registered smallStore hreach).1 r hr 7 hn).1

end Vyuh.Tasks.Memory
