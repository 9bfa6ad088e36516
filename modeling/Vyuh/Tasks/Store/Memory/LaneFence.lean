import Vyuh.Tasks.Store.Memory.Acceptance
import Vyuh.Tasks.Store.Memory.LaneTurns

/-! A lane row over a run. Whatever the operations are, what happens to the row of a lane is a sequence
    of lane events: the turns the operations request on the lane, the reconciliation after them, and
    recovered claims. `exec_lane` reads the events of an operation off its arguments and shows that the
    store's row follows them; the fence is then a property of each event and of sequences of events. -/

namespace Vyuh.Tasks.Memory
open Lib

/-- What can happen to a lane row. -/
inductive LaneEvent where
  /-- One lane turn of a runner. -/
  | turn (request : MemoryOwnerTurn)
  /-- Polls reconciled at the end of an operation that found the row in the phase `before`. -/
  | settled (before : Option LaneOwnerPhase)
  /-- A runner recovers a claim whose acknowledgement was lost. -/
  | recovered (node : Uuid) (claims : List LaneClaim) (prepared : TaskPoll) (now : DateTime)

/-- Reconciliation forgets since when the lane is empty, and takes back an idle hook the same operation
    proposed. -/
inductive Settles (before : Option LaneOwnerPhase) (o : MemoryLaneLock) : MemoryLaneLock → Prop
  | same : Settles before o o
  | busy : Settles before o { o with emptySince := none }
  | revoked (idling : o.phase = .idling) (new : before ≠ some .idling) : Settles before o (memoryActivate o)

/-- Recovery renews a live lease for the runner that holds it and knows its token. -/
inductive Recovers (node : Uuid) (claims : List LaneClaim) (prepared : TaskPoll) (now : DateTime)
    (o : MemoryLaneLock) : MemoryLaneLock → Prop
  | same : Recovers node claims prepared now o o
  | renewed {claim : LaneClaim} (asked : claim ∈ claims)
      (token : recoveryToken claim prepared o.ownerToken = true)
      (owner : o.ownerId = some (Uuid.render node)) (live : memoryOwnerLive o now = true)
      (deadline : Option DateTime) : Recovers node claims prepared now o { o with leasedUntil := deadline }

/-- One event on the row of the lane `name`; a turn is a successful run of the lane turn on a store that
    holds the row. -/
inductive LaneStep [Serde] (name : String) (o : MemoryLaneLock) : LaneEvent → MemoryLaneLock → Prop
  | turn {request : MemoryOwnerTurn} {turn turn' : Turn} {poll : LanePoll} {o' : MemoryLaneLock}
      (lane : request.claim.lane.asStr = name) (before : turn.state.laneLocks name = some o)
      (run : claimOwnedState request turn = (.ok poll, turn'))
      (after : turn'.state.laneLocks name = some o') : LaneStep name o (.turn request) o'
  | settled {before : Option LaneOwnerPhase} {o' : MemoryLaneLock} (settles : Settles before o o') :
      LaneStep name o (.settled before) o'
  | recovered {node : Uuid} {claims : List LaneClaim} {prepared : TaskPoll} {now : DateTime}
      {o' : MemoryLaneLock} (recovers : Recovers node claims prepared now o o') :
      LaneStep name o (.recovered node claims prepared now) o'

/-- The hook generations whose results an event applies: those of an owner's turn that brings the
    result the row waits for. -/
def LaneEvent.applies (o : MemoryLaneLock) : LaneEvent → List ℤ
  | .turn request =>
    match (memoryOwner request o).1 with
    | .ok true =>
      (((request.claim.owner.bind (·.hook)).filter (hookCurrent o)).map (·.generation)).toList
    | _ => []
  | .settled _ | .recovered .. => []

/-- A run of events, with the generations whose results it applied. -/
inductive LaneRun [Serde] (name : String) :
    MemoryLaneLock → List LaneEvent → List ℤ → MemoryLaneLock → Prop
  | nil (o : MemoryLaneLock) : LaneRun name o [] [] o
  | cons {o o₁ o' : MemoryLaneLock} {event : LaneEvent} {events : List LaneEvent} {applied : List ℤ}
      (first : LaneStep name o event o₁) (rest : LaneRun name o₁ events applied o') :
      LaneRun name o (event :: events) (event.applies o ++ applied) o'

/-- The request presents a token that is not the current live one of its runner. -/
def Stale (request : MemoryOwnerTurn) (o : MemoryLaneLock) : Prop :=
  request.claim.token.isSome = true ∧
    currentOwner o request.runnerId request.claim request.now = false

/-- What an event may do to the token and the hook of a row. -/
structure Fenced (o : MemoryLaneLock) (event : LaneEvent) (o' : MemoryLaneLock) : Prop where
  token : o'.ownerToken = o.ownerToken ∨ ∃ request, event = .turn request ∧
    ((request.claim.token = none ∧ memoryOwnerLive o request.now = false ∧
        (o'.ownerToken = some (Uuid.render request.freshToken) ∨ o'.ownerToken = none)) ∨
      (currentOwner o request.runnerId request.claim request.now = true ∧ o'.ownerToken = none))
  stale : ∀ request, event = .turn request → Stale request o → o' = o ∧ event.applies o = []
  generation : o.generation ≤ o'.generation
  started : ∀ action, memoryAction o'.phase = some action →
    (o'.phase = o.phase ∧ o'.generation = o.generation) ∨ o.generation < o'.generation

variable {name : String} {request : MemoryOwnerTurn} {o o' : MemoryLaneLock} {event : LaneEvent}
  {generation : ℤ} {state state' : MemoryState}

/-! ### One event -/

/-- A stale request is refused. -/
theorem Stale.not_leases (h : Stale request o) :
    ¬ Leases request o o' := by
  obtain ⟨hsome, hcurrent⟩ := h
  intro hl
  cases hl with
  | renewed current until_ => rw [hcurrent] at current; exact nomatch current
  | acquired anonymous free until_ => rw [anonymous] at hsome; exact nomatch hsome

theorem Stale.applies (h : Stale request o) :
    LaneEvent.applies o (.turn request) = [] := by
  rw [LaneEvent.applies]
  rcases hm : memoryOwner request o with ⟨r, o'⟩
  cases r with
  | error e => rfl
  | ok owned =>
    rcases memoryOwner_ok hm with ⟨rfl, -, -⟩ | ⟨rfl, hl⟩
    · rfl
    · exact absurd hl h.not_leases

theorem Hooks.moves (h : Hooks request o o') :
    Moves o o' := by
  cases h with
  | ignored stale => exact Moves.refl o
  | applied brought current moves answered => exact moves

theorem LaneTurn.fenced (h : LaneTurn request o o') :
    Fenced o (.turn request) o' := by
  cases h with
  | refused strange =>
    refine ⟨.inl rfl, fun _ he hs => ⟨rfl, ?_⟩, le_refl _, fun _ _ => .inl ⟨rfl, rfl⟩⟩
    obtain rfl := LaneEvent.turn.inj he
    exact hs.applies
  | @owned leased hooked _ lease hook moves =>
    obtain ⟨hgen, hphase, -⟩ := lease.frame
    have hm := hook.moves.trans moves
    refine ⟨?_, fun _ he hs => ?_, hgen ▸ hm.generation, fun action ha => ?_⟩
    · cases lease with
      | renewed current until_ =>
        rcases hm.owner with ⟨ht, -, -⟩ | ⟨ht, -, -⟩
        · exact .inl ht
        · exact .inr ⟨request, rfl, .inr ⟨current, ht⟩⟩
      | acquired anonymous free until_ =>
        rcases hm.owner with ⟨ht, -, -⟩ | ⟨ht, -, -⟩
        · exact .inr ⟨request, rfl, .inl ⟨anonymous, free, .inl ht⟩⟩
        · exact .inr ⟨request, rfl, .inl ⟨anonymous, free, .inr ht⟩⟩
    · obtain rfl := LaneEvent.turn.inj he
      exact absurd lease hs.not_leases
    · rcases lt_or_eq_of_le hm.generation with hlt | heq
      · exact .inr (hgen ▸ hlt)
      · exact .inl ⟨(hm.started action ha heq.symm).trans hphase, heq.symm.trans hgen⟩

/-- An event that applies a result applies the one the row waits for. -/
theorem LaneEvent.mem_applies (h : generation ∈ event.applies o) : ∃ request hook, event = .turn request ∧
      (memoryOwner request o).1 = .ok true ∧ request.claim.owner.bind (·.hook) = some hook ∧
      hookCurrent o hook = true ∧ hook.generation = generation := by
  cases event with
  | turn request =>
    rw [LaneEvent.applies] at h
    split at h
    · next hown =>
      obtain ⟨hook, hmem, hg⟩ := Option.map_eq_some_iff.mp (Option.mem_toList.mp h)
      obtain ⟨hb, hc⟩ := Option.filter_eq_some_iff.mp hmem
      exact ⟨request, hook, rfl, hown, hb, hc, hg⟩
    · exact nomatch h
  | settled before => exact nomatch h
  | recovered node claims prepared now => exact nomatch h

/-- The lane turn a claim requests on the lane `name`, if the lane is locked. -/
def laneRequest (conf : TaskStoreConf) (name : String) (node : Uuid) (lease : Duration) (now : DateTime)
    (entry : LaneClaim × Uuid) : Option MemoryOwnerTurn :=
  match conf.laneOf entry.1.lane with
  | none => none
  | some laneConf =>
    if entry.1.lane.asStr = name ∧ laneConf.laneLock.isSome then
      some { runnerId := node, claim := entry.1, lane := laneConf, leaseDuration := lease, now := now,
             freshToken := entry.2 }
    else none

/-! ### Settling -/

theorem Settles.trans {before : Option LaneOwnerPhase} {a b c : MemoryLaneLock} (h : Settles before a b)
    (h' : Settles before b c) : Settles before a c := by
  cases h with
  | same => exact h'
  | busy =>
    cases h' with
    | same | busy => exact .busy
    | revoked idling new => exact .revoked idling new
  | revoked idling new =>
    cases h' with
    | same | busy => exact .revoked idling new
    | revoked idling' new' => exact nomatch idling'

theorem reconcileLane_settles (lanes : List TaskLane) (phases : FMap String LaneOwnerPhase) (now : DateTime)
    (state : MemoryState) (poll : LanePoll) (ho : state.laneLocks name = some o) :
    ∃ o', (reconcileLane lanes phases now state poll).1.laneLocks name = some o' ∧
      Settles (phases name) o o' := by
  rw [reconcileLane]
  split
  · exact ⟨o, ho, .same⟩
  · simp only
    split
    · exact ⟨o, ho, .same⟩
    · cases hl : state.laneLocks poll.lane.asStr with
      | none => exact ⟨o, ho, .same⟩
      | some owner =>
        simp only
        by_cases hname : name = poll.lane.asStr
        · subst hname
          obtain rfl := Option.some.inj (hl.symm.trans ho)
          split
          · next h => exact ⟨_, FMap.insert_self _ _ _, .revoked h.1 h.2⟩
          · exact ⟨_, FMap.insert_self _ _ _, .busy⟩
        · split
          · exact ⟨o, (FMap.insert_of_ne _ _ hname).trans ho, .same⟩
          · exact ⟨o, (FMap.insert_of_ne _ _ hname).trans ho, .same⟩

theorem reconcilePoll_settles (state : MemoryState) (poll : TaskPoll) (lanes : List TaskLane)
    (phases : FMap String LaneOwnerPhase) (now : DateTime) (ho : state.laneLocks name = some o) :
    ∃ o', (reconcilePoll state poll lanes phases now).1.laneLocks name = some o' ∧
      Settles (phases name) o o' := by
  rw [reconcilePoll]
  simp only [mapAccum_fst]
  refine foldl_rel (R := fun s s' : MemoryState => ∀ o, s.laneLocks name = some o →
      ∃ o', s'.laneLocks name = some o' ∧ Settles (phases name) o o')
    (fun s o ho => ⟨o, ho, .same⟩) ?_ _ poll.lanes state
    (fun s lane _ o ho => reconcileLane_settles lanes phases now s lane ho) o ho
  intro a b c h h' o ho
  obtain ⟨o₁, ho₁, hs⟩ := h o ho
  obtain ⟨o₂, ho₂, hs'⟩ := h' o₁ ho₁
  exact ⟨o₂, ho₂, hs.trans hs'⟩

/-! ### Recovery -/

section

variable {node : Uuid} {claims : List LaneClaim} {prepared : TaskPoll} {now : DateTime} {lease : Duration}

theorem Recovers.trans {a b c : MemoryLaneLock} (h : Recovers node claims prepared now a b)
    (h' : Recovers node claims prepared now b c) : Recovers node claims prepared now a c := by
  cases h with
  | same => exact h'
  | renewed asked token owner live deadline =>
    cases h' with
    | same => exact .renewed asked token owner live deadline
    | renewed _ _ _ _ deadline' => exact .renewed asked token owner live deadline'

/-- The row of the lane `name` is still there, recovered or not. -/
def RecoversIn (name : String) (node : Uuid) (claims : List LaneClaim) (prepared : TaskPoll)
    (now : DateTime) (state state' : MemoryState) : Prop :=
  ∀ o, state.laneLocks name = some o →
    ∃ o', state'.laneLocks name = some o' ∧ Recovers node claims prepared now o o'

theorem RecoversIn.of_locks (h : state'.laneLocks = state.laneLocks) :
    RecoversIn name node claims prepared now state state' :=
  fun o ho => ⟨o, h ▸ ho, .same⟩

theorem RecoversIn.trans {a b c : MemoryState} (h : RecoversIn name node claims prepared now a b)
    (h' : RecoversIn name node claims prepared now b c) : RecoversIn name node claims prepared now a c := by
  intro o ho
  obtain ⟨o₁, ho₁, hr⟩ := h o ho
  obtain ⟨o₂, ho₂, hr'⟩ := h' o₁ ho₁
  exact ⟨o₂, ho₂, hr.trans hr'⟩

theorem recoverOwner_recovers {lane : TaskLane} {claim : Option LaneClaim} {owner : Option LaneOwnerPoll}
    (hc : ∀ c, claim = some c → c ∈ claims)
    (h : recoverOwner state node lane claim prepared now lease = .ok (owner, state')) :
    RecoversIn name node claims prepared now state state' := by
  rw [recoverOwner] at h
  cases hf : claim.filter (fun claim => claim.owner.isSome) with
  | none =>
    rw [hf] at h
    obtain ⟨-, rfl⟩ := Prod.mk.inj (Except.ok.inj h)
    exact .of_locks rfl
  | some asked =>
    rw [hf] at h
    cases hl : state.laneLocks lane.asStr with
    | none => rw [hl] at h; cases h
    | some row =>
      rw [hl] at h
      simp only at h
      split at h
      · next hlive =>
        obtain ⟨deadline, -, h⟩ := Step.except_bind_ok.mp h
        obtain ⟨-, rfl⟩ := Prod.mk.inj (Except.ok.inj h)
        simp only [Bool.and_eq_true, decide_eq_true_eq] at hlive
        intro o ho
        by_cases hname : name = lane.asStr
        · subst hname
          obtain rfl := Option.some.inj (hl.symm.trans ho)
          exact ⟨_, FMap.insert_self _ _ _, .renewed (hc asked (Option.filter_eq_some_iff.mp hf).1)
            hlive.1.1 hlive.1.2 hlive.2 deadline⟩
        · exact ⟨o, (FMap.insert_of_ne _ _ hname).trans ho, .same⟩
      · obtain ⟨-, rfl⟩ := Prod.mk.inj (Except.ok.inj h)
        exact .of_locks rfl

theorem recoverTask_locks (owner : Option LaneOwnerPoll) (acc : Recovered) (expected : TaskRecord) :
    (recoverTask node owner now acc expected).state.laneLocks = acc.state.laneLocks := by
  rw [recoverTask]
  split
  · rfl
  · split
    · rfl
    · split <;> rfl

theorem recoverLane_recovers {cancelled cancelled' : List TaskCommit} {lane poll : LanePoll}
    (h : recoverLane node claims prepared now lease state cancelled lane = .ok (state', cancelled', poll)) :
    RecoversIn name node claims prepared now state state' := by
  rw [recoverLane] at h
  obtain ⟨⟨owner, state₁⟩, ho, h⟩ := Step.except_bind_ok.mp h
  obtain ⟨rfl, -, -⟩ : _ = state' ∧ _ = cancelled' ∧ _ = poll := by simpa using h
  refine (recoverOwner_recovers (fun c hc => List.mem_of_find?_eq_some hc) ho).trans (.of_locks ?_)
  refine (foldl_rel (R := fun a b : Recovered => b.state.laneLocks = a.state.laneLocks) (fun _ => rfl)
    (fun _ _ _ h h' => h'.trans h) _ lane.tasks _ fun acc expected _ =>
      recoverTask_locks owner acc expected).trans ?_
  simp only
  split <;> rfl

theorem recoverLanes_recovers : ∀ (lanes : List LanePoll) (state state' : MemoryState)
    (cancelled cancelled' : List TaskCommit) (polls : List LanePoll),
    recoverLanes node claims prepared now lease state cancelled lanes =
      .ok (state', cancelled', polls) → RecoversIn name node claims prepared now state state'
  | [], state, state', cancelled, cancelled', polls, h => by
    obtain ⟨rfl, -⟩ := Prod.mk.inj (Except.ok.inj h)
    exact .of_locks rfl
  | lane :: lanes, state, state', cancelled, cancelled', polls, h => by
    rw [recoverLanes] at h
    obtain ⟨⟨state₁, cancelled₁, poll⟩, hone, h⟩ := Step.except_bind_ok.mp h
    obtain ⟨⟨state₂, cancelled₂, polls'⟩, hrest, h⟩ := Step.except_bind_ok.mp h
    obtain ⟨rfl, -⟩ := Prod.mk.inj (Except.ok.inj h)
    exact (recoverLane_recovers hone).trans (recoverLanes_recovers lanes _ _ _ _ _ hrest)

end

/-! ### Locked lanes -/

/-- The lane is configured with a lock. -/
def Locked (state : MemoryState) (lane : String) : Prop :=
  ∃ conf entry, state.conf = some conf ∧ conf.laneNamed lane = some entry ∧ entry.laneLock.isSome = true

/-- In a locked lane only the live owner's outcomes are accepted. -/
theorem Accepts.locked {now : DateTime} {node : Uuid} {attempts : ℤ} {id : TaskId} {lane : TaskLane}
    {result : TaskOutcome} {token : Option String} {index : ℕ} {row : TaskRecord}
    (h : Accepts state now (.outcome node attempts id lane result token) index row)
    (hl : Locked state row.lane) :
    ∃ o, state.laneLocks row.lane = some o ∧ o.ownerId = some (Uuid.render node) ∧
      o.ownerToken = token ∧ memoryOwnerLive o now = true := by
  obtain ⟨conf, entry, hc, hentry, hlock⟩ := hl
  have hrow : row.lane = lane.asStr := h.lane lane rfl
  have hof : conf.laneOf lane = some entry := by
    rw [TaskStoreConf.laneNamed, hrow] at hentry
    rw [TaskStoreConf.laneOf, ← hentry]
    congr 1
    funext entry
    rcases entry.lane with ⟨name⟩
    rcases lane with ⟨other⟩
    simp only [TaskLane.mk.injEq]
  have hallowed := h.allowed
  rw [memoryCommitAllowed, hc, Option.bind_some, hof, Option.any_some, hlock, if_pos rfl] at hallowed
  rw [hrow]
  cases ho : state.laneLocks lane.asStr with
  | none => rw [ho] at hallowed; exact nomatch hallowed
  | some o =>
    rw [ho] at hallowed
    have hall := Except.ok.inj hallowed
    simp only [Bool.and_eq_true, decide_eq_true_eq] at hall
    exact ⟨o, rfl, hall.1.1, hall.1.2, hall.2⟩

/-! ### Lane events of the code -/

section

variable [Serde]

/-- A lane turn of the code is a lane turn of its row. -/
theorem LaneStep.laneTurn (h : LaneStep name o (.turn request) o') : LaneTurn request o o' := by
  cases h with
  | @turn _ turn turn' poll _ lane before run after =>
    subst lane
    rw [claimOwnedState, before] at run
    rcases hr : claimOwnedInner request (turn.open request.claim.lane.asStr o) with ⟨r, s⟩
    simp only [hr] at run
    cases r with
    | error e => cases congrArg Prod.fst run
    | ok inner =>
      obtain ⟨-, rfl⟩ := Prod.mk.inj run
      obtain rfl : s.owner = o' := by simpa [OwnerState.close] using after
      exact claimOwnedInner_row hr

theorem LaneStep.fenced (h : LaneStep name o event o') :
    Fenced o event o' := by
  cases event with
  | turn request => exact h.laneTurn.fenced
  | settled before =>
    cases h with
    | settled settles =>
      cases settles with
      | same | busy =>
        exact ⟨.inl rfl, fun _ he => (nomatch he), le_refl _, fun _ _ => .inl ⟨rfl, rfl⟩⟩
      | revoked idling new =>
        exact ⟨.inl rfl, fun _ he => (nomatch he), le_refl _, fun _ ha => (nomatch ha)⟩
  | recovered node claims prepared now =>
    cases h with
    | recovered recovers =>
      cases recovers <;>
        exact ⟨.inl rfl, fun _ he => (nomatch he), le_refl _, fun _ _ => .inl ⟨rfl, rfl⟩⟩

/-! ### Hook results over a run -/

theorem LaneStep.answered (h : LaneStep name o event o') (ha : Answered generation o) :
    Answered generation o' := by
  have hf := h.fenced
  rcases ha with hlt | ⟨rfl, hnone⟩
  · exact .inl (lt_of_lt_of_le hlt hf.generation)
  · rcases lt_or_eq_of_le hf.generation with hlt | heq
    · exact .inl hlt
    · refine .inr ⟨heq.symm, ?_⟩
      cases hact : memoryAction o'.phase with
      | none => rfl
      | some action =>
        rcases hf.started action hact with ⟨hphase, -⟩ | hlt
        · rw [hphase, hnone] at hact
          exact nomatch hact
        · omega

/-- An applied result answers its generation. -/
theorem LaneStep.applied_answered (h : LaneStep name o event o') (ha : generation ∈ event.applies o) :
    Answered generation o' := by
  obtain ⟨request, hook, rfl, hown, hbrought, hcurrent, rfl⟩ := LaneEvent.mem_applies ha
  cases h.laneTurn with
  | refused strange =>
    -- a refused request owns nothing
    rcases hm : memoryOwner request o with ⟨r, o₁⟩
    rw [hm] at hown
    obtain rfl : r = .ok true := hown
    rcases memoryOwner_ok hm with ⟨hf, -⟩ | ⟨-, hl⟩
    · exact nomatch hf
    · cases hl with
      | renewed current until_ => rw [strange.1] at current; exact nomatch current
      | acquired anonymous free until_ =>
        rcases strange.2 with hs | hs
        · rw [anonymous] at hs; exact nomatch hs
        · rw [free] at hs; exact nomatch hs
  | @owned leased hooked _ lease hooks moves =>
    obtain ⟨hgen, hphase, -⟩ := lease.frame
    have hleased : hookCurrent leased hook = true := by
      rw [hookCurrent, hgen, hphase]
      exact hcurrent
    cases hooks with
    | ignored stale => rw [stale hook hbrought] at hleased; exact nomatch hleased
    | @applied other _ brought current moved answered =>
      obtain rfl := Option.some.inj (brought.symm.trans hbrought)
      exact answered.moves moves

/-- After a generation is answered, later results belong to later generations. -/
theorem LaneRun.after_answered {events : List LaneEvent} {applied : List ℤ}
    (h : LaneRun name o events applied o') (ha : Answered generation o) :
    ∀ later ∈ applied, generation < later := by
  induction h with
  | nil o => exact fun _ hm => (by cases hm)
  | @cons o o₁ o' event events applied first rest ih =>
    intro later hm
    rcases List.mem_append.mp hm with hm | hm
    · obtain ⟨request, hook, -, -, -, hcurrent, rfl⟩ := LaneEvent.mem_applies hm
      simp only [hookCurrent, Bool.and_eq_true, decide_eq_true_eq] at hcurrent
      rcases ha with hlt | ⟨-, hnone⟩
      · omega
      · rw [hnone] at hcurrent
        cases hcurrent.2
    · exact ih (first.answered ha) later hm

/-- Results are applied in the order of their generations, each at most once. -/
theorem LaneRun.applied_sorted {events : List LaneEvent} {applied : List ℤ}
    (h : LaneRun name o events applied o') : applied.Pairwise (· < ·) := by
  induction h with
  | nil o => exact .nil
  | @cons o o₁ o' event events applied first rest ih =>
    refine List.pairwise_append.mpr ⟨?_, ih, fun g hg later hl =>
      rest.after_answered (first.applied_answered hg) later hl⟩
    cases event with
    | turn request =>
      rw [LaneEvent.applies]
      split
      · cases (request.claim.owner.bind (·.hook)).filter (hookCurrent o) with
        | none => exact .nil
        | some hook => exact List.pairwise_singleton _ _
      · exact .nil
    | settled before => exact .nil
    | recovered node claims prepared now => exact .nil

theorem LaneRun.append {events events' : List LaneEvent} {applied applied' : List ℤ}
    {o o₁ o' : MemoryLaneLock} (h : LaneRun name o events applied o₁)
    (h' : LaneRun name o₁ events' applied' o') :
    LaneRun name o (events ++ events') (applied ++ applied') o' := by
  induction h with
  | nil o => exact h'
  | cons first rest ih =>
    rw [List.append_assoc]
    exact .cons first (ih h')

theorem LaneRun.single (h : LaneStep name o event o') :
    LaneRun name o [event] (event.applies o) o' := by
  have := LaneRun.cons h (.nil o')
  rwa [List.append_nil] at this

/-! ### The turns of one operation -/

/-- A lane turn leaves every other lane's row alone. -/
theorem claimOwnedState_other {turn turn' : Turn} {poll : LanePoll}
    (h : claimOwnedState request turn = (.ok poll, turn')) {other : String}
    (ho : other ≠ request.claim.lane.asStr) : turn'.state.laneLocks other = turn.state.laneLocks other := by
  obtain ⟨owner, inner, s, -, hr, -, rfl⟩ := claimOwnedState_ok h
  have hinner := (keeps_claimOwnedInner request (turn.open request.claim.lane.asStr owner)).locks
  rw [hr] at hinner
  rw [OwnerState.close]
  simp only [FMap.insert_of_ne _ _ ho]
  rw [hinner]
  exact FMap.remove_of_ne _ ho

/-- A lane turn puts its lane's row back. -/
theorem claimOwnedState_row {turn turn' : Turn} {poll : LanePoll}
    (h : claimOwnedState request turn = (.ok poll, turn')) :
    ∃ o', turn'.state.laneLocks request.claim.lane.asStr = some o' := by
  obtain ⟨-, -, s, -, -, -, rfl⟩ := claimOwnedState_ok h
  exact ⟨_, FMap.insert_self _ _ _⟩

/-- The row follows the events, and some results are applied on the way. -/
def Follows (name : String) (o : MemoryLaneLock) (events : List LaneEvent) (locks : FMap String MemoryLaneLock) :
    Prop :=
  ∃ o' applied, locks name = some o' ∧ LaneRun name o events applied o'

theorem claimOne_follows {conf : TaskStoreConf} {node : Uuid} {lease : Duration} {now : DateTime}
    {entry : LaneClaim × Uuid} {turn turn' : Turn} {poll : LanePoll}
    (ho : turn.state.laneLocks name = some o)
    (h : claimOne node conf lease now entry turn = (.ok poll, turn')) :
    Follows name o ((laneRequest conf name node lease now entry).toList.map .turn)
      turn'.state.laneLocks := by
  rw [claimOne] at h
  cases hl : conf.laneOf entry.1.lane with
  | none => rw [hl] at h; exact absurd h Step.fail_ok
  | some laneConf =>
    rw [hl] at h
    simp only at h
    rw [laneRequest, hl]
    simp only
    split at h
    · next hlock =>
      by_cases hname : entry.1.lane.asStr = name
      · obtain ⟨o', ho'⟩ := claimOwnedState_row h
        have ho'' : turn'.state.laneLocks name = some o' := hname ▸ ho'
        rw [if_pos ⟨hname, hlock⟩]
        exact ⟨o', _, ho'', .single (.turn hname ho h ho'')⟩
      · rw [if_neg fun hand => hname hand.1]
        refine ⟨o, [], ?_, .nil o⟩
        rw [claimOwnedState_other h (Ne.symm hname), ho]
    · next hlock =>
      have hlocks := (keeps_claimUnowned node entry.1 conf laneConf now turn).locks
      rw [h] at hlocks
      rw [if_neg fun hand => hlock hand.2]
      exact ⟨o, [], by rw [hlocks, ho], .nil o⟩

theorem collect_follows {conf : TaskStoreConf} {node : Uuid} {lease : Duration} {now : DateTime} :
    ∀ (claims : List (LaneClaim × Uuid)) (turn : Turn) (polls : List LanePoll) (turn' : Turn)
      (o : MemoryLaneLock), turn.state.laneLocks name = some o →
      Step.collect (claimOne node conf lease now) claims turn = (.ok polls, turn') →
        Follows name o ((claims.filterMap (laneRequest conf name node lease now)).map .turn)
          turn'.state.laneLocks
  | [], turn, polls, turn', o, ho, h => by
    obtain ⟨-, rfl⟩ := Step.pure_ok.mp h
    exact ⟨o, [], ho, .nil o⟩
  | entry :: claims, turn, polls, turn', o, ho, h => by
    simp only [Step.collect, Step.bind_ok, Step.pure_ok] at h
    obtain ⟨poll, turn₁, h₁, rest, turn₂, h₂, -, rfl⟩ := h
    obtain ⟨o₁, applied, ho₁, hrun⟩ := claimOne_follows ho h₁
    obtain ⟨o', applied', ho', hrest⟩ := collect_follows claims turn₁ rest turn₂ o₁ ho₁ h₂
    refine ⟨o', applied ++ applied', ho', ?_⟩
    have hcons : (entry :: claims).filterMap (laneRequest conf name node lease now) =
        (laneRequest conf name node lease now entry).toList ++
          claims.filterMap (laneRequest conf name node lease now) := by
      rw [List.filterMap_cons]
      cases laneRequest conf name node lease now entry <;> rfl
    rw [hcons, List.map_append]
    exact hrun.append hrest

/-- The lane rows before a turn reconciles its polls are those its claims left. -/
theorem settleTurn_locks (turn : Turn) (children : List TaskRecord) (waits : List (TaskId × TaskWait))
    (phases : FMap String LaneOwnerPhase) (poll : TaskPoll) (commits : List TaskCommit)
    (now : DateTime) : ∃ state lanes, state.laneLocks = turn.state.laneLocks ∧
      (settleTurn turn children waits phases poll commits now).1 =
        (reconcilePoll state (materialize turn.state poll).2 lanes phases now).1 := by
  obtain ⟨cleared, hc⟩ := clearTerminal_eq (delivered now
    ((installed now (materialized turn.state poll.tasks) waits).adopt children)
    (groupDeliveries turn.deliveries)) turn.undo
  have hm := (materialized_frame turn.state poll.tasks).2
  have hi := (installed_frame now (materialized turn.state poll.tasks) waits).2
  have hd := (delivered_frame now ((installed now (materialized turn.state poll.tasks) waits).adopt
    children) (groupDeliveries turn.deliveries)).2
  rw [settleTurn]
  simp only [materialize_fst, install_fst, finalizeWorkflow_fst]
  refine ⟨_, _, ?_, rfl⟩
  rw [hc]
  exact hd.trans (hi.trans hm)

/-- A turn without claims leaves the lane rows alone. -/
theorem atomicOperation_locks (commits : List TaskCommit) (batch : ℕ) (lease : Duration) (now : DateTime)
    (state : MemoryState) :
    (atomicOperation none [] commits batch lease now state).2.laneLocks = state.laneLocks := by
  rw [atomicOperation]
  split
  · rfl
  · rcases hr : runTurn none [] commits lease now ⟨state, [], []⟩ with ⟨r, turn'⟩
    cases r with
    | error e => rfl
    | ok result =>
      obtain ⟨staged, turn, hcommits, hsettle⟩ := runTurn_commits hr
      obtain ⟨s, lanes, hs, heq⟩ := settleTurn_locks turn staged.children staged.waits state.phases
        ⟨[], []⟩ commits now
      have hstate : turn'.state = _ := congrArg Prod.fst hsettle
      have hturn : turn.state.laneLocks = state.laneLocks := by rw [hcommits.result]; rfl
      have hlocks : turn'.state.laneLocks = turn.state.laneLocks := by
        rw [hstate, heq]
        exact hs
      exact hlocks.trans hturn

/-- A claim turn: the row follows the turns requested on its lane, then the reconciliation. -/
theorem claimTurn_follows {node : Uuid} {claims : List (LaneClaim × Uuid)} {lease : Duration}
    {now : DateTime} {result : TaskPoll × CommitResult} {turn' : Turn} {conf : TaskStoreConf}
    (hc : state.conf = some conf) (ho : state.laneLocks name = some o)
    (h : runTurn (some node) claims [] lease now state.begin = (.ok result, turn')) :
    Follows name o ((claims.filterMap (laneRequest conf name node lease now)).map .turn ++
      [.settled (state.phases name)]) turn'.state.laneLocks := by
  obtain ⟨turn, poll, hclaim, hsettle⟩ := runTurn_claims h
  have hstate : turn'.state = _ := congrArg Prod.fst hsettle
  simp only [claimTasksState, Step.bind_ok, Step.get_ok] at hclaim
  obtain ⟨start, _, ⟨rfl, rfl⟩, hclaim⟩ := hclaim
  have hc' : state.begin.state.conf = some conf := hc
  rw [hc'] at hclaim
  simp only [Step.bind_ok, Step.pure_ok] at hclaim
  obtain ⟨lanes, turn, hcollect, rfl, rfl⟩ := hclaim
  obtain ⟨o₁, applied, ho₁, hrun⟩ := collect_follows claims state.begin lanes _ o ho hcollect
  obtain ⟨s, wakes, hs, heq⟩ := settleTurn_locks turn [] [] state.phases ⟨[], lanes⟩ [] now
  obtain ⟨o', ho', hsettles⟩ := reconcilePoll_settles s (materialize turn.state ⟨[], lanes⟩).2 wakes
    state.phases now (hs ▸ ho₁)
  refine ⟨o', applied ++ [], ?_, hrun.append (.single (.settled hsettles))⟩
  rw [hstate, heq]
  exact ho'

/-- A recovered claim either fails and changes nothing, or recovers the row. -/
theorem recoverClaims_recovers (name : String) (node : Uuid) (claims : List LaneClaim)
    (prepared : TaskPoll) (now : DateTime) (store : MemoryTaskStore) (state : MemoryState) :
    (∃ failure, recoverClaims store node claims prepared now state = (.error failure, state)) ∨
      ∃ poll, (recoverClaims store node claims prepared now state).1 = .ok poll ∧
        RecoversIn name node claims prepared now state
          (recoverClaims store node claims prepared now state).2 := by
  rw [recoverClaims, recoverPoll]
  cases hl : recoverLanes node claims prepared now store.leaseDuration state [] prepared.lanes with
  | error error => exact .inl ⟨_, rfl⟩
  | ok entry =>
    obtain ⟨staged, cancelled, lanes⟩ := entry
    have hlocks := atomicOperation_locks cancelled store.commitBatchSize store.leaseDuration now staged
    simp only
    rcases hop : atomicOperation none [] cancelled store.commitBatchSize store.leaseDuration now
      staged with ⟨r, after⟩
    rw [hop] at hlocks
    cases r with
    | error error => exact .inl ⟨_, rfl⟩
    | ok result =>
      exact .inr ⟨_, rfl, (recoverLanes_recovers _ _ _ _ _ _ hl).trans (.of_locks hlocks)⟩

/-! ### Every operation -/

section

variable (store : MemoryTaskStore)

omit [Serde] in
/-- The turns an operation requests on the lane `name`. -/
def Op.laneRequests (op : Op) (conf : Option TaskStoreConf) (name : String) : List MemoryOwnerTurn :=
  match op with
  | .claimTasks node claims now | .coordinateLanes node claims now =>
    conf.elim [] fun conf => claims.filterMap (laneRequest conf name node store.leaseDuration now)
  | _ => []

omit [Serde] in
/-- What an operation does to the row of the lane `name` if it succeeds. -/
def Op.laneAttempts (op : Op) (state : MemoryState) (name : String) : List LaneEvent :=
  match op with
  | .claimTasks .. | .coordinateLanes .. =>
    (op.laneRequests store state.conf name).map .turn ++ [.settled (state.phases name)]
  | .recoverClaims node claims prepared now => [.recovered node claims prepared now]
  | _ => []

omit [Serde] in
def Response.isPolled : Response → Bool
  | .polled _ => true
  | _ => false

/-- What an operation does to the row of the lane `name`: nothing if it fails. -/
def Op.laneEvents (op : Op) (state : MemoryState) (name : String) : List LaneEvent :=
  if (exec store op state).1.isPolled then op.laneAttempts store state name else []

omit [Serde] in
theorem respondPoll_isPolled (run : Except (StoreFailure TaskPoll) TaskPoll × MemoryState) :
    (respondPoll run).1.isPolled = run.1.isOk := by
  obtain ⟨r, s⟩ := run
  cases r with
  | ok a => rfl
  | error e => cases e <;> rfl

omit [Serde] in
theorem initializeLaneLocks_row (state : MemoryState) (conf : TaskStoreConf)
    (ho : state.laneLocks name = some o) : (initializeLaneLocks state conf).laneLocks name = some o := by
  refine foldl_rel (R := fun a b : FMap String MemoryLaneLock => ∀ o, a name = some o → b name = some o)
    (fun _ _ h => h) (fun _ _ _ h h' o ho => h' o (h o ho)) _ _ _ (fun locks lane _ o ho => ?_) o ho
  rw [FMap.orInsert, FMap.insert_apply]
  split
  · next hname => rw [← hname, ho]; rfl
  · exact ho

/-- A claim operation fails and leaves the lane rows alone, or its row follows its turns. -/
theorem claimTasks_follows (node : Uuid) (claims : List (LaneClaim × Uuid)) (now : DateTime)
    (ho : state.laneLocks name = some o) :
    (∃ failure, (claimTasks store node claims now state).1 = .error failure ∧
        (claimTasks store node claims now state).2.laneLocks = state.laneLocks) ∨
      ∃ poll, (claimTasks store node claims now state).1 = .ok poll ∧
        Follows name o (((Op.claimTasks node claims now).laneRequests store state.conf name).map .turn ++
          [.settled (state.phases name)]) (claimTasks store node claims now state).2.laneLocks := by
  simp only [claimTasks, Step.bind_run, Step.get_run]
  split
  · exact .inl ⟨_, rfl, rfl⟩
  · simp only [Step.bind_run, beforeCommit, atomicOperation]
    cases hv : validateTurn [] store.commitBatchSize ((state.conf.map (·.maxAllChildren)).getD 256) with
    | error error => exact .inl ⟨_, rfl, rfl⟩
    | ok u =>
      simp only
      rcases hr : runTurn (some node) claims [] store.leaseDuration now ⟨state, [], []⟩ with ⟨r, turn⟩
      cases r with
      | error error => exact .inl ⟨_, rfl, rfl⟩
      | ok result =>
        refine .inr ⟨_, rfl, ?_⟩
        cases hc : state.conf with
        | none =>
          -- an unconfigured store fails every claim
          obtain ⟨turn₁, poll, hclaim, -⟩ := runTurn_claims hr
          simp only [claimTasksState, Step.bind_ok, Step.get_ok] at hclaim
          obtain ⟨_, _, ⟨rfl, rfl⟩, hclaim⟩ := hclaim
          have hc' : state.begin.state.conf = none := hc
          rw [hc'] at hclaim
          exact absurd hclaim Step.fail_ok
        | some conf => exact claimTurn_follows hc ho hr

theorem Follows.same {locks : FMap String MemoryLaneLock} (h : locks name = some o) :
    Follows name o [] locks := ⟨o, [], h, .nil o⟩

/-- An operation whose answer is no poll leaves the row alone. -/
theorem Follows.of_same {op : Op} {locks : FMap String MemoryLaneLock}
    (hop : op.laneAttempts store state name = []) (h : locks name = some o) :
    Follows name o (op.laneEvents store state name) locks := by
  rw [Op.laneEvents, hop, ite_self]
  exact .same h

/-- Whatever an operation does, the row of a lane follows the operation's lane events. -/
theorem exec_lane (op : Op) (ho : state.laneLocks name = some o) :
    Follows name o (op.laneEvents store state name) (exec store op state).2.laneLocks := by
  have hclaims : ∀ node claims now, Follows name o
      (if (claimTasks store node claims now state).1.isOk then
        (Op.claimTasks node claims now).laneAttempts store state name else [])
      (claimTasks store node claims now state).2.laneLocks := by
    intro node claims now
    rcases claimTasks_follows store node claims now ho with
      ⟨failure, he, hlocks⟩ | ⟨poll, hok, hf⟩
    · rw [he]
      exact .same (hlocks ▸ ho)
    · rw [hok]
      exact hf
  cases op with
  | claimTasks node claims now =>
    simp only [Op.laneEvents, exec, respondPoll_snd, respondPoll_isPolled]
    exact hclaims node claims now
  | coordinateLanes node claims now =>
    simp only [Op.laneEvents, exec, respondPoll_snd, respondPoll_isPolled]
    rw [coordinateLanes, Step.bind_run]
    cases hv : validateCoordination (claims.map (·.1)) with
    | error e => exact .same ho
    | ok u => exact hclaims node claims now
  | recoverClaims node claims prepared now =>
    simp only [Op.laneEvents, exec, respondPoll_snd, respondPoll_isPolled]
    rcases recoverClaims_recovers name node claims prepared now store state with
      ⟨failure, he⟩ | ⟨poll, hok, hrec⟩
    · rw [he]
      exact .same ho
    · obtain ⟨o', ho', hr⟩ := hrec o ho
      rw [hok]
      exact ⟨o', _, ho', .single (.recovered hr)⟩
  | commitTasks commits now =>
    refine .of_same store rfl ?_
    rw [exec, respondCommit_snd, commitTasks_snd, atomicOperation_locks, ho]
  | recoverOutputs node commits prepared now =>
    refine .of_same store rfl ?_
    rw [exec, respondCommit_snd, recoverOutputs_snd, commitTasks_snd, atomicOperation_locks, ho]
  | commitAdmitted commits node limit cached now =>
    refine .of_same store rfl ?_
    rw [exec, respondCommit_snd]
    have hlocks := atomicOperation_locks commits store.commitBatchSize store.leaseDuration now state
    rcases commitAdmitted_cases store commits node limit cached now state with
      ⟨error, state₁, he, hok⟩ | ⟨poll, result, state₁, hop, hok⟩
    · rw [he] at hlocks
      rw [hok, hlocks, ho]
    · rw [hop] at hlocks
      obtain ⟨rows, taken, shown, -, -, -, heq⟩ :=
        admitCommitted_promotes state₁ state.tasks.length commits node limit cached now result
      rw [hok, heq]
      exact hlocks ▸ ho
  | initializeStore now ratesNow =>
    refine .of_same store rfl ?_
    rw [exec, respond_snd]
    simp only [initializeStore, Step.bind_run, Step.get_run]
    cases state.conf with
    | none => exact ho
    | some conf =>
      simp only [Step.bind_run, Step.lift_run]
      cases rejectOrphanedTasks state.tasks conf with
      | error error => exact ho
      | ok u =>
        simp only [Step.modify_run, finalizeWorkflow_fst]
        rw [(delivered_frame now _ _).2]
        exact initializeLaneLocks_row (initializeRates state conf ratesNow) conf ho
  | registerNode | heartbeat | returnClaims | storeTasks | storeAdmitted | storeScheduled
  | reassignLane | resume =>
    refine .of_same store rfl ?_
    rw [(exec_quiet store (by rfl) state).locks, ho]

/-! ### Runs -/

/-- What a run of operations does to the row of the lane `name`. -/
def laneHistory (name : String) : MemoryState → List Op → List LaneEvent
  | _, [] => []
  | state, op :: ops => op.laneEvents store state name ++ laneHistory name (exec store op state).2 ops

theorem run_lane {call : MemoryState → Op → Prop} {ops : List Op}
    (h : Run (Steps store call) state ops state') (ho : state.laneLocks name = some o) :
    Follows name o (laneHistory store name state ops) state'.laneLocks := by
  induction h generalizing o with
  | nil state => exact .same ho
  | @cons state state₁ state' op ops first rest ih =>
    obtain ⟨-, rfl⟩ := first
    obtain ⟨o₁, applied, ho₁, hrun⟩ := exec_lane store op ho
    obtain ⟨o', applied', ho', hrest⟩ := ih ho₁
    exact ⟨o', applied ++ applied', ho', hrun.append hrest⟩

/-- Stale turns do nothing to the row. -/
theorem LaneRun.skip_stale {rest : List LaneEvent} {o o' : MemoryLaneLock} {applied : List ℤ} :
    ∀ {requests : List MemoryOwnerTurn}, (∀ request ∈ requests, Stale request o) →
      LaneRun name o (requests.map .turn ++ rest) applied o' → LaneRun name o rest applied o'
  | [], _, h => h
  | request :: requests, hs, h => by
    rw [List.map_cons, List.cons_append] at h
    cases h with
    | cons first later =>
      obtain ⟨rfl, hnone⟩ := first.fenced.stale request rfl (hs request List.mem_cons_self)
      rw [hnone]
      exact LaneRun.skip_stale (fun other hm => hs other (List.mem_cons_of_mem _ hm)) later

/-- An operation whose turns on a lane are all stale at most forgets since when the lane is empty. -/
theorem exec_stale {op : Op} (ho : state.laneLocks name = some o)
    (hne : op.laneRequests store state.conf name ≠ [])
    (hs : ∀ request ∈ op.laneRequests store state.conf name, Stale request o) :
    ∃ o', (exec store op state).2.laneLocks name = some o' ∧
      (o' = o ∨ o' = { o with emptySince := none }) := by
  obtain ⟨o', applied, ho', hrun⟩ := exec_lane store op ho
  refine ⟨o', ho', ?_⟩
  have hattempts : op.laneAttempts store state name =
      (op.laneRequests store state.conf name).map .turn ++ [.settled (state.phases name)] := by
    cases op <;> first | rfl | exact absurd rfl hne
  rw [Op.laneEvents, hattempts] at hrun
  split at hrun
  · cases hrun.skip_stale hs with
    | cons first later =>
      cases later
      cases first with
      | settled settles =>
        cases settles with
        | same => exact .inl rfl
        | busy => exact .inr rfl
        | revoked idling new =>
          -- the hook was outstanding when the operation began
          refine absurd ?_ new
          rw [MemoryState.phases, ho, Option.map_some, idling]
  · cases hrun
    exact .inl rfl

/-- CORRECT: over every run of operations, whatever their clock readings, the row of a lane follows its
    lane events; each event respects the token, stale turns change nothing that the fence protects, hook
    results are applied in strictly increasing generations, and a locked lane accepts only outcomes of
    its live owner. -/
theorem lane_owners_are_fenced {state state' : MemoryState} {ops : List Op}
    (h : Reachable Started (Steps store AnyCall) state)
    (hrun : Run (Steps store AnyCall) state ops state') :
    (∀ name o, state.laneLocks name = some o → ∃ o' applied, state'.laneLocks name = some o' ∧
      LaneRun name o (laneHistory store name state ops) applied o' ∧ applied.Pairwise (· < ·)) ∧
    (∀ name o event o', LaneStep name o event o' → Fenced o event o') ∧
    (∀ op name o, state.laneLocks name = some o → op.laneRequests store state.conf name ≠ [] →
      (∀ request ∈ op.laneRequests store state.conf name, Stale request o) →
      ∃ o', (exec store op state).2.laneLocks name = some o' ∧
        (o' = o ∨ o' = { o with emptySince := none })) ∧
    ∀ op node attempts id lane result token,
      Accepted store state op (.outcome node attempts id lane result token) →
      ∃ row ∈ state.tasks, row.id = id ∧ (Locked state row.lane → ∃ now o, op.clock now ∧
        state.laneLocks row.lane = some o ∧ o.ownerId = some (Uuid.render node) ∧
        o.ownerToken = token ∧ memoryOwnerLive o now = true) := by
  refine ⟨fun name o ho => ?_, fun name o event o' hstep => hstep.fenced,
    fun op name o ho hne hs => exec_stale store ho hne hs, ?_⟩
  · obtain ⟨o', applied, ho', hlane⟩ := run_lane store hrun ho
    exact ⟨o', applied, ho', hlane, hlane.applied_sorted⟩
  · intro op node attempts id lane result token hacc
    obtain ⟨now, index, row, concluded, final, htakes⟩ := hacc.takes (reachable_distinct store h)
    refine ⟨row, List.mem_of_getElem? htakes.accepts.stored, htakes.accepts.id, fun hl => ?_⟩
    obtain ⟨o, ho, howner, htoken, hlive⟩ := htakes.accepts.locked hl
    exact ⟨now, o, htakes.clock, ho, howner, htoken, hlive⟩

end

end

/-! ### A lane changes hands -/

/-- Two nodes register and two tasks are submitted to the locked lane. -/
def lockedSubmitted : List Op :=
  [.initializeStore 0 0, .registerNode 7 1, .registerNode 8 1,
    .storeTasks [plainWrite (freshRecord 1 .work "locked"), plainWrite (freshRecord 2 .work "locked")] 2]

/-- A request for the locked lane under a fresh token. -/
def lockedClaim (limit : ℕ) (request : LaneOwnerRequest) (fresh : Uuid) : List (LaneClaim × Uuid) :=
  [(⟨⟨"locked"⟩, limit, some request⟩, fresh)]

/-- The first idle hook succeeded. -/
def idled : LaneHookResult := ⟨1, .idle, .ok ()⟩

/-- Runner 7 presents the token it lost, and an answer to the hook of the new owner. -/
def lostTurn : Op :=
  .coordinateLanes 7 (lockedClaim 0 ⟨some (Uuid.render 9), true, false, false, some idled⟩ 12) 60000000003

/-- Runner 7 completes the first task under its token. -/
def firstOutcome : TaskCommit := .outcome 7 1 ⟨1⟩ ⟨"locked"⟩ .complete (some (Uuid.render 9))

/-- Runner 7 acquires the lane and completes a task; then its lease runs out. Runner 8 takes the lane
    over, completes the other task and starts the idle hook, which runner 7 answers before it does. -/
def handedOver : List Op :=
  [.claimTasks 7 (lockedClaim 1 ⟨none, true, true, false, none⟩ 9) 3,
    .commitTasks [firstOutcome] 4,
    .claimTasks 8 (lockedClaim 1 ⟨none, true, true, false, none⟩ 10) 60000000000,
    .commitTasks [.outcome 8 1 ⟨2⟩ ⟨"locked"⟩ .complete (some (Uuid.render 10))] 60000000001,
    .coordinateLanes 8 (lockedClaim 0 ⟨some (Uuid.render 10), true, false, true, none⟩ 11) 60000000002,
    lostTurn,
    .coordinateLanes 8 (lockedClaim 0 ⟨some (Uuid.render 10), true, false, false, some idled⟩ 13) 60000000004]

/-- The row of the lane when runner 8 has started the hook. -/
def idlingLane : MemoryLaneLock where
  ownerId := some (Uuid.render 8)
  ownerToken := some (Uuid.render 10)
  leasedUntil := some 90000000002
  phase := .idling
  flushing := false
  emptySince := some 60000000002
  generation := 1
  hookRetryAt := none
  lastHookError := none

attribute [local instance] acceptingSerde in
/-- The store while the lane changes hands. -/
theorem handedOver_reachable (n : ℕ) : Reachable Started (Steps smallStore AnyCall)
    ((MemoryState.new smallConf).execs smallStore (lockedSubmitted ++ handedOver.take n)) :=
  ⟨_, lockedSubmitted ++ handedOver.take n, ⟨smallConf, rfl⟩,
    MemoryState.execs_run smallStore _ _ fun _ _ _ => trivial⟩

attribute [local instance] acceptingSerde in
/-- The row of the lane follows its events from the first owner to the idle hook of the second; the lost
    token leaves it as it is, and the first outcome came from the owner of its time. -/
theorem lane_owners_are_fenced_handed_over :
    let after := fun n => (MemoryState.new smallConf).execs smallStore (lockedSubmitted ++ handedOver.take n)
    (∃ o applied, ((after 0).execs smallStore handedOver).laneLocks "locked" = some o ∧ o.phase = .idle ∧
      LaneRun "locked" .initial (laneHistory smallStore "locked" (after 0) handedOver) applied o ∧
      applied.Pairwise (· < ·)) ∧
    (∃ o, (exec smallStore lostTurn (after 5)).2.laneLocks "locked" = some o ∧
      (o = idlingLane ∨ o = { idlingLane with emptySince := none })) ∧
    ∃ o, (after 1).laneLocks "locked" = some o ∧ o.ownerId = some (Uuid.render 7) ∧
      o.ownerToken = some (Uuid.render 9) ∧ memoryOwnerLive o 4 = true := by
  intro after
  refine ⟨?_, ?_, ?_⟩
  · have hrun : Run (Steps smallStore AnyCall) (after 0) handedOver ((after 0).execs smallStore handedOver) :=
      MemoryState.execs_run smallStore handedOver _ fun _ _ _ => trivial
    have hfresh : (after 0).laneLocks "locked" = some .initial := by decide +kernel
    have hidle : (((after 0).execs smallStore handedOver).laneLocks "locked").map (·.phase) = some .idle := by
      decide +kernel
    obtain ⟨o, applied, ho, hlane, hsorted⟩ :=
      (lane_owners_are_fenced smallStore (handedOver_reachable 0) hrun).1 "locked" .initial hfresh
    rw [ho] at hidle
    exact ⟨o, applied, ho, Option.some.inj hidle, hlane, hsorted⟩
  · have hrow : (after 5).laneLocks "locked" = some idlingLane := by decide +kernel
    have hconf : (after 5).conf = some smallConf := by decide +kernel
    refine (lane_owners_are_fenced smallStore (handedOver_reachable 5) (.nil _)).2.2.1 lostTurn "locked"
      idlingLane hrow ?_ ?_
    · change Op.laneRequests smallStore lostTurn (after 5).conf "locked" ≠ []
      rw [hconf]
      exact List.cons_ne_nil _ _
    · intro request hr
      change request ∈ Op.laneRequests smallStore lostTurn (after 5).conf "locked" at hr
      rw [hconf] at hr
      obtain rfl := List.mem_singleton.mp hr
      exact ⟨rfl, by decide +kernel⟩
  · have hconf : (after 1).conf = some smallConf := by decide +kernel
    have hlanes : ∀ r ∈ (after 1).tasks, r.lane = "locked" := by decide +kernel
    have hanswer : (commitTasks smallStore [firstOutcome] 4 (after 1)).1.toOption.map (·.rejected) = some [] := by
      decide +kernel
    obtain ⟨result, state', hrun, hnone⟩ := ok_of_toOption hanswer
    have haccepted : Accepted smallStore (after 1) (.commitTasks [firstOutcome] 4) firstOutcome :=
      ⟨result, exec_commitTasks hrun, List.mem_cons_self, hnone ▸ List.not_mem_nil⟩
    obtain ⟨row, hrow, -, howned⟩ := (lane_owners_are_fenced smallStore (handedOver_reachable 1) (.nil _)).2.2.2
      _ _ _ _ _ _ _ haccepted
    rw [hlanes row hrow] at howned
    obtain ⟨now, o, rfl, ho, howner, htoken, hlive⟩ := howned ⟨smallConf, _, hconf, rfl, rfl⟩
    exact ⟨o, ho, howner, htoken, hlive⟩

end Vyuh.Tasks.Memory
