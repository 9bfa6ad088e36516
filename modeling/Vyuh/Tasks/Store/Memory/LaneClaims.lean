import Vyuh.Tasks.Store.Memory.LaneTurns

/-! Which lane turns claim under ownership. A locked lane should hand out work only to the runner that
    owns its row when the turn ends, and a row without an owner should not be flushing. The polling
    part flushes whatever row it is given; it is given an ownerless row exactly when the request brings
    the failure of the row's idle hook, because that failure releases the row and polling goes on. -/

namespace Vyuh.Tasks.Memory
open Lib

variable {o o' : MemoryLaneLock}

/-- Work is handed out under a live lease of the runner, with its token, and a row without an owner
    neither hands out work nor flushes. -/
def ClaimsUnderOwnership (request : MemoryOwnerTurn) (o : MemoryLaneLock) (poll : LanePoll) : Prop :=
  (poll.tasks ≠ [] → o.ownerId = some (Uuid.render request.runnerId) ∧
    memoryOwnerLive o request.now = true ∧ poll.owner.bind (·.token) = o.ownerToken) ∧
  (o.ownerToken = none → poll.tasks = [] ∧ o.flushing = false)

/-- The request owns the row or may acquire it. -/
def Entitled (request : MemoryOwnerTurn) (o : MemoryLaneLock) : Prop :=
  currentOwner o request.runnerId request.claim request.now = true ∨
    (request.claim.token = none ∧ memoryOwnerLive o request.now = false)

/-- The request brings the failure of the idle hook the row waits for. -/
def FailsIdle (request : MemoryOwnerTurn) (o : MemoryLaneLock) : Prop :=
  ∃ generation error, request.claim.owner.bind (·.hook) = some ⟨generation, .idle, .error error⟩ ∧
    hookCurrent o ⟨generation, .idle, .error error⟩ = true

/-- The lane has a cohort that is due. -/
def CohortDue (request : MemoryOwnerTurn) (state : MemoryState) : Prop :=
  memoryCandidates state request.claim.lane request.lane request.now ≠ [] ∧
    memoryFlush state.tasks (memoryCandidates state request.claim.lane request.lane request.now)
      request.lane request.now = .ok true

/-- A quiescent owner reports a failed idle hook while a cohort is due. -/
def FlushesReleased (request : MemoryOwnerTurn) (o : MemoryLaneLock) (state : MemoryState) : Prop :=
  Entitled request o ∧ FailsIdle request o ∧ request.claim.owner.any (·.quiescent) = true ∧
    CohortDue request state

/-- The row is ownerless and flushing already, and the request is refused for presenting a token. -/
def LeftFlushing (request : MemoryOwnerTurn) (o : MemoryLaneLock) : Prop :=
  o.ownerToken = none ∧ o.flushing = true ∧ request.claim.token.isSome = true

/-! ### Rows that do not flush -/

/-- An ownerless flushing row was one before. -/
def Calm (a b : OwnerState) : Prop :=
  b.owner.ownerToken = none → b.owner.flushing = true →
    a.owner.ownerToken = none ∧ a.owner.flushing = true

instance : Std.Refl Calm where
  refl _ ht hf := ⟨ht, hf⟩

instance : IsTrans OwnerState Calm where
  trans _ _ _ h h' ht hf := h (h' ht hf).1 (h' ht hf).2

theorem keeps_calm {f : MemoryLaneLock → MemoryLaneLock}
    (h : ∀ o, (f o).ownerToken = none → (f o).flushing = true → o.ownerToken = none ∧ o.flushing = true) :
    Step.Keeps Calm (onOwner (Step.modify f)) := fun s => h s.owner

theorem calm_rules : PhaseRules Calm where
  calm := keeps_calm fun _ _ hf => (by cases hf)
  empty _ := keeps_calm fun _ ht hf => ⟨ht, hf⟩
  revive request := keeps_calm fun o ht hf => by
    rw [memoryRevive] at ht hf
    split at ht
    · next hr =>
      rw [if_pos hr] at hf
      exact ⟨ht, hf⟩
    · next hr =>
      rw [if_neg hr] at hf
      exact ⟨ht, hf⟩
  release _ _ := keeps_calm fun _ _ hf => (by cases hf)
  transition phase := fun s ht hf => by
    rcases hm : memoryTransition phase s.owner with ⟨r, o⟩
    have hs : (onOwner (memoryTransition phase) s).2.owner = o := congrArg Prod.snd hm
    rw [hs] at ht hf
    cases r with
    | ok u =>
      rw [memoryTransition_ok hm] at ht hf
      exact ⟨ht, hf⟩
    | error e =>
      simp only [memoryTransition, Step.bind_run, Step.get_run] at hm
      cases hg : checkedAdd64 s.owner.generation 1 with
      | none =>
        rw [hg] at hm
        obtain rfl : s.owner = o := congrArg Prod.snd hm
        exact ⟨ht, hf⟩
      | some generation => rw [hg] at hm; cases congrArg Prod.fst hm
  activate := keeps_calm fun _ ht hf => ⟨ht, hf⟩

/-- A step that answers without work. -/
def Silent (m : Step OwnerState TaskRuntimeError LanePoll) : Prop :=
  ∀ s poll s', m s = (.ok poll, s') → poll.tasks = []

theorem Silent.bind {α : Type} {m : Step OwnerState TaskRuntimeError α}
    {f : α → Step OwnerState TaskRuntimeError LanePoll} (hf : ∀ a, Silent (f a)) :
    Silent (m >>= f) := by
  intro s poll s' h
  obtain ⟨a, s₁, -, h⟩ := Step.bind_ok.mp h
  exact hf a s₁ poll s' h

theorem silent_answer (request : MemoryOwnerTurn) (wake : Option Duration) :
    Silent (answer request wake) := by
  refine Silent.bind fun s => ?_
  intro _ poll _ h
  rw [← (Step.pure_ok.mp h).1]
  rfl

theorem silent_answerAction (request : MemoryOwnerTurn) (action : LaneHookAction) :
    Silent (answerAction request action) := by
  refine Silent.bind fun s => ?_
  intro _ poll _ h
  rw [← (Step.pure_ok.mp h).1]
  rfl

theorem silent_memoryStartBusy (request : MemoryOwnerTurn) : Silent (memoryStartBusy request) := by
  refine Silent.bind fun s => ?_
  split
  · exact Silent.bind fun _ => silent_answer _ _
  · split
    · exact Silent.bind fun _ => silent_answerAction _ _
    · exact Silent.bind fun _ => silent_answer _ _

theorem silent_memoryEmpty (request : MemoryOwnerTurn) : Silent (memoryEmpty request) := by
  refine Silent.bind fun s => ?_
  split
  · exact Silent.bind fun _ => silent_answer _ _
  · split
    · exact silent_answer _ _
    · refine Silent.bind fun _ => ?_
      split
      · exact silent_answer _ _
      · rw [memoryStartIdle]
        split
        · exact Silent.bind fun _ => silent_answerAction _ _
        · exact Silent.bind fun _ => silent_answer _ _

section

variable {request : MemoryOwnerTurn} {s s' : OwnerState} {poll : LanePoll}

/-- A row with the lease of another that flushes when the other does. -/
structure SameLease (o o' : MemoryLaneLock) : Prop where
  token : o'.ownerToken = o.ownerToken
  ownerId : o'.ownerId = o.ownerId
  leasedUntil : o'.leasedUntil = o.leasedUntil
  flushing : o'.flushing = o.flushing

theorem memoryRevive_frame (request : MemoryOwnerTurn) (o : MemoryLaneLock) :
    SameLease o (memoryRevive request o) ∧
    ((memoryRevive request o).phase = .idle ∨ (memoryRevive request o).phase = .busyFailed →
      o.phase = .idle ∨ o.phase = .busyFailed) := by
  rw [memoryRevive]
  split
  · exact ⟨⟨rfl, rfl, rfl, rfl⟩, fun h => by rcases h with h | h <;> cases h⟩
  · exact ⟨⟨rfl, rfl, rfl, rfl⟩, fun h => h⟩

/-! ### Hook results -/

/-- What a hook result leaves of a row: its lease, or a released row that does not flush. Only a failed
    idle hook leaves a released row in a phase that polling would flush. -/
inductive AfterHook (request : MemoryOwnerTurn) (o o' : MemoryLaneLock) : Prop
  | kept (fine : ¬ FailsIdle request o) (token : o'.ownerToken = o.ownerToken)
      (ownerId : o'.ownerId = o.ownerId) (leasedUntil : o'.leasedUntil = o.leasedUntil)
  | released (fine : ¬ FailsIdle request o) (token : o'.ownerToken = none)
      (flushing : o'.flushing = false) (phase : o'.phase = .idle ∨ o'.phase = .busyFailed)
  | failed (fails : FailsIdle request o) (token : o'.ownerToken = none) (flushing : o'.flushing = false)
      (phase : o'.phase = .idleFailed)

theorem applyMemoryHook_after {hook : LaneHookResult} {state : MemoryState} {u : Unit}
    (hb : request.claim.owner.bind (·.hook) = some hook)
    (h : applyMemoryHook request hook state o = (.ok u, o')) : AfterHook request o o' := by
  simp only [applyMemoryHook, Step.bind_ok, Step.get_ok] at h
  obtain ⟨_, _, ⟨rfl, rfl⟩, h⟩ := h
  cases hc : hookCurrent o hook with
  | false =>
    rw [hc] at h
    obtain rfl := (Step.pure_ok.mp h).2
    refine .kept ?_ rfl rfl rfl
    rintro ⟨generation, error, hb', hc'⟩
    obtain rfl := Option.some.inj (hb.symm.trans hb')
    rw [hc] at hc'
    cases hc'
  | true =>
    rw [hc, Bool.not_true, if_neg Bool.false_ne_true] at h
    rcases hook with ⟨generation, action, result⟩
    have hfine : (∀ error, (action, result) ≠ (.idle, .error error)) → ¬ FailsIdle request o := by
      rintro hne ⟨_, error, hb', -⟩
      have he := Option.some.inj (hb.symm.trans hb')
      injection he with _ hact hres
      exact hne error (by rw [hact, hres])
    cases action with
    | idle =>
      cases result with
      | ok u =>
        have hok := hfine fun error he => (by cases congrArg Prod.snd he)
        simp only [finishMemoryIdle] at h
        split at h
        · obtain rfl := Step.modify_ok.mp h
          exact .released hok rfl rfl (.inl rfl)
        · split at h
          · rw [memoryTransition_ok h]
            exact .kept hok rfl rfl rfl
          · obtain rfl := Step.modify_ok.mp h
            exact .kept hok rfl rfl rfl
      | error e =>
        obtain rfl := Step.modify_ok.mp h
        exact .failed ⟨generation, e, hb, hc⟩ rfl rfl rfl
    | busy =>
      have hbusy := hfine fun error he => (by cases congrArg Prod.fst he)
      cases result with
      | ok u =>
        obtain rfl := Step.modify_ok.mp h
        exact .kept hbusy rfl rfl rfl
      | error e =>
        simp only [memoryFailBusy, Step.bind_ok, Step.modify_ok, Step.lift_ok] at h
        obtain ⟨_, _, rfl, retryAt, _, ⟨-, rfl⟩, _, _, rfl, rfl⟩ := h
        exact .released hbusy rfl rfl (.inr rfl)

theorem memoryHook_after {u : Unit} (h : memoryHook request s = (.ok u, s')) :
    s'.turn = s.turn ∧ AfterHook request s.owner s'.owner := by
  simp only [memoryHook, Step.bind_ok, Step.get_ok] at h
  obtain ⟨_, _, ⟨rfl, rfl⟩, h⟩ := h
  cases hk : request.claim.owner.bind (·.hook) with
  | none =>
    rw [hk] at h
    obtain rfl := (Step.pure_ok.mp h).2
    refine ⟨rfl, .kept ?_ rfl rfl rfl⟩
    rintro ⟨generation, error, hb, -⟩
    rw [hk] at hb
    exact nomatch hb
  | some hook =>
    rw [hk] at h
    obtain ⟨o', ha, rfl⟩ := Step.zoom_ok.mp h
    exact ⟨rfl, applyMemoryHook_after hk ha⟩

/-! ### Leases -/

theorem checkedDeadline_later {now : DateTime} {delay : Duration} {deadline : Option DateTime}
    (hpos : 0 < delay) (h : checkedDeadline now delay = .ok deadline) :
    deadline.any (fun time => now < time) = true := by
  rw [checkedDeadline] at h
  obtain ⟨d, hd, hadd⟩ := Step.except_bind_ok.mp h
  have hsame : d = delay := by
    simp only [chronoDuration, fromStd] at hd
    split at hd <;> simp_all
  subst hsame
  cases ha : checkedAddSigned now d with
  | none => rw [ha] at hadd; exact nomatch hadd
  | some time =>
    rw [ha] at hadd
    obtain rfl := Except.ok.inj hadd
    simp only [checkedAddSigned] at ha
    split at ha
    · obtain rfl := Option.some.inj ha
      simp only [Option.any_some, decide_eq_true_eq]
      exact Int.lt_add_of_pos_right now (Int.natCast_pos.mpr hpos)
    · exact nomatch ha

/-- A row that was just leased is alive. -/
theorem Leases.live (hpos : 0 < request.leaseDuration) (h : Leases request o o') :
    memoryOwnerLive o' request.now = true := by
  have htoken := h.owner.2
  have hdeadline : o'.leasedUntil.any (fun time => request.now < time) = true := by
    cases h with
    | renewed current until_ => exact checkedDeadline_later hpos until_
    | acquired anonymous free until_ => exact checkedDeadline_later hpos until_
  rw [memoryOwnerLive, htoken, hdeadline]
  rfl

theorem Leases.entitled (h : Leases request o o') : Entitled request o := by
  cases h with
  | renewed current until_ => exact .inl current
  | acquired anonymous free until_ => exact .inr ⟨anonymous, free⟩

theorem Strange.not_entitled (h : Strange request o) : ¬ Entitled request o := by
  rintro (hc | ⟨ht, hl⟩)
  · rw [h.1] at hc; exact nomatch hc
  · rcases h.2 with hs | hs
    · rw [ht] at hs; exact nomatch hs
    · rw [hl] at hs; exact nomatch hs

/-- An entitled request does not meet an ownerless row with a token. -/
theorem Entitled.not_left (h : Entitled request o) : ¬ LeftFlushing request o := by
  rintro ⟨ht, -, hs⟩
  rcases h with hc | ⟨hn, -⟩
  · simp only [currentOwner, Option.any_eq_true, Bool.and_eq_true, decide_eq_true_eq] at hc
    obtain ⟨token, -, ⟨-, htoken⟩, -⟩ := hc
    rw [ht] at htoken
    cases htoken
  · rw [hn] at hs
    cases hs

/-- Settling the lease does not change which hook the row waits for. -/
theorem Leases.failsIdle (h : Leases request o o') :
    FailsIdle request o' ↔ FailsIdle request o := by
  obtain ⟨hg, hp, -⟩ := h.frame
  simp only [FailsIdle, hookCurrent, hg, hp]

/-- Marking a takeover touches neither the work nor the token. -/
theorem ClaimsUnderOwnership.takeover (took : Bool) :
    ClaimsUnderOwnership request o (markTakeover took poll) ↔ ClaimsUnderOwnership request o poll := by
  have hsame : (markTakeover took poll).tasks = poll.tasks ∧
      (markTakeover took poll).owner.bind (·.token) = poll.owner.bind (·.token) := by
    rw [markTakeover]
    split
    · exact ⟨rfl, by cases poll.owner <;> rfl⟩
    · exact ⟨rfl, rfl⟩
  rw [ClaimsUnderOwnership, ClaimsUnderOwnership, hsame.1, hsame.2]

end

/-! ### Rows that flush -/

/-- The cohort is opened on the row as it is, and the answer carries the row's token. -/
structure Flushes (s : OwnerState) (poll : LanePoll) (s' : OwnerState) : Prop where
  token : s'.owner.ownerToken = s.owner.ownerToken
  ownerId : s'.owner.ownerId = s.owner.ownerId
  leasedUntil : s'.owner.leasedUntil = s.owner.leasedUntil
  flushing : s'.owner.flushing = true
  answered : poll.owner.bind (·.token) = s'.owner.ownerToken

section

variable [Serde] {request : MemoryOwnerTurn} {s s' : OwnerState} {poll : LanePoll}

theorem memoryFlushOpen_ok (h : memoryFlushOpen request s = (.ok poll, s')) : Flushes s poll s' := by
  rw [memoryFlushOpen, Step.bind_ok] at h
  obtain ⟨_, s₁, hopen, h⟩ := h
  obtain ⟨_, hset, rfl⟩ := Step.zoom_ok.mp hopen
  obtain rfl := Step.modify_ok.mp hset
  split at h
  · simp only [memoryClaim, Step.bind_ok, Step.get_ok] at h
    obtain ⟨_, _, ⟨rfl, rfl⟩, h⟩ := h
    cases hc : s.turn.state.conf with
    | none => rw [hc] at h; exact absurd h Step.fail_ok
    | some conf =>
      rw [hc] at h
      simp only [Step.bind_ok, Step.get_ok, Step.pure_ok] at h
      obtain ⟨_, _, hfail, _, _, ⟨rfl, rfl⟩, _, _, hrates, _, _, hclaim, _, _, ⟨rfl, rfl⟩, rfl, rfl⟩ := h
      obtain ⟨_, -, rfl⟩ := Step.zoom_ok.mp hfail
      obtain ⟨_, -, rfl⟩ := Step.zoom_ok.mp hrates
      obtain ⟨_, -, rfl⟩ := Step.zoom_ok.mp hclaim
      exact ⟨rfl, rfl, rfl, rfl, rfl⟩
  · simp only [answer, Step.bind_ok, Step.get_ok, Step.pure_ok] at h
    obtain ⟨_, _, ⟨rfl, rfl⟩, rfl, rfl⟩ := h
    exact ⟨rfl, rfl, rfl, rfl, rfl⟩

/-- A cohort is opened when it is open already or due; otherwise the turn answers as it stands. -/
theorem memoryFlushPoll_cases {candidates : List ℕ}
    (h : memoryFlushPoll request candidates s = (.ok poll, s')) :
    ((s.owner.flushing = true ∨
        memoryFlush s.turn.state.tasks candidates request.lane request.now = .ok true) ∧
      memoryFlushOpen request s = (.ok poll, s')) ∨
    ((s.owner.flushing = false ∧
        memoryFlush s.turn.state.tasks candidates request.lane request.now = .ok false) ∧
      poll.tasks = [] ∧ s' = s) := by
  rw [memoryFlushPoll, Step.bind_ok] at h
  obtain ⟨flush, s₁, hdue, h⟩ := h
  simp only [memoryFlushDue, Step.bind_ok, Step.get_ok] at hdue
  obtain ⟨_, _, ⟨rfl, rfl⟩, hdue⟩ := hdue
  cases hf : s.owner.flushing with
  | true =>
    rw [hf, if_pos rfl] at hdue
    obtain ⟨rfl, rfl⟩ := Step.pure_ok.mp hdue
    exact .inl ⟨.inl rfl, h⟩
  | false =>
    rw [hf, if_neg Bool.false_ne_true] at hdue
    obtain ⟨hflush, rfl⟩ := Step.lift_ok.mp hdue
    cases flush with
    | true => exact .inl ⟨.inr hflush, h⟩
    | false =>
      rw [if_neg Bool.false_ne_true] at h
      simp only [answer, Step.bind_ok, Step.get_ok, Step.lift_ok, Step.pure_ok] at h
      obtain ⟨_, _, ⟨rfl, rfl⟩, _, _, ⟨-, rfl⟩, _, _, ⟨rfl, rfl⟩, rfl, rfl⟩ := h
      exact .inr ⟨⟨rfl, hflush⟩, rfl, rfl⟩

/-- When polling opens or continues a cohort. -/
def FlushReady (request : MemoryOwnerTurn) (s : OwnerState) : Prop :=
  (s.owner.phase = .active ∨ s.owner.phase = .idleFailed) ∧
    request.claim.owner.any (·.quiescent) = true ∧
    memoryCandidates s.turn.state request.claim.lane request.lane request.now ≠ [] ∧
    (s.owner.flushing = true ∨ memoryFlush s.turn.state.tasks
      (memoryCandidates s.turn.state request.claim.lane request.lane request.now) request.lane
      request.now = .ok true)

/-- Polling opens the cohort of the row it is given, or answers without work and only moves the row on. -/
theorem memoryPhasePoll_cases {R : OwnerState → OwnerState → Prop} [Std.Refl R] [IsTrans OwnerState R]
    (rules : PhaseRules R) (hphase : memoryAction s.owner.phase = none)
    (h : memoryPhasePoll request s = (.ok poll, s')) :
    (FlushReady request s ∧ ∃ row, SameLease s.owner row ∧
        memoryFlushOpen request ⟨s.turn, row⟩ = (.ok poll, s')) ∨
      (¬ FlushReady request s ∧ poll.tasks = [] ∧ R s s') := by
  have hkeep : ∀ {m : Step OwnerState TaskRuntimeError LanePoll} {a b : OwnerState},
      Step.Keeps R m → R s a → m a = (.ok poll, b) → R s b := by
    intro m a b hm hsa hrun
    have hab := hm a
    rw [hrun] at hab
    exact trans_of R hsa hab
  simp only [memoryPhasePoll, Step.bind_ok, Step.get_ok] at h
  obtain ⟨_, _, ⟨rfl, rfl⟩, h⟩ := h
  split at h
  · next hbusy =>
    -- an active lane with work in flight is left alone
    refine .inr ⟨fun hr => hbusy.2 hr.2.1, silent_answer _ _ _ _ _ h, ?_⟩
    exact hkeep (keeps_answer _ _) (refl_of R s) h
  · next hidle =>
    rw [Step.bind_ok] at h
    obtain ⟨_, s₁, hrev, h⟩ := h
    have hmoved : R s s₁ := by
      have hone := rules.revive request s
      rwa [hrev] at hone
    obtain ⟨_, hset, rfl⟩ := Step.zoom_ok.mp hrev
    obtain rfl := Step.modify_ok.mp hset
    obtain ⟨hsame, hrevived⟩ := memoryRevive_frame request s.owner
    rw [memoryWorkPoll] at h
    split at h
    · next hempty =>
      refine .inr ⟨fun hr => hr.2.2.1 (List.isEmpty_iff.mp hempty), ?_, ?_⟩
      · exact Silent.bind (fun _ => silent_memoryEmpty request) _ _ _ h
      · exact hkeep (Step.Keeps.bind rules.calm fun _ => keeps_memoryEmpty rules request) hmoved h
    · next hsome =>
      have hne : memoryCandidates s.turn.state request.claim.lane request.lane request.now ≠ [] :=
        fun he => hsome (by rw [he]; rfl)
      rw [memoryReadyPoll, Step.bind_ok] at h
      obtain ⟨_, s₂, hclear, h⟩ := h
      have hcleared : R s s₂ := by
        have hone := rules.empty none ⟨s.turn, memoryRevive request s.owner⟩
        rw [hclear] at hone
        exact trans_of R hmoved hone
      obtain ⟨_, hset, rfl⟩ := Step.zoom_ok.mp hclear
      obtain rfl := Step.modify_ok.mp hset
      simp only [Step.bind_ok, Step.get_ok] at h
      obtain ⟨_, _, ⟨rfl, rfl⟩, h⟩ := h
      split at h
      · next hstart =>
        refine .inr ⟨?_, silent_memoryStartBusy request _ _ _ h,
          hkeep (keeps_memoryStartBusy rules request) hcleared h⟩
        rintro ⟨hwork, -⟩
        rcases hrevived hstart with hp | hp <;> rw [hp] at hwork <;>
          rcases hwork with hw | hw <;> cases hw
      · next hflushing =>
        have hwork : s.owner.phase = .active ∨ s.owner.phase = .idleFailed := by
          have hrow : ¬ (s.owner.phase = .idle ∨ s.owner.phase = .busyFailed) := fun hp => hflushing (by
            rw [memoryRevive]
            rw [if_neg (by rcases hp with hp | hp <;> rw [hp] <;> simp)]
            exact hp)
          cases hp : s.owner.phase with
          | active => exact .inl rfl
          | idleFailed => exact .inr rfl
          | idle => exact absurd (.inl hp) hrow
          | busyFailed => exact absurd (.inr hp) hrow
          | idling => rw [hp] at hphase; cases hphase
          | busying => rw [hp] at hphase; cases hphase
        have hquiet : request.claim.owner.any (·.quiescent) = true := by
          by_contra hq
          exact hidle ⟨hwork, hq⟩
        rcases memoryFlushPoll_cases h with ⟨hdue, hopen⟩ | ⟨⟨hnot, hdue⟩, hsilent, rfl⟩
        · refine .inl ⟨⟨hwork, hquiet, hne, ?_⟩, _, ?_, hopen⟩
          · simp only [hsame.flushing] at hdue
            exact hdue
          · exact ⟨hsame.token, hsame.ownerId, hsame.leasedUntil, hsame.flushing⟩
        · refine .inr ⟨fun hr => ?_, hsilent, hcleared⟩
          simp only [hsame.flushing] at hnot
          rcases hr.2.2.2 with hr | hr
          · rw [hnot] at hr; cases hr
          · rw [hr] at hdue; cases hdue

/-- Polling flushes the row it is given, or answers without work and leaves nothing flushing. -/
theorem memoryPhasePoll_ok (hphase : memoryAction s.owner.phase = none)
    (h : memoryPhasePoll request s = (.ok poll, s')) :
    (FlushReady request s ∧ Flushes s poll s') ∨
      (¬ FlushReady request s ∧ poll.tasks = [] ∧ Calm s s') := by
  rcases memoryPhasePoll_cases calm_rules hphase h with ⟨hready, row, hsame, hopen⟩ | hsilent
  · have hflush := memoryFlushOpen_ok hopen
    refine .inl ⟨hready, hflush.token.trans hsame.token, hflush.ownerId.trans hsame.ownerId,
      hflush.leasedUntil.trans hsame.leasedUntil, hflush.flushing, hflush.answered⟩
  · exact .inr hsilent

/-! ### The whole turn -/

/-- The polling part of an owner's turn, from the row the hook result left. -/
theorem memoryOwnedPoll_claims (hpos : 0 < request.leaseDuration) (hlease : Leases request o s.owner)
    {hooked : MemoryLaneLock} (hafter : AfterHook request s.owner hooked)
    (h : memoryOwnedPoll request ⟨s.turn, hooked⟩ = (.ok poll, s')) :
    ClaimsUnderOwnership request s'.owner poll ↔ ¬ FlushesReleased request o s.turn.state := by
  have hsilent : poll.tasks = [] → Calm ⟨s.turn, hooked⟩ s' →
      (hooked.ownerToken = none → hooked.flushing = false) →
      ClaimsUnderOwnership request s'.owner poll := by
    intro ht hcalm hquiet
    refine ⟨fun hne => absurd ht hne, fun hnone => ⟨ht, ?_⟩⟩
    cases hf : s'.owner.flushing with
    | false => rfl
    | true =>
      obtain ⟨h₁, h₂⟩ := hcalm hnone hf
      rw [hquiet h₁] at h₂
      cases h₂
  have hquiet : hooked.ownerToken = none → hooked.flushing = false := by
    intro hnone
    cases hafter with
    | kept fine token ownerId leasedUntil =>
      have hsome := hlease.owner.2
      rw [← token, hnone] at hsome
      cases hsome
    | released fine token flushing phase => exact flushing
    | failed fails token flushing phase => exact flushing
  have hfine : ¬ FailsIdle request s.owner → ¬ FlushesReleased request o s.turn.state := fun hf hr =>
    hf (hlease.failsIdle.mpr hr.2.1)
  simp only [memoryOwnedPoll, Step.bind_ok, Step.get_ok] at h
  obtain ⟨_, _, ⟨rfl, rfl⟩, h⟩ := h
  cases hact : memoryAction hooked.phase with
  | some action =>
    simp only [hact, answerAction, Step.bind_ok, Step.get_ok, Step.pure_ok] at h
    obtain ⟨_, _, ⟨rfl, rfl⟩, rfl, rfl⟩ := h
    refine iff_of_true (hsilent rfl (refl_of Calm _) hquiet) ?_
    cases hafter with
    | kept fine token ownerId leasedUntil => exact hfine fine
    | released fine token flushing phase => exact hfine fine
    | failed fails token flushing phase => rw [phase] at hact; cases hact
  | none =>
    simp only [hact] at h
    rcases memoryPhasePoll_ok hact h with ⟨hready, hflush⟩ | ⟨hnot, ht, hcalm⟩
    · cases hafter with
      | kept fine token ownerId leasedUntil =>
        refine iff_of_true ⟨fun _ => ⟨?_, ?_, hflush.answered⟩, fun hnone => ?_⟩ (hfine fine)
        · rw [hflush.ownerId, ownerId]
          exact hlease.owner.1
        · have hlive := hlease.live hpos
          rw [memoryOwnerLive] at hlive ⊢
          rw [hflush.token, hflush.leasedUntil, token, leasedUntil]
          exact hlive
        · have hsome := hlease.owner.2
          rw [← token, ← hflush.token, hnone] at hsome
          cases hsome
      | released fine token flushing phase =>
        rcases hready.1 with hp | hp <;> rcases phase with h' | h' <;> rw [hp] at h' <;> cases h'
      | failed fails token flushing phase =>
        refine iff_of_false (fun hclaims => ?_) (not_not_intro ⟨hlease.entitled,
          hlease.failsIdle.mp fails, hready.2.1, hready.2.2.1, ?_⟩)
        · have hf := (hclaims.2 (hflush.token.trans token)).2
          rw [hflush.flushing] at hf
          cases hf
        · rcases hready.2.2.2 with hf | hf
          · rw [flushing] at hf
            cases hf
          · exact hf
    · refine iff_of_true (hsilent ht hcalm hquiet) ?_
      cases hafter with
      | kept fine token ownerId leasedUntil => exact hfine fine
      | released fine token flushing phase => exact hfine fine
      | failed fails token flushing phase =>
        rintro ⟨-, -, hquiescent, hne, hdue⟩
        exact hnot ⟨.inr phase, hquiescent, hne, .inr hdue⟩

theorem claimOwnedInner_claims (hpos : 0 < request.leaseDuration)
    (h : claimOwnedInner request s = (.ok poll, s')) :
    ClaimsUnderOwnership request s'.owner poll ↔
      ¬ FlushesReleased request s.owner s.turn.state ∧ ¬ LeftFlushing request s.owner := by
  rw [claimOwnedInner, Step.bind_ok] at h
  obtain ⟨owned, s₁, hown, h⟩ := h
  obtain ⟨leased, ho, rfl⟩ := Step.zoom_ok.mp hown
  rcases memoryOwner_ok ho with ⟨rfl, rfl, hstrange⟩ | ⟨rfl, hlease⟩
  · simp only [Bool.not_false, if_true, memoryWait, Step.bind_ok, Step.get_ok, Step.pure_ok] at h
    obtain ⟨_, _, hlose, _, _, ⟨rfl, rfl⟩, rfl, rfl⟩ := h
    obtain ⟨turn, -, rfl⟩ := Step.zoom_ok.mp hlose
    have hno : ¬ FlushesReleased request s.owner s.turn.state := fun hr =>
      hstrange.not_entitled hr.1
    constructor
    · intro hclaims
      refine ⟨hno, ?_⟩
      rintro ⟨ht, hf, -⟩
      have hnot := (hclaims.2 ht).2
      rw [hf] at hnot
      exact nomatch hnot
    · rintro ⟨-, hleft⟩
      refine ⟨fun hne => absurd rfl hne, fun ht => ⟨rfl, ?_⟩⟩
      cases hf : s.owner.flushing with
      | false => rfl
      | true =>
        -- an ownerless row is not alive, so the request was refused for its token
        rcases hstrange.2 with hs | hs
        · exact absurd ⟨ht, hf, hs⟩ hleft
        · rw [memoryOwnerLive, ht] at hs
          exact nomatch hs
  · rw [Bool.not_true, if_neg Bool.false_ne_true, Step.bind_ok] at h
    obtain ⟨_, ⟨turn, hooked⟩, hhook, hpoll⟩ := h
    obtain ⟨hturn, hafter⟩ := memoryHook_after hhook
    obtain rfl : turn = s.turn := hturn
    have hiff := memoryOwnedPoll_claims (s := ⟨s.turn, leased⟩) hpos hlease hafter hpoll
    rw [hiff]
    exact ⟨fun hno => ⟨hno, hlease.entitled.not_left⟩, fun hboth => hboth.1⟩

/-- CORRECT: a lane turn claims under ownership exactly when it does not report the failure of the
    current idle hook while quiescent with a cohort due, and does not meet an ownerless row that was
    left flushing. -/
theorem lane_turn_claims_under_ownership_iff {turn turn' : Turn} {o : MemoryLaneLock}
    (hpos : 0 < request.leaseDuration)
    (ho : turn.state.laneLocks request.claim.lane.asStr = some o)
    (h : claimOwnedState request turn = (.ok poll, turn')) :
    ∃ o', turn'.state.laneLocks request.claim.lane.asStr = some o' ∧
      (ClaimsUnderOwnership request o' poll ↔
        ¬ FlushesReleased request o turn.state ∧ ¬ LeftFlushing request o) := by
  obtain ⟨owner, inner, s, hl, hr, rfl, rfl⟩ := claimOwnedState_ok h
  obtain rfl : o = owner := Option.some.inj (ho.symm.trans hl)
  refine ⟨s.owner, FMap.insert_self _ _ _, ?_⟩
  rw [ClaimsUnderOwnership.takeover]
  exact claimOwnedInner_claims hpos hr

end

/-! ### The two kinds of turn -/

/-- A row owned by runner 7 that waits for its idle hook. -/
def idlingRow : MemoryLaneLock :=
  { MemoryLaneLock.initial with
    ownerId := some (Uuid.render 7), ownerToken := some "t", leasedUntil := some 100, phase := .idling
    generation := 1 }

/-- A quiescent request of runner 7 with the token "t" and an optional hook result. -/
def quiescentTurn (hook : Option LaneHookResult) : MemoryOwnerTurn where
  runnerId := 7
  claim := ⟨⟨"locked"⟩, 1, some ⟨some "t", true, true, false, hook⟩⟩
  lane := { lane := ⟨"locked"⟩, claimBatchSize := 8, globalRate := none,
            laneLock := some ⟨1, none, 0, some ⟨"idle"⟩, none⟩,
            retry := ⟨3, Duration.ofSecs 1, Duration.ofSecs 60⟩, sticky := false }
  leaseDuration := Duration.ofSecs 30
  now := 10
  freshToken := 9

/-- A store with one due task in the locked lane and the given row. -/
def lockedTurn (row : MemoryLaneLock) : Turn where
  state := { MemoryState.new smallConf with
    tasks := [freshRecord 1 .work "locked"], laneLocks := FMap.insert FMap.empty "locked" row }
  deliveries := []
  undo := []

attribute [local instance] acceptingSerde in
/-- The failed idle hook releases the row, and the same turn claims the due task without an owner. -/
theorem released_lane_is_flushed :
    ¬ ∀ (request : MemoryOwnerTurn) (turn turn' : Turn) (poll : LanePoll) (o o' : MemoryLaneLock),
      0 < request.leaseDuration → turn.state.laneLocks request.claim.lane.asStr = some o →
      claimOwnedState request turn = (.ok poll, turn') →
      turn'.state.laneLocks request.claim.lane.asStr = some o' →
      ClaimsUnderOwnership request o' poll := by
  intro hall
  let request := quiescentTurn (some ⟨1, .idle, .error "boom"⟩)
  have hrow : ((claimOwnedState request (lockedTurn idlingRow)).2.state.laneLocks "locked").map
      (fun o => (o.ownerToken, o.flushing)) = some (none, true) := by decide
  have htasks : (claimOwnedState request (lockedTurn idlingRow)).1.toOption.map (·.tasks.length) =
      some 1 := by decide
  rcases hr : claimOwnedState request (lockedTurn idlingRow) with ⟨r, turn'⟩
  rw [hr] at hrow htasks
  obtain ⟨o', ho', hfields⟩ := Option.map_eq_some_iff.mp hrow
  obtain ⟨htoken, hflushing⟩ := Prod.mk.inj hfields
  cases r with
  | error e => exact nomatch htasks
  | ok poll =>
    have hclaims := hall request _ turn' poll idlingRow o' (by decide) rfl hr ho'
    have hnot := (hclaims.2 htoken).2
    rw [hflushing] at hnot
    exact nomatch hnot

attribute [local instance] acceptingSerde in
/-- Without a hook result the owner of an active row claims the task under its lease. -/
theorem lane_turn_claims_under_ownership_active :
    ∃ poll turn' o', claimOwnedState (quiescentTurn none)
        (lockedTurn { idlingRow with phase := .active }) = (.ok poll, turn') ∧
      poll.tasks.length = 1 ∧ turn'.state.laneLocks "locked" = some o' ∧
      ClaimsUnderOwnership (quiescentTurn none) o' poll := by
  have htasks : (claimOwnedState (quiescentTurn none)
      (lockedTurn { idlingRow with phase := .active })).1.toOption.map (·.tasks.length) = some 1 := by
    decide
  rcases hr : claimOwnedState (quiescentTurn none) (lockedTurn { idlingRow with phase := .active }) with
    ⟨r, turn'⟩
  rw [hr] at htasks
  cases r with
  | error e => exact nomatch htasks
  | ok poll =>
    obtain ⟨o', ho', hiff⟩ := lane_turn_claims_under_ownership_iff (by decide) rfl hr
    refine ⟨poll, turn', o', rfl, Option.some.inj htasks, ho', hiff.mpr ⟨?_, ?_⟩⟩
    · rintro ⟨-, ⟨generation, error, hb, -⟩, -⟩
      exact nomatch hb
    · rintro ⟨ht, -⟩
      exact nomatch ht

end Vyuh.Tasks.Memory
