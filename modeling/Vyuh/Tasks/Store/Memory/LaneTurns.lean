import Vyuh.Tasks.Store.Memory.Rollback

/-! One lane turn, seen from the lane row. A turn is refused and leaves the row alone, or it renews or
    acquires the lease, applies the hook result the request brings, and then only moves the row on:
    `Moves` says that it keeps or gives up the lease it was given and that no hook is outstanding
    afterwards at a generation it was not outstanding at before. -/

namespace Vyuh.Tasks.Memory
open Lib

variable {o o' : MemoryLaneLock} {request : MemoryOwnerTurn}

/-- What polling may do to a row whose lease is settled. -/
structure Moves (o o' : MemoryLaneLock) : Prop where
  owner : (o'.ownerToken = o.ownerToken ∧ o'.ownerId = o.ownerId ∧ o'.leasedUntil = o.leasedUntil) ∨
    (o'.ownerToken = none ∧ o'.ownerId = none ∧ o'.leasedUntil = none)
  generation : o.generation ≤ o'.generation
  started : ∀ action, memoryAction o'.phase = some action → o'.generation = o.generation →
    o'.phase = o.phase

theorem Moves.refl (o : MemoryLaneLock) : Moves o o :=
  ⟨.inl ⟨rfl, rfl, rfl⟩, le_refl _, fun _ _ _ => rfl⟩

theorem Moves.trans {a b c : MemoryLaneLock} (h : Moves a b) (h' : Moves b c) : Moves a c := by
  refine ⟨?_, le_trans h.generation h'.generation, fun action ha hg => ?_⟩
  · rcases h'.owner with ⟨ht, hi, hl⟩ | hnone
    · rw [ht, hi, hl]
      exact h.owner
    · exact .inr hnone
  · have hb : b.generation = a.generation := le_antisymm (hg ▸ h'.generation) h.generation
    have hphase := h'.started action ha (hg.trans hb.symm)
    rw [hphase] at ha ⊢
    exact h.started action ha hb

/-- A phase without an outstanding hook may be entered at any time. -/
theorem Moves.quiet
    (ho : (o'.ownerToken = o.ownerToken ∧ o'.ownerId = o.ownerId ∧ o'.leasedUntil = o.leasedUntil) ∨
      (o'.ownerToken = none ∧ o'.ownerId = none ∧ o'.leasedUntil = none))
    (hg : o'.generation = o.generation) (hp : memoryAction o'.phase = none) : Moves o o' :=
  ⟨ho, hg.ge, fun action ha => by rw [hp] at ha; exact nomatch ha⟩

theorem moves_release {phase : LaneOwnerPhase} (h : memoryAction phase = none) (o : MemoryLaneLock) :
    Moves o (memoryRelease phase o) := .quiet (.inr ⟨rfl, rfl, rfl⟩) rfl h

theorem moves_activate (o : MemoryLaneLock) : Moves o (memoryActivate o) :=
  .quiet (.inl ⟨rfl, rfl, rfl⟩) rfl rfl

/-- A hook starts at a new generation. -/
theorem memoryTransition_ok {phase : LaneOwnerPhase} {u : Unit}
    (h : memoryTransition phase o = (.ok u, o')) :
    o' = { o with
      generation := o.generation + 1, phase := phase, hookRetryAt := none, lastHookError := none } := by
  simp only [memoryTransition, Step.bind_ok, Step.get_ok] at h
  obtain ⟨_, _, ⟨rfl, rfl⟩, h⟩ := h
  cases hg : checkedAdd64 o.generation 1 with
  | none => rw [hg] at h; exact absurd h Step.fail_ok
  | some generation =>
    rw [hg] at h
    obtain rfl := checkedAdd64_some hg
    exact (Step.modify_ok.mp h).symm

theorem keeps_memoryTransition (phase : LaneOwnerPhase) : Step.Keeps Moves (memoryTransition phase) := by
  intro o
  rcases hm : memoryTransition phase o with ⟨r, o'⟩
  cases r with
  | ok u =>
    rw [memoryTransition_ok hm]
    have hlt : o.generation < o.generation + 1 := by omega
    exact ⟨.inl ⟨rfl, rfl, rfl⟩, hlt.le, fun _ _ he => absurd he hlt.ne'⟩
  | error e =>
    have hsame : o' = o := by
      simp only [memoryTransition, Step.bind_run, Step.get_run] at hm
      cases hg : checkedAdd64 o.generation 1 with
      | none => rw [hg] at hm; exact (congrArg Prod.snd hm).symm
      | some generation => rw [hg] at hm; exact nomatch congrArg Prod.fst hm
    rw [hsame]
    exact Moves.refl o

instance : Std.Refl Moves where
  refl := Moves.refl

instance : IsTrans MemoryLaneLock Moves where
  trans _ _ _ := Moves.trans

/-- The row of an owner turn moves on. -/
def MovesOwner (a b : OwnerState) : Prop := Moves a.owner b.owner

instance : Std.Refl MovesOwner where
  refl a := Moves.refl a.owner

instance : IsTrans OwnerState MovesOwner where
  trans _ _ _ h h' := Moves.trans h h'

theorem keeps_row {α : Type} {m : Step MemoryLaneLock TaskRuntimeError α} (hm : Step.Keeps Moves m) :
    Step.Keeps MovesOwner (onOwner m) :=
  Step.Keeps.zoom hm fun _ _ h => h

theorem movesOwner_rules : OwnerRules MovesOwner where
  turn m _ := fun s => Moves.refl s.owner
  flush := keeps_row (Step.Keeps.modify fun o =>
    ⟨.inl ⟨rfl, rfl, rfl⟩, le_refl _, fun _ _ _ => rfl⟩)
  calm := keeps_row (Step.Keeps.modify fun o =>
    ⟨.inl ⟨rfl, rfl, rfl⟩, le_refl _, fun _ _ _ => rfl⟩)
  empty _ := keeps_row (Step.Keeps.modify fun o =>
    ⟨.inl ⟨rfl, rfl, rfl⟩, le_refl _, fun _ _ _ => rfl⟩)
  revive request := keeps_row (Step.Keeps.modify fun o => by
    rw [memoryRevive]
    split
    · exact moves_activate o
    · exact Moves.refl o)
  release _ h := keeps_row (Step.Keeps.modify (moves_release h))
  transition phase := keeps_row (keeps_memoryTransition phase)
  activate := keeps_row (Step.Keeps.modify moves_activate)

/-! ### The lease -/

/-- How a request comes to own the row: by renewing its live lease, or by acquiring a row that nobody
    holds alive. -/
inductive Leases (request : MemoryOwnerTurn) (o : MemoryLaneLock) : MemoryLaneLock → Prop
  | renewed {deadline : Option DateTime}
      (current : currentOwner o request.runnerId request.claim request.now = true)
      (until_ : checkedDeadline request.now request.leaseDuration = .ok deadline) :
      Leases request o { o with leasedUntil := deadline }
  | acquired {deadline : Option DateTime} (anonymous : request.claim.token = none)
      (free : memoryOwnerLive o request.now = false)
      (until_ : checkedDeadline request.now request.leaseDuration = .ok deadline) :
      Leases request o { o with
        ownerId := some (Uuid.render request.runnerId)
        ownerToken := some (Uuid.render request.freshToken)
        leasedUntil := deadline }

/-- A request the row is not for: it presents a token that is not current, or somebody else is alive. -/
def Strange (request : MemoryOwnerTurn) (o : MemoryLaneLock) : Prop :=
  currentOwner o request.runnerId request.claim request.now = false ∧
    (request.claim.token.isSome = true ∨ memoryOwnerLive o request.now = true)

theorem memoryOwner_ok {owned : Bool} (h : memoryOwner request o = (.ok owned, o')) :
    (owned = false ∧ o' = o ∧ Strange request o) ∨ (owned = true ∧ Leases request o o') := by
  simp only [memoryOwner, Step.bind_ok, Step.get_ok] at h
  obtain ⟨_, _, ⟨rfl, rfl⟩, h⟩ := h
  split at h
  · next hcurrent =>
    simp only [Step.bind_ok, Step.lift_ok, Step.modify_ok, Step.pure_ok] at h
    obtain ⟨deadline, _, ⟨hd, rfl⟩, _, _, rfl, rfl, rfl⟩ := h
    exact .inr ⟨rfl, .renewed hcurrent hd⟩
  · next hcurrent =>
    have hcurrent : currentOwner o request.runnerId request.claim request.now = false := by
      simpa using hcurrent
    split at h
    · next hblocked =>
      obtain ⟨rfl, rfl⟩ := Step.pure_ok.mp h
      exact .inl ⟨rfl, rfl, hcurrent, by simpa using hblocked⟩
    · next hfree =>
      simp only [Bool.or_eq_true, not_or, Bool.not_eq_true, Option.isSome_eq_false_iff,
        Option.isNone_iff_eq_none] at hfree
      simp only [Step.bind_ok, Step.lift_ok, Step.modify_ok, Step.pure_ok] at h
      obtain ⟨_, _, rfl, deadline, _, ⟨hd, rfl⟩, _, _, rfl, rfl, rfl⟩ := h
      exact .inr ⟨rfl, .acquired hfree.1 hfree.2 hd⟩

/-- Settling the lease touches nothing else. -/
theorem Leases.frame (h : Leases request o o') :
    o'.generation = o.generation ∧ o'.phase = o.phase ∧ o'.flushing = o.flushing := by
  cases h <;> exact ⟨rfl, rfl, rfl⟩

/-- Whoever settled the lease is the owner, with a token. -/
theorem Leases.owner (h : Leases request o o') :
    o'.ownerId = some (Uuid.render request.runnerId) ∧ o'.ownerToken.isSome = true := by
  cases h with
  | renewed current until_ =>
    simp only [currentOwner, Option.any_eq_true, Bool.and_eq_true, decide_eq_true_eq] at current
    obtain ⟨token, -, ⟨hid, htoken⟩, -⟩ := current
    exact ⟨hid, by rw [htoken]; rfl⟩
  | acquired anonymous free until_ => exact ⟨rfl, rfl⟩

/-! ### Hook results -/

/-- The generation is behind the row, or the row waits for no hook at it. -/
def Answered (generation : ℤ) (o : MemoryLaneLock) : Prop :=
  generation < o.generation ∨ (o.generation = generation ∧ memoryAction o.phase = none)

theorem Answered.moves {generation : ℤ} (h : Answered generation o) (hm : Moves o o') :
    Answered generation o' := by
  rcases h with hlt | ⟨rfl, hnone⟩
  · exact .inl (lt_of_lt_of_le hlt hm.generation)
  · rcases lt_or_eq_of_le hm.generation with hlt | heq
    · exact .inl hlt
    · refine .inr ⟨heq.symm, ?_⟩
      cases ha : memoryAction o'.phase with
      | none => rfl
      | some action =>
        rw [hm.started action ha heq.symm, hnone] at ha
        exact nomatch ha

/-- An applied result answers its generation. -/
theorem applyMemoryHook_ok {hook : LaneHookResult} {state : MemoryState} {u : Unit}
    (h : applyMemoryHook request hook state o = (.ok u, o')) :
    (hookCurrent o hook = false ∧ o' = o) ∨
      (hookCurrent o hook = true ∧ Moves o o' ∧ Answered hook.generation o') := by
  simp only [applyMemoryHook, Step.bind_ok, Step.get_ok] at h
  obtain ⟨_, _, ⟨rfl, rfl⟩, h⟩ := h
  cases hc : hookCurrent o hook with
  | false =>
    rw [hc] at h
    exact .inl ⟨rfl, (Step.pure_ok.mp h).2.symm⟩
  | true =>
    rw [hc, Bool.not_true, if_neg Bool.false_ne_true] at h
    have hgen : o.generation = hook.generation := by
      simp only [hookCurrent, Bool.and_eq_true, decide_eq_true_eq] at hc
      exact hc.1
    refine .inr ⟨rfl, ?_⟩
    have hquiet : ∀ p : MemoryLaneLock, Moves o p → p.generation = o.generation →
        memoryAction p.phase = none → Moves o p ∧ Answered hook.generation p := fun p hm hg hp =>
      ⟨hm, .inr ⟨hg.trans hgen, hp⟩⟩
    rcases hook with ⟨generation, action, result⟩
    cases action with
    | idle =>
      cases result with
      | ok u =>
        simp only [finishMemoryIdle] at h
        split at h
        · obtain rfl := Step.modify_ok.mp h
          exact hquiet _ (moves_release rfl o) rfl rfl
        · split at h
          · have hm := keeps_memoryTransition .busying o
            rw [h] at hm
            refine ⟨hm, .inl ?_⟩
            rw [memoryTransition_ok h]
            simp only at hgen ⊢
            omega
          · obtain rfl := Step.modify_ok.mp h
            exact hquiet _ (moves_activate o) rfl rfl
      | error e =>
        obtain rfl := Step.modify_ok.mp h
        exact hquiet _ (.quiet (.inr ⟨rfl, rfl, rfl⟩) rfl rfl) rfl rfl
    | busy =>
      cases result with
      | ok u =>
        obtain rfl := Step.modify_ok.mp h
        exact hquiet _ (moves_activate o) rfl rfl
      | error e =>
        simp only [memoryFailBusy, Step.bind_ok, Step.modify_ok, Step.lift_ok] at h
        obtain ⟨_, _, rfl, retryAt, _, ⟨-, rfl⟩, _, _, rfl, rfl⟩ := h
        exact hquiet _ (.quiet (.inr ⟨rfl, rfl, rfl⟩) rfl rfl) rfl rfl

/-- The hook result a request brings is stale, or it is applied. -/
inductive Hooks (request : MemoryOwnerTurn) (o : MemoryLaneLock) : MemoryLaneLock → Prop
  | ignored (stale : ∀ hook, request.claim.owner.bind (·.hook) = some hook → hookCurrent o hook = false) :
      Hooks request o o
  | applied {hook : LaneHookResult} {o' : MemoryLaneLock}
      (brought : request.claim.owner.bind (·.hook) = some hook) (current : hookCurrent o hook = true)
      (moves : Moves o o') (answered : Answered hook.generation o') : Hooks request o o'

theorem memoryHook_ok {s s' : OwnerState} {u : Unit} (h : memoryHook request s = (.ok u, s')) :
    s'.turn = s.turn ∧ Hooks request s.owner s'.owner := by
  simp only [memoryHook, Step.bind_ok, Step.get_ok] at h
  obtain ⟨_, _, ⟨rfl, rfl⟩, h⟩ := h
  cases hk : request.claim.owner.bind (·.hook) with
  | none =>
    rw [hk] at h
    obtain rfl := (Step.pure_ok.mp h).2
    exact ⟨rfl, .ignored fun hook hb => by rw [hk] at hb; cases hb⟩
  | some hook =>
    rw [hk] at h
    obtain ⟨o', ha, rfl⟩ := Step.zoom_ok.mp h
    refine ⟨rfl, ?_⟩
    rcases applyMemoryHook_ok ha with ⟨hstale, rfl⟩ | ⟨hcurrent, hmoves, hans⟩
    · refine .ignored fun other hb => ?_
      rw [hk] at hb
      obtain rfl := Option.some.inj hb
      exact hstale
    · exact .applied hk hcurrent hmoves hans

/-! ### One turn -/

/-- What one lane turn does to its row. -/
inductive LaneTurn (request : MemoryOwnerTurn) (o : MemoryLaneLock) : MemoryLaneLock → Prop
  | refused (strange : Strange request o) : LaneTurn request o o
  | owned {leased hooked o' : MemoryLaneLock} (lease : Leases request o leased)
      (hook : Hooks request leased hooked) (moves : Moves hooked o') : LaneTurn request o o'

theorem claimOwnedInner_row [Serde] {s s' : OwnerState} {poll : LanePoll}
    (h : claimOwnedInner request s = (.ok poll, s')) : LaneTurn request s.owner s'.owner := by
  rw [claimOwnedInner, Step.bind_ok] at h
  obtain ⟨owned, s₁, hown, h⟩ := h
  obtain ⟨o₁, ho, rfl⟩ := Step.zoom_ok.mp hown
  rcases memoryOwner_ok ho with ⟨rfl, rfl, hstrange⟩ | ⟨rfl, hlease⟩
  · simp only [Bool.not_false, if_true, memoryWait, Step.bind_ok, Step.get_ok, Step.pure_ok] at h
    obtain ⟨_, _, hlose, _, _, ⟨rfl, rfl⟩, -, rfl⟩ := h
    obtain ⟨turn, -, rfl⟩ := Step.zoom_ok.mp hlose
    exact .refused hstrange
  · rw [Bool.not_true, if_neg Bool.false_ne_true, Step.bind_ok] at h
    obtain ⟨_, s₂, hhook, hpoll⟩ := h
    have hmoves := keeps_memoryOwnedPoll movesOwner_rules request s₂
    rw [hpoll] at hmoves
    exact .owned hlease (memoryHook_ok hhook).2 hmoves

end Vyuh.Tasks.Memory
