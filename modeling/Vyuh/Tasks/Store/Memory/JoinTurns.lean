import Vyuh.Tasks.Store.Memory.JoinSettling

/-! Turns keep the joins of a store: `Joins` is what `Books` is between turns, when nothing is due, no
    running or ended task has a wait, and every wait counts the unfinished members of its group. -/

namespace Vyuh.Tasks.Memory
open Lib

variable {claims : List (LaneClaim × Uuid)} {lease : Duration}

/-- Between turns: nothing is due, and only pending and sleeping tasks have waits. -/
structure Joins (state : MemoryState) : Prop where
  books : Books state.tasks state.waits fun _ => 0
  running : ∀ r ∈ state.tasks, r.status = .running → state.waits r.id = none
  ended : ∀ r ∈ state.tasks, r.status.terminal = true → state.waits r.id = none

/-! ### Settling -/

/-- A touched parent that has ended loses its wait; every other wait stays. -/
theorem clearTerminal_waits_eq (id : TaskId) : ∀ (touched : List TaskRecord) (state : MemoryState),
    (clearTerminal state touched).waits id =
      if (∃ old ∈ touched, old.id = id) ∧
          state.tasks.any (fun current => current.id = id && current.status.terminal) = true then none
      else state.waits id
  | [], state => by simp [clearTerminal]
  | old :: touched, state => by
    rw [clearTerminal, List.foldl_cons, ← clearTerminal]
    split
    · next hclear =>
      rw [clearTerminal_waits_eq id touched]
      simp only [Bool.and_eq_true] at hclear
      by_cases hid : id = old.id
      · subst hid
        simp only [FMap.remove_self, ite_self]
        rw [if_pos ⟨⟨old, List.mem_cons_self, rfl⟩, hclear.2⟩]
      · simp only [FMap.remove_of_ne _ hid, List.mem_cons, exists_eq_or_imp, Ne.symm hid, false_or]
    · next hkeep =>
      rw [clearTerminal_waits_eq id touched]
      by_cases hid : id = old.id
      · subst hid
        simp only [Bool.and_eq_true, not_and, Bool.not_eq_true] at hkeep
        cases hw : state.waits old.id with
        | none => simp
        | some wait =>
          have hnone := hkeep (by rw [hw]; rfl)
          simp [hnone]
      · simp only [List.mem_cons, exists_eq_or_imp, Ne.symm hid, false_or]

/-- A delivery leaves a row, or wakes it where it slept. -/
theorem delivered_woken (now : DateTime) (state : MemoryState) (grouped : List Grouped) :
    Rows (fun r r' => r' = r ∨ r'.id = r.id ∧ r.status = .suspended ∧ r'.status = .pending) state.tasks
      (delivered now state grouped).tasks := by
  refine foldl_rel (R := fun s s' : MemoryState => Rows (fun r r' => r' = r ∨ r'.id = r.id ∧
    r.status = .suspended ∧ r'.status = .pending) s.tasks s'.tasks) (fun s => rows_refl (fun _ => .inl rfl) _)
    (fun a b c => rows_trans fun r r' r'' h h' => ?_) _ grouped state fun s entry _ => ?_
  · rcases h' with rfl | ⟨hid, hs, hp⟩
    · exact h
    · rcases h with rfl | ⟨-, -, hwoke⟩
      · exact .inr ⟨hid, hs, hp⟩
      · rw [hs] at hwoke
        cases hwoke
  · have h := deliverOne_cases now s entry
    generalize deliverOne now s entry = s' at h
    cases h with
    | nobody hf => exact rows_refl (fun _ => .inl rfl) _
    | waiting hf hw hd => exact rows_refl (fun _ => .inl rfl) _
    | direct hf hw | underflow hf hw hd | settled hf hw hd =>
      exact modifyFirst_rows (awaits entry.1) _ (fun _ => .inl rfl)
        (fun r hr => .inr ⟨rfl, awaits_suspended hr, rfl⟩) s.tasks

/-- The grouped queue holds what the queue posts. -/
theorem posted_eq_tally (deliveries : List Delivery) :
    posted deliveries = fun parent => (tally (groupDeliveries deliveries) parent).toNat := by
  funext parent
  rw [(groupDeliveries_spec deliveries).2, Int.toNat_natCast]

/-- What a turn leaves behind once its waits and children are in place, where its queue is due: the
    deliveries are paid and the waits of parents that ended in the turn go. -/
theorem settled_joins {now : DateTime} {state : MemoryState} {deliveries : List Delivery}
    {undo : List TaskRecord} {locks : FMap String MemoryLaneLock} (hd : state.Distinct)
    (h : Books state.tasks state.waits (posted deliveries))
    (hrunning : ∀ r ∈ state.tasks, r.status = .running → state.waits r.id = none)
    (hended : ∀ r ∈ state.tasks, r.status.terminal = true →
      state.waits r.id = none ∨ ∃ old ∈ undo, old.id = r.id) :
    Joins { clearTerminal (delivered now state (groupDeliveries deliveries)) undo with laneLocks := locks } := by
  have hascending := (groupDeliveries_spec deliveries).1
  rw [posted_eq_tally] at h
  obtain ⟨hrows, hbooks⟩ := delivered_books now (groupDeliveries deliveries) state hd hascending h
  have hwoken := delivered_woken now state (groupDeliveries deliveries)
  have hnone : ∀ id, state.waits id = none →
      (delivered now state (groupDeliveries deliveries)).waits id = none := fun id hn => by
    by_contra hsome
    have hwas := delivered_waits now state (groupDeliveries deliveries) id (Option.isSome_iff_ne_none.mpr hsome)
    rw [hn] at hwas
    cases hwas
  generalize delivered now state (groupDeliveries deliveries) = after at hrows hbooks hwoken hnone
  have hdafter : after.Distinct := by
    rw [MemoryState.Distinct, hrows.map_eq fun _ _ h => h.id]
    exact hd
  obtain ⟨cleared, hclear⟩ := clearTerminal_eq after undo
  have hwaits := fun id => clearTerminal_waits_eq id undo after
  rw [hclear] at hwaits
  rw [hclear]
  simp only at hwaits
  have hkept : ∀ id, after.waits id = none → cleared id = none := fun id hid => by
    rw [hwaits, hid, ite_self]
  have hforget : Books after.tasks cleared fun _ => 0 := hbooks.forget fun id => by
    rw [hwaits]
    split
    · next hgone =>
      refine .inr ⟨rfl, fun p hp hid hs => ?_⟩
      obtain ⟨current, hc, hterm⟩ := List.any_eq_true.mp hgone.2
      simp only [Bool.and_eq_true, decide_eq_true_eq] at hterm
      obtain rfl := hdafter.eq hp hc (hid.trans hterm.1.symm)
      rw [hs] at hterm
      cases hterm.2
    · exact .inl rfl
  refine ⟨hforget, fun r hr hs => ?_, fun r hr ht => ?_⟩
  · obtain ⟨r₀, hr₀, rfl | ⟨-, -, hp⟩⟩ := hwoken.mem_right hr
    · exact hkept _ (hnone _ (hrunning r hr₀ hs))
    · rw [hs] at hp
      cases hp
  · obtain ⟨r₀, hr₀, rfl | ⟨-, -, hp⟩⟩ := hwoken.mem_right hr
    · rcases hended r hr₀ ht with hn | hlogged
      · exact hkept _ (hnone _ hn)
      · have hterm : after.tasks.any (fun current => current.id = r.id && current.status.terminal) = true :=
          List.any_eq_true.mpr ⟨r, hr, by simp [ht]⟩
        change cleared r.id = none
        rw [hwaits, if_pos ⟨hlogged, hterm⟩]
    · rw [hp] at ht
      cases ht

/-- What settling leaves of a group: its wait, or nothing because its parent ended. -/
def Stays (after : MemoryState) (id : TaskId) (wait : TaskWait) : Prop :=
  (∃ wait', after.waits id = some wait' ∧ Shrinks wait wait') ∨
    after.waits id = none ∧ ∀ p ∈ after.tasks, p.id = id → p.status.terminal = true

theorem settled_group {now : DateTime} {state : MemoryState} {deliveries : List Delivery}
    {undo : List TaskRecord} {locks : FMap String MemoryLaneLock} (hd : state.Distinct)
    (h : Books state.tasks state.waits (posted deliveries)) {id : TaskId} {wait : TaskWait}
    (hw : state.waits id = some wait) :
    Stays { clearTerminal (delivered now state (groupDeliveries deliveries)) undo with laneLocks := locks }
      id wait := by
  rw [posted_eq_tally] at h
  have hascending := (groupDeliveries_spec deliveries).1
  have hrows := (delivered_books now _ state hd hascending h).1
  obtain ⟨wait', hw', hshrinks⟩ := delivered_group now _ state hd hascending h hw
  generalize delivered now state (groupDeliveries deliveries) = after at hrows hw'
  have hdafter : after.Distinct := by
    rw [MemoryState.Distinct, hrows.map_eq fun _ _ h => h.id]
    exact hd
  have hwaits := clearTerminal_waits_eq id undo after
  obtain ⟨cleared, hclear⟩ := clearTerminal_eq after undo
  rw [hclear] at hwaits ⊢
  split at hwaits
  · next hgone =>
    refine .inr ⟨hwaits, fun p hp hid => ?_⟩
    obtain ⟨current, hc, hterm⟩ := List.any_eq_true.mp hgone.2
    simp only [Bool.and_eq_true, decide_eq_true_eq] at hterm
    obtain rfl := hdafter.eq hp hc (hid.trans hterm.1.symm)
    exact hterm.2
  · exact .inl ⟨wait', hwaits.trans hw', hshrinks⟩

section

variable [Serde] {now : DateTime} {state : MemoryState}

/-! ### Claim turns -/

/-- Storing inputs and taking the waits of tasks that do not sleep keeps the books. -/
theorem materialized_books {turn : MemoryState} {snapshots : List TaskRecord} {due : TaskId → ℕ}
    (h : Books turn.tasks turn.waits due)
    (hawake : ∀ t ∈ snapshots, ∀ r ∈ turn.tasks, r.id = t.id → r.status ≠ .suspended) :
    Books (materialized turn snapshots).tasks (materialized turn snapshots).waits due := by
  have hinputs := materialized_rows snapshots turn
  have hclaimed : Rows Claimed turn.tasks (materialized turn snapshots).tasks := hinputs.imp fun r r' hi => by
    rcases hi with rfl | ⟨-, input, rfl⟩
    · exact .refl r'
    · exact ⟨⟨rfl, rfl, fun h => h, fun h => ⟨h, rfl⟩⟩, fun _ => Iff.rfl⟩
  have howing : ∀ k, owing creditor (materialized turn snapshots).tasks k = owing creditor turn.tasks k :=
    owing_rows (hinputs.imp fun r r' hi => by
      rcases hi with rfl | ⟨-, input, rfl⟩ <;> rfl)
  refine (h.claimed hclaimed fun k => by rw [howing]).forget fun id => ?_
  rw [materialized_waits]
  split
  · next hm =>
    obtain ⟨t, ht, rfl⟩ := List.mem_map.mp hm
    refine .inr ⟨rfl, fun p hp hid hs => ?_⟩
    obtain ⟨r, hr, hi⟩ := hinputs.mem_right hp
    refine hawake t ht r hr ?_ ?_
    · rcases hi with rfl | ⟨-, input, rfl⟩ <;> exact hid
    · rcases hi with rfl | ⟨-, input, rfl⟩ <;> exact hs
  · exact .inl rfl

/-- A claim turn between its claims and its deliveries: `mid` has the inputs of what was handed out. -/
structure Gathers (state : MemoryState) (turn : Turn) (tasks : List TaskRecord) (mid : MemoryState) : Prop where
  distinct : mid.Distinct
  books : Books mid.tasks mid.waits (posted turn.deliveries)
  waits : ∀ id, mid.waits id = if id ∈ tasks.map (·.id) then none else state.waits id
  rows : ∀ r ∈ mid.tasks, ∃ r₀ ∈ turn.state.tasks, r₀.id = r.id ∧ r₀.status = r.status
  granted : ∀ t ∈ tasks,
    (∀ p ∈ state.tasks, p.id = t.id → p.status ≠ .suspended ∧ p.status.terminal = false) ∧
    ∀ r ∈ mid.tasks, r.id = t.id → r.status = .running ∨ r.status.terminal = true

theorem claims_gathers {node : Uuid} {turn : Turn} {poll : TaskPoll} (hd : state.Distinct)
    (hj : Joins state) (h : claimTasksState node claims lease now state.begin = (.ok poll, turn)) :
    Gathers state turn poll.tasks (materialized turn.state poll.tasks) := by
  have hworks := claimTasksState_works h
  obtain ⟨conf, hconf, hcollect⟩ := claimTasksState_ok h
  have hwaits : turn.state.waits = state.waits := (works_frame hworks).2
  have hhandled : Rows Handled state.tasks turn.state.tasks := collect_handled hconf hcollect
  have hgranted := collect_granted claims state.begin turn poll.lanes hconf hd hcollect
  have hbooks : Books turn.state.tasks turn.state.waits (posted turn.deliveries) := by
    rw [hwaits]
    exact hj.books.claimed (hhandled.imp fun _ _ h => h.toClaimed) (works_owed hworks)
  have hinputs := materialized_rows poll.tasks turn.state
  have hrows : ∀ r ∈ (materialized turn.state poll.tasks).tasks, ∃ r₀ ∈ turn.state.tasks,
      r₀.id = r.id ∧ r₀.status = r.status := fun r hr => by
    obtain ⟨r₀, hr₀, hi⟩ := hinputs.mem_right hr
    rcases hi with rfl | ⟨-, input, rfl⟩ <;> exact ⟨_, hr₀, rfl, rfl⟩
  refine ⟨?_, materialized_books hbooks fun t ht r hr hid hs => ?_, fun id => ?_, hrows, fun t ht =>
    ⟨(hgranted t ht).1, fun r hr hid => ?_⟩⟩
  · rw [MemoryState.Distinct, hinputs.map_eq fun r r' hi => ?_, hhandled.map_eq fun _ _ h => h.id]
    · exact hd
    · rcases hi with rfl | ⟨-, input, rfl⟩ <;> rfl
  · rcases (hgranted t ht).2 r hr hid with hrunning | hended
    · rw [hrunning] at hs
      cases hs
    · rw [hs] at hended
      cases hended
  · rw [materialized_waits, hwaits]
  · obtain ⟨r₀, hr₀, hid₀, hstatus⟩ := hrows r hr
    rw [← hstatus]
    exact (hgranted t ht).2 r₀ hr₀ (hid₀.trans hid)

/-- The store a successful claim turn leaves. -/
theorem claimTurn_gathers {node : Uuid} {result : TaskPoll × CommitResult} {turn' : Turn}
    (hd : state.Distinct) (hj : Joins state)
    (h : runTurn (some node) claims [] lease now state.begin = (.ok result, turn')) :
    ∃ turn tasks mid locks, Works (some node) now state.begin tasks turn ∧ Gathers state turn tasks mid ∧
      turn'.state = { clearTerminal (delivered now mid (groupDeliveries turn.deliveries)) turn.undo with
        laneLocks := locks } := by
  obtain ⟨turn, poll, hclaim, hsettle⟩ := runTurn_claims h
  have hstate : turn'.state = (settleTurn turn [] [] state.phases poll [] now).1 := congrArg Prod.fst hsettle
  obtain ⟨locks, hlocks⟩ := settleTurn_fst turn [] [] state.phases poll [] now
  have hadopt : (installed now (materialized turn.state poll.tasks) []).adopt [] =
      materialized turn.state poll.tasks := by
    rw [MemoryState.adopt, List.append_nil]
    rfl
  rw [hadopt] at hlocks
  exact ⟨turn, poll.tasks, _, locks, claimTasksState_works hclaim, claims_gathers hd hj hclaim,
    hstate.trans hlocks⟩

theorem claimTurn_joins {node : Uuid} {result : TaskPoll × CommitResult} {turn' : Turn}
    (hd : state.Distinct) (hj : Joins state)
    (h : runTurn (some node) claims [] lease now state.begin = (.ok result, turn')) :
    Joins turn'.state := by
  obtain ⟨turn, tasks, mid, locks, hworks, hgathers, hstate⟩ := claimTurn_gathers hd hj h
  have hgone : ∀ id, state.waits id = none ∨ id ∈ tasks.map (·.id) → mid.waits id = none := by
    intro id hid
    rw [hgathers.waits]
    rcases hid with hn | hm
    · rw [hn, ite_self]
    · rw [if_pos hm]
  rw [hstate]
  refine settled_joins hgathers.distinct hgathers.books (fun r hr hs => ?_) fun r hr ht => ?_
  · obtain ⟨r₀, hr₀, hid, hstatus⟩ := hgathers.rows r hr
    rw [← hid]
    refine hgone _ ?_
    rcases works_running hworks r₀ hr₀ (hstatus.trans hs) with ⟨r₁, hr₁, hid₁, hs₁⟩ | ⟨t, ht, hidt⟩
    · exact .inl (hid₁ ▸ hj.running r₁ hr₁ hs₁)
    · exact .inr (hidt ▸ List.mem_map_of_mem ht)
  · obtain ⟨r₀, hr₀, hid, hstatus⟩ := hgathers.rows r hr
    rcases (works_logged hworks).2 r₀ hr₀ with hold | ⟨old, ho, hoid⟩
    · left
      rw [← hid]
      exact hgone _ (.inl (hj.ended r₀ hold (hstatus ▸ ht)))
    · exact .inr ⟨old, ho, hoid.trans hid⟩

/-- A claim took a parent, and its wait with it. -/
structure Taken (state after : MemoryState) (id : TaskId) : Prop where
  gone : after.waits id = none
  awake : ∀ p ∈ state.tasks, p.id = id → p.status ≠ .suspended
  runs : ∀ p ∈ after.tasks, p.id = id → p.status = .running ∨ p.status.terminal = true

/-- A claim turn leaves a group or hands its parent out. -/
theorem claimTurn_group {node : Uuid} {result : TaskPoll × CommitResult} {turn' : Turn}
    (hd : state.Distinct) (hj : Joins state)
    (h : runTurn (some node) claims [] lease now state.begin = (.ok result, turn')) {id : TaskId}
    {wait : TaskWait} (hw : state.waits id = some wait) :
    Stays turn'.state id wait ∨ Taken state turn'.state id := by
  obtain ⟨turn, tasks, mid, locks, -, hgathers, hstate⟩ := claimTurn_gathers hd hj h
  have hwaits := hgathers.waits id
  rw [hstate]
  split at hwaits
  · next hm =>
    obtain ⟨t, ht, rfl⟩ := List.mem_map.mp hm
    obtain ⟨hbefore, hafter⟩ := hgathers.granted t ht
    refine .inr ⟨?_, fun p hp hid => (hbefore p hp hid).1, fun p hp hid => ?_⟩
    · by_contra hsome
      have hleft := clearTerminal_waits _ _ _ (Option.isSome_iff_ne_none.mpr hsome)
      have hwas := delivered_waits now mid _ _ hleft
      rw [hwaits] at hwas
      cases hwas
    · obtain ⟨cleared, hclear⟩ := clearTerminal_eq (delivered now mid (groupDeliveries turn.deliveries)) turn.undo
      rw [hclear] at hp
      obtain ⟨r, hr, rfl | ⟨hrid, hs, -⟩⟩ := (delivered_woken now mid _).mem_right hp
      · exact hafter p hr hid
      · -- what was handed out does not sleep
        rcases hafter r hr (hrid.symm.trans hid) with hrunning | hended
        · rw [hs] at hrunning
          cases hrunning
        · rw [hs] at hended
          cases hended
  · exact .inl (settled_group hgathers.distinct hgathers.books (hwaits.trans hw))

end

end Vyuh.Tasks.Memory
