import Vyuh.Lib.Run
import Vyuh.Tasks.Store.Memory.Rollback

/-! A successful turn as a sequence of row events. Whatever the claim and commit code does to the
    stored rows before a turn settles is one of four things: an execution is concluded, granted or
    released, or the rate buckets and lane rows are coordinated. `Does` says exactly what each event
    requires and changes; the theorems below it show that the successful runs of the code are runs of
    events, and that the snapshots a poll hands out are the granted rows, in order. -/

namespace Vyuh.Tasks.Memory
open Lib

/-- One logged overwrite of a row, with the deliveries it queues. -/
def Turn.write (turn : Turn) (index : ℕ) (old new : TaskRecord) (queued : List Delivery) : Turn where
  state := { turn.state with tasks := turn.state.tasks.set index new }
  deliveries := turn.deliveries ++ queued
  undo := turn.undo ++ [old]

/-- What a record owes its parent: one delivery when it is terminal. -/
def announced (task : TaskRecord) : List Delivery :=
  match task.parentId, task.lastResult with
  | some parent, some result => if task.status.terminal then [(parent, result)] else []
  | _, _ => []

/-- What happened to a row, or to the lanes. -/
inductive Event where
  | concluded (old new : TaskRecord)
  | granted (old new : TaskRecord)
  | released (old : TaskRecord)
  | coordinated

/-- The rows granted along a list of events. -/
def grants (events : List Event) : List TaskRecord :=
  events.filterMap (fun event => match event with
    | .granted _ new => some new
    | _ => none)

theorem grants_append (events events' : List Event) :
    grants (events ++ events') = grants events ++ grants events' :=
  List.filterMap_append

variable {runner : Option Uuid} {now : DateTime} {node : Uuid} {lease : Duration} {u : Unit}
    {turn turn' : Turn}

/-! ### Logged mutations -/

theorem queueDelivery_ok {task : TaskRecord} {deliveries deliveries' : List Delivery}
    (h : queueDelivery task deliveries = .ok deliveries') :
    deliveries' = deliveries ++ announced task := by
  rw [queueDelivery] at h
  rw [announced]
  cases hp : task.parentId with
  | none => rw [hp] at h; simpa using h.symm
  | some parent =>
    rw [hp] at h
    simp only [terminalResult] at h
    cases hr : task.lastResult with
    | none =>
      rw [hr] at h
      split at h
      · cases h
      · simpa [Bind.bind, Except.bind] using h.symm
    | some result =>
      rw [hr] at h
      split at h
      · next ht => simpa [Bind.bind, Except.bind, ht] using h.symm
      · next ht => simpa [Bind.bind, Except.bind, ht] using h.symm

theorem touch_ok {index : ℕ} {old new : TaskRecord}
    {m : Step (TaskRecord × List Delivery) TaskRuntimeError Unit}
    (h : touch index old m turn = (.ok new, turn')) :
    ∃ deliveries, m (old, turn.deliveries) = (.ok (), (new, deliveries)) ∧
      turn' = ⟨{ turn.state with tasks := turn.state.tasks.set index new }, deliveries,
        turn.undo ++ [old]⟩ := by
  rw [touch] at h
  rcases hm : m (old, turn.deliveries) with ⟨r, row, deliveries⟩
  rw [hm] at h
  cases r with
  | error e => exact nomatch congrArg Prod.fst h
  | ok u =>
    simp only [Except.map, Prod.mk.injEq, Except.ok.injEq] at h
    obtain ⟨rfl, rfl⟩ := h
    exact ⟨deliveries, rfl, rfl⟩

theorem onRow_ok {m : Step TaskRecord TaskRuntimeError Unit} {r r' : TaskRecord} {ds ds' : List Delivery} :
    onRow m (r, ds) = (.ok u, (r', ds')) ↔ m r = (.ok u, r') ∧ ds = ds' := by
  rw [onRow, Step.zoom_ok]
  constructor
  · rintro ⟨t, hm, he⟩
    obtain ⟨rfl, rfl⟩ := Prod.mk.inj he
    exact ⟨hm, rfl⟩
  · rintro ⟨hm, rfl⟩
    exact ⟨r', hm, rfl⟩

theorem queueRow_ok {r r' : TaskRecord} {ds ds' : List Delivery}
    (h : queueRow (r, ds) = (.ok u, (r', ds'))) : r' = r ∧ ds' = ds ++ announced r := by
  simp only [queueRow, Step.bind_ok, Step.get_ok, Step.lift_ok, Step.modify_ok] at h
  obtain ⟨_, _, ⟨rfl, rfl⟩, queued, _, ⟨hq, rfl⟩, he⟩ := h
  obtain ⟨rfl, rfl⟩ := Prod.mk.inj he
  exact ⟨rfl, queueDelivery_ok hq⟩

/-! ### Candidates -/

theorem mem_dueIndices {tasks : List TaskRecord} {lane : String} {i : ℕ}
    (h : i ∈ dueIndices tasks lane now) :
    ∃ row, tasks[i]? = some row ∧ row.lane = lane ∧ isDue row now = true := by
  have hp := (List.mem_filter.mp h).2
  cases ht : tasks[i]? with
  | none => rw [ht] at hp; exact nomatch hp
  | some row =>
    rw [ht] at hp
    simp only [Option.any_some, Bool.and_eq_true, decide_eq_true_eq] at hp
    exact ⟨row, rfl, hp.1, hp.2⟩

theorem dueIndices_nodup (tasks : List TaskRecord) (lane : String) (now : DateTime) :
    (dueIndices tasks lane now).Nodup := List.nodup_range.filter _

theorem sortByReadiness_perm (tasks : List TaskRecord) (now : DateTime) (indices : List ℕ) :
    (sortByReadiness tasks now indices).Perm indices := List.perm_insertionSort _ indices

theorem mem_retainPermitted {tasks : List TaskRecord} : ∀ {permits : ℕ} {indices : List ℕ} {i : ℕ},
    i ∈ retainPermitted tasks permits indices →
      i ∈ indices ∧ ∀ row, tasks[i]? = some row → row.cancelled = false
  | _, [], i, h => nomatch h
  | permits, j :: indices, i, h => by
    rw [retainPermitted.eq_def] at h
    simp only at h
    have hrec : ∀ {p}, i ∈ retainPermitted tasks p indices →
        i ∈ j :: indices ∧ ∀ row, tasks[i]? = some row → row.cancelled = false := fun h =>
      ⟨List.mem_cons_of_mem _ (mem_retainPermitted h).1, (mem_retainPermitted h).2⟩
    cases ht : tasks[j]? with
    | none => rw [ht] at h; exact hrec h
    | some row =>
      rw [ht] at h
      simp only at h
      have hhead : row.cancelled = false → i = j →
          i ∈ j :: indices ∧ ∀ r, tasks[i]? = some r → r.cancelled = false := by
        rintro hc rfl
        refine ⟨List.mem_cons_self, fun r hr => ?_⟩
        rw [ht] at hr
        exact Option.some.inj hr ▸ hc
      split at h
      · exact hrec h
      · next hc =>
        have hc : row.cancelled = false := by simpa using hc
        split at h
        · rcases List.mem_cons.mp h with rfl | h
          · exact hhead hc rfl
          · exact hrec h
        · cases permits with
          | zero => exact hrec h
          | succ permits =>
            rcases List.mem_cons.mp h with rfl | h
            · exact hhead hc rfl
            · exact hrec h

theorem retainPermitted_sublist (tasks : List TaskRecord) : ∀ (permits : ℕ) (indices : List ℕ),
    (retainPermitted tasks permits indices).Sublist indices
  | _, [] => .slnil
  | permits, j :: indices => by
    rw [retainPermitted.eq_def]
    simp only
    cases tasks[j]? with
    | none => exact (retainPermitted_sublist tasks permits indices).cons _
    | some row =>
      simp only
      split
      · exact (retainPermitted_sublist tasks permits indices).cons _
      · split
        · exact (retainPermitted_sublist tasks permits indices).cons_cons _
        · cases permits with
          | zero => exact (retainPermitted_sublist tasks 0 indices).cons _
          | succ permits => exact (retainPermitted_sublist tasks permits indices).cons_cons _

theorem isActive_of_isDue {row : TaskRecord} (h : isDue row now = true) : isActive row.status = true := by
  simp only [isDue, Bool.and_eq_true, Bool.or_eq_true, decide_eq_true_eq] at h
  rcases h.1.1 with hs | hs <;> rw [hs] <;> rfl

theorem laneCandidates_perm (tasks : List TaskRecord) (lane : String) (permits : ℕ) (now : DateTime) :
    ∃ due, (laneCandidates tasks lane permits now).Perm due ∧
      due.Sublist (dueIndices tasks lane now) := by
  refine ⟨_, sortByReadiness_perm tasks now _, ?_⟩
  split
  · exact List.filter_sublist
  · exact List.Sublist.refl _

/-- The row at `index` is due and meets `p`. -/
def Due (now : DateTime) (p : TaskRecord → Prop) (index : ℕ) (turn : Turn) : Prop :=
  ∃ row, turn.state.tasks[index]? = some row ∧ isDue row now = true ∧ p row

/-- Overwriting one row leaves the others due. -/
theorem Due.write {p : TaskRecord → Prop} {turn : Turn} {i j : ℕ} {old new : TaskRecord}
    {queued : List Delivery} (hne : j ≠ i) (h : Due now p j turn) :
    Due now p j (turn.write i old new queued) := by
  obtain ⟨row, hr, hd, hp⟩ := h
  exact ⟨row, by rw [Turn.write, List.getElem?_set_ne (Ne.symm hne), hr], hd, hp⟩

theorem taskAt_ok {i : ℕ} {missing : String} {row : TaskRecord} :
    taskAt i missing turn = (.ok row, turn') ↔ turn.state.tasks[i]? = some row ∧ turn = turn' := by
  simp only [taskAt, Step.bind_ok, Step.get_ok]
  constructor
  · rintro ⟨_, _, ⟨rfl, rfl⟩, h⟩
    cases ht : turn.state.tasks[i]? with
    | none => rw [ht] at h; exact absurd h Step.fail_ok
    | some r =>
      rw [ht] at h
      obtain ⟨rfl, rfl⟩ := Step.pure_ok.mp h
      exact ⟨rfl, rfl⟩
  · rintro ⟨h, rfl⟩
    exact ⟨turn, turn, ⟨rfl, rfl⟩, by rw [h]; rfl⟩

theorem markTakeover_tasks (took : Bool) (poll : LanePoll) :
    (markTakeover took poll).tasks = poll.tasks := by
  rw [markTakeover]
  split <;> rfl

/-- A staged row goes over the row at its place, which is logged. -/
theorem applyUpdate_ok {update : ℕ × TaskRecord} {turn turn' : Turn} {u : Unit}
    (h : applyUpdate update turn = (.ok u, turn')) :
    ∃ row, turn.state.tasks[update.1]? = some row ∧
      turn' = { state := { turn.state with tasks := turn.state.tasks.set update.1 update.2 }
                deliveries := turn.deliveries
                undo := turn.undo ++ [row] } := by
  simp only [applyUpdate, Step.bind_ok, Step.pure_ok] at h
  obtain ⟨row, _, hread, new, _, htouch, -, rfl⟩ := h
  obtain ⟨hrow, rfl⟩ := taskAt_ok.mp hread
  obtain ⟨deliveries, hm, rfl⟩ := touch_ok htouch
  obtain ⟨hset, rfl⟩ := onRow_ok.mp hm
  obtain rfl := Step.modify_ok.mp hset
  exact ⟨row, hrow, rfl⟩

/-- Writing staged rows: each goes over the row at its place, which is logged. -/
theorem updates_ok : ∀ (updates : List (ℕ × TaskRecord)) (turn turn' : Turn) (u : Unit),
    (updates.map (·.1)).Nodup → Step.each applyUpdate updates turn = (.ok u, turn') →
    turn' = { state := { turn.state with tasks := overwrite updates turn.state.tasks }
              deliveries := turn.deliveries
              undo := turn.undo ++ updates.flatMap (fun update => turn.state.tasks[update.1]?.toList) }
  | [], turn, turn', u, _, h => by
    obtain rfl := (Step.pure_ok.mp h).2
    rw [List.flatMap_nil, List.append_nil]
    rfl
  | update :: updates, turn, turn', u, hn, h => by
    rw [Step.each, Step.bind_ok] at h
    obtain ⟨_, turn₁, happly, h⟩ := h
    obtain ⟨row, hrow, rfl⟩ := applyUpdate_ok happly
    rw [List.map_cons, List.nodup_cons] at hn
    rw [updates_ok updates _ turn' u hn.2 h, List.flatMap_cons, hrow]
    have hlog : updates.flatMap (fun other => (turn.state.tasks.set update.1 update.2)[other.1]?.toList) =
        updates.flatMap (fun other => turn.state.tasks[other.1]?.toList) := by
      refine List.flatMap_congr fun other ho => ?_
      have hne : update.1 ≠ other.1 := fun he => hn.1 (he ▸ List.mem_map_of_mem ho)
      rw [List.getElem?_set_ne hne]
    simp only [hlog, Option.toList_some, List.append_assoc]
    rfl

theorem isActive_of_accepts {commit : TaskCommit} {status : TaskStatus} {node : Option Uuid}
    {attempts : ℤ} (h : commit.accepts status node attempts = true) : isActive status = true := by
  cases commit with
  | cancel id => exact h
  | outcome nodeId n id lane result token =>
    simp only [TaskCommit.accepts, Bool.and_eq_true, decide_eq_true_eq] at h
    rw [h.1.1]
    rfl

section

variable [Serde]

/-- The events of a turn of `runner` at `now`. -/
inductive Does (runner : Option Uuid) (now : DateTime) : Turn → Event → Turn → Prop
  | conclude {turn : Turn} {index : ℕ} {old new : TaskRecord} {conf : TaskStoreConf}
      {policy : TaskRetry} {outcome : TaskOutcome} (mark : Bool)
      (stored : turn.state.tasks[index]? = some old) (active : isActive old.status = true)
      (concludes : Concludes conf policy now outcome (marked mark old) new) :
      Does runner now turn (.concluded old new) (turn.write index old new (announced new))
  | grant {turn : Turn} {index : ℕ} {old new : TaskRecord} {node : Uuid} (who : runner = some node)
      (stored : turn.state.tasks[index]? = some old) (due : isDue old now = true)
      (wanted : old.cancelled = false) (granted : grant node now old = (.ok (), new)) :
      Does runner now turn (.granted old new) (turn.write index old new [])
  | release {turn : Turn} {index : ℕ} {old : TaskRecord}
      (stored : turn.state.tasks[index]? = some old) (running : old.status = .running) :
      Does runner now turn (.released old)
        (turn.write index old { old with nodeId := none, updatedAt := now } [])
  | coordinate {turn : Turn} (rates : FMap String RateBucket) (locks : FMap String MemoryLaneLock) :
      Does runner now turn .coordinated
        { turn with state := { turn.state with rates := rates, laneLocks := locks } }

/-- The turn went through events that granted exactly `tasks`. -/
def Works (runner : Option Uuid) (now : DateTime) (turn : Turn) (tasks : List TaskRecord)
    (turn' : Turn) : Prop :=
  ∃ events, Run (Does runner now) turn events turn' ∧ grants events = tasks

theorem Works.refl (turn : Turn) : Works runner now turn [] turn := ⟨[], .nil turn, rfl⟩

theorem Works.trans {turn turn' turn'' : Turn} {tasks tasks' : List TaskRecord}
    (h : Works runner now turn tasks turn') (h' : Works runner now turn' tasks' turn'') :
    Works runner now turn (tasks ++ tasks') turn'' := by
  obtain ⟨events, hr, rfl⟩ := h
  obtain ⟨events', hr', rfl⟩ := h'
  exact ⟨events ++ events', hr.append hr', grants_append events events'⟩

theorem Works.one {event : Event} (h : Does runner now turn event turn') :
    Works runner now turn (grants [event]) turn' := ⟨[event], .single h, rfl⟩

/-- Quiet work before or after other work does not add snapshots. -/
theorem Works.quiet {turn turn' turn'' : Turn} {tasks : List TaskRecord}
    (h : Works runner now turn [] turn') (h' : Works runner now turn' tasks turn'') :
    Works runner now turn tasks turn'' := h.trans h'

/-! ### Loops over candidates -/

/-- Finalizing a candidate concludes its execution. -/
theorem failRow_ok {conf : TaskStoreConf} {policy : TaskRetry} {r r' : TaskRecord} {ds ds' : List Delivery}
    {cancelled : Bool} (h : failRow cancelled now conf policy (r, ds) = (.ok u, (r', ds'))) :
    Concludes conf policy now (exhaustedOutcome cancelled) r r' ∧ ds' = ds ++ announced r' := by
  simp only [failRow, Step.bind_ok] at h
  obtain ⟨_, ⟨a, ds₁⟩, ha, _, ⟨b, ds₂⟩, hb, _, ⟨c, ds₃⟩, hc, hd⟩ := h
  obtain ⟨happ, rfl⟩ := onRow_ok.mp ha
  obtain ⟨rfl, rfl⟩ := queueRow_ok hb
  obtain ⟨hclear, rfl⟩ := onRow_ok.mp hc
  obtain ⟨hfin, rfl⟩ := onRow_ok.mp hd
  -- `apply_outcome` has cleared the owner already
  have hsame : c = b := by
    obtain rfl := Step.modify_ok.mp hclear
    simp only [applyOutcome, Step.bind_ok, Step.modify_ok] at happ
    obtain ⟨_, _, _, rfl⟩ := happ
    rfl
  subst hsame
  refine ⟨⟨c, happ, hfin⟩, ?_⟩
  obtain ⟨⟨expiry, rfl⟩, -⟩ := finalizeIdempotency_ok hfin
  rfl

/-- One candidate is finalized or left alone. -/
theorem failCandidate_works {conf : TaskStoreConf} {policy : TaskRetry} {i : ℕ}
    (hd : Due now (fun _ => True) i turn) (h : failCandidate now conf policy i turn = (.ok u, turn')) :
    Works runner now turn [] turn' ∧
      ∀ j, j ≠ i → Due now (fun _ => True) j turn → Due now (fun _ => True) j turn' := by
  simp only [failCandidate, Step.bind_ok, Step.lift_ok] at h
  obtain ⟨row, _, hread, exhausted, _, ⟨-, rfl⟩, h⟩ := h
  obtain ⟨hrow, rfl⟩ := taskAt_ok.mp hread
  cases exhausted with
  | false =>
    obtain rfl := (Step.pure_ok.mp h).2
    exact ⟨Works.refl _, fun j _ hj => hj⟩
  | true =>
    rw [if_pos rfl] at h
    simp only [Step.bind_ok, Step.pure_ok] at h
    obtain ⟨new, _, ht, -, rfl⟩ := h
    obtain ⟨deliveries, hm, rfl⟩ := touch_ok ht
    obtain ⟨hc, rfl⟩ := failRow_ok hm
    obtain ⟨other, ho, hdue, -⟩ := hd
    obtain rfl : other = row := Option.some.inj (ho.symm.trans hrow)
    rw [← marked_false other] at hc
    exact ⟨Works.one (.conclude false hrow (isActive_of_isDue hdue) hc), fun j hj hd => hd.write hj⟩

theorem failExhausted_works {lane : String} {limit : ℕ} {conf : TaskStoreConf} {policy : TaskRetry}
    (h : failExhausted lane limit now conf policy turn = (.ok u, turn')) :
    Works runner now turn [] turn' := by
  simp only [failExhausted, Step.bind_ok, Step.get_ok] at h
  obtain ⟨_, _, ⟨rfl, rfl⟩, h⟩ := h
  rw [Step.each_eq_collect] at h
  simp only [Step.bind_ok, Step.pure_ok] at h
  obtain ⟨units, _, h, -, rfl⟩ := h
  have hperm := sortByReadiness_perm turn.state.tasks now (dueIndices turn.state.tasks lane now)
  have hworks := Step.collect_ok (Due now fun _ => True) (Works runner now) (fun _ => [])
    Works.refl (fun _ _ _ _ _ h h' => h.trans h') (fun i s b s' hd hf => failCandidate_works hd hf)
    _ turn units _ ((hperm.nodup_iff.mpr (dueIndices_nodup _ _ _)).sublist (List.take_sublist _ _))
    (fun i hi => by
      obtain ⟨row, hr, -, hd⟩ := mem_dueIndices (hperm.mem_iff.mp (List.mem_of_mem_take hi))
      exact ⟨row, hr, hd, trivial⟩) h
  rwa [List.flatMap_eq_nil_iff.mpr fun _ _ => rfl] at hworks

/-- A claimed candidate is granted to the runner. -/
theorem claimCandidate_works {i : ℕ} {new : TaskRecord}
    (hd : Due now (fun row => row.cancelled = false) i turn)
    (h : claimCandidate node now i turn = (.ok new, turn')) :
    Works (some node) now turn [new] turn' ∧ ∀ j, j ≠ i →
      Due now (fun row => row.cancelled = false) j turn →
      Due now (fun row => row.cancelled = false) j turn' := by
  simp only [claimCandidate, Step.bind_ok] at h
  obtain ⟨row, _, hread, ht⟩ := h
  obtain ⟨hrow, rfl⟩ := taskAt_ok.mp hread
  obtain ⟨deliveries, hm, rfl⟩ := touch_ok ht
  obtain ⟨hgrant, rfl⟩ := onRow_ok.mp hm
  obtain ⟨other, ho, hdue, hwanted⟩ := hd
  obtain rfl : other = row := Option.some.inj (ho.symm.trans hrow)
  have hdoes := Does.grant rfl hrow hdue hwanted hgrant
  rw [Turn.write, List.append_nil] at hdoes
  refine ⟨Works.one hdoes, fun j hj hd => ?_⟩
  obtain ⟨row, hr, hd, hp⟩ := hd
  exact ⟨row, by rw [List.getElem?_set_ne (Ne.symm hj), hr], hd, hp⟩

theorem claimLane_works {claim : LaneClaim} {permits : ℕ} {poll : LanePoll}
    (h : claimLane node claim permits now turn = (.ok poll, turn')) :
    Works (some node) now turn poll.tasks turn' := by
  simp only [claimLane, Step.bind_ok, Step.get_ok, Step.pure_ok] at h
  obtain ⟨_, _, ⟨rfl, rfl⟩, claimed, _, h, rfl, rfl⟩ := h
  obtain ⟨due, hperm, hsub⟩ := laneCandidates_perm turn.state.tasks claim.lane.asStr permits now
  have hnodup : (laneCandidates turn.state.tasks claim.lane.asStr permits now).Nodup :=
    hperm.nodup_iff.mpr ((dueIndices_nodup _ _ _).sublist hsub)
  have hworks := Step.collect_ok (Due now fun row => row.cancelled = false) (Works (some node) now)
    (fun task => [task]) Works.refl (fun _ _ _ _ _ h h' => h.trans h')
    (fun i s b s' hd hf => claimCandidate_works hd hf) _ turn claimed _
    (hnodup.sublist ((retainPermitted_sublist _ _ _).trans (List.take_sublist _ _)))
    (fun i hi => by
      obtain ⟨hmem, hwanted⟩ := mem_retainPermitted hi
      obtain ⟨row, hr, -, hd⟩ :=
        mem_dueIndices (hsub.subset (hperm.mem_iff.mp (List.mem_of_mem_take hmem)))
      exact ⟨row, hr, hd, hwanted row hr⟩) h
  simpa using hworks

theorem claimLaneState_works {reservation : ClaimReservation} {poll : LanePoll}
    (h : claimLaneState node reservation now turn = (.ok poll, turn')) :
    Works (some node) now turn poll.tasks turn' := by
  simp only [claimLaneState, Step.bind_ok, Step.get_ok, Step.pure_ok] at h
  obtain ⟨inner, _, h, _, _, ⟨rfl, rfl⟩, rfl, rfl⟩ := h
  have hworks := claimLane_works h
  exact hworks

theorem onRates_works {α : Type} {m : Step (FMap String RateBucket) TaskRuntimeError α} {a : α}
    (h : onRates m turn = (.ok a, turn')) :
    Works runner now turn [] turn' := by
  obtain ⟨rates, -, rfl⟩ := Step.zoom_ok.mp h
  exact Works.one (.coordinate rates turn.state.laneLocks)

/-! ### Locked lanes -/

theorem releaseRow_works {lane : String} {i : ℕ} (h : releaseRow node lane now i turn = (.ok u, turn')) :
    Works runner now turn [] turn' := by
  simp only [releaseRow, Step.bind_ok, Step.get_ok] at h
  obtain ⟨_, _, ⟨rfl, rfl⟩, h⟩ := h
  cases hi : turn.state.tasks[i]? with
  | none =>
    rw [hi] at h
    obtain rfl := (Step.pure_ok.mp h).2
    exact Works.refl turn
  | some row =>
    rw [hi] at h
    simp only at h
    split at h
    · next hrow =>
      simp only [Step.bind_ok, Step.pure_ok] at h
      obtain ⟨new, _, ht, -, rfl⟩ := h
      obtain ⟨deliveries, hm, rfl⟩ := touch_ok ht
      obtain ⟨hclear, rfl⟩ := onRow_ok.mp hm
      obtain rfl := Step.modify_ok.mp hclear
      have hdoes : Does runner now turn _ _ := .release hi hrow.2.2
      rw [Turn.write, List.append_nil] at hdoes
      exact Works.one hdoes
    · obtain rfl := (Step.pure_ok.mp h).2
      exact Works.refl turn

theorem releaseRunner_works {lane : String} (h : releaseRunner node lane now turn = (.ok u, turn')) :
    Works runner now turn [] turn' := by
  simp only [releaseRunner, Step.bind_ok, Step.get_ok] at h
  obtain ⟨_, _, ⟨rfl, rfl⟩, h⟩ := h
  rw [Step.each_eq_collect] at h
  simp only [Step.bind_ok, Step.pure_ok] at h
  obtain ⟨units, _, h, -, rfl⟩ := h
  have hworks := Step.collect_ok (fun _ _ => True) (Works runner now) (fun _ => [])
    Works.refl (fun _ _ _ _ _ h h' => h.trans h')
    (fun i s b s' _ hf => ⟨releaseRow_works hf, fun _ _ _ => trivial⟩)
    _ turn units _ List.nodup_range (fun _ _ => trivial) h
  rwa [List.flatMap_eq_nil_iff.mpr fun _ _ => rfl] at hworks

/-- Every successful run of an owner-turn step grants exactly the tasks it answers with. -/
def Polls (runner : Option Uuid) (now : DateTime) (m : Step OwnerState TaskRuntimeError LanePoll) :
    Prop :=
  ∀ s poll s', m s = (.ok poll, s') → Works runner now s.turn poll.tasks s'.turn

section Polls

variable {α : Type}

theorem Polls.onOwner {m : Step MemoryLaneLock TaskRuntimeError α}
    {f : α → Step OwnerState TaskRuntimeError LanePoll} (hf : ∀ a, Polls runner now (f a)) :
    Polls runner now (Memory.onOwner m >>= f) := by
  intro s poll s' h
  obtain ⟨a, s₁, hm, h⟩ := Step.bind_ok.mp h
  obtain ⟨owner, -, rfl⟩ := Step.zoom_ok.mp hm
  have hworks := hf a _ poll s' h
  exact hworks

theorem Polls.get {f : OwnerState → Step OwnerState TaskRuntimeError LanePoll}
    (hf : ∀ s, Polls runner now (f s)) : Polls runner now (Step.get >>= f) := by
  intro s poll s' h
  obtain ⟨_, _, hg, h⟩ := Step.bind_ok.mp h
  obtain ⟨rfl, rfl⟩ := Step.get_ok.mp hg
  exact hf _ _ _ _ h

theorem Polls.lift {r : Except TaskRuntimeError α}
    {f : α → Step OwnerState TaskRuntimeError LanePoll} (hf : ∀ a, Polls runner now (f a)) :
    Polls runner now (Step.lift r >>= f) := by
  intro s poll s' h
  obtain ⟨a, _, hl, h⟩ := Step.bind_ok.mp h
  obtain ⟨-, rfl⟩ := Step.lift_ok.mp hl
  exact hf a _ _ _ h

/-- Quiet work on the turn, then a step that polls. -/
theorem Polls.onTurn {m : Step Turn TaskRuntimeError α}
    {f : α → Step OwnerState TaskRuntimeError LanePoll}
    (hm : ∀ turn a turn', m turn = (.ok a, turn') → Works runner now turn [] turn')
    (hf : ∀ a, Polls runner now (f a)) : Polls runner now (Memory.onTurn m >>= f) := by
  intro s poll s' h
  obtain ⟨a, s₁, ht, h⟩ := Step.bind_ok.mp h
  obtain ⟨turn, hrun, rfl⟩ := Step.zoom_ok.mp ht
  have hworks := hf a _ poll s' h
  exact (hm _ _ _ hrun).quiet hworks

theorem polls_answer (request : MemoryOwnerTurn) (wake : Option Duration) :
    Polls runner now (answer request wake) := by
  intro s poll s' h
  simp only [answer, Step.bind_ok, Step.get_ok, Step.pure_ok] at h
  obtain ⟨_, _, ⟨rfl, rfl⟩, rfl, rfl⟩ := h
  exact Works.refl _

theorem polls_answerAction (request : MemoryOwnerTurn) (action : LaneHookAction) :
    Polls runner now (answerAction request action) := by
  intro s poll s' h
  simp only [answerAction, Step.bind_ok, Step.get_ok, Step.pure_ok] at h
  obtain ⟨_, _, ⟨rfl, rfl⟩, rfl, rfl⟩ := h
  exact Works.refl _

end Polls

theorem polls_memoryClaim (request : MemoryOwnerTurn) :
    Polls (some request.runnerId) request.now (memoryClaim request) := by
  refine Polls.get fun s => ?_
  cases s.turn.state.conf with
  | none => exact fun _ _ _ h => absurd h Step.fail_ok
  | some conf =>
    refine Polls.onTurn (fun _ _ _ h => failExhausted_works h) fun _ => Polls.get fun s => ?_
    refine Polls.onTurn (fun _ _ _ h => onRates_works h) fun reserved => ?_
    intro s poll s' h
    simp only [Step.bind_ok, Step.get_ok, Step.pure_ok] at h
    obtain ⟨inner, _, hc, _, _, ⟨rfl, rfl⟩, rfl, rfl⟩ := h
    obtain ⟨turn, hclaim, rfl⟩ := Step.zoom_ok.mp hc
    have hworks := claimLaneState_works hclaim
    exact hworks

theorem polls_memoryFlushPoll (request : MemoryOwnerTurn) (candidates : List ℕ) :
    Polls (some request.runnerId) request.now (memoryFlushPoll request candidates) := by
  intro s poll s' h
  rw [memoryFlushPoll, Step.bind_ok] at h
  obtain ⟨flush, s₁, hdue, h⟩ := h
  have hsame : s₁ = s := by
    simp only [memoryFlushDue, Step.bind_ok, Step.get_ok] at hdue
    obtain ⟨_, _, ⟨rfl, rfl⟩, hdue⟩ := hdue
    split at hdue
    · exact (Step.pure_ok.mp hdue).2.symm
    · exact (Step.lift_ok.mp hdue).2.symm
  subst hsame
  have hrest : Polls (some request.runnerId) request.now (if flush then memoryFlushOpen request else do
      let s ← Step.get
      let wake ← Step.lift (memoryFlushWake s.turn.state.tasks candidates request.lane request.now)
      answer request wake) := by
    cases flush with
    | true =>
      refine Polls.onOwner fun _ => ?_
      split
      · exact polls_memoryClaim request
      · exact polls_answer _ _
    | false => exact Polls.get fun _ => Polls.lift fun _ => polls_answer _ _
  exact hrest _ poll s' h

theorem polls_memoryEmpty (request : MemoryOwnerTurn) :
    Polls runner now (memoryEmpty request) := by
  refine Polls.get fun s => ?_
  split
  · exact Polls.onOwner fun _ => polls_answer _ _
  · split
    · exact polls_answer _ _
    · refine Polls.onOwner fun _ => ?_
      split
      · exact polls_answer _ _
      · rw [memoryStartIdle]
        split
        · exact Polls.onOwner fun _ => polls_answerAction _ _
        · exact Polls.onOwner fun _ => polls_answer _ _

theorem polls_memoryStartBusy (request : MemoryOwnerTurn) :
    Polls runner now (memoryStartBusy request) := by
  refine Polls.get fun s => ?_
  split
  · exact Polls.onOwner fun _ => polls_answer _ _
  · split
    · exact Polls.onOwner fun _ => polls_answerAction _ _
    · exact Polls.onOwner fun _ => polls_answer _ _

theorem polls_memoryPhasePoll (request : MemoryOwnerTurn) :
    Polls (some request.runnerId) request.now (memoryPhasePoll request) := by
  refine Polls.get fun s => ?_
  split
  · exact polls_answer _ _
  · refine Polls.onOwner fun _ => ?_
    rw [memoryWorkPoll]
    split
    · exact Polls.onOwner fun _ => polls_memoryEmpty request
    · refine Polls.onOwner fun _ => Polls.get fun s => ?_
      split
      · exact polls_memoryStartBusy request
      · exact polls_memoryFlushPoll request _

theorem polls_claimOwnedInner (request : MemoryOwnerTurn) :
    Polls (some request.runnerId) request.now (claimOwnedInner request) := by
  refine Polls.onOwner fun owned => ?_
  split
  · refine Polls.onTurn (fun turn _ turn' h => ?_) fun _ => ?_
    · rw [loseLane] at h
      split at h
      · exact releaseRunner_works h
      · obtain rfl := (Step.pure_ok.mp h).2
        exact Works.refl turn
    · intro s poll s' h
      simp only [Step.bind_ok, Step.get_ok, Step.pure_ok] at h
      obtain ⟨_, _, ⟨rfl, rfl⟩, rfl, rfl⟩ := h
      exact Works.refl _
  · intro s poll s' h
    obtain ⟨_, s₁, hhook, h⟩ := Step.bind_ok.mp h
    have hsame : s₁.turn = s.turn := by
      simp only [memoryHook, Step.bind_ok, Step.get_ok] at hhook
      obtain ⟨_, _, ⟨rfl, rfl⟩, hhook⟩ := hhook
      cases hk : request.claim.owner.bind (·.hook) with
      | none =>
        rw [hk] at hhook
        rw [(Step.pure_ok.mp hhook).2]
      | some hook =>
        rw [hk] at hhook
        obtain ⟨_, -, rfl⟩ := Step.zoom_ok.mp hhook
        rfl
    rw [← hsame]
    have hrest : Polls (some request.runnerId) request.now (memoryOwnedPoll request) := by
      refine Polls.get fun s => ?_
      cases memoryAction s.owner.phase with
      | none => exact polls_memoryPhasePoll request
      | some action => exact polls_answerAction request action
    exact hrest s₁ poll s' h

/-- The row goes out of the store and back; the turn around it does events only. -/
theorem claimOwnedState_works {request : MemoryOwnerTurn} {poll : LanePoll}
    (h : claimOwnedState request turn = (.ok poll, turn')) :
    Works (some request.runnerId) request.now turn poll.tasks turn' := by
  obtain ⟨owner, inner, s, -, hr, rfl, rfl⟩ := claimOwnedState_ok h
  rw [markTakeover_tasks]
  have hopen : Works (some request.runnerId) request.now turn []
      (turn.open request.claim.lane.asStr owner).turn :=
    Works.one (.coordinate turn.state.rates _)
  have hinner := polls_claimOwnedInner request _ _ _ hr
  have hclose : Works (some request.runnerId) request.now s.turn []
      (s.close request.claim.lane.asStr) :=
    Works.one (.coordinate s.turn.state.rates _)
  rw [← List.append_nil inner.tasks]
  exact hopen.quiet (hinner.trans hclose)

/-! ### The fallible part -/

theorem claimOne_works {conf : TaskStoreConf} {entry : LaneClaim × Uuid} {poll : LanePoll}
    (h : claimOne node conf lease now entry turn = (.ok poll, turn')) :
    Works (some node) now turn poll.tasks turn' := by
  rw [claimOne] at h
  cases hl : conf.laneOf entry.1.lane with
  | none => rw [hl] at h; exact absurd h Step.fail_ok
  | some laneConf =>
    rw [hl] at h
    simp only at h
    split at h
    · exact claimOwnedState_works h
    · simp only [claimUnowned, Step.bind_ok, Step.get_ok, Step.lift_ok] at h
      obtain ⟨_, _, ⟨rfl, rfl⟩, policy, _, ⟨-, rfl⟩, _, turn₁, hfail, _, _, ⟨rfl, rfl⟩, rate, _,
        ⟨-, rfl⟩, reserved, turn₂, hrates, h⟩ := h
      exact (failExhausted_works hfail).quiet ((onRates_works hrates).quiet (claimLaneState_works h))

theorem claimTasksState_works {claims : List (LaneClaim × Uuid)} {poll : TaskPoll}
    (h : claimTasksState node claims lease now turn = (.ok poll, turn')) :
    Works (some node) now turn poll.tasks turn' := by
  simp only [claimTasksState, Step.bind_ok, Step.get_ok] at h
  obtain ⟨_, _, ⟨rfl, rfl⟩, h⟩ := h
  cases hc : turn.state.conf with
  | none => rw [hc] at h; exact absurd h Step.fail_ok
  | some conf =>
    rw [hc] at h
    simp only [Step.bind_ok, Step.pure_ok] at h
    obtain ⟨lanes, _, h, rfl, rfl⟩ := h
    exact collect_works claims turn lanes _ h
where
  /-- Lanes are claimed one after the other, with no readiness to carry. -/
  collect_works {conf : TaskStoreConf} : ∀ (claims : List (LaneClaim × Uuid)) (turn : Turn)
      (lanes : List LanePoll) (turn' : Turn),
      Step.collect (claimOne node conf lease now) claims turn = (.ok lanes, turn') →
        Works (some node) now turn (lanes.flatMap (·.tasks)) turn'
    | [], turn, lanes, turn', h => by
      obtain ⟨rfl, rfl⟩ := Step.pure_ok.mp h
      exact Works.refl turn
    | entry :: claims, turn, lanes, turn', h => by
      simp only [Step.collect, Step.bind_ok, Step.pure_ok] at h
      obtain ⟨poll, turn₁, h₁, polls, turn₂, h₂, rfl, rfl⟩ := h
      exact (claimOne_works h₁).trans (collect_works claims turn₁ polls turn₂ h₂)

/-- Writing the staged rows of a batch, with the deliveries they owe, is a run of events. -/
theorem updates_works : ∀ (updates : List (ℕ × TaskRecord)) (turn turn' : Turn) (u : Unit)
    (queued : List Delivery), (updates.map (·.1)).Nodup →
    (∀ update ∈ updates, ∃ old conf policy outcome mark, turn.state.tasks[update.1]? = some old ∧
      isActive old.status = true ∧ Concludes conf policy now outcome (marked mark old) update.2) →
    Step.each applyUpdate updates turn = (.ok u, turn') →
    turn'.deliveries = turn.deliveries ∧ Works runner now { turn with deliveries := queued } []
      { turn' with deliveries := queued ++ updates.flatMap (fun update => announced update.2) }
  | [], turn, turn', u, queued, _, _, h => by
    obtain rfl := (Step.pure_ok.mp h).2
    rw [List.flatMap_nil, List.append_nil]
    exact ⟨rfl, Works.refl _⟩
  | update :: updates, turn, turn', u, queued, hn, hu, h => by
    rw [Step.each, Step.bind_ok] at h
    obtain ⟨_, turn₁, happly, h⟩ := h
    obtain ⟨row, hrow, rfl⟩ := applyUpdate_ok happly
    rw [List.map_cons, List.nodup_cons] at hn
    obtain ⟨old, conf, policy, outcome, mark, hold, hactive, hconc⟩ := hu update List.mem_cons_self
    obtain rfl : old = row := Option.some.inj (hold.symm.trans hrow)
    have hrest := updates_works updates _ turn' u (queued ++ announced update.2) hn.2
      (fun other hm => by
        obtain ⟨old', hex⟩ := hu other (List.mem_cons_of_mem _ hm)
        obtain ⟨conf, policy, outcome, mark, hstored, hex⟩ := hex
        have hne : update.1 ≠ other.1 := fun he => hn.1 (he ▸ List.mem_map_of_mem hm)
        exact ⟨old', conf, policy, outcome, mark, by rw [List.getElem?_set_ne hne, hstored], hex⟩) h
    refine ⟨hrest.1, ?_⟩
    have hdoes : Does runner now { turn with deliveries := queued } _ _ :=
      .conclude mark hrow hactive hconc
    have hworks := (Works.one hdoes).quiet hrest.2
    rwa [List.flatMap_cons, ← List.append_assoc]

/-- The deliveries of a staged batch are those its rows owe. -/
theorem Staging.deliveries {state : MemoryState} {commits : List TaskCommit} {staged final : Staged}
    (h : Staging state now commits staged final)
    (hs : staged.deliveries = staged.updates.flatMap fun update => announced update.2) :
    final.deliveries = final.updates.flatMap fun update => announced update.2 := by
  induction h with
  | nil staged => exact hs
  | refuse refused rest ih => exact ih hs
  | accept accepts stages rest ih =>
    refine ih ?_
    obtain ⟨conf, lane, outcome, -, -, hq⟩ := stagedTask_ok stages
    rw [List.flatMap_append, ← hs, queueDelivery_ok hq, List.flatMap_singleton]

/-- The commit half of a turn: a staged batch, written, logged and announced. -/
structure Commits (now : DateTime) (commits : List TaskCommit) (turn : Turn) (staged : Staged)
    (turn' : Turn) : Prop where
  staging : Staging turn.state now commits Staged.empty staged
  distinct : (commits.map (·.taskId)).Nodup
  works : ∀ runner, Works runner now turn [] turn'
  result : turn' = { state := { turn.state with tasks := overwrite staged.updates turn.state.tasks }
                     deliveries := turn.deliveries ++ staged.deliveries
                     undo := turn.undo ++
                       staged.updates.flatMap (fun update => turn.state.tasks[update.1]?.toList) }

theorem commitOutcomesState_ok {commits : List TaskCommit} {children : List TaskRecord}
    {waits : List (TaskId × TaskWait)}
    (h : commitOutcomesState commits now turn = (.ok (children, waits), turn')) :
    ∃ staged, Commits now commits turn staged turn' ∧ staged.children = children ∧
      staged.waits = waits := by
  simp only [commitOutcomesState, Step.bind_ok, Step.get_ok, Step.lift_ok, Step.modify_ok,
    Step.pure_ok] at h
  obtain ⟨_, _, ⟨rfl, rfl⟩, staged, _, ⟨hstage, rfl⟩, _, turn₁, heach, _, _, rfl, he, rfl⟩ := h
  obtain ⟨hstaging, hnodup, -⟩ := stageOutcomes_ok _ _ _ _ hstage
  obtain ⟨rfl, rfl⟩ := Prod.mk.inj he
  have hindices := hstaging.indices_nodup hnodup
  refine ⟨staged, ⟨hstaging, hnodup, fun runner => ?_, ?_⟩, rfl, rfl⟩
  · obtain ⟨hdel, hworks⟩ := updates_works staged.updates turn turn₁ _ turn.deliveries hindices
      (fun update hu => by
        rcases hstaging.updated update hu with hu | ⟨commit, -, row, ha, conf, lane, outcome, ht⟩
        · cases hu
        · exact ⟨row, conf, lane.retry, outcome, commit.isCancel, ha.stored,
            isActive_of_accepts ha.evidence, ht.concludes⟩) heach
    rw [hdel, hstaging.deliveries rfl]
    exact hworks
  · rw [updates_ok staged.updates turn turn₁ _ hindices heach]

/-! ### Whole turns -/

/-- A fresh turn over a store. -/
def MemoryState.begin (state : MemoryState) : Turn := ⟨state, [], []⟩

/-- The phases a turn compares its lane rows with when it settles. -/
def MemoryState.phases (state : MemoryState) : FMap String LaneOwnerPhase :=
  fun name => (state.laneLocks name).map (·.phase)

variable {claims : List (LaneClaim × Uuid)} {commits : List TaskCommit} {state : MemoryState}
  {children : List TaskRecord} {waits : List (TaskId × TaskWait)} {phases : FMap String LaneOwnerPhase}
  {poll : TaskPoll} {result : TaskPoll × CommitResult}

/-- An empty batch stages nothing. -/
theorem Staging.of_nil {staged final : Staged} (h : Staging state now [] staged final) :
    final = staged := by
  cases h
  rfl

/-- A successful turn: its fallible part, then settling. -/
theorem runTurn_ok (h : runTurn runner claims commits lease now turn = (.ok result, turn')) :
    ∃ children waits phases poll mid,
      fallibleTurn runner claims commits lease now turn = (.ok (children, waits, phases, poll), mid) ∧
      (turn'.state, result) = settleTurn mid children waits phases poll commits now := by
  simp only [runTurn, Step.bind_ok, Step.get_ok, Step.modify_ok, Step.pure_ok] at h
  obtain ⟨⟨children, waits, phases, poll⟩, mid, hf, _, _, ⟨rfl, rfl⟩, _, _, rfl, rfl, rfl⟩ := h
  exact ⟨children, waits, phases, poll, mid, hf, rfl⟩

/-- The fallible part of a claim turn stages nothing. -/
theorem fallibleTurn_claims
    (h : fallibleTurn (some node) claims [] lease now state.begin = (.ok (children, waits, phases, poll),
      turn)) :
    children = [] ∧ waits = [] ∧ phases = state.phases ∧
      claimTasksState node claims lease now state.begin = (.ok poll, turn) := by
  simp only [fallibleTurn, Step.bind_ok, Step.get_ok, Step.pure_ok, Prod.mk.injEq] at h
  obtain ⟨⟨_, _⟩, turn₀, hc, _, _, ⟨rfl, rfl⟩, _, _, hp, ⟨rfl, rfl, rfl, rfl⟩, rfl⟩ := h
  obtain ⟨staged, hcommits, rfl, rfl⟩ := commitOutcomesState_ok hc
  have hempty := hcommits.staging.of_nil
  have hsame : turn₀ = state.begin := by rw [hcommits.result, hempty]; rfl
  subst hsame
  rw [hempty]
  exact ⟨rfl, rfl, rfl, hp⟩

/-- The fallible part of a commit turn claims nothing. -/
theorem fallibleTurn_outcomes
    (h : fallibleTurn none [] commits lease now state.begin = (.ok (children, waits, phases, poll), turn)) :
    commitOutcomesState commits now state.begin = (.ok (children, waits), turn) ∧ phases = state.phases ∧
      poll = { wakeLanes := [], lanes := [] } := by
  simp only [fallibleTurn, Step.bind_ok, Step.get_ok, Step.pure_ok, Prod.mk.injEq] at h
  obtain ⟨⟨_, _⟩, turn₀, hc, _, _, ⟨rfl, rfl⟩, _, _, ⟨rfl, rfl⟩, ⟨rfl, rfl, rfl, rfl⟩, rfl⟩ := h
  obtain ⟨staged, hcommits, -⟩ := commitOutcomesState_ok hc
  refine ⟨hc, ?_, rfl⟩
  rw [hcommits.result]
  rfl

/-- A successful claim turn: events, then settling. -/
theorem runTurn_claims (h : runTurn (some node) claims [] lease now state.begin = (.ok result, turn')) :
    ∃ turn poll, claimTasksState node claims lease now state.begin = (.ok poll, turn) ∧
      (turn'.state, result) = settleTurn turn [] [] state.phases poll [] now := by
  obtain ⟨_, _, _, poll, turn, hf, hsettled⟩ := runTurn_ok h
  obtain ⟨rfl, rfl, rfl, hclaim⟩ := fallibleTurn_claims hf
  exact ⟨turn, poll, hclaim, hsettled⟩

/-- A successful commit turn: the outcomes, then settling. -/
theorem runTurn_outcomes (h : runTurn none [] commits lease now state.begin = (.ok result, turn')) :
    ∃ children waits turn, commitOutcomesState commits now state.begin = (.ok (children, waits), turn) ∧
      (turn'.state, result) = settleTurn turn children waits state.phases
        { wakeLanes := [], lanes := [] } commits now := by
  obtain ⟨children, waits, _, _, turn, hf, hsettled⟩ := runTurn_ok h
  obtain ⟨hc, rfl, rfl⟩ := fallibleTurn_outcomes hf
  exact ⟨children, waits, turn, hc, hsettled⟩

/-- The outcomes of a successful commit turn are a staged batch. -/
theorem runTurn_commits (h : runTurn none [] commits lease now state.begin = (.ok result, turn')) :
    ∃ staged turn, Commits now commits state.begin staged turn ∧
      (turn'.state, result) = settleTurn turn staged.children staged.waits state.phases
        { wakeLanes := [], lanes := [] } commits now := by
  obtain ⟨children, waits, turn, hc, hsettled⟩ := runTurn_outcomes h
  obtain ⟨staged, hcommits, rfl, rfl⟩ := commitOutcomesState_ok hc
  exact ⟨staged, turn, hcommits, hsettled⟩

/-- A claim operation leaves the store alone, or settles what it has claimed. -/
theorem claimOperation_cases (hd : state.Distinct) (node : Uuid) (claims : List (LaneClaim × Uuid))
    (batch : ℕ) (lease : Duration) (now : DateTime) :
    (atomicOperation (some node) claims [] batch lease now state).2 = state ∨
      ∃ turn poll, claimTasksState node claims lease now state.begin = (.ok poll, turn) ∧
        (atomicOperation (some node) claims [] batch lease now state).2 =
          (settleTurn turn [] [] state.phases poll [] now).1 := by
  rcases atomicOperation_cases hd (some node) claims [] batch lease now with
    ⟨error, he⟩ | ⟨result, turn', hrun, hok⟩
  · exact .inl (congrArg Prod.snd he)
  · obtain ⟨turn, poll, hclaims, hsettled⟩ := runTurn_claims hrun
    exact .inr ⟨turn, poll, hclaims, (congrArg Prod.snd hok).trans (congrArg Prod.fst hsettled)⟩

/-- A commit operation leaves the store alone, or settles what it has accepted. -/
theorem commitOperation_cases (hd : state.Distinct) (commits : List TaskCommit) (batch : ℕ) (lease : Duration)
    (now : DateTime) :
    (atomicOperation none [] commits batch lease now state).2 = state ∨
      ∃ staged turn, Commits now commits state.begin staged turn ∧
        (atomicOperation none [] commits batch lease now state).2 =
          (settleTurn turn staged.children staged.waits state.phases
            { wakeLanes := [], lanes := [] } commits now).1 := by
  rcases atomicOperation_cases hd none [] commits batch lease now with
    ⟨error, he⟩ | ⟨result, turn', hrun, hok⟩
  · exact .inl (congrArg Prod.snd he)
  · obtain ⟨staged, turn, hcommits, hsettled⟩ := runTurn_commits hrun
    exact .inr ⟨staged, turn, hcommits, (congrArg Prod.snd hok).trans (congrArg Prod.fst hsettled)⟩

end

end Vyuh.Tasks.Memory
