import Vyuh.Tasks.Runner.Delivery

/-! Requests about one lane are serialized: at most one unresolved request claims or coordinates a lane, or commits
    outcomes of a lane that is owned. The runner looks before it asks; an operation keeps its request until it ends. -/

namespace Vyuh.Tasks
open Lib

/-- Whether a request concerns a lane; outcomes concern only a lane that is owned. -/
def DbRequest.concerns (locked : Bool) (lane : TaskLane) : DbRequest → Bool
  | .heartbeat | .giveBack => false
  | .claim claims | .coordinate claims => claims.any (·.lane = lane)
  | .commit commits _ _ => locked && commits.any (·.lane? = some lane)

namespace DbRequest

@[simp] theorem concerns_claim (locked : Bool) (lane : TaskLane) (claim : LaneClaim) :
    (DbRequest.claim [claim]).concerns locked lane = decide (claim.lane = lane) := by
  simp [concerns]

@[simp] theorem concerns_coordinate (locked : Bool) (lane : TaskLane) (claim : LaneClaim) :
    (DbRequest.coordinate [claim]).concerns locked lane = decide (claim.lane = lane) := by
  simp [concerns]

end DbRequest

namespace TaskRunner

@[simp] theorem restless_lane (running : Bool) (claim : LaneClaim) : (restless running claim).lane = claim.lane := by
  unfold restless
  split <;> rfl

variable {runner next : TaskRunner} {permits : Permits} {now : Instant}

theorem laneBusy_eq (lane : TaskLane) (runner : TaskRunner) :
    runner.laneBusy lane = runner.requests.any fun request => request.concerns (runner.locked lane) lane := rfl

/-- Each lane is concerned by one unresolved request at most. -/
def Serial (runner : TaskRunner) : Prop :=
  ∀ lane, runner.requests.countP (fun request => request.concerns (runner.locked lane) lane) ≤ 1

/-! ### Locks -/

theorem locked_iff (h : runner.NamesDistinct) (lane : TaskLane) : runner.locked lane = true ↔
    ∃ conf ∈ runner.lanes.map (·.conf), conf.lane = lane ∧ conf.laneLock.isSome = true := by
  unfold locked laneNamed
  constructor
  · intro hlocked
    cases hfind : runner.lanes.find? (fun queue => queue.name = lane) with
    | none =>
      rw [hfind] at hlocked
      simp at hlocked
    | some queue =>
      rw [hfind] at hlocked
      have hname : queue.name = lane := by simpa using List.find?_some hfind
      exact ⟨queue.conf, List.mem_map_of_mem (List.mem_of_find?_eq_some hfind), hname, hlocked⟩
  · rintro ⟨conf, hmem, rfl, hlock⟩
    obtain ⟨queue, hqueue, rfl⟩ := List.mem_map.mp hmem
    have hfind : runner.lanes.find? (fun other => other.name = queue.name) = some queue := find?_key h hqueue
    show ((runner.lanes.find? (fun other => other.name = queue.name)).any _) = true
    rw [hfind]
    exact hlock

/-- Which lanes are locked is part of their configuration. -/
theorem locked_congr (h : runner.NamesDistinct) (hconfs : (next.lanes.map (·.conf)).Perm (runner.lanes.map (·.conf)))
    (lane : TaskLane) : next.locked lane = runner.locked lane := by
  have hnext : next.NamesDistinct := by
    have hperm := hconfs.map (·.lane)
    rw [List.map_map, List.map_map] at hperm
    exact hperm.nodup_iff.mpr h
  rw [Bool.eq_iff_iff, locked_iff h, locked_iff hnext]
  constructor
  · rintro ⟨conf, hmem, hrest⟩
    exact ⟨conf, hconfs.subset hmem, hrest⟩
  · rintro ⟨conf, hmem, hrest⟩
    exact ⟨conf, hconfs.symm.subset hmem, hrest⟩

theorem laneBusy_congr (h : runner.NamesDistinct) (hconfs : (next.lanes.map (·.conf)).Perm (runner.lanes.map (·.conf)))
    (hflight : next.inFlight = runner.inFlight) (lane : TaskLane) : next.laneBusy lane = runner.laneBusy lane := by
  rw [laneBusy_eq, laneBusy_eq, locked_congr h hconfs, show next.requests = runner.requests from
    congrArg requestsOf hflight]

namespace Serial

/-- Fewer requests over the same lanes. -/
theorem fewer (h : runner.Serial) (hn : runner.NamesDistinct)
    (hconfs : (next.lanes.map (·.conf)).Perm (runner.lanes.map (·.conf)))
    (hrequests : next.requests.Subperm runner.requests) : next.Serial := by
  intro lane
  rw [locked_congr hn hconfs]
  exact (hrequests.countP_le _).trans (h lane)

theorem subsides (h : runner.Serial) (hn : runner.NamesDistinct) (hs : Subsides runner next) : next.Serial :=
  h.fewer hn hs.confs hs.requests

end Serial

/-! ### Looking before asking -/

theorem coordinateRequest_free {request : DbRequest} (h : runner.coordinateRequest permits now = some (request, next))
    {locked : Bool} {lane : TaskLane} (hconcerns : request.concerns locked lane = true) :
    runner.laneBusy lane = false := by
  obtain ⟨selected, hfind, heq⟩ := Option.map_eq_some_iff.mp h
  obtain ⟨rfl, -⟩ := Prod.mk.inj heq
  have hname : selected.name = lane := by
    rw [DbRequest.concerns_coordinate, restless_lane, decide_eq_true_eq] at hconcerns
    exact hconcerns
  have hfree := List.find?_some hfind
  unfold coordinates at hfree
  simp only [Bool.and_eq_true, Bool.not_eq_true'] at hfree
  rw [← hname]
  exact hfree.1.2

/-- A flush takes no outcome of an owned lane that is busy. -/
theorem flushCount_free (runner : TaskRunner) (budget : ℕ) : ∀ (commits : List TaskCommit) (weight : ℕ),
    ∀ commit ∈ commits.take (runner.flushCount budget weight commits), runner.blocked commit = false
  | [], _, commit, hmem => by simp at hmem
  | first :: commits, weight, commit, hmem => by
    rw [flushCount] at hmem
    split at hmem
    · simp at hmem
    · next hfree =>
      simp only at hmem
      split at hmem
      · rw [List.take_succ_cons] at hmem
        rcases List.mem_cons.mp hmem with rfl | hrest
        · simpa using hfree
        · exact flushCount_free runner budget commits _ commit hrest
      · simp at hmem

theorem flushRequest_free {request : DbRequest} (h : runner.flushRequest now permits = some (request, next))
    {lane : TaskLane} (hconcerns : request.concerns (runner.locked lane) lane = true) :
    runner.laneBusy lane = false := by
  rw [flushRequest_eq] at h
  split at h
  · obtain ⟨rfl, -⟩ := Prod.mk.inj (Option.some.inj h)
    unfold deliveryRequest DbRequest.concerns at hconcerns
    simp only [Bool.and_eq_true, List.any_eq_true, decide_eq_true_eq] at hconcerns
    obtain ⟨hlocked, commit, hmem, hlane⟩ := hconcerns
    have hsize := runner.flushSize_le
    have hprefix : commit ∈ (runner.outputBuffer.take runner.conf.commitBatchSize).take runner.flushSize := by
      rw [List.take_take, Nat.min_eq_left (by omega)]
      exact hmem
    have hfree := runner.flushCount_free runner.flushBudget _ 0 commit hprefix
    unfold blocked at hfree
    rw [hlane, Option.any_some, hlocked, Bool.true_and] at hfree
    exact hfree
  · simp at h

theorem admitLane_lane {capacity : ℕ} {lane : LaneState} {claim : LaneClaim}
    (h : (runner.admitLane permits capacity now lane).1 = some claim) : claim.lane = lane.name := by
  unfold admitLane at h
  split at h
  · simp only at h
    split at h
    · rw [← Option.some.inj h, restless_lane]
      rfl
    · simp at h
  · simp only at h
    generalize hlimit : (if runner.hasFlows lane.name = true then
      (_, lane) else lane.claimLimit _ now) = limited at h
    have hname : limited.2.name = lane.name := by
      rw [← hlimit]
      split
      · rfl
      · exact congrArg (fun entry => entry.1.lane) (LaneState.entry_claimLimit ..)
    split at h
    · rw [← Option.some.inj h]
      exact hname
    · simp at h

theorem rotate_free (capacity : ℕ) : ∀ (rounds : ℕ) (runner : TaskRunner), runner.NamesDistinct →
    ∀ request, (rotate permits capacity now rounds runner).1 = some request → ∀ locked lane,
      request.concerns locked lane = true → runner.laneBusy lane = false
  | 0, _, _, _, h, _, _, _ => by simp [rotate] at h
  | rounds + 1, runner, hn, request, h, locked, lane, hconcerns => by
    rw [rotate] at h
    cases hlanes : runner.lanes with
    | nil =>
      rw [hlanes] at h
      simp at h
    | cons front rest =>
      rw [hlanes] at h
      simp only at h
      generalize hadmit : (if (!runner.laneBusy front.name && decide (front.pollAfter ≤ now)) = true then
        admitLane permits capacity now { runner with lanes := rest } front else (none, front)) = admitted at h
      have hentry : admitted.2.entry = front.entry := by
        rw [← hadmit]
        split
        · exact entry_admitLane ..
        · rfl
      have hclaims (claim : LaneClaim) (hclaim : admitted.1 = some claim) :
          claim.lane = front.name ∧ runner.laneBusy front.name = false := by
        rw [← hadmit] at hclaim
        split at hclaim
        · next heligible =>
          simp only [Bool.and_eq_true, Bool.not_eq_true'] at heligible
          exact ⟨admitLane_lane hclaim, heligible.1⟩
        · simp at hclaim
      obtain ⟨claim, front'⟩ := admitted
      cases claim with
      | none =>
        have hquiet : Quiet runner { runner with lanes := rest ++ [front'] } := by
          refine .ofLanes ?_
          rw [hlanes, List.map_append, List.map_cons, List.map_nil, hentry]
          exact List.perm_append_singleton ..
        have hturn := Subsides.ofQuiet hquiet
        have hfree := rotate_free capacity rounds _ (hturn.names hn) request h locked lane hconcerns
        rwa [laneBusy_congr hn hturn.confs rfl] at hfree
      | some claim =>
        obtain ⟨hlane, hfree⟩ := hclaims claim rfl
        obtain rfl := Option.some.inj h
        rw [DbRequest.concerns_claim, decide_eq_true_eq] at hconcerns
        rwa [← hconcerns, hlane]

theorem claimRequest_free {request : DbRequest} (hn : runner.NamesDistinct)
    (h : (runner.claimRequest permits now).1 = some request) {locked : Bool} {lane : TaskLane}
    (hconcerns : request.concerns locked lane = true) : runner.laneBusy lane = false := by
  unfold claimRequest at h
  split at h
  · simp at h
  · exact rotate_free _ _ runner hn request h locked lane hconcerns

/-- Whatever is asked for next, no unresolved request concerns its lanes. -/
theorem nextRequest_free {request : DbRequest} (hn : runner.NamesDistinct)
    (h : runner.nextRequest permits now = (some request, next)) {lane : TaskLane}
    (hconcerns : request.concerns (runner.locked lane) lane = true) : runner.laneBusy lane = false := by
  unfold nextRequest at h
  split at h
  · next beat hbeat =>
    obtain rfl := Option.some.inj (Prod.mk.inj h).1
    unfold heartbeatRequest at hbeat
    simp only at hbeat
    split at hbeat
    · obtain rfl := Option.some.inj hbeat
      simp [DbRequest.concerns] at hconcerns
    · simp at hbeat
  · split at h
    · next hcoord =>
      obtain rfl := Option.some.inj (Prod.mk.inj h).1
      exact coordinateRequest_free hcoord hconcerns
    · split at h
      · next hflush =>
        obtain rfl := Option.some.inj (Prod.mk.inj h).1
        exact flushRequest_free hflush hconcerns
      · exact claimRequest_free hn (congrArg Prod.fst h) hconcerns

/-! ### Turns -/

namespace Serial

/-- A request that was looked for before it was asked. -/
theorem start {request : DbRequest} (h : runner.Serial) (hn : runner.NamesDistinct) (hasks : Asks request runner next)
    (now : Instant) {id : Uuid} (hfresh : runner.inFlight.lookup id = none)
    (hfree : ∀ lane, request.concerns (runner.locked lane) lane = true → runner.laneBusy lane = false) :
    (next.startDatabase now id request).Serial := by
  intro lane
  have hlocked : (next.startDatabase now id request).locked lane = runner.locked lane :=
    locked_congr hn (confs_of_entries hasks.entries) lane
  rw [hlocked, hasks.requests now hfresh, List.countP_cons]
  split
  · next hconcerns =>
    have hbusy := hfree lane hconcerns
    rw [laneBusy_eq, List.any_eq_false] at hbusy
    rw [List.countP_eq_zero.mpr hbusy]
  · exact h lane

theorem admitPass (permits : Permits) (h : runner.Serial) (hn : runner.NamesDistinct) (now : Instant) {id : Uuid}
    (hfresh : runner.inFlight.lookup id = none) : (runner.admitPass permits now id).2.Serial := by
  rcases admitPass_cases permits now id runner with ⟨retry, heq⟩ | hquiet | ⟨request, next, hnext, hasks, -, heq⟩
  · rw [heq]
    exact h.subsides hn (Subsides.retryDatabase retry runner)
  · exact h.subsides hn (.ofQuiet hquiet)
  · rw [heq]
    exact h.start hn hasks now hfresh fun _ hconcerns => nextRequest_free hn hnext hconcerns

theorem admitReady (permits : Permits) {ledger : Ledger} (hsound : Sound runner ledger) (h : runner.Serial)
    (now : Instant) {ids : List Uuid} (hnodup : ids.Nodup) (hfresh : ∀ id ∈ ids, runner.inFlight.lookup id = none) :
    (runner.admitReady permits now ids).Serial := by
  have hboth : Sound (runner.admitReady permits now ids) ledger ∧ (runner.admitReady permits now ids).Serial := by
    refine admitReady_inv (I := fun runner => Sound runner ledger ∧ runner.Serial) ?_ ?_ ⟨hsound, h⟩ hnodup hfresh
    · rintro runner id ⟨hsound, h⟩ hid
      exact ⟨hsound.admitPass permits now hid, h.admitPass permits hsound.names now hid⟩
    · exact ⟨hsound.expire now, h.subsides hsound.names (Subsides.expire now runner)⟩
  exact hboth.2

theorem giveBack (h : runner.Serial) (hn : runner.NamesDistinct) (now : Instant) {id : Uuid}
    (hfresh : runner.inFlight.lookup id = none) : (runner.giveBack now id).Serial := by
  unfold TaskRunner.giveBack
  split
  · exact h.start hn (.ofQuiet (.refl runner) rfl) now hfresh fun _ hconcerns => absurd hconcerns Bool.false_ne_true
  · exact h

/-- Outcomes are buffered; that asks for nothing yet. -/
theorem complete (h : runner.Serial) (hn : runner.NamesDistinct) (now : Instant) (completion : Completion) :
    (runner.acceptCompletion now completion).Serial := by
  unfold acceptCompletion
  split
  · exact h
  · refine h.fewer hn ?_ (.refl _)
    refine .of_eq ?_
    refine (modifyFirst_map LaneState.conf _ _ ?_ _).trans (modifyFirst_map LaneState.conf _ _ ?_ _)
    · exact fun _ _ => rfl
    · exact fun _ _ => rfl

/-- A new invocation is in no request. -/
theorem spawn {execution : TaskExecution} (h : runner.Serial) (hn : runner.NamesDistinct)
    (hspawn : Spawns execution runner next) : next.Serial := by
  obtain ⟨mid, hsheds, -, rfl⟩ := hspawn
  have hsubsides := Subsides.ofSheds hsheds hn
  exact h.fewer hn hsubsides.confs hsubsides.requests

end Serial

end TaskRunner

/-! ### Runs -/

namespace RunnerProcess

section

variable [RecordLayout] [Serde] {alloc : Allocator} {limits : OutcomeLimits}

theorem serial_step {process next : RunnerProcess} {label : Reading × RunnerTurn}
    (hsound : Sound process.runner process.ledger) (h : process.runner.Serial)
    (hstep : Step alloc limits process label next) : next.runner.Serial := by
  obtain ⟨⟨-, henabled⟩, rfl⟩ := hstep
  obtain ⟨reading, turn⟩ := label
  have hn := hsound.names
  cases turn with
  | input snapshot => exact h.subsides hn (.ofQuiet (TaskRunner.quiet_acceptInput snapshot _))
  | control event => exact h.subsides hn (.ofQuiet (TaskRunner.quiet_acceptEvent reading.now event _))
  | hook ended => exact h.subsides hn (.ofQuiet (TaskRunner.quiet_acceptHook reading.now ended _))
  | admission ids => exact .admitReady reading.permits hsound h reading.now henabled.2.1 henabled.2.2
  | giveBack id => exact h.giveBack hn reading.now henabled
  | answer id answer => exact h.subsides hn (.applyDatabase alloc reading.permits reading.now id answer hn)
  | shutdown => exact h.subsides hn (.shutdown _)
  | expire => exact h.subsides hn (.expire reading.now _)
  | dispatch index id =>
    unfold apply
    simp only
    rcases TaskRunner.dispatch_cases limits reading.permits reading.now index id process.runner hsound.running with
      ⟨next, heq, hquiet⟩ | ⟨execution, next, heq, -, -, hspawn⟩
    · rw [heq]
      exact h.subsides hn (.ofQuiet hquiet)
    · rw [heq]
      exact h.spawn hn hspawn
  | finish index outcomes =>
    obtain ⟨execution, hget, -, -⟩ := henabled
    unfold apply
    simp only [hget]
    exact h.complete hn reading.now _

/-- In every state a run reaches, at most one unresolved request claims or coordinates a lane, or commits outcomes of
    it where the lane is owned by one runner at a time. -/
theorem lanes_serialized {conf : RunnerConf} {node : Uuid} {now : Instant} {clustered : Bool}
    {turns : List (Reading × RunnerTurn)} {process : RunnerProcess}
    (hrun : Run (Step alloc limits) (start conf node now clustered) turns process) (lane : TaskLane) :
    (process.runner.requests.countP fun request => request.concerns (process.runner.locked lane) lane) ≤ 1 := by
  have hstart : (start conf node now clustered).runner.Serial := by
    intro lane
    cases clustered <;> exact Nat.zero_le 1
  have hinv : Sound process.runner process.ledger ∧ process.runner.Serial :=
    hrun.inv (I := fun process => Sound process.runner process.ledger ∧ process.runner.Serial)
      (fun _ _ _ h hstep => ⟨sound_step h.1 hstep, serial_step h.1 h.2 hstep⟩)
      ⟨sound_start conf node now clustered, hstart⟩
  exact hinv.2 lane

end

attribute [local instance] flatLayout anySerde

/-- Two free database slots, one lane to ask about. -/
def claiming : RunnerProcess :=
  (start oneLane 7 0 false).apply anyAlloc ⟨1, 1⟩ ⟨0, ⟨1, fun _ => 1, 1⟩⟩ (.admission [2, 3])

/-- The lane is claimed once. -/
theorem lanes_serialized_claiming : claiming.runner.requests.length = 1 ∧
    (claiming.runner.requests.countP fun request =>
      request.concerns (claiming.runner.locked narrowLane.lane) narrowLane.lane) ≤ 1 := by
  have hrun : Run (Step anyAlloc ⟨1, 1⟩) (start oneLane 7 0 false)
      [(⟨0, ⟨1, fun _ => 1, 1⟩⟩, .admission [2, 3])] claiming :=
    .single ⟨⟨rfl, rfl, by decide, fun _ _ => rfl⟩, rfl⟩
  exact ⟨rfl, lanes_serialized hrun narrowLane.lane⟩

end RunnerProcess

end Vyuh.Tasks
