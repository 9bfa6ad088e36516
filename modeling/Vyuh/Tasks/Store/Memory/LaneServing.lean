import Vyuh.Tasks.Store.Memory.LaneClaims
import Vyuh.Tasks.Store.Memory.LaneWindow
import Vyuh.Tasks.Store.Memory.Permits
import Vyuh.Tasks.Store.Memory.Runs

/-! What one lane's turn claims, locked or not. `Serves` is the whole of a claim on one lane: the first
    pass, the reservation of permits, the second pass and the wake the poll carries. An unlocked lane is
    always served; a locked one when its row opens a cohort (`claimsCohort`), and otherwise the turn
    hands out nothing and pays nothing. -/

namespace Vyuh.Tasks.Memory
open Lib

/-- What a claim on one lane works with. -/
structure LaneWindow where
  lane : TaskLane
  conf : TaskLaneConf
  limit : ℕ
  now : DateTime

namespace LaneWindow

/-- The lane's queue after the first pass. -/
def queue (w : LaneWindow) (tasks : List TaskRecord) : List ℕ :=
  standing tasks w.lane.asStr w.limit w.now w.conf.retry

/-- The permits the claim asks for: one for every wanted Work task that stands, in a locked lane at most
    as many as its cohort holds. -/
def wanted (w : LaneWindow) (tasks : List TaskRecord) : ℕ :=
  let work := (w.queue tasks).countP (rowMeets tasks wantedWork)
  if w.conf.laneLock.isSome then min work w.limit else work

/-- The lane's bucket; a lane without one starts full. -/
def bucket (w : LaneWindow) (rate : TaskRate) (rates : FMap String RateBucket) : RateBucket :=
  (rates w.lane.asStr).getD (RateBucket.full rate w.now)

/-- The bucket as a reservation finds it. -/
def refilled (w : LaneWindow) (rate : TaskRate) (rates : FMap String RateBucket) : RateBucket :=
  (refill rate w.now (w.bucket rate rates)).2

/-- The permits the claim reserves. -/
def reserved (w : LaneWindow) (state : MemoryState) : ℕ :=
  match w.conf.globalRate with
  | none => w.wanted state.tasks
  | some rate =>
    min (availablePermits (w.refilled rate state.rates).tokensMicros) (w.wanted state.tasks)

end LaneWindow

/-- The window of a request on a configured lane: a cohort, or a bounded batch. -/
def laneWindow (laneConf : TaskLaneConf) (claim : LaneClaim) (now : DateTime) : LaneWindow where
  lane := claim.lane
  conf := laneConf
  limit := if laneConf.laneLock.isSome then cohortSize laneConf else min claim.limit laneConf.claimBatchSize
  now := now

def hasFlows (conf : TaskStoreConf) : Bool := conf.handlers.any (fun entry => entry.2 = .flow)

section

variable [Serde]

/-- A claim on one lane that was granted `permits`. -/
structure Serves (node : Uuid) (conf : TaskStoreConf) (w : LaneWindow) (permits : ℕ)
    (rateWake : Option Duration) (turn : Turn) (poll : LanePoll) (turn' : Turn) : Prop where
  passes : ∃ rows, Fails w.now conf w.conf.retry ((waiting turn.state.tasks w.lane.asStr w.now).take w.limit)
      turn.state.tasks rows ∧
    Grants node w.now (selected turn.state.tasks (w.queue turn.state.tasks) permits w.limit) rows
      poll.tasks turn'.state.tasks
  pays : reservePermits w.lane (w.wanted turn.state.tasks) w.conf.globalRate w.now turn.state.rates =
    (.ok (permits, rateWake), turn'.state.rates)
  lane : poll.lane = w.lane
  saturated : poll.saturated = (decide (0 < w.limit) && decide (w.limit ≤
    (selectable turn.state.tasks (w.queue turn.state.tasks) permits).length))
  wakes : poll.nextWakeIn = effectiveLaneWake (decide (permits < w.wanted turn.state.tasks)) rateWake
    (taskDeadline turn'.state.tasks w.lane.asStr w.now) (hasFlows conf)

variable {node : Uuid} {conf : TaskStoreConf} {w : LaneWindow} {permits : ℕ} {rateWake : Option Duration}
  {failed turn turn' : Turn} {poll : LanePoll}

/-- The rows a claim hands out, with the rows they were before the turn. -/
theorem Serves.granted (h : Serves node conf w permits rateWake turn poll turn') :
    List.Forall₂ (fun i task => turn'.state.tasks[i]? = some task ∧ ∃ row,
        turn.state.tasks[i]? = some row ∧ grant node w.now row = (.ok (), task))
      (selected turn.state.tasks (w.queue turn.state.tasks) permits w.limit) poll.tasks := by
  obtain ⟨rows, hfails, hgrants⟩ := h.passes
  have hstood : ∀ i ∈ selected turn.state.tasks (w.queue turn.state.tasks) permits w.limit,
      rows[i]? = turn.state.tasks[i]? := fun i hi =>
    hfails.standing_kept ((selected_sublist _ _ _ _).subset hi)
  refine ((List.forall₂_and_left _ _).mpr ⟨hstood, hgrants.granted⟩).imp ?_
  rintro i task ⟨hrow, hnew, row, hold, hg⟩
  exact ⟨hnew, row, hrow ▸ hold, hg⟩

/-- What a claim leaves of each row: the row, the row failed as finished, or the row granted. -/
theorem Serves.moves (h : Serves node conf w permits rateWake turn poll turn') :
    Rows (fun r r' => r' = r ∨ Concludes conf w.conf.retry w.now (exhaustedOutcome r.cancelled) r r' ∨
      grant node w.now r = (.ok (), r') ∧ ∃ i ∈ selected turn.state.tasks (w.queue turn.state.tasks) permits
        w.limit, turn.state.tasks[i]? = some r) turn.state.tasks turn'.state.tasks := by
  have hgranted := h.granted
  obtain ⟨rows, hfails, hgrants⟩ := h.passes
  refine rows_of_get (hgrants.length.trans hfails.length) fun i r hr => ?_
  by_cases hi : i ∈ selected turn.state.tasks (w.queue turn.state.tasks) permits w.limit
  · obtain ⟨n, hn, hget⟩ := List.getElem_of_mem hi
    obtain ⟨hlen, hall⟩ := List.forall₂_iff_get.mp hgranted
    obtain ⟨hnew, row, hold, hg⟩ := hall n hn (hlen ▸ hn)
    rw [List.get_eq_getElem, hget] at hnew hold
    obtain rfl := Option.some.inj (hr.symm.trans hold)
    exact ⟨_, hnew, .inr (.inr ⟨hg, i, hi, hr⟩)⟩
  · rw [hgrants.kept i hi]
    by_cases hover : i ∈ (waiting turn.state.tasks w.lane.asStr w.now).take w.limit ∧
        rowMeets turn.state.tasks (finalizes w.conf.retry) i = true
    · have hfinished : finalizes w.conf.retry r = true := by
        obtain ⟨row, hrow, ho⟩ := rowMeets_iff.mp hover.2
        obtain rfl := Option.some.inj (hr.symm.trans hrow)
        exact ho
      obtain ⟨r', hr', hc⟩ := hfails.ended i hover.1 r hr hfinished
      exact ⟨r', hr', .inr (.inl hc)⟩
    · rw [hfails.kept i fun hm => Bool.eq_false_of_not_eq_true fun ho => hover ⟨hm, ho⟩]
      exact ⟨r, hr, .inl rfl⟩

omit [Serde] in
/-- What stands in a window's queue is due in its lane. -/
theorem LaneWindow.queue_due {tasks : List TaskRecord} {i : ℕ} {row : TaskRecord} (hi : i ∈ w.queue tasks)
    (hrow : tasks[i]? = some row) : row.lane = w.lane.asStr ∧ isDue row w.now = true := by
  rw [LaneWindow.queue, standing_eq_filter] at hi
  obtain ⟨row', hold, hlane, hdue⟩ := mem_waiting.mp (List.mem_filter.mp hi).1
  obtain rfl := Option.some.inj (hrow.symm.trans hold)
  exact ⟨hlane, hdue⟩

omit [Serde] in
/-- A reservation grants the whole permits of the refilled bucket, up to the limit. -/
theorem reserveBucket_grants {rate : TaskRate} {limit : ℕ} {now : DateTime} {bucket bucket' : RateBucket}
    (h : reserveBucket rate limit now bucket = (.ok (permits, rateWake), bucket')) :
    ∃ refilled, refill rate now bucket = (.ok (), refilled) ∧
      permits = min (availablePermits refilled.tokensMicros) limit := by
  simp only [reserveBucket, Step.bind_ok, Step.get_ok, Step.modify_ok, Step.pure_ok] at h
  obtain ⟨_, refilled, hrefill, _, _, ⟨rfl, rfl⟩, _, _, rfl, _, _, ⟨rfl, rfl⟩, hp, -⟩ := h
  exact ⟨_, hrefill, (Prod.mk.inj hp).1.symm⟩

/-- A claim reserves what it can. -/
theorem Serves.reserves (h : Serves node conf w permits rateWake turn poll turn') :
    permits = w.reserved turn.state := by
  have hpays := h.pays
  by_cases hzero : w.wanted turn.state.tasks = 0
  · simp only [hzero, reservePermits, if_true] at hpays
    obtain ⟨rfl, -⟩ := Prod.mk.inj (Step.pure_ok.mp hpays).1
    rw [LaneWindow.reserved, hzero]
    cases w.conf.globalRate <;> simp
  · cases hrate : w.conf.globalRate with
    | none =>
      simp only [hrate, reservePermits, if_neg hzero] at hpays
      obtain ⟨rfl, -⟩ := Prod.mk.inj (Step.pure_ok.mp hpays).1
      rw [LaneWindow.reserved, hrate]
    | some rate =>
      rw [hrate, reservePermits_rated _ hzero, Step.zoom_ok] at hpays
      obtain ⟨paid, hrun, -⟩ := hpays
      obtain ⟨refilled, hrefill, hgrants⟩ := reserveBucket_grants hrun
      have hrefilled : w.refilled rate turn.state.rates = refilled := congrArg Prod.snd hrefill
      rw [LaneWindow.reserved, hrate]
      simp only [hrefilled]
      exact hgrants

/-- The last step of a claim, after the first pass and the reservation. -/
theorem claimLaneState_serves {paid : Turn} {reservation : ClaimReservation} {rates : FMap String RateBucket}
    (hconf : turn.state.conf = some conf) (hlane : reservation.claim.lane = w.lane)
    (hlimit : reservation.claim.limit = w.limit)
    (hwanted : reservation.candidates = w.wanted turn.state.tasks) (hframe : RowsOnly turn failed)
    (hfails : Fails w.now conf w.conf.retry ((waiting turn.state.tasks w.lane.asStr w.now).take w.limit)
      turn.state.tasks failed.state.tasks)
    (hpays : reservePermits w.lane (w.wanted turn.state.tasks) w.conf.globalRate w.now turn.state.rates =
      (.ok (reservation.permits, reservation.rateWake), rates))
    (hpaid : paid.state = { failed.state with rates := rates })
    (h : claimLaneState node reservation w.now paid = (.ok poll, turn')) :
    Serves node conf w reservation.permits reservation.rateWake turn poll turn' := by
  simp only [claimLaneState, Step.bind_ok, Step.get_ok, Step.pure_ok] at h
  obtain ⟨inner, turn', h, _, _, ⟨rfl, rfl⟩, rfl, rfl⟩ := h
  obtain ⟨hgranting, hgrants, hnamed, hsaturated⟩ := claimLane_grants h
  have htasks : paid.state.tasks = failed.state.tasks := by rw [hpaid]
  have hqueue : waiting failed.state.tasks w.lane.asStr w.now = w.queue turn.state.tasks :=
    hfails.waiting_eq
  have hrows : ∀ i ∈ w.queue turn.state.tasks, failed.state.tasks[i]? = turn.state.tasks[i]? :=
    fun i hi => hfails.standing_kept hi
  have hrates : turn'.state.rates = rates := by rw [hgranting, hpaid]
  have hpost : turn'.state.conf = some conf := by rw [hgranting, hpaid, hframe, hconf]
  rw [hlane, hlimit, htasks, hqueue] at hgrants hsaturated
  rw [selected_congr _ _ hrows] at hgrants
  rw [selectable_congr _ hrows] at hsaturated
  refine ⟨⟨_, hfails, hgrants⟩, hrates ▸ hpays, hnamed.trans hlane, hsaturated, ?_⟩
  simp only [hpost, hlane, hwanted, Option.any_some, hasFlows]

/-- What a claim asks permits for, counted after the first pass. -/
theorem Fails.work_standing {lane : String} {limit : ℕ} {now : DateTime} {retry : TaskRetry}
    (h : Fails now conf retry ((waiting turn.state.tasks lane now).take limit) turn.state.tasks
      failed.state.tasks) :
    workCandidates failed.state.tasks lane now =
      (standing turn.state.tasks lane limit now retry).countP (rowMeets turn.state.tasks wantedWork) := by
  rw [workCandidates_eq, h.waiting_eq]
  refine List.countP_congr fun i hi => ?_
  rw [rowMeets, h.standing_kept hi]
  rfl

/-! ### Unlocked lanes -/

theorem claimUnowned_serves {claim : LaneClaim} {laneConf : TaskLaneConf} {now : DateTime}
    (hconf : turn.state.conf = some conf) (hlane : conf.laneOf claim.lane = some laneConf)
    (hopen : laneConf.laneLock.isSome = false)
    (h : claimUnowned node claim conf laneConf now turn = (.ok poll, turn')) :
    ∃ permits rateWake, Serves node conf (laneWindow laneConf claim now) permits rateWake turn poll turn' := by
  have hlimit : (laneWindow laneConf claim now).limit = min claim.limit laneConf.claimBatchSize := by
    rw [laneWindow, hopen, if_neg Bool.false_ne_true]
  simp only [claimUnowned, Step.bind_ok, Step.get_ok, Step.lift_ok] at h
  obtain ⟨_, _, ⟨rfl, rfl⟩, retry, _, ⟨hretry, rfl⟩, _, failed, hfail, _, _, ⟨rfl, rfl⟩, rate, _,
    ⟨hrate, rfl⟩, ⟨permits, rateWake⟩, paid, hpay, h⟩ := h
  obtain ⟨hframe, hfailed⟩ := failExhausted_fails hfail
  have hpolicy : retry = laneConf.retry := by
    simp only [configuredRetry, boundedClaim, hconf, Option.bind_some, hlane, Except.ok.injEq] at hretry
    exact hretry.symm
  have hglobal : rate = laneConf.globalRate := by
    have hsame : failed.state.conf = some conf := by rw [hframe, hconf]
    simp only [configuredRate, boundedClaim, hsame, Option.bind_some, hlane, Except.ok.injEq] at hrate
    exact hrate.symm
  subst hpolicy hglobal
  have hwanted : workCandidates failed.state.tasks claim.lane.asStr now =
      (laneWindow laneConf claim now).wanted turn.state.tasks := by
    have hcount := hfailed.work_standing
    rw [LaneWindow.wanted, LaneWindow.queue, hlimit]
    simp only [laneWindow, hopen, Bool.false_eq_true, if_false]
    exact hcount
  obtain ⟨rates, hreserve, hpaid⟩ := Step.zoom_ok.mp hpay
  have hkept : failed.state.rates = turn.state.rates := by rw [hframe]
  have hpays : reservePermits claim.lane ((laneWindow laneConf claim now).wanted turn.state.tasks)
      laneConf.globalRate now turn.state.rates = (.ok (permits, rateWake), rates) := by
    rw [← hwanted, ← hkept]
    exact hreserve
  have hfails : Fails now conf laneConf.retry ((waiting turn.state.tasks claim.lane.asStr now).take
      (laneWindow laneConf claim now).limit) turn.state.tasks failed.state.tasks := by
    rw [hlimit]
    exact hfailed
  have hserves := claimLaneState_serves (w := laneWindow laneConf claim now) hconf rfl hlimit.symm
    hwanted hframe hfails (by exact hpays) (by rw [← hpaid]) h
  exact ⟨permits, rateWake, hserves⟩

/-! ### Locked lanes -/

/-- The window of an owner's request. -/
def MemoryOwnerTurn.window (request : MemoryOwnerTurn) : LaneWindow :=
  laneWindow request.lane request.claim request.now

theorem memoryClaim_serves {request : MemoryOwnerTurn} {s s' : OwnerState}
    (hconf : s.turn.state.conf = some conf) (hlocked : request.lane.laneLock.isSome = true)
    (h : memoryClaim request s = (.ok poll, s')) :
    ∃ permits rateWake, Serves request.runnerId conf request.window permits rateWake s.turn poll s'.turn := by
  have hlimit : request.window.limit = cohortSize request.lane := by
    rw [MemoryOwnerTurn.window, laneWindow, hlocked, if_pos rfl]
  simp only [memoryClaim, Step.bind_ok, Step.get_ok] at h
  obtain ⟨_, _, ⟨rfl, rfl⟩, h⟩ := h
  rw [hconf] at h
  simp only [Step.bind_ok, Step.get_ok, Step.pure_ok] at h
  obtain ⟨_, _, hfail, _, _, ⟨rfl, rfl⟩, ⟨permits, rateWake⟩, _, hpay, inner, _, hclaim, _, _, ⟨rfl, rfl⟩,
    rfl, rfl⟩ := h
  obtain ⟨failed, hfailed, rfl⟩ := Step.zoom_ok.mp hfail
  obtain ⟨paid, hpaying, rfl⟩ := Step.zoom_ok.mp hpay
  obtain ⟨turn', hclaiming, rfl⟩ := Step.zoom_ok.mp hclaim
  obtain ⟨hframe, hfailed⟩ := failExhausted_fails hfailed
  have hwanted : min (workCandidates failed.state.tasks request.claim.lane.asStr request.now)
      (cohortSize request.lane) = request.window.wanted s.turn.state.tasks := by
    have hcount := hfailed.work_standing
    rw [LaneWindow.wanted, LaneWindow.queue, hlimit]
    simp only [MemoryOwnerTurn.window, laneWindow, hlocked, if_true]
    exact congrArg (min · _) hcount
  obtain ⟨rates, hreserve, hpaid⟩ := Step.zoom_ok.mp hpaying
  have hkept : failed.state.rates = s.turn.state.rates := by rw [hframe]
  have hpays : reservePermits request.claim.lane (request.window.wanted s.turn.state.tasks)
      request.lane.globalRate request.now s.turn.state.rates = (.ok (permits, rateWake), rates) := by
    rw [← hwanted, ← hkept]
    exact hreserve
  have hfails : Fails request.now conf request.lane.retry
      ((waiting s.turn.state.tasks request.claim.lane.asStr request.now).take request.window.limit)
      s.turn.state.tasks failed.state.tasks := by
    rw [hlimit]
    exact hfailed
  have hserves := claimLaneState_serves (w := request.window) hconf rfl hlimit.symm
    hwanted hframe hfails (by exact hpays) (by rw [← hpaid]) hclaiming
  exact ⟨permits, rateWake, ⟨hserves.passes, hserves.pays, hserves.lane, hserves.saturated,
    hserves.wakes⟩⟩

omit [Serde] in
instance (request : MemoryOwnerTurn) (s : OwnerState) : Decidable (FlushReady request s) :=
  inferInstanceAs (Decidable (_ ∧ _ ∧ _ ∧ _))

omit [Serde] in
/-- Whether the request comes to own the row, and the row as its hook result leaves it lets the request
    claim. -/
def claimsCohort (request : MemoryOwnerTurn) (s : OwnerState) : Bool :=
  match memoryOwner request s.owner with
  | (.ok true, leased) =>
    match memoryHook request ⟨s.turn, leased⟩ with
    | (.ok _, s) => decide (memoryAction s.owner.phase = none) && decide (FlushReady request s) &&
        request.claim.owner.any (·.allowClaim)
    | _ => false
  | _ => false

/-- Opening the cohort claims from it when the request allows, and otherwise answers. -/
theorem memoryFlushOpen_serves {request : MemoryOwnerTurn} {s s' : OwnerState}
    (hconf : s.turn.state.conf = some conf) (hlocked : request.lane.laneLock.isSome = true)
    (h : memoryFlushOpen request s = (.ok poll, s')) :
    (request.claim.owner.any (·.allowClaim) = true ∧ ∃ permits rateWake,
      Serves request.runnerId conf request.window permits rateWake s.turn poll s'.turn) ∨
    (request.claim.owner.any (·.allowClaim) = false ∧ poll.tasks = [] ∧ s'.turn = s.turn) := by
  rw [memoryFlushOpen, Step.bind_ok] at h
  obtain ⟨_, _, hopen, h⟩ := h
  obtain ⟨row, -, rfl⟩ := Step.zoom_ok.mp hopen
  split at h
  · next hallow => exact .inl ⟨hallow, memoryClaim_serves (s := ⟨s.turn, row⟩) hconf hlocked h⟩
  · next hallow =>
    simp only [answer, Step.bind_ok, Step.get_ok, Step.pure_ok] at h
    obtain ⟨_, _, ⟨rfl, rfl⟩, rfl, rfl⟩ := h
    exact .inr ⟨Bool.eq_false_of_not_eq_true hallow, rfl, rfl⟩

/-- The rows of other lanes stay. -/
def Elsewhere (lane : String) (rows rows' : List TaskRecord) : Prop :=
  Rows (fun r r' => r'.lane = r.lane ∧ (r.lane ≠ lane → r' = r)) rows rows'

omit [Serde] in
theorem Elsewhere.refl (lane : String) (rows : List TaskRecord) : Elsewhere lane rows rows :=
  rows_refl (fun _ => ⟨rfl, fun _ => rfl⟩) rows

omit [Serde] in
theorem Elsewhere.trans {lane : String} {a b c : List TaskRecord} (h : Elsewhere lane a b)
    (h' : Elsewhere lane b c) : Elsewhere lane a c := by
  refine rows_trans (fun r r' r'' hr hr' => ⟨hr'.1.trans hr.1, fun hne => ?_⟩) h h'
  rw [hr'.2 (hr.1 ▸ hne), hr.2 hne]

/-- The turn only gives executions of one lane up. -/
structure GivesUp (lane : String) (now : DateTime) (a b : Turn) : Prop where
  releases : Releases now a.state b.state
  elsewhere : Elsewhere lane a.state.tasks b.state.tasks

instance (lane : String) (now : DateTime) : Std.Refl (GivesUp lane now) where
  refl a := ⟨Releases.refl now a.state, .refl lane _⟩

instance (lane : String) (now : DateTime) : IsTrans Turn (GivesUp lane now) where
  trans _ _ _ h h' := ⟨h.releases.trans h'.releases, h.elsewhere.trans h'.elsewhere⟩

omit [Serde] in
theorem releaseRow_givesUp (runner : Uuid) (lane : String) (now : DateTime) (i : ℕ) :
    Step.Keeps (GivesUp lane now) (releaseRow runner lane now i) := by
  intro turn
  simp only [releaseRow, Step.bind_run, Step.get_run]
  cases hi : turn.state.tasks[i]? with
  | none => exact refl_of (GivesUp lane now) turn
  | some task =>
    simp only
    split
    · next hrow =>
      refine ⟨Releases.of_rows (rows_set (fun _ => .inl rfl) _ _ _ _ hi (.inr ⟨hrow.2.2, rfl⟩)), ?_⟩
      exact rows_set (fun _ => ⟨rfl, fun _ => rfl⟩) _ _ _ _ hi ⟨rfl, fun hne => absurd hrow.2.1 hne⟩
    · exact refl_of (GivesUp lane now) turn

omit [Serde] in
theorem loseLane_givesUp (request : MemoryOwnerTurn) :
    Step.Keeps (GivesUp request.claim.lane.asStr request.now) (loseLane request) := by
  rw [loseLane]
  split
  · exact Step.Keeps.bind Step.Keeps.get fun _ => Step.Keeps.each (releaseRow_givesUp _ _ _) _
  · exact Step.Keeps.pure _

/-- The turn beside the row stays. -/
def SameTurn (a b : OwnerState) : Prop := b.turn = a.turn

instance : Std.Refl SameTurn where
  refl _ := rfl

instance : IsTrans OwnerState SameTurn where
  trans _ _ _ h h' := Eq.trans h' h

omit [Serde] in
theorem sameTurn_rules : PhaseRules SameTurn where
  calm := fun _ => rfl
  empty _ := fun _ => rfl
  revive _ := fun _ => rfl
  release _ _ := fun _ => rfl
  transition _ := fun _ => rfl
  activate := fun _ => rfl

/-- An owner's turn claims exactly when its row lets the request claim; otherwise it only gives
    executions up. -/
theorem claimOwnedInner_serves {request : MemoryOwnerTurn} {s s' : OwnerState}
    (hconf : s.turn.state.conf = some conf) (hlocked : request.lane.laneLock.isSome = true)
    (h : claimOwnedInner request s = (.ok poll, s')) :
    (claimsCohort request s = true ∧ ∃ permits rateWake,
      Serves request.runnerId conf request.window permits rateWake s.turn poll s'.turn) ∨
    (claimsCohort request s = false ∧ poll.tasks = [] ∧
      GivesUp request.claim.lane.asStr request.now s.turn s'.turn) := by
  rw [claimOwnedInner, Step.bind_ok] at h
  obtain ⟨owned, s₁, hown, h⟩ := h
  obtain ⟨leased, ho, rfl⟩ := Step.zoom_ok.mp hown
  cases owned with
  | false =>
    simp only [Bool.not_false, if_true, memoryWait, Step.bind_ok, Step.get_ok, Step.pure_ok] at h
    obtain ⟨_, _, hlose, _, _, ⟨rfl, rfl⟩, rfl, rfl⟩ := h
    obtain ⟨turn, hlost, rfl⟩ := Step.zoom_ok.mp hlose
    refine .inr ⟨?_, rfl, ?_⟩
    · rw [claimsCohort, ho]
    · have hkeeps := loseLane_givesUp request s.turn
      rw [show loseLane request s.turn = _ from hlost] at hkeeps
      exact hkeeps
  | true =>
    rw [Bool.not_true, if_neg Bool.false_ne_true, Step.bind_ok] at h
    obtain ⟨_, ⟨turn, hooked⟩, hhook, h⟩ := h
    obtain ⟨hturn, -⟩ := memoryHook_after hhook
    obtain rfl : turn = s.turn := hturn
    simp only [memoryOwnedPoll, Step.bind_ok, Step.get_ok] at h
    obtain ⟨_, _, ⟨rfl, rfl⟩, h⟩ := h
    have hcohort : claimsCohort request s = (decide (memoryAction hooked.phase = none) &&
        decide (FlushReady request ⟨s.turn, hooked⟩) && request.claim.owner.any (·.allowClaim)) := by
      simp only [claimsCohort, ho, hhook]
    cases hact : memoryAction hooked.phase with
    | some action =>
      simp only [hact, answerAction, Step.bind_ok, Step.get_ok, Step.pure_ok] at h
      obtain ⟨_, _, ⟨rfl, rfl⟩, rfl, rfl⟩ := h
      refine .inr ⟨?_, rfl, refl_of (GivesUp _ _) _⟩
      rw [hcohort, hact]
      rfl
    | none =>
      simp only [hact] at h
      rcases memoryPhasePoll_cases sameTurn_rules hact h with ⟨hready, row, -, hopen⟩ | ⟨hnot, ht, hsame⟩
      · rcases memoryFlushOpen_serves (s := ⟨s.turn, row⟩) hconf hlocked hopen with
          ⟨hallow, hserves⟩ | ⟨hallow, ht, hsame⟩
        · refine .inl ⟨?_, hserves⟩
          rw [hcohort, hact, decide_eq_true hready, hallow]
          rfl
        · refine .inr ⟨?_, ht, ?_⟩
          · rw [hcohort, hallow, Bool.and_false]
          · rw [hsame]
            exact refl_of (GivesUp _ _) _
      · refine .inr ⟨?_, ht, ?_⟩
        · rw [hcohort, decide_eq_false hnot, Bool.and_false, Bool.false_and]
        rw [show s'.turn = s.turn from hsame]
        exact refl_of (GivesUp _ _) _

/-! ### One requested lane -/

/-- The request of one lane of a claim turn, when the lane is locked. -/
def ownerTurn (node : Uuid) (laneConf : TaskLaneConf) (lease : Duration) (now : DateTime)
    (entry : LaneClaim × Uuid) : MemoryOwnerTurn where
  runnerId := node
  claim := entry.1
  lane := laneConf
  leaseDuration := lease
  now := now
  freshToken := entry.2

/-- Whether the lane's turn claims: always on an unlocked lane, on a locked one when its row opens a
    cohort. -/
def claimsLane (node : Uuid) (laneConf : TaskLaneConf) (lease : Duration) (now : DateTime)
    (entry : LaneClaim × Uuid) (turn : Turn) : Bool :=
  !laneConf.laneLock.isSome || (turn.state.laneLocks entry.1.lane.asStr).any (fun owner =>
    claimsCohort (ownerTurn node laneConf lease now entry) (turn.open entry.1.lane.asStr owner))

/-- A lane's turn that claims nothing: no bucket is touched, and rows of the lane are only given up. -/
structure Idles (lane : String) (now : DateTime) (turn : Turn) (poll : LanePoll) (turn' : Turn) : Prop where
  silent : poll.tasks = []
  rates : turn'.state.rates = turn.state.rates
  rows : Rows (Released now) turn.state.tasks turn'.state.tasks
  elsewhere : Elsewhere lane turn.state.tasks turn'.state.tasks

omit [Serde] in
theorem markTakeover_frame (took : Bool) (poll : LanePoll) :
    (markTakeover took poll).lane = poll.lane ∧ (markTakeover took poll).saturated = poll.saturated ∧
      (markTakeover took poll).nextWakeIn = poll.nextWakeIn := by
  rw [markTakeover]
  split <;> exact ⟨rfl, rfl, rfl⟩

theorem claimOwnedState_serves (request : MemoryOwnerTurn) (hconf : turn.state.conf = some conf)
    (hlocked : request.lane.laneLock.isSome = true)
    (h : claimOwnedState request turn = (.ok poll, turn')) :
    ∃ owner, turn.state.laneLocks request.claim.lane.asStr = some owner ∧
      ((claimsCohort request (turn.open request.claim.lane.asStr owner) = true ∧ ∃ permits rateWake,
          Serves request.runnerId conf request.window permits rateWake turn poll turn') ∨
        (claimsCohort request (turn.open request.claim.lane.asStr owner) = false ∧
          Idles request.claim.lane.asStr request.now turn poll turn')) := by
  obtain ⟨owner, inner, s, hl, hr, rfl, rfl⟩ := claimOwnedState_ok h
  refine ⟨owner, hl, ?_⟩
  have hopened : (turn.open request.claim.lane.asStr owner).turn.state.conf = some conf := hconf
  have htasks := markTakeover_tasks
    (request.claim.owner.any (·.token.isNone) && owner.ownerToken.isSome) inner
  obtain ⟨hnamed, hsaturated, hwake⟩ := markTakeover_frame
    (request.claim.owner.any (·.token.isNone) && owner.ownerToken.isSome) inner
  rcases claimOwnedInner_serves hopened hlocked hr with
    ⟨hcohort, permits, rateWake, hserves⟩ | ⟨hnot, ht, hgiven⟩
  · refine .inl ⟨hcohort, permits, rateWake, ?_, hserves.pays, hnamed.trans hserves.lane,
      hsaturated.trans hserves.saturated, hwake.trans hserves.wakes⟩
    rw [htasks]
    exact hserves.passes
  · exact .inr ⟨hnot, htasks.trans ht, hgiven.releases.rates, hgiven.releases.rows, hgiven.elsewhere⟩

/-- The turn of one requested lane claims from its queue or claims nothing. -/
theorem claimOne_serves {lease : Duration} {now : DateTime} {entry : LaneClaim × Uuid}
    (hconf : turn.state.conf = some conf) (h : claimOne node conf lease now entry turn = (.ok poll, turn')) :
    ∃ laneConf, conf.laneOf entry.1.lane = some laneConf ∧
      ((claimsLane node laneConf lease now entry turn = true ∧ ∃ permits rateWake,
          Serves node conf (laneWindow laneConf entry.1 now) permits rateWake turn poll turn') ∨
        (claimsLane node laneConf lease now entry turn = false ∧
          Idles entry.1.lane.asStr now turn poll turn')) := by
  rw [claimOne] at h
  cases hl : conf.laneOf entry.1.lane with
  | none => rw [hl] at h; exact absurd h Step.fail_ok
  | some laneConf =>
    rw [hl] at h
    simp only at h
    refine ⟨laneConf, rfl, ?_⟩
    cases hlocked : laneConf.laneLock.isSome with
    | false =>
      rw [hlocked, if_neg Bool.false_ne_true] at h
      refine .inl ⟨?_, claimUnowned_serves hconf hl hlocked h⟩
      rw [claimsLane, hlocked]
      rfl
    | true =>
      rw [hlocked, if_pos rfl] at h
      obtain ⟨owner, howner, hcases⟩ :=
        claimOwnedState_serves (ownerTurn node laneConf lease now entry) hconf hlocked h
      have hclaims : claimsLane node laneConf lease now entry turn =
          claimsCohort (ownerTurn node laneConf lease now entry)
            (turn.open entry.1.lane.asStr owner) := by
        have hrow : turn.state.laneLocks entry.1.lane.asStr = some owner := howner
        rw [claimsLane, hlocked, Bool.not_true, Bool.false_or, hrow, Option.any_some]
      rw [hclaims]
      exact hcases

/-- The polls of a claim turn are those of its requests, in order. -/
theorem claimTasksState_ok {claims : List (LaneClaim × Uuid)} {lease : Duration} {now : DateTime}
    {poll : TaskPoll} (h : claimTasksState node claims lease now turn = (.ok poll, turn')) :
    ∃ conf, turn.state.conf = some conf ∧
      Step.collect (claimOne node conf lease now) claims turn = (.ok poll.lanes, turn') := by
  rw [claimTasksState, Step.bind_ok] at h
  obtain ⟨_, _, ⟨rfl, rfl⟩, h⟩ := h
  cases hconf : turn.state.conf with
  | none =>
    rw [hconf] at h
    exact absurd h Step.fail_ok
  | some conf =>
    simp only [hconf, Step.bind_ok, Step.pure_ok] at h
    obtain ⟨polls, _, hcollect, rfl, rfl⟩ := h
    exact ⟨conf, rfl, hcollect⟩

/-- What each lane's turn does to the rows, a claim turn does. -/
theorem collect_rows {R : TaskRecord → TaskRecord → Prop} {lease : Duration} {now : DateTime}
    (hr : ∀ r, R r r) (ht : ∀ a b c, R a b → R b c → R a c)
    (hone : ∀ {entry turn turn' poll}, turn.state.conf = some conf →
      claimOne node conf lease now entry turn = (.ok poll, turn') → Rows R turn.state.tasks turn'.state.tasks) :
    ∀ (claims : List (LaneClaim × Uuid)) (turn turn' : Turn) (polls : List LanePoll),
      turn.state.conf = some conf →
      Step.collect (claimOne node conf lease now) claims turn = (.ok polls, turn') →
        Rows R turn.state.tasks turn'.state.tasks
  | [], _, _, _, _, h => by
    obtain ⟨-, rfl⟩ := Step.pure_ok.mp h
    exact rows_refl hr _
  | entry :: claims, turn, turn', _, hconf, h => by
    simp only [Step.collect, Step.bind_ok, Step.pure_ok] at h
    obtain ⟨poll, turn₁, h₁, polls, turn₂, h₂, rfl, rfl⟩ := h
    have hconf₁ : turn₁.state.conf = some conf := (works_frame (claimOne_works h₁)).1.conf.trans hconf
    exact rows_trans ht (hone hconf h₁) (collect_rows hr ht hone claims _ _ polls hconf₁ h₂)

/-- Each request of a claim turn meets `P` in the state it finds. -/
def Throughout (node : Uuid) (conf : TaskStoreConf) (lease : Duration) (now : DateTime)
    (P : LaneClaim × Uuid → Turn → Prop) : List (LaneClaim × Uuid) → Turn → Prop
  | [], _ => True
  | entry :: claims, turn => P entry turn ∧
      Throughout node conf lease now P claims (claimOne node conf lease now entry turn).2

end

end Vyuh.Tasks.Memory
