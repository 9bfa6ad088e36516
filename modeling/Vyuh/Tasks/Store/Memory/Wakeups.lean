import Vyuh.Tasks.RateWaits
import Vyuh.Tasks.Store.Memory.Cancellation
import Vyuh.Tasks.Store.Memory.Payments
import Vyuh.Tasks.Store.Memory.Wakes

/-! No lost wake-up. What an unlocked lane's claim leaves ownerless is behind a full window, behind an
    empty bucket, or still in the future; the lane's poll is saturated in the first case and names a wake
    in the others. The rest of the turn takes from what was left, or wakes parents and says so. -/

namespace Vyuh.Tasks.Memory
open Lib

/-- Ownerless work of a lane: pending, or running and abandoned. -/
structure Ownerless (lane : String) (r : TaskRecord) : Prop where
  lane : r.lane = lane
  status : r.status = .pending ∨ r.status = .running
  nodeId : r.nodeId = none

/-- The wait until the lane's bucket holds a complete permit; none where nothing is waited for. -/
def LaneWindow.permitWait (w : LaneWindow) (rates : FMap String RateBucket) : Duration :=
  (w.conf.globalRate.bind fun rate => (rates w.lane.asStr).bind fun bucket =>
    nextPermit bucket.tokensMicros rate bucket.updatedAt w.now).getD 0

/-- A poll that is no reason to sleep past what is left in its lane. -/
structure Alert (lane : String) (now : DateTime) (permit : Duration) (tasks : List TaskRecord)
    (poll : LanePoll) : Prop where
  due : ∀ r ∈ tasks, Ownerless lane r → isDue r now = true →
    poll.saturated = true ∨ poll.nextWakeIn.isSome = true
  future : ∀ r ∈ tasks, Ownerless lane r → ∀ time, r.readyAt = some time → now < time →
    ∃ wake, poll.nextWakeIn = some wake ∧ (wake : ℤ) ≤ max (time - now) permit

/-- What the check of a configuration establishes for its lanes: batches of at least one task, and rates
    that passed their own check. -/
def LanesChecked (conf : TaskStoreConf) : Prop :=
  ∀ lane ∈ conf.lanes, 0 < lane.claimBatchSize ∧ ∀ rate, lane.globalRate = some rate → rate.Accepted

theorem exists_min?_le {waits : List Duration} {d : Duration} (h : d ∈ waits) :
    ∃ wake, waits.min? = some wake ∧ wake ≤ d := by
  cases hmin : waits.min? with
  | none =>
    rw [List.min?_eq_none_iff.mp hmin] at h
    exact nomatch h
  | some wake => exact ⟨wake, rfl, (List.min?_eq_some_iff.mp hmin).2 d h⟩

/-- Work due in the future is a deadline of its lane. -/
theorem taskDeadline_le {tasks : List TaskRecord} {lane : String} {now time : DateTime} {r : TaskRecord}
    (hr : r ∈ tasks) (h : Ownerless lane r) (hready : r.readyAt = some time) (hlt : now < time) :
    ∃ wake, taskDeadline tasks lane now = some wake ∧ (wake : ℤ) ≤ time - now := by
  have hstd : toStd (time - now) = some (time - now).toNat := by
    rw [toStd, if_pos]
    exact Int.sub_nonneg_of_le (le_of_lt hlt)
  have hpos : 0 ≤ time - now := Int.sub_nonneg_of_le (le_of_lt hlt)
  rw [← Int.toNat_of_nonneg hpos, taskDeadline]
  simp only [Int.ofNat_le]
  refine exists_min?_le (List.mem_filterMap.mpr ⟨r, hr, ?_⟩)
  rw [if_pos ⟨h.lane, h.status, h.nodeId⟩, hready]
  simp only
  rw [if_pos hlt, hstd]

/-- What stands before a counted place is counted less. -/
theorem ahead_countP_lt {p : ℕ → Bool} {i : ℕ} {queue : List ℕ} (hi : i ∈ queue) (hp : p i = true) :
    (ahead queue i).countP p < queue.countP p := by
  induction queue with
  | nil => exact nomatch hi
  | cons j queue ih =>
    by_cases hij : j = i
    · rw [hij, ahead_cons_self, List.countP_nil, List.countP_cons_of_pos hp]
      exact Nat.succ_pos _
    · rw [ahead_cons_ne hij, List.countP_cons, List.countP_cons]
      exact Nat.add_lt_add_right (ih ((List.mem_cons.mp hi).resolve_left (Ne.symm hij))) _

section

variable [Serde] {node : Uuid} {conf : TaskStoreConf} {w : LaneWindow} {permits : ℕ}
  {rateWake : Option Duration} {turn turn' : Turn} {poll : LanePoll}

/-! ### One lane's claim -/

/-- What is ownerless after a claim was there before it, and was not selected. -/
theorem Serves.left (h : Serves node conf w permits rateWake turn poll turn') {i : ℕ} {r : TaskRecord}
    (hi : turn'.state.tasks[i]? = some r) {lane : String} (ho : Ownerless lane r) :
    turn.state.tasks[i]? = some r ∧
      i ∉ selected turn.state.tasks (w.queue turn.state.tasks) permits w.limit := by
  have hsame : turn.state.tasks[i]? = some r := by
    obtain ⟨old, hold, rfl | hended | ⟨hgrant, -⟩⟩ := h.moves.get_right hi
    · exact hold
    · rcases ho.status with hs | hs <;>
      · rw [hended.failed.1] at hs
        exact nomatch hs
    · obtain ⟨-, -, rfl⟩ := grant_ok.mp hgrant
      exact nomatch ho.nodeId
  refine ⟨hsame, fun hm => ?_⟩
  obtain ⟨n, hn, hget⟩ := List.getElem_of_mem hm
  obtain ⟨hlen, hall⟩ := List.forall₂_iff_get.mp h.granted
  obtain ⟨hnew, row, -, hgrant⟩ := hall n hn (hlen ▸ hn)
  rw [List.get_eq_getElem, hget, hi] at hnew
  obtain rfl := Option.some.inj hnew
  obtain ⟨-, -, hrow⟩ := grant_ok.mp hgrant
  have hnode := ho.nodeId
  rw [hrow] at hnode
  exact nomatch hnode

/-- What is due after a claim stood in its queue. -/
theorem Serves.left_due (h : Serves node conf w permits rateWake turn poll turn') {i : ℕ} {r : TaskRecord}
    (hi : turn'.state.tasks[i]? = some r) (ho : Ownerless w.lane.asStr r) (hdue : isDue r w.now = true) :
    i ∈ w.queue turn.state.tasks := by
  obtain ⟨hsame, hnot⟩ := h.left hi ho
  rw [LaneWindow.queue, standing_eq_filter]
  refine List.mem_filter.mpr ⟨mem_waiting.mpr ⟨r, hsame, ho.lane, hdue⟩, ?_⟩
  -- a finished task of the window has failed
  obtain ⟨rows, hfails, hgrants⟩ := h.passes
  rw [Bool.not_eq_true', ← Bool.not_eq_true, Bool.and_eq_true, decide_eq_true_eq]
  rintro ⟨hwindow, hover⟩
  obtain ⟨row, hrow, hover⟩ := rowMeets_iff.mp hover
  obtain ⟨row', hrow', hended⟩ := hfails.ended i hwindow row hrow hover
  rw [hgrants.kept i hnot, hrow'] at hi
  obtain rfl := Option.some.inj hi
  rcases ho.status with hs | hs <;>
  · rw [hended.failed.1] at hs
    cases hs

/-- What a claim with a rate pays, when it wants any Work. -/
theorem Serves.paid (h : Serves node conf w permits rateWake turn poll turn') {rate : TaskRate}
    (hglobal : w.conf.globalRate = some rate) (hwanted : w.wanted turn.state.tasks ≠ 0) :
    ∃ refilled, refill rate w.now (w.bucket rate turn.state.rates) = (.ok (), refilled) ∧
      permits = min (availablePermits refilled.tokensMicros) (w.wanted turn.state.tasks) ∧
      turn'.state.rates w.lane.asStr = some (debit permits refilled) ∧
      rateWake = nextPermit (debit permits refilled).tokensMicros rate (debit permits refilled).updatedAt w.now := by
  have hpays := h.pays
  rw [hglobal, reservePermits_rated _ hwanted, Step.zoom_ok] at hpays
  obtain ⟨paid, hrun, hrates⟩ := hpays
  simp only [reserveBucket, Step.bind_ok, Step.get_ok, Step.modify_ok, Step.pure_ok] at hrun
  obtain ⟨_, refilled, hrefill, _, _, ⟨rfl, rfl⟩, _, _, rfl, _, _, ⟨rfl, rfl⟩, hanswer, rfl⟩ := hrun
  obtain ⟨rfl, rfl⟩ := Prod.mk.inj hanswer
  exact ⟨refilled, hrefill, rfl, by rw [← hrates, FMap.insert_self], rfl⟩

/-- Without a rate, or without Work to pay for, no permit is waited for. -/
theorem Serves.unpaid (h : Serves node conf w permits rateWake turn poll turn')
    (hfree : w.conf.globalRate = none ∨ w.wanted turn.state.tasks = 0) :
    permits = w.wanted turn.state.tasks ∧ rateWake = none := by
  have hpays := h.pays
  by_cases hzero : w.wanted turn.state.tasks = 0
  · simp only [hzero, reservePermits, if_true] at hpays
    obtain ⟨rfl, rfl⟩ := Prod.mk.inj (Step.pure_ok.mp hpays).1
    exact ⟨hzero.symm, rfl⟩
  · have hglobal := hfree.resolve_right hzero
    simp only [hglobal, reservePermits, if_neg hzero] at hpays
    obtain ⟨rfl, rfl⟩ := Prod.mk.inj (Step.pure_ok.mp hpays).1
    exact ⟨rfl, rfl⟩

/-- A claim that reserved fewer permits than it wanted knows when the next one comes. -/
theorem Serves.blocked_wake (h : Serves node conf w permits rateWake turn poll turn')
    (hcredit : turn.state.InCredit) (hrate : ∀ rate, w.conf.globalRate = some rate → rate.Accepted)
    (hblocked : permits < w.wanted turn.state.tasks) : rateWake.isSome = true := by
  have hwanted : w.wanted turn.state.tasks ≠ 0 := by omega
  cases hglobal : w.conf.globalRate with
  | none => exact absurd (h.unpaid (.inl hglobal)).1 hblocked.ne
  | some rate =>
    obtain ⟨refilled, hrefill, hgrants, -, rfl⟩ := h.paid hglobal hwanted
    have hfull : Credited refilled := by
      have hkeeps := refill_credited rate w.now (credited_bucket hcredit w rate)
      rwa [hrefill] at hkeeps
    have hall : permits = availablePermits refilled.tokensMicros := by omega
    obtain ⟨hexact, -⟩ := debit_exact hfull (le_of_eq hall)
    -- all whole permits are gone
    have hshort : (debit permits refilled).tokensMicros < tokenScale := by
      have hdiv : 0 ≤ refilled.tokensMicros.tdiv tokenScale := Int.tdiv_nonneg hfull.1 (by decide)
      rw [availablePermits, if_neg (not_lt.mpr hdiv)] at hall
      rw [hexact]
      rw [Int.tdiv_eq_ediv_of_nonneg hfull.1] at hall hdiv
      rw [tokenScale] at *
      omega
    rw [nextPermit, permitDelay_eq (hrate rate hglobal), if_neg (not_le.mpr hshort), Option.isSome_some]

/-- The wake a rate names is the wait of the lane's bucket. -/
theorem Serves.rate_wait (h : Serves node conf w permits rateWake turn poll turn') {wake : Duration}
    (hwake : rateWake = some wake) : wake = w.permitWait turn'.state.rates := by
  by_cases hzero : w.wanted turn.state.tasks = 0
  · rw [(h.unpaid (.inr hzero)).2] at hwake
    exact nomatch hwake
  · cases hglobal : w.conf.globalRate with
    | none =>
      rw [(h.unpaid (.inl hglobal)).2] at hwake
      exact nomatch hwake
    | some rate =>
      obtain ⟨refilled, -, -, hbucket, hnext⟩ := h.paid hglobal hzero
      rw [LaneWindow.permitWait, hglobal, Option.bind_some, hbucket, Option.bind_some, ← hnext, hwake,
        Option.getD_some]

/-- Work that a claim leaves due is behind a full window or wants a permit. -/
theorem Serves.left_wants (h : Serves node conf w permits rateWake turn poll turn')
    (hceased : AllCeased turn.state.tasks) (hlimit : 0 < w.limit) (hopen : poll.saturated = false) {i : ℕ}
    {r : TaskRecord} (hi : turn'.state.tasks[i]? = some r) (ho : Ownerless w.lane.asStr r)
    (hdue : isDue r w.now = true) (hunlocked : w.conf.laneLock.isSome = false) :
    permits < w.wanted turn.state.tasks := by
  obtain ⟨hrow, hnot⟩ := h.left hi ho
  have hqueue := h.left_due hi ho hdue
  have hunmarked : r.cancelled = false := by
    refine (hceased r (List.mem_of_getElem? hrow)).unmarked ?_
    exact not_terminal_of_active (isActive_of_isDue hdue)
  have hshort : (selectable turn.state.tasks (w.queue turn.state.tasks) permits).length < w.limit := by
    have hsaturated := h.saturated
    rw [hopen, eq_comm, decide_eq_true hlimit, Bool.true_and, decide_eq_false_iff_not, not_le] at hsaturated
    exact hsaturated
  have hwanted : w.wanted turn.state.tasks =
      (w.queue turn.state.tasks).countP (rowMeets turn.state.tasks wantedWork) := by
    rw [LaneWindow.wanted, hunlocked, if_neg Bool.false_ne_true]
  have hreach : ∀ queue : List ℕ, i ∈ queue → (ahead queue i).length < queue.length := fun queue hm =>
    (mem_take_iff_ahead.mp (by rwa [List.take_length])).2
  have hselected := mem_selected_iff permits w.limit (queue_nodup w turn.state.tasks) hrow
  rw [hwanted]
  cases hkind : r.kind with
  | flow =>
    -- a Flow task is always selectable, and the window had room for all that is
    have hm : i ∈ selectable turn.state.tasks (w.queue turn.state.tasks) permits := by
      rw [selectable]
      split
      · exact List.mem_filter.mpr ⟨hqueue, rowMeets_iff.mpr ⟨r, hrow, by rw [hkind]; rfl⟩⟩
      · exact hqueue
    exact absurd (hselected.mpr ⟨hm, (hreach _ hm).trans hshort, hunmarked, .inl hkind⟩) hnot
  | work =>
    have hwork : rowMeets turn.state.tasks wantedWork i = true :=
      rowMeets_iff.mpr ⟨r, hrow, by simp [wantedWork, hkind, hunmarked]⟩
    have hbehind := ahead_countP_lt (p := rowMeets turn.state.tasks wantedWork) hqueue hwork
    by_cases hzero : permits = 0
    · omega
    · rw [selectable, if_neg hzero] at hselected hshort
      have hpaid : ¬ (ahead (w.queue turn.state.tasks) i).countP (rowMeets turn.state.tasks wantedWork) <
          permits := fun hlt =>
        hnot (hselected.mpr ⟨hqueue, (hreach _ hqueue).trans hshort, hunmarked, .inr hlt⟩)
      omega

/-- A claim's poll is alert to what the claim leaves. -/
theorem Serves.alert (h : Serves node conf w permits rateWake turn poll turn')
    (hceased : AllCeased turn.state.tasks) (hcredit : turn.state.InCredit) (hlimit : 0 < w.limit)
    (hrate : ∀ rate, w.conf.globalRate = some rate → rate.Accepted) (hunlocked : w.conf.laneLock.isSome = false) :
    Alert w.lane.asStr w.now (w.permitWait turn'.state.rates) turn'.state.tasks poll := by
  have hblocked : permits < w.wanted turn.state.tasks → ∃ wake, rateWake = some wake := fun hlt =>
    Option.isSome_iff_exists.mp (h.blocked_wake hcredit hrate hlt)
  have hwakes := h.wakes
  constructor
  · intro r hr ho hdue
    obtain ⟨i, hi⟩ := List.mem_iff_getElem?.mp hr
    cases hopen : poll.saturated with
    | true => exact .inl rfl
    | false =>
      have hlt := h.left_wants hceased hlimit hopen hi ho hdue hunlocked
      obtain ⟨wake, hwake⟩ := hblocked hlt
      refine .inr ?_
      rw [hwakes, hwake, effectiveLaneWake, decide_eq_true hlt]
      split
      · cases taskDeadline turn'.state.tasks w.lane.asStr w.now <;> rfl
      · rfl
  · intro r hr ho time hready hlt
    obtain ⟨task, htask, hle⟩ := taskDeadline_le hr ho hready hlt
    rw [hwakes, htask, effectiveLaneWake]
    split
    · -- the earlier of both
      have htask : task ∈ rateWake.toList ++ (some task).toList :=
        List.mem_append_right _ (List.mem_singleton.mpr rfl)
      obtain ⟨wake, hmin, hmem⟩ := exists_min?_le htask
      exact ⟨wake, hmin, (Int.ofNat_le.mpr hmem).trans (hle.trans (le_max_left _ _))⟩
    · by_cases hlt : permits < w.wanted turn.state.tasks
      · obtain ⟨wake, hwake⟩ := hblocked hlt
        refine ⟨wake, by rw [decide_eq_true hlt, if_pos rfl, hwake], ?_⟩
        rw [h.rate_wait hwake]
        exact le_max_right _ _
      · rw [decide_eq_false hlt, if_neg Bool.false_ne_true]
        cases hwake : rateWake with
        | none => exact ⟨task, rfl, hle.trans (le_max_left _ _)⟩
        | some permit =>
          refine ⟨max permit task, rfl, ?_⟩
          rw [← h.rate_wait hwake, Nat.cast_max]
          exact max_le (le_max_right _ _) (hle.trans (le_max_left _ _))

/-! ### The requests that follow -/

/-- The turn once its first requests are answered. -/
def turnAfter (node : Uuid) (conf : TaskStoreConf) (lease : Duration) (now : DateTime)
    (claims : List (LaneClaim × Uuid)) (turn : Turn) : Turn :=
  claims.foldl (fun turn entry => (claimOne node conf lease now entry turn).2) turn

variable {lease : Duration} {now : DateTime} {entry : LaneClaim × Uuid}

theorem collect_turnAfter : ∀ (claims : List (LaneClaim × Uuid)) (turn turn' : Turn) (polls : List LanePoll),
    Step.collect (claimOne node conf lease now) claims turn = (.ok polls, turn') →
      turn' = turnAfter node conf lease now claims turn
  | [], _, _, _, h => (Step.pure_ok.mp h).2.symm
  | entry :: claims, turn, turn', _, h => by
    simp only [Step.collect, Step.bind_ok, Step.pure_ok] at h
    obtain ⟨poll, turn₁, h₁, polls, _, h₂, rfl, rfl⟩ := h
    rw [turnAfter, List.foldl_cons, h₁]
    exact collect_turnAfter claims turn₁ _ polls h₂

/-- The request of any lane leaves no new ownerless work in an unlocked one. -/
theorem claimOne_left {lane : TaskLane} {laneConf : TaskLaneConf} (hconf : turn.state.conf = some conf)
    (hlane : conf.laneOf lane = some laneConf) (hunlocked : laneConf.laneLock.isSome = false)
    (h : claimOne node conf lease now entry turn = (.ok poll, turn')) {r : TaskRecord}
    (hr : r ∈ turn'.state.tasks) (ho : Ownerless lane.asStr r) : r ∈ turn.state.tasks := by
  obtain ⟨i, hi⟩ := List.mem_iff_getElem?.mp hr
  obtain ⟨entryConf, hentry, ⟨-, permits, rateWake, hserves⟩ | ⟨hidle, hidles⟩⟩ := claimOne_serves hconf h
  · exact List.mem_of_getElem? (hserves.left hi ho).1
  · obtain ⟨old, hold, hsame, hkept⟩ := hidles.elsewhere.get_right hi
    have hne : old.lane ≠ entry.1.lane.asStr := by
      intro heq
      have hnamed : entry.1.lane = lane := by
        have hname := heq.symm.trans (hsame.symm.trans ho.lane)
        cases hl : entry.1.lane with
        | mk name =>
          rw [hl] at hname
          exact congrArg TaskLane.mk hname
      rw [hnamed, hlane] at hentry
      obtain rfl := Option.some.inj hentry
      rw [claimsLane, hunlocked] at hidle
      cases hidle
    rw [hkept hne]
    exact List.mem_of_getElem? hold

/-- The request of another lane leaves the bucket alone. -/
theorem claimOne_bucket {lane : TaskLane} (hconf : turn.state.conf = some conf) (hne : entry.1.lane ≠ lane)
    (h : claimOne node conf lease now entry turn = (.ok poll, turn')) :
    turn'.state.rates lane.asStr = turn.state.rates lane.asStr := by
  have hname : lane.asStr ≠ entry.1.lane.asStr := by
    intro heq
    apply hne
    cases lane
    cases hl : entry.1.lane
    rw [hl] at heq
    exact congrArg TaskLane.mk heq.symm
  obtain ⟨entryConf, -, ⟨-, permits, rateWake, hserves⟩ | ⟨-, hidles⟩⟩ := claimOne_serves hconf h
  · have hpays := hserves.pays
    by_cases hzero : (laneWindow entryConf entry.1 now).wanted turn.state.tasks = 0
    · simp only [hzero, reservePermits, if_true] at hpays
      rw [(Step.pure_ok.mp hpays).2]
    · cases hrate : (laneWindow entryConf entry.1 now).conf.globalRate with
      | none =>
        simp only [hrate, reservePermits, if_neg hzero] at hpays
        rw [(Step.pure_ok.mp hpays).2]
      | some rate =>
        rw [hrate, reservePermits_rated _ hzero, Step.zoom_ok] at hpays
        obtain ⟨paid, -, hrates⟩ := hpays
        rw [← hrates]
        exact FMap.insert_of_ne _ _ hname
  · rw [hidles.rates]

/-- What the rest of a turn does to one unlocked lane: nothing joins its ownerless work, and its bucket
    is only touched by its own requests. -/
theorem collect_left {lane : TaskLane} {laneConf : TaskLaneConf}
    (hlane : conf.laneOf lane = some laneConf) (hunlocked : laneConf.laneLock.isSome = false) :
    ∀ (claims : List (LaneClaim × Uuid)) (turn turn' : Turn) (polls : List LanePoll),
      turn.state.conf = some conf →
      Step.collect (claimOne node conf lease now) claims turn = (.ok polls, turn') →
        (∀ r ∈ turn'.state.tasks, Ownerless lane.asStr r → r ∈ turn.state.tasks) ∧
        ((∀ entry ∈ claims, entry.1.lane ≠ lane) →
          turn'.state.rates lane.asStr = turn.state.rates lane.asStr)
  | [], _, _, _, _, h => by
    obtain ⟨-, rfl⟩ := Step.pure_ok.mp h
    exact ⟨fun _ hr _ => hr, fun _ => rfl⟩
  | entry :: claims, turn, turn', _, hconf, h => by
    simp only [Step.collect, Step.bind_ok, Step.pure_ok] at h
    obtain ⟨poll, turn₁, h₁, polls, turn₂, h₂, rfl, rfl⟩ := h
    have hconf₁ : turn₁.state.conf = some conf := (works_frame (claimOne_works h₁)).1.conf.trans hconf
    obtain ⟨hrows, hbucket⟩ := collect_left hlane hunlocked claims turn₁ turn₂ polls hconf₁ h₂
    refine ⟨fun r hr ho => claimOne_left hconf hlane hunlocked h₁ (hrows r hr ho) ho, fun hne => ?_⟩
    rw [hbucket fun e he => hne e (List.mem_cons_of_mem _ he)]
    exact claimOne_bucket hconf (hne entry List.mem_cons_self) h₁

omit [Serde] in
/-- A poll stays alert when nothing joins the ownerless work. -/
theorem Alert.mono {lane : String} {permit : Duration} {tasks tasks' : List TaskRecord}
    (h : Alert lane now permit tasks poll) (hsub : ∀ r ∈ tasks', Ownerless lane r → r ∈ tasks) :
    Alert lane now permit tasks' poll :=
  ⟨fun r hr ho => h.due r (hsub r hr ho) ho, fun r hr ho => h.future r (hsub r hr ho) ho⟩

/-! ### Settling -/

/-- What settling a claim turn does to a row, as far as a claim reads it: nothing, or a suspended row is
    made due. -/
inductive Stirred (now : DateTime) (r r' : TaskRecord) : Prop
  | quiet (id : r'.id = r.id) (lane : r'.lane = r.lane) (status : r'.status = r.status)
      (nodeId : r'.nodeId = r.nodeId) (readyAt : r'.readyAt = r.readyAt)
  | woken (id : r'.id = r.id) (lane : r'.lane = r.lane) (suspended : r.status = .suspended)
      (pending : r'.status = .pending) (readyAt : r'.readyAt = some now)

omit [Serde] in
theorem Stirred.trans {a b c : TaskRecord} (h : Stirred now a b) (h' : Stirred now b c) : Stirred now a c := by
  cases h with
  | quiet hid hlane hstatus hnode hready =>
    cases h' with
    | quiet hid' hlane' hstatus' hnode' hready' =>
      exact .quiet (hid'.trans hid) (hlane'.trans hlane) (hstatus'.trans hstatus) (hnode'.trans hnode)
        (hready'.trans hready)
    | woken hid' hlane' hsuspended hpending hready' =>
      exact .woken (hid'.trans hid) (hlane'.trans hlane) (hstatus.symm.trans hsuspended) hpending hready'
  | woken hid hlane hsuspended hpending hready =>
    cases h' with
    | quiet hid' hlane' hstatus' hnode' hready' =>
      exact .woken (hid'.trans hid) (hlane'.trans hlane) hsuspended (hstatus'.trans hpending)
        (hready'.trans hready)
    | woken _ _ hsuspended' _ _ => exact nomatch hpending.symm.trans hsuspended'

omit [Serde] in
theorem delivered_stirs (now : DateTime) (state : MemoryState) (grouped : List Grouped) :
    Rows (Stirred now) state.tasks (delivered now state grouped).tasks := by
  have hrefl : ∀ r, Stirred now r r := fun r => .quiet rfl rfl rfl rfl rfl
  refine foldl_rel (R := fun s s' : MemoryState => Rows (Stirred now) s.tasks s'.tasks)
    (fun s => rows_refl hrefl _) (fun a b c => rows_trans fun _ _ _ h h' => h.trans h') _ grouped state
    fun s entry _ => ?_
  have hsuspended : ∀ {id : TaskId} {r : TaskRecord}, awaits id r = true → r.status = .suspended := by
    intro id r h
    simp only [awaits, Bool.and_eq_true, decide_eq_true_eq] at h
    exact h.2
  have h := deliverOne_cases now s entry
  generalize deliverOne now s entry = s' at h
  cases h with
  | nobody hf => exact rows_refl hrefl _
  | waiting hf hw hd => exact rows_refl hrefl _
  | direct hf hw | underflow hf hw hd | settled hf hw hd =>
    refine modifyFirst_rows (awaits entry.1) _ hrefl (fun r hr => ?_) s.tasks
    exact .woken rfl rfl (hsuspended hr) rfl rfl

/-- The rows that settling a claim turn leaves. -/
theorem settleTurn_stirs (turn : Turn) (phases : FMap String LaneOwnerPhase) (polls : TaskPoll)
    (now : DateTime) :
    Rows (Stirred now) turn.state.tasks (settleTurn turn [] [] phases polls [] now).1.tasks := by
  obtain ⟨cleared, locks, hs⟩ := settleTurn_delivered turn [] [] phases polls [] now
  have hinputs : Rows (Stirred now) turn.state.tasks (materialized turn.state polls.tasks).tasks := by
    refine (materialized_rows polls.tasks turn.state).imp fun r r' h => ?_
    rcases h with rfl | ⟨-, input, rfl⟩ <;> exact .quiet rfl rfl rfl rfl rfl
  have hadopted : ((installed now (materialized turn.state polls.tasks) []).adopt []).tasks =
      (materialized turn.state polls.tasks).tasks := List.append_nil _
  have hdelivered := delivered_stirs now ((installed now (materialized turn.state polls.tasks) []).adopt [])
    (groupDeliveries turn.deliveries)
  rw [hadopted] at hdelivered
  rw [hs]
  exact rows_trans (fun _ _ _ h h' => h.trans h') hinputs hdelivered

/-- A lane's poll as settling leaves it: an announced lane is polled again at once. -/
structure Reported (lanes : List TaskLane) (poll poll' : LanePoll) : Prop where
  lane : poll'.lane = poll.lane
  saturated : poll'.saturated = poll.saturated
  nextWakeIn : poll'.nextWakeIn = if poll.lane ∈ lanes then some 0 else poll.nextWakeIn

omit [Serde] in
theorem reconcileLane_reports (lanes : List TaskLane) (phases : FMap String LaneOwnerPhase) (now : DateTime)
    (state : MemoryState) (poll : LanePoll) :
    Reported lanes poll (reconcileLane lanes phases now state poll).2 := by
  rw [reconcileLane]
  by_cases hm : poll.lane ∈ lanes
  · rw [if_neg (not_not.mpr hm)]
    simp only
    split
    · exact ⟨rfl, rfl, (if_pos hm).symm⟩
    · cases state.laneLocks poll.lane.asStr with
      | none => exact ⟨rfl, rfl, (if_pos hm).symm⟩
      | some owner =>
        simp only
        split <;> exact ⟨rfl, rfl, (if_pos hm).symm⟩
  · rw [if_pos hm]
    exact ⟨rfl, rfl, (if_neg hm).symm⟩

theorem settleTurn_reports (turn : Turn) (phases : FMap String LaneOwnerPhase) (polls : TaskPoll)
    (now : DateTime) :
    Rows (Reported (settleTurn turn [] [] phases polls [] now).2.1.wakeLanes) polls.lanes
      (settleTurn turn [] [] phases polls [] now).2.1.lanes := by
  have hmaterialized : Rows (fun poll poll' : LanePoll => poll'.lane = poll.lane ∧
      poll'.saturated = poll.saturated ∧ poll'.nextWakeIn = poll.nextWakeIn) polls.lanes
      (materialize turn.state polls).2.lanes := by
    rw [materialize]
    exact mapAccum_rows (fun _ _ => ⟨rfl, rfl, rfl⟩) _ _
  simp only [settleTurn, reconcilePoll]
  generalize materialize turn.state polls = prepared at hmaterialized ⊢
  obtain ⟨state, polls'⟩ := prepared
  refine (hmaterialized.comp (mapAccum_rows (reconcileLane_reports _ phases now) _ _)).imp ?_
  rintro poll poll' ⟨mid, ⟨hlane, hsaturated, hwake⟩, hreported⟩
  refine ⟨hreported.lane.trans hlane, hreported.saturated.trans hsaturated, ?_⟩
  rw [hreported.nextWakeIn, hlane, hwake]

/-- A poll stays alert through settling: rows that settling makes due are announced. -/
theorem Alert.settled {turn : Turn} {phases : FMap String LaneOwnerPhase} {polls : TaskPoll} {permit : Duration}
    {lane : TaskLane} {poll' : LanePoll} (hd : turn.state.Distinct)
    (hl : Lodged turn.state turn.state.tasks) (h : Alert lane.asStr now permit turn.state.tasks poll)
    (hnamed : poll.lane = lane)
    (hreported : Reported (settleTurn turn [] [] phases polls [] now).2.1.wakeLanes poll poll') :
    Alert lane.asStr now permit (settleTurn turn [] [] phases polls [] now).1.tasks poll' := by
  have hstirs := settleTurn_stirs turn phases polls now
  -- a row that settling made due is announced
  have hannounced : ∀ old ∈ turn.state.tasks, ∀ r ∈ (settleTurn turn [] [] phases polls [] now).1.tasks,
      r.id = old.id → old.status = .suspended → r.status = .pending → r.lane = lane.asStr →
        poll'.nextWakeIn = some 0 := by
    intro old hold r hr hid hsuspended hpending hlane
    have hready : Readied turn.state.tasks (settleTurn turn [] [] phases polls [] now).1.tasks r := by
      refine ⟨hr, hpending, fun other hother hsame hp => ?_⟩
      obtain rfl := List.inj_on_of_nodup_map hd hother hold (hsame.trans hid)
      exact nomatch hp.symm.trans hsuspended
    obtain ⟨woken, hm, hname⟩ := settleTurn_wakes turn [] [] phases polls [] now hl (fun _ ht => nomatch ht) r hready
    have hwoken : woken = lane := by
      have heq := hname.trans hlane
      cases woken
      cases lane
      exact congrArg TaskLane.mk heq
    rw [hreported.nextWakeIn, if_pos]
    rw [hnamed, ← hwoken]
    exact hm
  constructor
  · intro r hr ho hdue
    obtain ⟨old, hold, hstirred⟩ := hstirs.mem_right hr
    cases hstirred with
    | quiet hid hlane hstatus hnode hready =>
      have howned : Ownerless lane.asStr old :=
        ⟨hlane.symm.trans ho.lane, hstatus ▸ ho.status, hnode.symm.trans ho.nodeId⟩
      have hwas : isDue old now = true := by
        rw [isDue, ← hstatus, ← hnode, ← hready]
        exact hdue
      rw [hreported.saturated, hreported.nextWakeIn]
      refine (h.due old hold howned hwas).imp_right fun hwake => ?_
      split
      · rfl
      · exact hwake
    | woken hid hlane hsuspended hpending hready =>
      rw [hannounced old hold r hr hid hsuspended hpending ho.lane]
      exact .inr rfl
  · intro r hr ho time hready hlt
    obtain ⟨old, hold, hstirred⟩ := hstirs.mem_right hr
    cases hstirred with
    | quiet hid hlane hstatus hnode hready' =>
      have howned : Ownerless lane.asStr old :=
        ⟨hlane.symm.trans ho.lane, hstatus ▸ ho.status, hnode.symm.trans ho.nodeId⟩
      obtain ⟨wake, hwake, hle⟩ := h.future old hold howned time (hready'.symm.trans hready) hlt
      rw [hreported.nextWakeIn]
      split
      · refine ⟨0, rfl, le_max_of_le_right ?_⟩
        exact Int.natCast_nonneg _
      · exact ⟨wake, hwake, hle⟩
    | woken hid hlane hsuspended hpending hready' =>
      obtain rfl := Option.some.inj (hready.symm.trans hready')
      exact absurd hlt (lt_irrefl _)

/-! ### Whole turns -/

omit [Serde] in
theorem respondPoll_polled {run : Except (StoreFailure TaskPoll) TaskPoll × MemoryState}
    {result : TaskPoll} {after : MemoryState} (h : respondPoll run = (.polled result, after)) :
    run = (.ok result, after) := by
  obtain ⟨answer, state⟩ := run
  cases answer with
  | ok poll =>
    obtain ⟨hpoll, rfl⟩ := Prod.mk.inj h
    obtain rfl := Response.polled.inj hpoll
    rfl
  | error failure => cases failure <;> exact nomatch congrArg Prod.fst h

/-- A claim that succeeds is a turn of its requests, settled. -/
theorem claimTasks_ok {store : MemoryTaskStore} {state after : MemoryState} {claims : List (LaneClaim × Uuid)}
    {result : TaskPoll} (h : claimTasks store node claims now state = (.ok result, after)) :
    ∃ conf turn polls, state.conf = some conf ∧
      Step.collect (claimOne node conf store.leaseDuration now) claims state.begin = (.ok polls.lanes, turn) ∧
      after = (settleTurn turn [] [] state.phases polls [] now).1 ∧
      result = (settleTurn turn [] [] state.phases polls [] now).2.1 := by
  simp only [claimTasks, Step.bind_ok, Step.get_ok] at h
  obtain ⟨_, _, ⟨rfl, rfl⟩, h⟩ := h
  split at h
  · exact absurd h Step.fail_ok
  · simp only [Step.bind_ok, Step.pure_ok] at h
    obtain ⟨out, final, hturn, rfl, rfl⟩ := h
    have hoperation : atomicOperation (some node) claims [] store.commitBatchSize store.leaseDuration now
        state = (.ok out, final) := by
      rw [beforeCommit] at hturn
      generalize atomicOperation (some node) claims [] store.commitBatchSize store.leaseDuration now
        state = run at hturn ⊢
      obtain ⟨answer, ended⟩ := run
      cases answer with
      | ok value => simpa using hturn
      | error e => exact nomatch congrArg Prod.fst hturn
    obtain ⟨-, turn', hrun, hafter⟩ := atomicOperation_ok hoperation
    obtain ⟨turn, polls, hclaims, hsettled⟩ := runTurn_claims hrun
    obtain ⟨conf, hconf, hcollect⟩ := claimTasksState_ok hclaims
    exact ⟨conf, turn, polls, hconf, hcollect, hafter.symm.trans (congrArg Prod.fst hsettled),
      congrArg (fun pair => pair.2.1) hsettled⟩

variable (store : MemoryTaskStore) {state after : MemoryState} {result : TaskPoll}

/-- CORRECT: in every reachable state, the poll of an unlocked lane is alert to all that the claim turn
    leaves in the lane, up to the wait of the lane's bucket as its request leaves it; no other request
    changes that bucket. -/
theorem claim_loses_no_wakeup (h : Reachable Started (Steps store Unmarked) state)
    (hconf : state.conf = some conf) (hchecked : LanesChecked conf) {before rest : List (LaneClaim × Uuid)}
    {laneConf : TaskLaneConf} (hlane : conf.laneOf entry.1.lane = some laneConf)
    (hunlocked : laneConf.laneLock = none) (hlimit : 1 ≤ entry.1.limit)
    (hop : exec store (.claimTasks node (before ++ entry :: rest) now) state = (.polled result, after)) :
    ∃ poll rates, result.lanes[before.length]? = some poll ∧ poll.lane = entry.1.lane ∧
      Alert entry.1.lane.asStr now ((laneWindow laneConf entry.1 now).permitWait rates) after.tasks poll ∧
      rates = (turnAfter node conf store.leaseDuration now (before ++ [entry]) state.begin).state.rates ∧
      ((∀ other ∈ rest, other.1.lane ≠ entry.1.lane) →
        (laneWindow laneConf entry.1 now).permitWait rates =
          (laneWindow laneConf entry.1 now).permitWait after.rates) := by
  have hd := reachable_distinct store h
  have hopen : laneConf.laneLock.isSome = false := by rw [hunlocked]; rfl
  have hclaim : claimTasks store node (before ++ entry :: rest) now state = (.ok result, after) :=
    respondPoll_polled hop
  obtain ⟨conf', turn, polls, hconf', hcollect, rfl, rfl⟩ := claimTasks_ok hclaim
  obtain rfl := Option.some.inj (hconf.symm.trans hconf')
  obtain ⟨polls₁, turn₁, poll, turn₂, polls₂, hbefore, hone, hrest, hpolls, hlength⟩ :=
    Step.collect_split before _ _ _ hcollect
  -- the request finds buckets in credit and no live row that is cancelled
  have hconf₁ : turn₁.state.conf = some conf := (works_frame (claimTasksState_works.collect_works before _ _ _ hbefore)).1.conf.trans hconf
  have hconf₂ : turn₂.state.conf = some conf := (works_frame (claimOne_works hone)).1.conf.trans hconf₁
  have hcredit := collect_credit before state.begin turn₁ polls₁ hconf (reachable_inCredit store h) hbefore
  have hceased : AllCeased turn₁.state.tasks := (reachable_ceased store h).moved
    (collect_rows Ceases.refl (fun _ _ _ h h' => h.trans h') claimOne_ceases before _ _ _ hconf hbefore)
  -- an unlocked lane is served
  obtain ⟨laneConf', hlane', ⟨-, permits, rateWake, hserves⟩ | ⟨hidle, -⟩⟩ := claimOne_serves hconf₁ hone
  · obtain rfl := Option.some.inj (hlane.symm.trans hlane')
    obtain ⟨hbatch, hrate⟩ := hchecked laneConf (List.mem_of_find?_eq_some hlane)
    have hwindow : 0 < (laneWindow laneConf entry.1 now).limit := by
      rw [laneWindow, hopen, if_neg Bool.false_ne_true]
      exact lt_min hlimit hbatch
    have halert := hserves.alert hceased hcredit hwindow hrate hopen
    obtain ⟨hleft, hbucket⟩ := collect_left hlane hopen rest turn₂ turn polls₂ hconf₂ hrest
    have hturn₂ : turn₂ = turnAfter node conf store.leaseDuration now (before ++ [entry]) state.begin := by
      have hfirst := collect_turnAfter before _ _ _ hbefore
      rw [turnAfter] at hfirst
      rw [turnAfter, List.foldl_append, ← hfirst, List.foldl_cons, hone, List.foldl_nil]
    -- settling
    have hworks := claimTasksState_works.collect_works _ _ _ _ hcollect
    have hrows := works_rows hworks
    have hdistinct : turn.state.Distinct := by
      rw [MemoryState.Distinct, hrows.map_eq fun _ _ h => h.id]
      exact hd
    have hlanes : Lodged state state.tasks := reachable_lanes store h
    have hlodged : Lodged turn.state turn.state.tasks := fun r hr =>
      (hlanes.moved (works_lanes hworks) r hr).of_conf (works_frame hworks).1.conf
    have hreports := settleTurn_reports turn state.phases polls now
    have hat : polls.lanes[before.length]? = some poll := by
      rw [hpolls, ← hlength, List.getElem?_append_right (le_refl _), Nat.sub_self]
      rfl
    obtain ⟨poll', hpoll', hreported⟩ := hreports.get hat
    refine ⟨poll', turn₂.state.rates, hpoll', hreported.lane.trans hserves.lane, ?_, by rw [hturn₂], fun hother => ?_⟩
    · exact (halert.mono hleft).settled hdistinct hlodged hserves.lane hreported
    · rw [LaneWindow.permitWait, LaneWindow.permitWait, settleTurn_rates]
      rw [show (laneWindow laneConf entry.1 now).lane = entry.1.lane from rfl, hbucket hother]
  · obtain rfl := Option.some.inj (hlane.symm.trans hlane')
    rw [claimsLane, hopen] at hidle
    cases hidle

end

/-! ### Two due tasks and one place -/

theorem ratedConf_checked : LanesChecked ratedConf := by
  intro lane hm
  obtain rfl := List.mem_singleton.mp hm
  refine ⟨by decide, fun rate hrate => ?_⟩
  obtain rfl := Option.some.inj hrate
  exact ⟨⟨by decide, by decide⟩, by decide, by decide, by decide, by decide⟩

attribute [local instance] acceptingSerde in
/-- A claim of one task leaves the other due, behind a full window. -/
theorem claim_loses_no_wakeup_one : ∃ state result after poll rates,
    exec smallStore (.claimTasks 7 (openClaim 1) 3) state = (.polled result, after) ∧
      (∃ r ∈ after.tasks, r.lane = "open" ∧ isDue r 3 = true) ∧
      result.lanes[0]? = some poll ∧ poll.lane = ⟨"open"⟩ ∧
      ∃ laneConf, Alert "open" 3 ((laneWindow laneConf ⟨⟨"open"⟩, 1, none⟩ 3).permitWait rates) after.tasks poll := by
  have hs : Reachable Started (Steps smallStore Unmarked)
      ((MemoryState.new ratedConf).execs smallStore twoSubmitted) := by
    refine ⟨_, twoSubmitted, ⟨ratedConf, rfl⟩, MemoryState.execs_run smallStore twoSubmitted _ fun op hop _ => ?_⟩
    simp only [twoSubmitted, List.mem_cons, List.not_mem_nil, or_false] at hop
    rcases hop with rfl | rfl
    · exact ⟨fun _ h => (nomatch h), fun _ h => (nomatch h)⟩
    · exact ⟨by decide, fun _ h => (nomatch h)⟩
  have hconf : ((MemoryState.new ratedConf).execs smallStore twoSubmitted).conf = some ratedConf := by
    decide +kernel
  have hanswer : (exec smallStore (.claimTasks 7 (openClaim 1) 3)
      ((MemoryState.new ratedConf).execs smallStore twoSubmitted)).1.isPolled = true := by decide +kernel
  have hdue : ∃ r ∈ (exec smallStore (.claimTasks 7 (openClaim 1) 3)
      ((MemoryState.new ratedConf).execs smallStore twoSubmitted)).2.tasks,
      r.lane = "open" ∧ isDue r 3 = true := by
    decide +kernel
  generalize (MemoryState.new ratedConf).execs smallStore twoSubmitted = state at hs hconf hanswer hdue
  obtain ⟨result, after, hclaim⟩ : ∃ result after,
      exec smallStore (.claimTasks 7 (openClaim 1) 3) state = (.polled result, after) := by
    generalize exec smallStore (.claimTasks 7 (openClaim 1) 3) state = answer at hanswer
    obtain ⟨response, after⟩ := answer
    cases response with
    | polled result => exact ⟨result, after, rfl⟩
    | _ => exact nomatch hanswer
  rw [hclaim] at hdue
  have hsplit : exec smallStore (.claimTasks 7 ([] ++ (⟨⟨"open"⟩, 1, none⟩, 0) :: []) 3) state =
      (.polled result, after) := hclaim
  obtain ⟨poll, rates, hpoll, hlane, halert, -⟩ := claim_loses_no_wakeup smallStore hs hconf ratedConf_checked
    (by rfl) (by rfl) (by exact le_refl 1) hsplit
  exact ⟨state, result, after, poll, rates, hclaim, hdue, hpoll, hlane, _, halert⟩

end Vyuh.Tasks.Memory
