import Vyuh.Tasks.TaskConf

/-! What a configuration that passes its check has (`validate` and `resolve_lanes` of `config.rs`), and the
    lane set it resolves to. -/

namespace Vyuh.Tasks
open Lib TaskRetry Step

variable {lanes : List LaneDefinition} {merged : BTreeMap TaskLane LaneDefinition}

/-! ### Scalar limits -/

/-- The limits of an accepted configuration: nothing is zero that would stop progress, and nothing is above the
    bound the framework has for it. -/
structure TaskConf.InRange [SemaphoreLimit] (conf : TaskConf) : Prop where
  heartbeat : 1000000 ≤ conf.heartbeatInterval ∧ conf.heartbeatInterval ≤ maxInterval
  database : 0 < conf.dbConcurrency ∧ conf.dbConcurrency ≤ SemaphoreLimit.maxPermits
  concurrency : 0 < conf.concurrency ∧ conf.concurrency ≤ maxConcurrency
  batch : 1 ≤ conf.commitBatchSize ∧ conf.commitBatchSize ≤ maxBatchSize
  ingress : 1 ≤ conf.ingressCapacity ∧ conf.ingressCapacity ≤ maxBatchSize
  children : 1 ≤ conf.maxAllChildren ∧ conf.maxAllChildren ≤ maxBatchSize
  poll : 0 < conf.pollInterval ∧ conf.pollInterval ≤ conf.fallbackPollInterval
  fallback : conf.fallbackPollInterval ≤ maxInterval
  lease : 3 * conf.pollInterval ≤ conf.leaseDuration ∧ conf.leaseDuration ≤ maxLease
  payload : 0 < conf.maxPayloadBytes ∧ conf.maxPayloadBytes ≤ Tasks.maxPayloadBytes
  error : 0 < conf.maxErrorBytes ∧ conf.maxErrorBytes ≤ Tasks.maxErrorBytes
  readiness : conf.readiness ≠ .afterFailures 0

/-- Three polls of an interval that is bounded do not saturate. -/
theorem saturatingMul_three {d : Duration} (h : d ≤ maxInterval) : Duration.saturatingMul d 3 = 3 * d := by
  have hmax : maxInterval * 3 ≤ Duration.maxValue := by decide
  rw [Duration.saturatingMul, Nat.min_eq_left ((Nat.mul_le_mul_right 3 h).trans hmax)]
  exact Nat.mul_comm d 3

section

variable [SemaphoreLimit] {conf : TaskConf}

theorem validateDatabase_ok : validateDatabase conf = .ok () ↔
    (1000000 ≤ conf.heartbeatInterval ∧ conf.heartbeatInterval ≤ maxInterval) ∧
      0 < conf.dbConcurrency ∧ conf.dbConcurrency ≤ SemaphoreLimit.maxPermits := by
  rw [validateDatabase, except_check_ok, except_check_ok, not_not, not_or, not_lt, Nat.pos_iff_ne_zero]
  simp

omit [SemaphoreLimit] in
theorem validateCapacity_ok : validateCapacity conf = .ok () ↔
    (0 < conf.concurrency ∧ conf.concurrency ≤ maxConcurrency) ∧
      (1 ≤ conf.commitBatchSize ∧ conf.commitBatchSize ≤ maxBatchSize) ∧
      1 ≤ conf.ingressCapacity ∧ conf.ingressCapacity ≤ maxBatchSize := by
  rw [validateCapacity, except_check_ok, except_check_ok, not_or, not_or, not_not, not_not, not_lt,
    Nat.pos_iff_ne_zero]
  simp

/-- The scalar limits and the readiness policy pass exactly when each is in its range. -/
theorem validateScalars_ok :
    validateScalars conf = .ok () ∧ validateReadiness conf.readiness = .ok () ↔ conf.InRange := by
  rw [validateReadiness, except_check_ok]
  simp only [validateScalars, except_seq_ok, validateDatabase_ok, validateCapacity_ok,
    except_check_ok, not_or, not_lt, and_true]
  simp only [Duration.zero, ← Nat.pos_iff_ne_zero]
  constructor
  · rintro ⟨⟨⟨hbeat, hdb⟩, ⟨hconc, hbatch, hingress⟩, ⟨hpoll, hfall⟩, ⟨hall, hallLe⟩, ⟨hpollLe, hfallLe⟩,
      ⟨-, hpay, herr⟩, hlease, hleaseLe, hpayLe, herrLe⟩, hready⟩
    rw [saturatingMul_three hpollLe] at hlease
    exact ⟨hbeat, hdb, hconc, hbatch, hingress, ⟨hall, hallLe⟩, ⟨hpoll, hfall⟩, hfallLe,
      ⟨hlease, hleaseLe⟩, ⟨hpay, hpayLe⟩, ⟨herr, herrLe⟩, hready⟩
  · intro h
    have hpollLe := h.poll.2.trans h.fallback
    have hlease := h.lease.1
    refine ⟨⟨⟨h.heartbeat, h.database⟩, ⟨h.concurrency, h.batch, h.ingress⟩, h.poll, h.children,
      ⟨hpollLe, h.fallback⟩, ⟨?_, h.payload.1, h.error.1⟩, ?_, h.lease.2, h.payload.2, h.error.2⟩, h.readiness⟩
    · exact h.poll.1.trans_le ((Nat.le_mul_of_pos_left _ three_pos).trans hlease)
    · rw [saturatingMul_three hpollLe]
      exact hlease

end

/-! ### One lane -/

/-- The owner policy of an accepted lane: its cohort fits the batch it is claimed with, its hooks come in a pair,
    and its times are bounded. -/
structure TaskLaneLock.Valid (lock : TaskLaneLock) (maximum : ℕ) : Prop where
  batch : 0 < lock.batchSize ∧ lock.batchSize ≤ maximum
  deadline : ∀ d, lock.deadline = some d → 0 < d ∧ d ≤ maxInterval
  idle : lock.idleAfter ≤ maxInterval
  paired : lock.idleHook.isSome = lock.busyHook.isSome

/-- What the check of a lane establishes. -/
structure LaneDefinition.Valid (lane : LaneDefinition) : Prop where
  name : validLaneName lane.lane.asStr = true
  concurrency : 0 < lane.concurrency
  claim : 0 < lane.claimBatchSize ∧ lane.claimBatchSize ≤ maxBatchSize
  rate : ∀ r, lane.rate = some r → r.Accepted
  globalRate : ∀ r, lane.globalRate = some r → r.Accepted
  attempts : 0 < lane.retry.maxAttempts ∧ lane.retry.maxAttempts ≤ maxTaskAttempts
  delay : 0 < lane.retry.initialDelay ∧ lane.retry.initialDelay ≤ lane.retry.maxDelay ∧
    lane.retry.maxDelay ≤ maxInterval
  retention : ∀ d, lane.idempotencyRetention = .retainFor d → 0 < d ∧ d ≤ maxIdempotencyRetention
  lock : ∀ lock, lane.laneLock = some lock → lock.Valid lane.claimBatchSize

theorem validateRate_ok {name label : String} {rate : Option TaskRate} (ht : ∀ r, rate = some r → r.Typed) :
    validateRate name label rate = .ok () ↔ ∀ r, rate = some r → r.Accepted := by
  cases rate with
  | none => exact iff_of_true rfl fun r h => by cases h
  | some rate =>
    constructor
    · rintro h r ⟨⟩
      exact validateRate_accepted h (ht rate rfl)
    · intro h
      have hr := h rate rfl
      rw [validateRate, if_neg]
      rw [not_or, not_or, not_or, not_lt]
      exact ⟨hr.permits_pos.ne', hr.burst_pos.ne', hr.micros_pos.ne', hr.period_le⟩

theorem validateRetention_ok {name : String} {retention : IdempotencyRetention} :
    validateRetention name retention = .ok () ↔
      ∀ d, retention = .retainFor d → 0 < d ∧ d ≤ maxIdempotencyRetention := by
  cases retention with
  | activeOnly => exact iff_of_true rfl fun d h => by cases h
  | retainFor duration =>
    rw [validateRetention, except_check_ok, not_or, not_lt, Duration.zero]
    simp [Nat.pos_iff_ne_zero]

theorem validateLock_ok {conf : LaneDefinition} {maximum : ℕ} :
    validateLock conf maximum = .ok () ↔ ∀ lock, conf.laneLock = some lock → lock.Valid maximum := by
  rw [validateLock]
  cases conf.laneLock with
  | none => exact iff_of_true rfl fun lock h => by cases h
  | some lock =>
    simp only [except_check_ok, not_or, not_lt, ← Nat.pos_iff_ne_zero, Bool.not_eq_false, beq_iff_eq,
      Option.some.injEq, forall_eq', and_true]
    have hdeadline : (lock.deadline.all fun d => d ≠ Duration.zero && d ≤ maxInterval) = true ↔
        ∀ d, lock.deadline = some d → 0 < d ∧ d ≤ maxInterval := by
      cases lock.deadline with
      | none => simp
      | some d =>
        rw [Option.all_some, Bool.and_eq_true, decide_eq_true_eq, decide_eq_true_eq, Duration.zero,
          ← Nat.pos_iff_ne_zero]
        simp
    rw [hdeadline]
    constructor
    · rintro ⟨hpos, hle, hdeadline, hidle, hpaired⟩
      exact ⟨⟨hpos, hle⟩, hdeadline, hidle, hpaired⟩
    · rintro ⟨⟨hpos, hle⟩, hdeadline, hidle, hpaired⟩
      exact ⟨hpos, hle, hdeadline, hidle, hpaired⟩

/-- One round of both loops: the lane is valid, its name is new, and it is one of the names from here on. -/
theorem validateLane_ok {lane : LaneDefinition} {names names' : List String} :
    (validateLane lane names = .ok names' ∧ validateLock lane lane.claimBatchSize = .ok ()) ↔
      lane.Valid ∧ lane.lane.asStr ∉ names ∧ names' = lane.lane.asStr :: names := by
  simp only [validateLane, except_check_ok, except_seq_ok, validateRate_ok lane.rateTyped,
    validateRate_ok lane.globalRateTyped, validateRetention_ok, validateLock_ok, TaskRetry.validate, not_or,
    not_lt, Bool.not_eq_false, Except.ok.injEq]
  simp only [Duration.zero, ← Nat.pos_iff_ne_zero]
  constructor
  · rintro ⟨⟨⟨hname, hnew, hconc, hclaim⟩, hrate, hglobal, ⟨⟨hattempts, hattemptsLe, hdelay⟩, -⟩, hretain, hnames⟩, hlock⟩
    exact ⟨⟨hname, hconc, hclaim, hrate, hglobal, ⟨hattempts, hattemptsLe⟩, hdelay, hretain, hlock⟩, hnew, hnames.symm⟩
  · rintro ⟨h, hnew, rfl⟩
    exact ⟨⟨⟨h.name, hnew, h.concurrency, h.claim⟩, h.rate, h.globalRate,
      ⟨⟨h.attempts.1, h.attempts.2, h.delay⟩, trivial⟩, h.retention, rfl⟩, h.lock⟩

/-! ### Lane sets -/

/-- The quotas of a list of lanes together. -/
def totalConcurrency (lanes : List LaneDefinition) : ℕ := (lanes.map (·.concurrency)).sum

/-- Lanes that are valid each and have names of their own. -/
structure Distinguished (lanes : List LaneDefinition) : Prop where
  valid : ∀ lane ∈ lanes, lane.Valid
  distinct : (lanes.map (·.lane)).Nodup

theorem nodup_lane_names :
    (lanes.map (·.lane.asStr)).Nodup ↔ (lanes.map (·.lane)).Nodup := by
  have hinj : Function.Injective TaskLane.asStr := fun a b h => by cases a; cases b; cases h; rfl
  have h := List.nodup_map_iff hinj (l := lanes.map fun lane => lane.lane)
  rwa [List.map_map] at h

/-- The checks of a list of lanes pass when each lane is valid and no name is taken twice. -/
theorem validateEach_ok : ∀ {lanes : List LaneDefinition} {names : List String},
    validateEach lanes names = .ok () ↔ (∀ lane ∈ lanes, lane.Valid) ∧
      (lanes.map (·.lane.asStr)).Nodup ∧ ∀ lane ∈ lanes, lane.lane.asStr ∉ names
  | [], names => by simp [validateEach]
  | lane :: lanes, names => by
    have hround : validateEach (lane :: lanes) names = .ok () ↔
        (lane.Valid ∧ lane.lane.asStr ∉ names) ∧ validateEach lanes (lane.lane.asStr :: names) = .ok () := by
      rw [validateEach, except_bind_ok]
      constructor
      · rintro ⟨names', hlane, hrest⟩
        obtain ⟨hlock, hrest⟩ := except_seq_ok.mp hrest
        obtain ⟨hvalid, hnew, rfl⟩ := validateLane_ok.mp ⟨hlane, hlock⟩
        exact ⟨⟨hvalid, hnew⟩, hrest⟩
      · rintro ⟨⟨hvalid, hnew⟩, hrest⟩
        obtain ⟨hlane, hlock⟩ := validateLane_ok.mpr ⟨hvalid, hnew, rfl⟩
        exact ⟨_, hlane, except_seq_ok.mpr ⟨hlock, hrest⟩⟩
    rw [hround, validateEach_ok, List.map_cons, List.nodup_cons, List.forall_mem_cons, List.forall_mem_cons]
    simp only [List.mem_cons, not_or, List.mem_map, not_exists, not_and]
    constructor
    · rintro ⟨⟨hvalid, hnew⟩, hrest, hnodup, hnames⟩
      exact ⟨⟨hvalid, hrest⟩, ⟨fun other hother => (hnames other hother).1, hnodup⟩, hnew,
        fun other hother => (hnames other hother).2⟩
    · rintro ⟨⟨hvalid, hrest⟩, ⟨hfirst, hnodup⟩, hnew, hnames⟩
      exact ⟨⟨hvalid, hnew⟩, hrest, hnodup, fun other hother => ⟨hfirst other hother, hnames other hother⟩⟩

/-- The loop over the complete set checks the lanes and sums their quotas, which stay within `usize`. -/
theorem validateTotal_ok : ∀ {lanes : List LaneDefinition} {names : List String} {total sum : ℕ},
    total ≤ usizeMax → (validateTotal lanes names total = .ok sum ↔ validateEach lanes names = .ok () ∧
      sum = total + totalConcurrency lanes ∧ sum ≤ usizeMax)
  | [], names, total, sum, h => by
    simp only [validateTotal, validateEach, totalConcurrency, List.map_nil, List.sum_nil, Except.ok.injEq, true_and,
      Nat.add_zero]
    constructor
    · rintro rfl
      exact ⟨rfl, h⟩
    · rintro ⟨rfl, -⟩
      rfl
  | lane :: lanes, names, total, sum, h => by
    have hsum : total + totalConcurrency (lane :: lanes) = total + lane.concurrency + totalConcurrency lanes := by
      rw [totalConcurrency, List.map_cons, List.sum_cons, Nat.add_assoc, totalConcurrency]
    simp only [validateTotal, validateEach, except_bind_ok, hsum]
    by_cases hfits : total + lane.concurrency ≤ usizeMax
    · simp only [checkedAddUsize, if_pos hfits, validateTotal_ok hfits]
      constructor
      · rintro ⟨names', hlane, done, hlock, hrest, hend⟩
        exact ⟨⟨names', hlane, done, hlock, hrest⟩, hend⟩
      · rintro ⟨⟨names', hlane, done, hlock, hrest⟩, hend⟩
        exact ⟨names', hlane, done, hlock, hrest, hend⟩
    · simp only [checkedAddUsize, if_neg hfits]
      constructor
      · rintro ⟨names', hlane, done, hlock, hrest⟩
        cases hrest
      · rintro ⟨-, rfl, hle⟩
        omega

/-- A complete lane set: valid lanes with names of their own, the default lane among them, not more than the
    framework schedules, and with quotas that leave the process within its concurrency. -/
structure LaneSet (lanes : List LaneDefinition) (concurrency : ℕ) : Prop extends Distinguished lanes where
  count : lanes.length ≤ maxTaskLanes
  default : ∃ lane ∈ lanes, lane.lane = defaultTaskLane
  quota : totalConcurrency lanes ≤ concurrency

theorem validateEach_distinguished :
    validateEach lanes [] = .ok () ↔ Distinguished lanes := by
  rw [validateEach_ok, nodup_lane_names]
  constructor
  · rintro ⟨hvalid, hdistinct, -⟩
    exact ⟨hvalid, hdistinct⟩
  · intro h
    exact ⟨h.valid, h.distinct, fun lane _ hm => by cases hm⟩

theorem validateOverrides_ok :
    validateOverrides lanes = .ok () ↔ Distinguished lanes ∧ lanes.length ≤ maxTaskLanes := by
  rw [validateOverrides, except_check_ok, not_lt, validateEach_distinguished, and_comm]

/-- The last check of a site's lanes passes exactly when they are a complete lane set. -/
theorem validateLanes_ok {concurrency : ℕ} (h : concurrency ≤ usizeMax) :
    validateLanes lanes concurrency = .ok () ↔ LaneSet lanes concurrency := by
  simp only [validateLanes, except_check_ok, except_bind_ok, not_or, not_lt, Bool.not_eq_false, and_true,
    List.any_eq_true, decide_eq_true_eq, validateTotal_ok (Nat.zero_le _), validateEach_distinguished, Nat.zero_add]
  constructor
  · rintro ⟨⟨-, hcount⟩, hdefault, total, ⟨hlanes, rfl, -⟩, hquota⟩
    exact ⟨hlanes, hcount, hdefault, hquota⟩
  · intro hset
    obtain ⟨lane, hm, -⟩ := hset.default
    refine ⟨⟨fun hnil => ?_, hset.count⟩, hset.default, _, ⟨hset.toDistinguished, rfl, hset.quota.trans h⟩, hset.quota⟩
    rw [hnil] at hm
    cases hm

/-! ### What a configuration resolves to -/

theorem LaneSet.perm {lanes others : List LaneDefinition} {concurrency : ℕ} (h : LaneSet lanes concurrency)
    (hperm : lanes.Perm others) : LaneSet others concurrency where
  valid lane hm := h.valid lane (hperm.mem_iff.mpr hm)
  distinct := (hperm.map _).nodup_iff.mp h.distinct
  count := hperm.length_eq ▸ h.count
  default := by
    obtain ⟨lane, hm, hname⟩ := h.default
    exact ⟨lane, hperm.mem_iff.mp hm, hname⟩
  quota := by
    have hsum : totalConcurrency lanes = totalConcurrency others := (hperm.map _).sum_eq
    exact hsum ▸ h.quota

/-- Lanes that bundles may declare together: each has a name of its own, and none is the default lane. -/
structure Declarable (defaults : List LaneDefinition) : Prop where
  named : ∀ lane ∈ defaults, lane.lane ≠ defaultTaskLane
  distinct : (defaults.map (·.lane)).Nodup

namespace TaskConf

/-- The declared lanes of a site: its own, and those of its bundles that it does not override. -/
def declared (conf : TaskConf) (defaults : List LaneDefinition) : List LaneDefinition :=
  (defaults.filter fun lane => conf.lanes.all fun own => own.lane ≠ lane.lane) ++ conf.lanes

/-- The lanes of a site: the declared ones, and what they leave of the concurrency as the default lane where the
    site does not configure that itself. -/
def resolved (conf : TaskConf) (defaults : List LaneDefinition) : List LaneDefinition :=
  if conf.lanes.any fun lane => lane.lane = defaultTaskLane then conf.declared defaults
  else .new defaultTaskLane (conf.concurrency - totalConcurrency (conf.declared defaults)) ::
    conf.declared defaults

end TaskConf

theorem collectLanes_ok {source : String} : ∀ {defaults : List LaneDefinition}
    {lanes result : BTreeMap TaskLane LaneDefinition}, collectLanes source defaults lanes = .ok result ↔
      (Declarable defaults ∧ ∀ lane ∈ defaults, lanes.containsKey lane.lane = false) ∧
        result = defaults.foldl (fun lanes lane => lanes.insert lane.lane lane) lanes
  | [], lanes, result => by
    have hnone : Declarable [] := ⟨fun lane hm => (by cases hm), List.nodup_nil⟩
    rw [collectLanes, List.foldl_nil, Except.ok.injEq]
    exact ⟨fun h => ⟨⟨hnone, fun lane hm => (by cases hm)⟩, h.symm⟩, fun h => h.2.symm⟩
  | lane :: defaults, lanes, result => by
    have hkey : ∀ other : LaneDefinition, (lanes.insert lane.lane lane).containsKey other.lane = false ↔
        lane.lane ≠ other.lane ∧ lanes.containsKey other.lane = false := fun other => by
      simp only [← Bool.not_eq_true, BTreeMap.containsKey_iff, BTreeMap.mem_insert, Prod.mk.injEq]
      constructor
      · intro h
        have hne : lane.lane ≠ other.lane := fun heq => h ⟨lane, .inl ⟨heq.symm, rfl⟩⟩
        exact ⟨hne, fun ⟨value, hm⟩ => h ⟨value, .inr ⟨hm, hne.symm⟩⟩⟩
      · rintro ⟨hne, hnone⟩ ⟨value, ⟨heq, -⟩ | ⟨hm, -⟩⟩
        · exact hne heq.symm
        · exact hnone ⟨value, hm⟩
    rw [collectLanes, except_check_ok, except_check_ok, collectLanes_ok, List.foldl_cons, Bool.not_eq_true]
    simp only [hkey]
    constructor
    · rintro ⟨hname, hnew, ⟨hdefaults, hothers⟩, hresult⟩
      refine ⟨⟨⟨List.forall_mem_cons.mpr ⟨hname, hdefaults.named⟩, List.nodup_cons.mpr ⟨fun hm => ?_, hdefaults.distinct⟩⟩,
        List.forall_mem_cons.mpr ⟨hnew, fun other hother => (hothers other hother).2⟩⟩, hresult⟩
      obtain ⟨other, hother, heq⟩ := List.mem_map.mp hm
      exact (hothers other hother).1 heq.symm
    · rintro ⟨⟨⟨hnamed, hdistinct⟩, hnew⟩, hresult⟩
      obtain ⟨hname, hnamed⟩ := List.forall_mem_cons.mp hnamed
      obtain ⟨hfirst, hdistinct⟩ := List.nodup_cons.mp hdistinct
      obtain ⟨hlane, hothers⟩ := List.forall_mem_cons.mp hnew
      exact ⟨hname, hlane, ⟨⟨hnamed, hdistinct⟩, fun other hother =>
        ⟨fun heq => hfirst (List.mem_map.mpr ⟨other, hother, heq.symm⟩), hothers other hother⟩⟩, hresult⟩

theorem usedConcurrency_eq : ∀ {lanes : List LaneDefinition} {sum : ℕ},
    sum + totalConcurrency lanes ≤ usizeMax → usedConcurrency lanes sum = some (sum + totalConcurrency lanes)
  | [], sum, _ => rfl
  | lane :: lanes, sum, h => by
    have hsum : sum + totalConcurrency (lane :: lanes) = sum + lane.concurrency + totalConcurrency lanes := by
      rw [totalConcurrency, List.map_cons, List.sum_cons, Nat.add_assoc, totalConcurrency]
    rw [hsum] at h ⊢
    rw [usedConcurrency, checkedAddUsize, if_pos (le_trans (Nat.le_add_right _ _) h), Option.bind_some,
      usedConcurrency_eq h]

theorem usedConcurrency_some : ∀ {lanes : List LaneDefinition} {sum used : ℕ},
    usedConcurrency lanes sum = some used → used = sum + totalConcurrency lanes
  | [], sum, used, h => (Option.some.inj h).symm
  | lane :: lanes, sum, used, h => by
    obtain ⟨next, hnext, hrest⟩ := Option.bind_eq_some_iff.mp h
    rw [checkedAddUsize] at hnext
    split at hnext
    · obtain rfl := Option.some.inj hnext
      rw [usedConcurrency_some hrest, totalConcurrency, totalConcurrency, List.map_cons, List.sum_cons, Nat.add_assoc]
    · cases hnext

section

variable {conf : TaskConf} {defaults lanes : List LaneDefinition}

/-- The map that `resolve_lanes` has before it adds the default lane. -/
theorem merged_declared (hown : (conf.lanes.map (·.lane)).Nodup) (hdefaults : (defaults.map (·.lane)).Nodup)
    (h : merged = conf.lanes.foldl (fun lanes lane => BTreeMap.insert lanes lane.lane lane)
      (defaults.foldl (fun lanes lane => BTreeMap.insert lanes lane.lane lane) [])) :
    merged.Sorted ∧ (∀ entry ∈ merged, entry.1 = entry.2.lane) ∧ merged.values.Perm (conf.declared defaults) := by
  have hmem : ∀ key lane, (key, lane) ∈ merged ↔ lane ∈ conf.declared defaults ∧ lane.lane = key := by
    intro key lane
    rw [h, BTreeMap.mem_foldl_insert hown, BTreeMap.mem_foldl_insert hdefaults, TaskConf.declared, List.mem_append,
      List.mem_filter, List.all_eq_true]
    simp only [decide_eq_true_eq, List.not_mem_nil, false_and, or_false]
    constructor
    · rintro (⟨hm, rfl⟩ | ⟨⟨hm, rfl⟩, hothers⟩)
      · exact ⟨.inr hm, rfl⟩
      · exact ⟨.inl ⟨hm, hothers⟩, rfl⟩
    · rintro ⟨⟨hm, hothers⟩ | hm, rfl⟩
      · exact .inr ⟨⟨hm, rfl⟩, hothers⟩
      · exact .inl ⟨hm, rfl⟩
  have hsorted : merged.Sorted := h ▸ BTreeMap.Sorted.foldl_insert _ (BTreeMap.Sorted.foldl_insert _ List.Pairwise.nil)
  have hkeys : ∀ entry ∈ merged, entry.1 = entry.2.lane := fun entry hm => ((hmem entry.1 entry.2).mp hm).2.symm
  have hvalues : merged.values.Nodup := BTreeMap.nodup_values hsorted.nodup_keys fun key other lane hm hother =>
    (hkeys _ hm).trans (hkeys _ hother).symm
  have hdeclared : (conf.declared defaults).Nodup := by
    rw [TaskConf.declared, List.nodup_append]
    refine ⟨(List.Nodup.of_map _ hdefaults).filter _, List.Nodup.of_map _ hown, fun lane hm own howns heq => ?_⟩
    have hall := List.all_eq_true.mp (List.mem_filter.mp hm).2 own howns
    rw [decide_eq_true_eq, heq] at hall
    exact hall rfl
  refine ⟨hsorted, hkeys, (List.perm_ext_iff_of_nodup hvalues hdeclared).mpr fun lane => ?_⟩
  rw [BTreeMap.values, List.mem_map]
  constructor
  · rintro ⟨⟨key, lane⟩, hm, rfl⟩
    exact ((hmem key lane).mp hm).1
  · intro hm
    exact ⟨(lane.lane, lane), (hmem _ _).mpr ⟨hm, rfl⟩, rfl⟩

/-- The names of a sorted lane map ascend along its values. -/
theorem values_sorted (h : merged.Sorted) (hkeys : ∀ entry ∈ merged, entry.1 = entry.2.lane) :
    merged.values.Pairwise (·.lane < ·.lane) := by
  refine List.pairwise_map.mpr (h.imp_of_mem fun ha hb hlt => ?_)
  rwa [hkeys _ ha, hkeys _ hb] at hlt

theorem any_declared_default (h : Declarable defaults) :
    ((conf.declared defaults).any fun lane => lane.lane = defaultTaskLane) =
      conf.lanes.any fun lane => lane.lane = defaultTaskLane := by
  have hnone : ∀ lane ∈ defaults.filter fun lane => conf.lanes.all fun own => own.lane ≠ lane.lane,
      ¬ decide (lane.lane = defaultTaskLane) = true := fun lane hm => by
    rw [decide_eq_true_eq]
    exact h.named lane (List.mem_of_mem_filter hm)
  rw [TaskConf.declared, List.any_append, List.any_eq_false.mpr hnone, Bool.false_or]

theorem containsKey_values (h : ∀ entry ∈ merged, entry.1 = entry.2.lane) (key : TaskLane) :
    merged.containsKey key = merged.values.any fun lane => lane.lane = key := by
  rw [Bool.eq_iff_iff, BTreeMap.containsKey_iff, BTreeMap.values, List.any_map, List.any_eq_true]
  simp only [Function.comp_apply, decide_eq_true_eq]
  constructor
  · rintro ⟨lane, hm⟩
    exact ⟨(key, lane), hm, (h _ hm).symm⟩
  · rintro ⟨⟨k, lane⟩, hm, rfl⟩
    exact ⟨lane, h _ hm ▸ hm⟩

/-- The lane set of a site, as the step that adds the default lane leaves it. -/
theorem insertDefaultLane_resolved {merged full : BTreeMap TaskLane LaneDefinition} (hsorted : merged.Sorted)
    (hkeys : ∀ entry ∈ merged, entry.1 = entry.2.lane) (hperm : merged.values.Perm (conf.declared defaults))
    (hdefaults : Declarable defaults) (h : insertDefaultLane merged conf.concurrency = .ok full) :
    full.values.Perm (conf.resolved defaults) ∧ full.values.Pairwise (·.lane < ·.lane) := by
  have hany : merged.containsKey defaultTaskLane = conf.lanes.any fun lane => lane.lane = defaultTaskLane := by
    rw [containsKey_values hkeys, hperm.any_eq, any_declared_default hdefaults]
  rw [insertDefaultLane] at h
  rw [TaskConf.resolved, ← hany]
  split at h
  next hcontains =>
    obtain rfl := Except.ok.inj h
    rw [if_pos hcontains]
    exact ⟨hperm, values_sorted hsorted hkeys⟩
  next hmissing =>
    rw [if_neg hmissing]
    cases hused : usedConcurrency merged.values 0 with
    | none => simp [hused] at h
    | some used =>
      simp only [hused, except_check_ok, Except.ok.injEq] at h
      obtain ⟨-, -, rfl⟩ := h
      have hsum : used = totalConcurrency (conf.declared defaults) := by
        rw [usedConcurrency_some hused, Nat.zero_add, totalConcurrency, totalConcurrency, (hperm.map _).sum_eq]
      refine ⟨?_, values_sorted (hsorted.insert _ _) fun entry hm => ?_⟩
      · rw [hsum]
        exact ((BTreeMap.insert_perm hmissing _).map Prod.snd).trans (List.Perm.cons _ hperm)
      · rcases BTreeMap.mem_insert.mp hm with rfl | ⟨hm, -⟩
        · rfl
        · exact hkeys entry hm

/-- The default lane finds room where the lanes a site asks for are a complete lane set. -/
theorem insertDefaultLane_total (hkeys : ∀ entry ∈ merged, entry.1 = entry.2.lane)
    (hperm : merged.values.Perm (conf.declared defaults)) (hdefaults : Declarable defaults)
    (hfits : conf.concurrency ≤ usizeMax) (hset : LaneSet (conf.resolved defaults) conf.concurrency) :
    ∃ full, insertDefaultLane merged conf.concurrency = .ok full := by
  have hany : merged.containsKey defaultTaskLane = conf.lanes.any fun lane => lane.lane = defaultTaskLane := by
    rw [containsKey_values hkeys, hperm.any_eq, any_declared_default hdefaults]
  rw [TaskConf.resolved, ← hany] at hset
  rw [insertDefaultLane]
  split
  next => exact ⟨merged, rfl⟩
  next hmissing =>
    rw [if_neg hmissing] at hset
    have hsum : totalConcurrency merged.values = totalConcurrency (conf.declared defaults) := (hperm.map _).sum_eq
    have hroom : 0 < conf.concurrency - totalConcurrency (conf.declared defaults) :=
      (hset.valid _ List.mem_cons_self).concurrency
    have hle : totalConcurrency merged.values ≤ conf.concurrency := by omega
    rw [usedConcurrency_eq (by omega), Nat.zero_add]
    simp only
    rw [if_neg (by omega), if_neg (by omega)]
    exact ⟨_, rfl⟩

/-- CORRECT: a site's configuration is accepted together with the lanes its bundles declare exactly when its
    limits are in range, its own lanes and the declared ones have names of their own, and the lanes it asks for are
    a complete lane set; then it runs with these lanes, in the order of their names. -/
theorem resolveLanes_ok_iff [SemaphoreLimit] : conf.resolveLanes defaults = .ok lanes ↔
    conf.InRange ∧ (Distinguished conf.lanes ∧ conf.lanes.length ≤ maxTaskLanes) ∧ Declarable defaults ∧
      LaneSet (conf.resolved defaults) conf.concurrency ∧
      lanes.Perm (conf.resolved defaults) ∧ lanes.Pairwise (·.lane < ·.lane) := by
  have hvalidate : conf.validate = .ok () ↔
      conf.InRange ∧ Distinguished conf.lanes ∧ conf.lanes.length ≤ maxTaskLanes := by
    rw [TaskConf.validate, except_seq_ok, except_seq_ok, validateOverrides_ok, ← and_assoc, validateScalars_ok]
  have hempty : ∀ lane ∈ defaults, BTreeMap.containsKey ([] : BTreeMap TaskLane LaneDefinition) lane.lane = false :=
    fun _ _ => rfl
  have hfits : conf.InRange → conf.concurrency ≤ usizeMax := fun h => h.concurrency.2.trans (by decide)
  rw [TaskConf.resolveLanes, except_seq_ok, hvalidate]
  simp only [except_bind_ok, collectLanes_ok]
  constructor
  · rintro ⟨⟨hrange, hown⟩, base, ⟨⟨hdefaults, -⟩, rfl⟩, full, hfull, done, hlanes, heq⟩
    obtain ⟨hsorted, hkeys, hperm⟩ := merged_declared hown.1.distinct hdefaults.distinct rfl
    obtain ⟨hresolved, hascending⟩ := insertDefaultLane_resolved hsorted hkeys hperm hdefaults hfull
    obtain rfl := Except.ok.inj heq
    exact ⟨hrange, hown, hdefaults, ((validateLanes_ok (hfits hrange)).mp hlanes).perm hresolved, hresolved, hascending⟩
  · rintro ⟨hrange, hown, hdefaults, hset, hresolved, hascending⟩
    obtain ⟨hsorted, hkeys, hperm⟩ := merged_declared hown.1.distinct hdefaults.distinct rfl
    obtain ⟨full, hfull⟩ := insertDefaultLane_total hkeys hperm hdefaults (hfits hrange) hset
    obtain ⟨hvalues, hfullAscending⟩ := insertDefaultLane_resolved hsorted hkeys hperm hdefaults hfull
    have hlanes : full.values = lanes :=
      (hvalues.trans hresolved.symm).eq_of_pairwise (fun a b _ _ hab hba => absurd hba hab.not_gt)
        hfullAscending hascending
    refine ⟨⟨hrange, hown⟩, _, ⟨⟨hdefaults, hempty⟩, rfl⟩, full, hfull, (), ?_, congrArg _ hlanes⟩
    exact (validateLanes_ok (hfits hrange)).mpr (hset.perm hvalues.symm)

end

end Vyuh.Tasks
