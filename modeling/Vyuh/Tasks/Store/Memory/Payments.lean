import Vyuh.Tasks.Store.Memory.LaneServing

/-! What a claim turn pays for the Work it starts. A lane's claim reserves permits for all the wanted
    Work that stands in its queue and then starts what the first `limit` places of the queue hold, so
    it pays for more than it starts whenever more Work is wanted than those places hold and the bucket
    has the permits for it. -/

namespace Vyuh.Tasks.Memory
open Lib

/-! ### Buckets in credit -/

/-- A balance from zero to what 64 bits hold. -/
def Credited (bucket : RateBucket) : Prop :=
  0 ≤ bucket.tokensMicros ∧ bucket.tokensMicros ≤ i64Max

theorem saturate64_bounds {n : ℤ} (h : 0 ≤ n) : 0 ≤ saturate64 n ∧ saturate64 n ≤ i64Max := by
  rw [saturate64, saturate]
  refine ⟨le_max_of_le_right (le_min (by decide) h), max_le (by decide) (min_le_left _ _)⟩

theorem saturate128_nonneg {n : ℤ} (h : 0 ≤ n) : 0 ≤ saturate128 n := by
  rw [saturate128, saturate]
  exact le_max_of_le_right (le_min (by decide) h)

theorem credited_full (rate : TaskRate) (now : DateTime) : Credited (RateBucket.full rate now) :=
  saturate64_bounds (Int.mul_nonneg (Int.natCast_nonneg _) (by decide))

/-- Moving the refill time leaves the balance alone. -/
theorem advanceClock_tokens (credited period : ℤ) (rate : TaskRate) (bucket : RateBucket) :
    (advanceClock credited period rate bucket).2.tokensMicros = bucket.tokensMicros := by
  simp only [advanceClock]
  split_ifs
  · rfl
  · simp only [Step.bind_run, Step.get_run]
    cases checkedAdd minUtc maxUtc bucket.updatedAt _ <;> rfl

theorem applyCredit_credited {credited : ℤ} (hc : 0 ≤ credited) (period : ℤ) (rate : TaskRate)
    (now : DateTime) {bucket : RateBucket} (h : Credited bucket) :
    Credited (applyCredit credited period rate now bucket).2 := by
  let credit := if credited < i64Min ∨ i64Max < credited then i64Max else credited
  have hcredit : 0 ≤ credit := by
    simp only [credit]
    split_ifs
    · decide
    · exact hc
  have hsum := saturate64_bounds (Int.add_nonneg h.1 hcredit)
  have hcases : (applyCredit credited period rate now bucket).2.tokensMicros = burstTokens rate ∨
      (applyCredit credited period rate now bucket).2.tokensMicros =
        saturate64 (bucket.tokensMicros + credit) ∨
      (applyCredit credited period rate now bucket).2.tokensMicros = bucket.tokensMicros := by
    simp only [applyCredit, Step.bind_run, Step.get_run, credit]
    split_ifs
    -- the bucket is filled, or credited in part, or left alone
    all_goals first
      | exact .inl rfl
      | exact .inr (.inl (advanceClock_tokens _ _ _ _))
      | exact .inr (.inr rfl)
  rcases hcases with he | he | he <;> rw [Credited, he]
  · exact credited_full rate now
  · exact hsum
  · exact h

/-- A refill leaves a bucket in credit there, whether it succeeds or fails. -/
theorem refill_credited (rate : TaskRate) (now : DateTime) {bucket : RateBucket}
    (h : Credited bucket) : Credited (refill rate now bucket).2 := by
  simp only [refill, Step.bind_run, Step.get_run]
  split_ifs
  · exact h
  · have hearned : 0 ≤ saturate128 (elapsedMicros bucket.updatedAt now * rate.permits) :=
      saturate128_nonneg (Int.mul_nonneg (elapsedMicros_nonneg _ _) (Int.natCast_nonneg _))
    refine applyCredit_credited (Int.ediv_nonneg ?_ ?_) _ rate now h
    · exact saturate128_nonneg (Int.mul_nonneg hearned (by decide))
    · exact (by decide : (0 : ℤ) ≤ 1).trans (le_max_right _ _)

/-- In credit, whole permits are paid for in full and the balance stays in credit. -/
theorem debit_exact {bucket : RateBucket} (h : Credited bucket) {permits : ℕ}
    (hle : permits ≤ availablePermits bucket.tokensMicros) :
    (debit permits bucket).tokensMicros = bucket.tokensMicros - tokenScale * permits ∧
      Credited (debit permits bucket) := by
  obtain ⟨hlow, hhigh⟩ := h
  have hdiv : 0 ≤ bucket.tokensMicros.tdiv tokenScale := Int.tdiv_nonneg hlow (by decide)
  have hcost : (permits : ℤ) * tokenScale ≤ bucket.tokensMicros := by
    rw [availablePermits, if_neg (not_lt.mpr hdiv)] at hle
    have hmul := Int.mul_ediv_self_le (x := bucket.tokensMicros) (k := tokenScale) (by decide)
    rw [Int.tdiv_eq_ediv_of_nonneg hlow] at hle hdiv
    rw [tokenScale] at *
    omega
  have hsmall : (permits : ℤ) ≤ i64Max := by
    rw [tokenScale] at hcost
    omega
  have hpaid : (debit permits bucket).tokensMicros = bucket.tokensMicros - tokenScale * permits := by
    have hnn : (0 : ℤ) ≤ permits * tokenScale := Int.mul_nonneg (Int.natCast_nonneg _) (by decide)
    simp only [debit, if_pos hsmall]
    rw [saturate64_of_mem ((by decide : i64Min ≤ 0).trans hnn) (hcost.trans hhigh),
      saturate64_of_mem ((by decide : i64Min ≤ 0).trans (by omega)) (by omega), Int.mul_comm]
  refine ⟨hpaid, ?_⟩
  rw [Credited, hpaid, tokenScale]
  rw [tokenScale] at hcost
  omega

/-- Every bucket of the store is in credit. -/
def MemoryState.InCredit (state : MemoryState) : Prop :=
  ∀ name bucket, state.rates name = some bucket → Credited bucket

/-! ### One lane -/

/-- How much Work a list of tasks holds. -/
def workOf (tasks : List TaskRecord) : ℕ := tasks.countP (·.kind = .work)

namespace LaneWindow

variable (w : LaneWindow)

/-- The tokens the claim takes from the lane's bucket; nothing is taken where nothing is asked for. -/
def debited (before after : MemoryState) : ℤ :=
  match w.conf.globalRate with
  | none => 0
  | some rate =>
    if w.wanted before.tasks = 0 then 0
    else (w.refilled rate before.rates).tokensMicros - (w.bucket rate after.rates).tokensMicros

/-- The wanted Work in the first `limit` places of the lane's queue. -/
def inReach (tasks : List TaskRecord) : ℕ :=
  ((w.queue tasks).take w.limit).countP (rowMeets tasks wantedWork)

end LaneWindow

theorem credited_bucket {state : MemoryState} (h : state.InCredit) (w : LaneWindow) (rate : TaskRate) :
    Credited (w.bucket rate state.rates) := by
  rw [LaneWindow.bucket]
  cases hb : state.rates w.lane.asStr with
  | none => exact credited_full rate w.now
  | some bucket => exact h _ bucket hb

section

variable [Serde] {node : Uuid} {conf : TaskStoreConf} {w : LaneWindow} {permits : ℕ}
  {rateWake : Option Duration} {turn turn' : Turn} {poll : LanePoll}

/-- A claim pays for all it reserves. -/
theorem Serves.debits (hcredit : turn.state.InCredit)
    (h : Serves node conf w permits rateWake turn poll turn') :
    turn'.state.InCredit ∧ (w.conf.globalRate.isSome = true →
      w.debited turn.state turn'.state = tokenScale * permits) := by
  have hreserved := h.reserves
  have hpays := h.pays
  by_cases hzero : w.wanted turn.state.tasks = 0
  · simp only [hzero, reservePermits, if_true] at hpays
    obtain ⟨hp, hrates⟩ := Step.pure_ok.mp hpays
    obtain ⟨rfl, -⟩ := Prod.mk.inj hp
    refine ⟨?_, fun _ => ?_⟩
    · rw [MemoryState.InCredit, ← hrates]
      exact hcredit
    · rw [LaneWindow.debited, hzero]
      cases w.conf.globalRate <;> simp
  · cases hrate : w.conf.globalRate with
    | none =>
      simp only [hrate, reservePermits, if_neg hzero] at hpays
      refine ⟨?_, fun hsome => (by cases hsome)⟩
      rw [MemoryState.InCredit, ← (Step.pure_ok.mp hpays).2]
      exact hcredit
    | some rate =>
      rw [hrate, reservePermits_rated _ hzero, Step.zoom_ok] at hpays
      obtain ⟨paid, hrun, hrates⟩ := hpays
      obtain ⟨refilled, hrefill, -⟩ := reserveBucket_grants hrun
      have hrefilled : w.refilled rate turn.state.rates = refilled := congrArg Prod.snd hrefill
      have hfull : Credited refilled := by
        have hkeeps := refill_credited rate w.now (credited_bucket hcredit w rate)
        rwa [show (refill rate w.now _).2 = refilled from hrefilled] at hkeeps
      have hpaid := reserveBucket_ok hrefill hrun
      simp only [LaneWindow.reserved, hrate, hrefilled] at hreserved
      rw [← hreserved] at hpaid
      obtain ⟨hexact, hleft⟩ := debit_exact hfull (hreserved ▸ min_le_left _ _)
      have hafter : w.bucket rate turn'.state.rates = paid := by
        rw [LaneWindow.bucket, ← hrates, FMap.insert_self, Option.getD_some]
      refine ⟨?_, fun _ => ?_⟩
      · intro name bucket hb
        rw [← hrates, FMap.insert_apply] at hb
        split at hb
        · obtain rfl := Option.some.inj hb
          rw [hpaid]
          exact hleft
        · exact hcredit name bucket hb
      · simp only [LaneWindow.debited, hrate, if_neg hzero, hrefilled, hafter, hpaid, hexact]
        omega

/-- A claim starts as much Work as it has permits for, within its reach. -/
theorem Serves.starts (h : Serves node conf w permits rateWake turn poll turn') :
    workOf poll.tasks = min permits (w.inReach turn.state.tasks) := by
  have hrows : ∀ i ∈ w.queue turn.state.tasks, ∃ row, turn.state.tasks[i]? = some row := by
    intro i hi
    rw [LaneWindow.queue, standing_eq_filter] at hi
    obtain ⟨row, hrow, -⟩ := mem_waiting.mp (List.mem_filter.mp hi).1
    exact ⟨row, hrow⟩
  have hretained : ∀ queue : List ℕ, queue.Sublist (w.queue turn.state.tasks) →
      (retainPermitted turn.state.tasks permits (queue.take w.limit)).countP
        (rowMeets turn.state.tasks (·.kind = .work)) =
      min permits ((queue.take w.limit).countP (rowMeets turn.state.tasks wantedWork)) :=
    fun queue hsub => retainPermitted_work permits fun i hi =>
      hrows i (hsub.subset (List.mem_of_mem_take hi))
  rw [workOf, granted_kinds h.granted (fun kind => decide (kind = .work)), selected,
    hretained _ (selectable_sublist _ _ _)]
  by_cases hzero : permits = 0
  · rw [hzero, Nat.zero_min, Nat.zero_min]
  · rw [selectable, if_neg hzero]
    rfl

end

/-! ### The whole turn -/

section Turns

variable [Serde] (node : Uuid) (conf : TaskStoreConf) (lease : Duration) (now : DateTime)

/-- The tokens one requested lane takes from its bucket. -/
def laneDebit (entry : LaneClaim × Uuid) (turn : Turn) : ℤ :=
  match conf.laneOf entry.1.lane with
  | none => 0
  | some laneConf =>
    if claimsLane node laneConf lease now entry turn then
      (laneWindow laneConf entry.1 now).debited turn.state
        (claimOne node conf lease now entry turn).2.state
    else 0

/-- The permits the lane's claim reserves are no more than the wanted Work within its reach. -/
def LaneCovered (entry : LaneClaim × Uuid) (turn : Turn) : Prop :=
  ∀ laneConf, conf.laneOf entry.1.lane = some laneConf → claimsLane node laneConf lease now entry turn = true →
    (laneWindow laneConf entry.1 now).reserved turn.state ≤
      (laneWindow laneConf entry.1 now).inReach turn.state.tasks

/-- The tokens a claim turn takes from a lane's bucket, over all its requests in order. -/
def debitedFrom (lane : TaskLane) : List (LaneClaim × Uuid) → Turn → ℤ
  | [], _ => 0
  | entry :: claims, turn =>
    (if entry.1.lane = lane then laneDebit node conf lease now entry turn else 0) +
      debitedFrom lane claims (claimOne node conf lease now entry turn).2

/-- Every claim of the turn on the lane reserves no more than it can start. -/
def Covered (lane : TaskLane) : List (LaneClaim × Uuid) → Turn → Prop :=
  Throughout node conf lease now fun entry turn =>
    entry.1.lane = lane → LaneCovered node conf lease now entry turn

/-- The Work a turn's polls hand out on a lane. -/
def startedOn (lane : TaskLane) (polls : List LanePoll) : ℕ :=
  workOf ((polls.filter (·.lane = lane)).flatMap (·.tasks))

variable {node conf lease now} {entry : LaneClaim × Uuid} {turn turn' : Turn} {poll : LanePoll}

/-- One lane's turn keeps buckets in credit, pays for every start, and pays for starts only when it is
    covered. -/
theorem claimOne_pays (hconf : turn.state.conf = some conf) (hcredit : turn.state.InCredit)
    (h : claimOne node conf lease now entry turn = (.ok poll, turn')) :
    turn'.state.InCredit ∧ (poll.tasks = [] ∨ poll.lane = entry.1.lane) ∧
      (((conf.laneOf entry.1.lane).bind (·.globalRate)).isSome = true →
        tokenScale * workOf poll.tasks ≤ laneDebit node conf lease now entry turn ∧
        (laneDebit node conf lease now entry turn = tokenScale * workOf poll.tasks ↔
          LaneCovered node conf lease now entry turn)) := by
  obtain ⟨laneConf, hlane, hcases⟩ := claimOne_serves hconf h
  have hdebit : laneDebit node conf lease now entry turn =
      if claimsLane node laneConf lease now entry turn then
        (laneWindow laneConf entry.1 now).debited turn.state turn'.state else 0 := by
    simp only [laneDebit, hlane, h]
  have hcovered : LaneCovered node conf lease now entry turn ↔
      (claimsLane node laneConf lease now entry turn = true →
        (laneWindow laneConf entry.1 now).reserved turn.state ≤
          (laneWindow laneConf entry.1 now).inReach turn.state.tasks) := by
    rw [LaneCovered, hlane]
    simp
  rw [hcovered]
  rcases hcases with ⟨hclaims, permits, rateWake, hserves⟩ | ⟨hidle, hsilent⟩
  · have hreserved := hserves.reserves
    obtain ⟨hafter, hpaid⟩ := hserves.debits hcredit
    have hstarts := hserves.starts
    refine ⟨hafter, .inr hserves.lane, fun hrated => ?_⟩
    rw [hlane, Option.bind_some] at hrated
    rw [hdebit, if_pos hclaims, hpaid hrated, hstarts, ← hreserved, tokenScale]
    refine ⟨by omega, fun heq _ => by omega, fun hle => ?_⟩
    rw [min_eq_left (hle hclaims)]
  · refine ⟨?_, .inl hsilent.silent, fun _ => ?_⟩
    · rw [MemoryState.InCredit, hsilent.rates]
      exact hcredit
    · rw [hdebit, hidle, if_neg Bool.false_ne_true, hsilent.silent]
      exact ⟨le_refl _, fun _ hc => (nomatch hc), fun _ => rfl⟩

omit [Serde] in
theorem startedOn_cons (lane : TaskLane) (poll : LanePoll) (polls : List LanePoll)
    (h : poll.tasks = [] ∨ poll.lane = entry.1.lane) : startedOn lane (poll :: polls) =
      (if entry.1.lane = lane then workOf poll.tasks else 0) + startedOn lane polls := by
  rw [startedOn, List.filter_cons]
  rcases h with h | h
  · split <;> simp [startedOn, h, workOf]
  · rw [h]
    by_cases hlane : entry.1.lane = lane
    · simp [hlane, startedOn, workOf]
    · simp [hlane, startedOn]

/-- All requests together do. -/
theorem collect_credit : ∀ (claims : List (LaneClaim × Uuid)) (turn turn' : Turn) (polls : List LanePoll),
    turn.state.conf = some conf → turn.state.InCredit →
    Step.collect (claimOne node conf lease now) claims turn = (.ok polls, turn') → turn'.state.InCredit
  | [], _, _, _, _, hcredit, h => by
    obtain ⟨-, rfl⟩ := Step.pure_ok.mp h
    exact hcredit
  | entry :: claims, turn, turn', _, hconf, hcredit, h => by
    simp only [Step.collect, Step.bind_ok, Step.pure_ok] at h
    obtain ⟨poll, turn₁, h₁, polls, turn₂, h₂, rfl, rfl⟩ := h
    have hconf₁ : turn₁.state.conf = some conf :=
      (works_frame (claimOne_works h₁)).1.conf.trans hconf
    exact collect_credit claims turn₁ turn₂ polls hconf₁ (claimOne_pays hconf hcredit h₁).1 h₂

/-- A turn pays for every start on a rated lane, and for starts only when it is covered. -/
theorem collect_pays {lane : TaskLane} (hrated : ((conf.laneOf lane).bind (·.globalRate)).isSome = true) :
    ∀ (claims : List (LaneClaim × Uuid)) (turn turn' : Turn) (polls : List LanePoll),
      turn.state.conf = some conf → turn.state.InCredit →
      Step.collect (claimOne node conf lease now) claims turn = (.ok polls, turn') →
        tokenScale * startedOn lane polls ≤ debitedFrom node conf lease now lane claims turn ∧
        (debitedFrom node conf lease now lane claims turn = tokenScale * startedOn lane polls ↔
          Covered node conf lease now lane claims turn)
  | [], turn, _, _, _, _, h => by
    obtain ⟨rfl, rfl⟩ := Step.pure_ok.mp h
    exact ⟨le_refl _, fun _ => trivial, fun _ => rfl⟩
  | entry :: claims, turn, turn', _, hconf, hcredit, h => by
    simp only [Step.collect, Step.bind_ok, Step.pure_ok] at h
    obtain ⟨poll, turn₁, h₁, polls, turn₂, h₂, rfl, rfl⟩ := h
    obtain ⟨hcredit₁, hnamed, hpays⟩ := claimOne_pays hconf hcredit h₁
    have hconf₁ : turn₁.state.conf = some conf :=
      (works_frame (claimOne_works h₁)).1.conf.trans hconf
    obtain ⟨hle, hiff⟩ := collect_pays hrated claims turn₁ turn₂ polls hconf₁ hcredit₁ h₂
    rw [debitedFrom, Covered, Throughout, startedOn_cons lane poll polls hnamed, h₁, ← Covered, ← hiff]
    simp only
    by_cases hlane : entry.1.lane = lane
    · obtain ⟨hone, honeiff⟩ := hpays (hlane ▸ hrated)
      rw [if_pos hlane, if_pos hlane, ← honeiff]
      rw [tokenScale] at *
      refine ⟨by omega, fun heq => ⟨fun _ => by omega, by omega⟩, fun hboth => ?_⟩
      obtain ⟨hfirst, hrest⟩ := hboth
      have hpaid := hfirst hlane
      omega
    · rw [if_neg hlane, if_neg hlane]
      simp only [zero_add, hle, hlane, false_implies, true_and, iff_self]

end Turns

/-! ### Whole runs -/

section Runs

variable [Serde] (store : MemoryTaskStore)

omit [Serde] in
/-- Settling leaves the buckets alone. -/
theorem settleTurn_rates [Serde] (turn : Turn) (children : List TaskRecord)
    (waits : List (TaskId × TaskWait)) (phases : FMap String LaneOwnerPhase) (poll : TaskPoll)
    (commits : List TaskCommit) (now : DateTime) :
    (settleTurn turn children waits phases poll commits now).1.rates = turn.state.rates := by
  obtain ⟨cleared, locks, hs⟩ := settleTurn_delivered turn children waits phases poll commits now
  have hfold {α : Type} (f : MemoryState → α → MemoryState) (l : List α) (s : MemoryState)
      (h : ∀ s, ∀ a ∈ l, (f s a).rates = s.rates) : (l.foldl f s).rates = s.rates :=
    foldl_rel (R := fun s s' : MemoryState => s'.rates = s.rates) (fun _ => rfl)
      (fun _ _ _ h h' => h'.trans h) f l s h
  rw [hs]
  refine (hfold (deliverOne now) _ _ fun s entry _ => ?_).trans
    ((hfold (installOne now) _ _ fun s entry _ => ?_).trans
      (hfold materializeOne _ _ fun s snapshot _ => ?_))
  · have h := deliverOne_cases now s entry
    generalize deliverOne now s entry = s' at h
    cases h <;> rfl
  · rcases installOne_cases now s entry with ⟨h, -⟩ | ⟨-, h⟩ <;> rw [h]
  · rcases materializeOne_cases s snapshot with ⟨-, h⟩ | ⟨wait, -, h⟩ <;> rw [h]

variable {state : MemoryState}

theorem claimOperation_credit (hd : state.Distinct) (hcredit : state.InCredit) (node : Uuid)
    (claims : List (LaneClaim × Uuid)) (batch : ℕ) (lease : Duration) (now : DateTime) :
    (atomicOperation (some node) claims [] batch lease now state).2.InCredit := by
  rcases claimOperation_cases hd node claims batch lease now with hkept | ⟨turn, poll, hclaims, hsettled⟩
  · rw [hkept]
    exact hcredit
  · obtain ⟨conf, hconf, hcollect⟩ := claimTasksState_ok hclaims
    rw [hsettled, MemoryState.InCredit, settleTurn_rates]
    exact collect_credit claims _ _ _ hconf hcredit hcollect

theorem commitOperation_rates (hd : state.Distinct) (commits : List TaskCommit) (batch : ℕ)
    (lease : Duration) (now : DateTime) :
    (atomicOperation none [] commits batch lease now state).2.rates = state.rates := by
  rcases commitOperation_cases hd commits batch lease now with hkept | ⟨staged, turn, hcommits, hsettled⟩
  · rw [hkept]
  · rw [hsettled, settleTurn_rates, hcommits.result]
    rfl

omit [Serde] in
theorem initializeRates_credit (hcredit : state.InCredit) (conf : TaskStoreConf) (now : DateTime) :
    (initializeRates state conf now).InCredit := by
  refine foldl_rel (R := fun rates rates' : FMap String RateBucket =>
    (∀ name bucket, rates name = some bucket → Credited bucket) →
      ∀ name bucket, rates' name = some bucket → Credited bucket) (fun _ h => h)
    (fun _ _ _ h h' hc => h' (h hc)) _ conf.lanes state.rates (fun rates lane _ h => ?_) hcredit
  cases lane.globalRate with
  | none => exact h
  | some rate =>
    intro name bucket hb
    simp only [FMap.orInsert, FMap.insert_apply] at hb
    split at hb
    · obtain rfl := Option.some.inj hb
      cases hold : rates lane.lane.asStr with
      | none => exact credited_full rate now
      | some bucket => exact h _ bucket hold
    · exact h name bucket hb

theorem exec_inCredit (hd : state.Distinct) (hcredit : state.InCredit) (op : Op) :
    (exec store op state).2.InCredit := by
  cases hop : op.quiet with
  | true =>
    rw [MemoryState.InCredit, (exec_quiet store hop state).rates]
    exact hcredit
  | false =>
    have hdone := exec_performs store hop state
    generalize (exec store op state).2 = after at hdone ⊢
    cases hdone with
    | refused => exact hcredit
    | setUp ratesNow hconf => exact initializeRates_credit hcredit _ ratesNow
    | claimed _ => exact claimOperation_credit hd hcredit _ _ _ _ _
    | committed ht =>
      rw [MemoryState.InCredit, commitOperation_rates hd]
      exact hcredit
    | @admitted _ _ _ now _ _ _ _ _ _ hturn hwalk =>
      have hrates := commitOperation_rates hd op.commits store.commitBatchSize store.leaseDuration now
      rw [hturn] at hrates
      rw [MemoryState.InCredit, hrates]
      exact hcredit
    | @recovered now _ staged _ _ cancelled _ hgiven _ hturn =>
      have hstaged : staged.Distinct := by
        rw [MemoryState.Distinct, hgiven.steady.map_eq fun _ _ h => h.id]
        exact hd
      have hrates := commitOperation_rates hstaged cancelled store.commitBatchSize store.leaseDuration now
      rw [hturn] at hrates
      rw [MemoryState.InCredit, hrates, hgiven.rates]
      exact hcredit

/-- In every reachable state, buckets are in credit. -/
theorem reachable_inCredit {call : MemoryState → Op → Prop}
    (h : Reachable Started (Steps store call) state) : state.InCredit := by
  refine (h.inv (I := fun s => s.Distinct ∧ s.InCredit) ?_ ?_).2
  · rintro _ ⟨conf, rfl⟩
    exact ⟨List.nodup_nil, fun _ _ hb => nomatch hb⟩
  · rintro s op s' ⟨hd, hcredit⟩ ⟨-, rfl⟩
    exact ⟨(exec_extends store hd op).distinct hd, exec_inCredit store hd hcredit op⟩

/-- INCORRECT as an equation: a claim turn pays for every Work task it starts on a rated lane, and for
    those only exactly when each of its requests on the lane reserves no more than it can start. -/
theorem claims_are_paid_exactly_iff :
    (∀ state, Reachable Started (Steps store AnyCall) state → state.InCredit) ∧
      ∀ node conf lease now claims turn turn' poll, turn.state.conf = some conf → turn.state.InCredit →
        claimTasksState node claims lease now turn = (.ok poll, turn') →
        ∀ lane, ((conf.laneOf lane).bind (·.globalRate)).isSome = true →
          tokenScale * startedOn lane poll.lanes ≤ debitedFrom node conf lease now lane claims turn ∧
          (debitedFrom node conf lease now lane claims turn = tokenScale * startedOn lane poll.lanes ↔
            Covered node conf lease now lane claims turn) := by
  refine ⟨fun state h => reachable_inCredit store h, ?_⟩
  intro node conf lease now claims turn turn' poll hconf hcredit hclaims lane hrated
  obtain ⟨_, hconf', hcollect⟩ := claimTasksState_ok hclaims
  obtain rfl := Option.some.inj (hconf'.symm.trans hconf)
  exact collect_pays hrated claims _ _ _ hconf hcredit hcollect

end Runs

/-! ### Two due tasks and one place -/

/-- One open lane of two permits a second. -/
def ratedConf : TaskStoreConf where
  maxAllChildren := 4
  handlers := [("work", .work), ("flow", .flow)]
  lanes :=
    [{ lane := ⟨"open"⟩, claimBatchSize := 8, laneLock := none,
       globalRate := some ⟨2, Duration.ofSecs 1, 2⟩,
       retry := ⟨3, Duration.ofSecs 1, Duration.ofSecs 60⟩, sticky := true }]
  idempotency := []
  pollInterval := Duration.ofSecs 1

attribute [local instance] acceptingSerde in
/-- The store after them, as a claim turn finds it. -/
def twoDue : Turn := ((MemoryState.new ratedConf).execs smallStore twoSubmitted).begin

attribute [local instance] acceptingSerde in
/-- A claim of one task pays for two. -/
theorem one_start_costs_two :
    ∃ poll turn', claimTasksState 7 (openClaim 1) (Duration.ofSecs 30) 3 twoDue = (.ok poll, turn') ∧
      startedOn ⟨"open"⟩ poll.lanes = 1 ∧
      debitedFrom 7 ratedConf (Duration.ofSecs 30) 3 ⟨"open"⟩ (openClaim 1) twoDue = 2 * tokenScale := by
  have hdebit : debitedFrom 7 ratedConf (Duration.ofSecs 30) 3 ⟨"open"⟩ (openClaim 1) twoDue =
      2 * tokenScale := by
    decide +kernel
  have hstarts : ((claimTasksState 7 (openClaim 1) (Duration.ofSecs 30) 3 twoDue).1.toOption.map
      fun poll => startedOn ⟨"open"⟩ poll.lanes) = some 1 := by
    decide +kernel
  obtain ⟨poll, turn', hrun, hone⟩ := ok_of_toOption hstarts
  exact ⟨poll, turn', hrun, hone, hdebit⟩

attribute [local instance] acceptingSerde in
/-- A claim of two pays for the two it starts. -/
theorem claims_are_paid_exactly_iff_two :
    ∃ poll turn', claimTasksState 7 (openClaim 2) (Duration.ofSecs 30) 3 twoDue = (.ok poll, turn') ∧
      startedOn ⟨"open"⟩ poll.lanes = 2 ∧
      (debitedFrom 7 ratedConf (Duration.ofSecs 30) 3 ⟨"open"⟩ (openClaim 2) twoDue =
          tokenScale * startedOn ⟨"open"⟩ poll.lanes ↔
        Covered 7 ratedConf (Duration.ofSecs 30) 3 ⟨"open"⟩ (openClaim 2) twoDue) := by
  have hstarts : ((claimTasksState 7 (openClaim 2) (Duration.ofSecs 30) 3 twoDue).1.toOption.map
      fun poll => startedOn ⟨"open"⟩ poll.lanes) = some 2 := by
    decide +kernel
  obtain ⟨poll, turn', hrun, htwo⟩ := ok_of_toOption hstarts
  obtain ⟨hcredit, hpaid⟩ := claims_are_paid_exactly_iff smallStore
  have hreached : Reachable Started (Steps smallStore AnyCall) twoDue.state :=
    ⟨_, twoSubmitted, ⟨ratedConf, rfl⟩, MemoryState.execs_run smallStore _ _ fun _ _ _ => trivial⟩
  have hconf : twoDue.state.conf = some ratedConf := by decide +kernel
  exact ⟨poll, turn', hrun, htwo,
    (hpaid 7 ratedConf _ 3 _ twoDue turn' poll hconf (hcredit _ hreached) hrun ⟨"open"⟩ (by decide)).2⟩

end Vyuh.Tasks.Memory
