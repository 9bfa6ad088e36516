import Vyuh.Lib.Accrual
import Vyuh.Tasks.LocalRate

/-! Both token buckets are meters: for a rate that passed its check no operation of `rate.rs` reaches
    the ends of its integer type, so a refill of the stores' wall-clock bucket and one of the runner's
    local bucket are refills of the same meter. -/

namespace Vyuh.Tasks
open Lib

/-- The widths of a rate's `u32` fields. -/
structure TaskRate.Typed (rate : TaskRate) : Prop where
  permits_le : rate.permits ≤ u32Max
  burst_le : rate.burst ≤ u32Max

/-- What the check establishes. -/
structure TaskRate.Accepted (rate : TaskRate) : Prop extends rate.Typed where
  permits_pos : 0 < rate.permits
  burst_pos : 0 < rate.burst
  micros_pos : 0 < Duration.asMicros rate.period
  period_le : rate.period ≤ u64Max

theorem validateRate_accepted {name label : String} {rate : TaskRate}
    (h : validateRate name label (some rate) = .ok ()) (ht : rate.Typed) : rate.Accepted := by
  simp only [validateRate] at h
  split_ifs at h with hbad
  push Not at hbad
  obtain ⟨hpermits, hburst, hmicros, hperiod⟩ := hbad
  exact ⟨ht, by omega, by omega, by omega, hperiod⟩

/-- The meter's rate: `permits` whole permits every truncated period. -/
def TaskRate.accrual (rate : TaskRate) (h : rate.Accepted) : Accrual where
  num := rate.permits * tokenScale
  den := Duration.asMicros rate.period
  tick := 1000
  period := rate.period
  cap := rate.burst * tokenScale
  top := i64Max
  num_pos := by
    have := h.permits_pos
    rw [tokenScale]
    omega
  den_pos := by exact_mod_cast h.micros_pos
  tick_pos := by omega
  period_pos := by
    have := h.micros_pos
    rw [Duration.asMicros] at this
    omega
  top_nonneg := by decide

def RateBucket.meter (bucket : RateBucket) : Meter := ⟨bucket.tokensMicros, bucket.updatedAt⟩

def LocalRateBucket.meter (bucket : LocalRateBucket) : Meter := ⟨bucket.tokensMicros, bucket.updatedAt⟩

section

variable {rate : TaskRate} (h : rate.Accepted)

theorem accrual_num : (rate.accrual h).num = rate.permits * tokenScale := rfl

theorem accrual_den : (rate.accrual h).den = Duration.asMicros rate.period := rfl

theorem saturate64_of_mem {n : ℤ} (hlo : i64Min ≤ n) (hhi : n ≤ i64Max) : saturate64 n = n := by
  rw [saturate64, saturate, min_eq_right hhi, max_eq_right hlo]

theorem saturate128_of_nonneg {n : ℤ} (hlo : 0 ≤ n) (hhi : n ≤ i128Max) : saturate128 n = n := by
  rw [saturate128, saturate, min_eq_right hhi, max_eq_right]
  rw [i128Min]
  omega

include h in
theorem micros_le : (Duration.asMicros rate.period : ℤ) ≤ 2 ^ 64 - 1 := by
  have hle : Duration.asMicros rate.period ≤ u64Max / 1000 := Nat.div_le_div_right h.period_le
  rw [u64Max] at hle
  omega

include h in
theorem micros_max : max (Duration.asMicros rate.period : ℤ) 1 = Duration.asMicros rate.period :=
  max_eq_left (by exact_mod_cast h.micros_pos)

include h in
theorem burstTokens_eq : burstTokens rate = rate.burst * tokenScale := by
  have hle := h.burst_le
  rw [u32Max] at hle
  apply saturate64_of_mem <;> simp only [i64Min, i64Max, tokenScale] <;> omega

theorem accrual_cap : (rate.accrual h).cap = burstTokens rate := (burstTokens_eq h).symm

include h in
theorem burst_pos : 0 < burstTokens rate := by
  have := h.burst_pos
  rw [burstTokens_eq h, tokenScale]
  omega

include h in
theorem burst_le : burstTokens rate ≤ i64Max := by
  have hle := h.burst_le
  rw [burstTokens_eq h, tokenScale, i64Max]
  rw [u32Max] at hle
  omega

theorem checkedAdd_some {lo hi a b c : ℤ} (hadd : checkedAdd lo hi a b = some c) : c = a + b := by
  rw [checkedAdd] at hadd
  split_ifs at hadd
  exact (Option.some.inj hadd).symm

/-- A saturating sum reaches a burst exactly when the sum does. -/
theorem burst_le_saturate {burst n : ℤ} (hpos : 0 < burst) (hle : burst ≤ i64Max) :
    burst ≤ saturate64 n ↔ burst ≤ n := by
  rw [saturate64, saturate, le_max_iff, le_min_iff]
  have : ¬ burst ≤ i64Min := by
    rw [i64Min]
    omega
  tauto

/-! ### The wall-clock bucket -/

theorem elapsedMicros_nonneg (since now : DateTime) : 0 ≤ elapsedMicros since now := by
  simp only [elapsedMicros]
  split_ifs
  · exact le_refl _
  · exact le_max_right _ _

theorem elapsedMicros_le (since now : DateTime) : elapsedMicros since now ≤ i64Max := by
  simp only [elapsedMicros]
  split_ifs with hfit
  · decide
  · push Not at hfit
    exact max_le hfit.2 (by decide)

/-- Elapsed time is whole microseconds, or nothing when it does not fit. -/
theorem elapsedMicros_of_le {since now : DateTime} (hle : since ≤ now) :
    elapsedMicros since now = if i64Max < (now - since) / 1000 then 0 else (now - since) / 1000 := by
  have hdiv : Int.tdiv (now - since) 1000 = (now - since) / 1000 :=
    Int.tdiv_eq_ediv_of_nonneg (Int.sub_nonneg.mpr hle)
  have hnn : 0 ≤ (now - since) / 1000 := Int.ediv_nonneg (Int.sub_nonneg.mpr hle) (by omega)
  have hlow : ¬ (now - since) / 1000 < i64Min := not_lt.mpr (le_trans (by decide) hnn)
  simp only [elapsedMicros, hdiv, hlow, false_or, max_eq_left hnn]

/-- An instant that has not come yet is no time ago. -/
theorem elapsedMicros_of_lt {since now : ℤ} (hlt : now < since) : elapsedMicros since now = 0 := by
  have hneg : Int.tdiv (now - since) 1000 ≤ 0 := by
    have hdiv : Int.tdiv (now - since) 1000 = -((since - now) / 1000) := by
      rw [← Int.neg_sub since now, Int.neg_tdiv, Int.tdiv_eq_ediv_of_nonneg (by omega)]
    omega
  simp only [elapsedMicros]
  split_ifs
  · rfl
  · exact max_eq_right hneg

/-- The whole microseconds that passed end by now. -/
theorem elapsedMicros_mul_le {since now : ℤ} (hle : since ≤ now) :
    since + 1000 * elapsedMicros since now ≤ now := by
  rw [elapsedMicros_of_le hle]
  split_ifs <;> omega

theorem elapsed_ticks_le {since now : ℤ} (hle : since ≤ now) :
    since + (rate.accrual h).tick * elapsedMicros since now ≤ now := elapsedMicros_mul_le hle

/-- The product of two factors within their widths. -/
theorem mul_le_widths {a b m n : ℤ} (ha : a ≤ m) (hb : 0 ≤ b) (hbn : b ≤ n) (hm : 0 ≤ m) :
    a * b ≤ m * n :=
  (mul_le_mul_of_nonneg_right ha hb).trans (mul_le_mul_of_nonneg_left hbn hm)

include h in
theorem permits_scale : 0 < (rate.permits : ℤ) * tokenScale ∧
    (rate.permits : ℤ) * tokenScale ≤ (2 ^ 32 - 1) * 1000000 := by
  have hpos := h.permits_pos
  have hle := h.permits_le
  rw [u32Max] at hle
  rw [tokenScale]
  omega

/-- The credit of `refill` before it is narrowed. -/
theorem earned_eq {elapsed : ℤ} (hlo : 0 ≤ elapsed) (hhi : elapsed ≤ i64Max) :
    saturate128 (saturate128 (elapsed * rate.permits) * tokenScale) /
      max (Duration.asMicros rate.period : ℤ) 1 = (rate.accrual h).earned elapsed := by
  have hpermits : (rate.permits : ℤ) ≤ 2 ^ 32 - 1 := by
    have := h.permits_le
    rw [u32Max] at this
    omega
  have hinner : 0 ≤ elapsed * (rate.permits : ℤ) ∧
      elapsed * (rate.permits : ℤ) ≤ (2 ^ 63 - 1) * (2 ^ 32 - 1) :=
    ⟨Int.mul_nonneg hlo (by omega), mul_le_widths hhi (by omega) hpermits (by decide)⟩
  rw [saturate128_of_nonneg hinner.1 (hinner.2.trans (by decide)), saturate128_of_nonneg,
    micros_max h, Int.mul_assoc]
  · rfl
  · exact Int.mul_nonneg hinner.1 (by decide)
  · rw [tokenScale, i128Max]
    omega

/-- Narrowing a credit to 64 bits. -/
theorem credit_eq {elapsed : ℤ} (hlo : 0 ≤ elapsed) :
    (if (rate.accrual h).earned elapsed < i64Min ∨ i64Max < (rate.accrual h).earned elapsed then i64Max
      else (rate.accrual h).earned elapsed) = (rate.accrual h).credit elapsed := by
  have hnn := Accrual.earned_nonneg (a := rate.accrual h) hlo
  have htop : (rate.accrual h).top = i64Max := rfl
  rw [Accrual.credit, htop]
  have hlow : ¬ (rate.accrual h).earned elapsed < i64Min := by
    rw [i64Min]
    omega
  simp only [hlow, false_or]
  split_ifs with hhigh
  · exact (min_eq_left hhigh.le).symm
  · exact (min_eq_right (not_lt.mp hhigh)).symm

/-- The ticks a credit costs, as `advance_clock` computes them. -/
theorem cost_eq {n : ℤ} (hlo : 0 ≤ n) (hhi : n ≤ i64Max) :
    saturate128 (n * Duration.asMicros rate.period) / max (saturate128 (rate.permits * tokenScale)) 1 =
      (rate.accrual h).cost n := by
  obtain ⟨hpos, hle⟩ := permits_scale h
  have hprod : n * (Duration.asMicros rate.period : ℤ) ≤ (2 ^ 63 - 1) * (2 ^ 64 - 1) :=
    mul_le_widths hhi (by omega) (micros_le h) (by decide)
  rw [saturate128_of_nonneg (Int.mul_nonneg hlo (by omega)) (hprod.trans (by decide)),
    saturate128_of_nonneg hpos.le (hle.trans (by decide)), max_eq_left (by omega)]
  rfl

/-- A successful `advance_clock` moves the refill time by the cost of the credit. -/
theorem advanceClock_ok {n : ℤ} (hlo : 0 ≤ n) (hhi : n ≤ i64Max) {bucket bucket' : RateBucket} {u : Unit}
    (hrun : advanceClock n (max (Duration.asMicros rate.period : ℤ) 1) rate bucket = (.ok u, bucket')) :
    bucket' = { bucket with updatedAt := bucket.updatedAt + 1000 * (rate.accrual h).cost n } := by
  simp only [advanceClock, micros_max h, cost_eq h hlo hhi] at hrun
  split_ifs at hrun with hrange
  · exact absurd hrun Step.fail_ok
  · simp only [Step.bind_ok, Step.get_ok] at hrun
    obtain ⟨_, _, ⟨rfl, rfl⟩, hrun⟩ := hrun
    cases hadd : checkedAdd minUtc maxUtc bucket.updatedAt ((rate.accrual h).cost n * 1000) with
    | none =>
      rw [hadd] at hrun
      exact absurd hrun Step.fail_ok
    | some updatedAt =>
      rw [hadd] at hrun
      obtain rfl := Step.modify_ok.mp hrun
      rw [checkedAdd_some hadd, Int.mul_comm 1000]

/-- A successful refill of the wall-clock bucket refills its meter. -/
theorem refill_meter {bucket bucket' : RateBucket} {now : DateTime} {u : Unit}
    (hlow : i64Min ≤ bucket.tokensMicros) (hrun : refill rate now bucket = (.ok u, bucket')) :
    bucket'.meter = (rate.accrual h).refill (elapsedMicros bucket.updatedAt now) now bucket.meter := by
  have hlo := elapsedMicros_nonneg bucket.updatedAt now
  have hhi := elapsedMicros_le bucket.updatedAt now
  have hcredit := Accrual.credit_nonneg (a := rate.accrual h) hlo
  have hperiod : ¬ i128Max < (Duration.asMicros rate.period : ℤ) :=
    not_lt.mpr ((micros_le h).trans (by decide))
  have hcap := accrual_cap h
  simp only [refill, Step.bind_ok, Step.get_ok] at hrun
  obtain ⟨_, _, ⟨rfl, rfl⟩, hrun⟩ := hrun
  rw [if_neg hperiod, earned_eq h hlo hhi] at hrun
  simp only [applyCredit, credit_eq h hlo, Step.bind_ok, Step.get_ok] at hrun
  obtain ⟨_, _, ⟨rfl, rfl⟩, hrun⟩ := hrun
  simp only [burst_le_saturate (burst_pos h) (burst_le h)] at hrun
  rw [Accrual.refill, hcap]
  split_ifs at hrun with hfull hpos
  · obtain rfl := Step.modify_ok.mp hrun
    exact (if_pos hfull).symm
  · have hle : (rate.accrual h).credit (elapsedMicros bucket.updatedAt now) ≤ i64Max := min_le_left _ _
    have hsum : saturate64 (bucket.tokensMicros +
        (rate.accrual h).credit (elapsedMicros bucket.updatedAt now)) =
          bucket.tokensMicros + (rate.accrual h).credit (elapsedMicros bucket.updatedAt now) := by
      have := burst_le h
      exact saturate64_of_mem (by omega) (by omega)
    rw [Step.bind_ok] at hrun
    obtain ⟨_, _, hset, hrun⟩ := hrun
    obtain rfl := Step.modify_ok.mp hset
    obtain rfl := advanceClock_ok h hpos.le hle hrun
    simp only [RateBucket.meter, if_neg hfull, if_pos hpos, hsum]
    rfl
  · obtain ⟨-, rfl⟩ := Step.pure_ok.mp hrun
    simp only [RateBucket.meter, if_neg hfull, if_neg hpos]

include h in
theorem low_le_cap : i64Min ≤ (rate.accrual h).cap := by
  rw [accrual_cap h]
  exact (by decide : i64Min ≤ 0).trans (burst_pos h).le

include h in
/-- A refill keeps the tokens within 64 bits. -/
theorem refill_low {bucket bucket' : RateBucket} {now : DateTime} {u : Unit}
    (hlow : i64Min ≤ bucket.tokensMicros) (hrun : refill rate now bucket = (.ok u, bucket')) :
    i64Min ≤ bucket'.tokensMicros := by
  change i64Min ≤ bucket'.meter.tokens
  rw [refill_meter h hlow hrun]
  exact Accrual.le_refill_tokens (elapsedMicros_nonneg _ _) hlow (low_le_cap h)

/-- `advance_clock` succeeds as long as the moved clock is still an instant of the calendar. -/
theorem advanceClock_total {n : ℤ} (hlo : 0 ≤ n) (hhi : n ≤ i64Max)
    (hcost : (rate.accrual h).cost n ≤ i64Max) {bucket : RateBucket} (hmin : minUtc ≤ bucket.updatedAt)
    (hmax : bucket.updatedAt + 1000 * (rate.accrual h).cost n ≤ maxUtc) :
    ∃ bucket', advanceClock n (max (Duration.asMicros rate.period : ℤ) 1) rate bucket =
      (.ok (), bucket') := by
  have hnn := Accrual.cost_nonneg (a := rate.accrual h) hlo
  have hfits : ¬ ((rate.accrual h).cost n < i64Min ∨ i64Max < (rate.accrual h).cost n) :=
    not_or.mpr ⟨not_lt.mpr (le_trans (by decide) hnn), not_lt.mpr hcost⟩
  have hadd : checkedAdd minUtc maxUtc bucket.updatedAt ((rate.accrual h).cost n * 1000) =
      some (bucket.updatedAt + (rate.accrual h).cost n * 1000) := by
    have hmin' : minUtc ≤ bucket.updatedAt + (rate.accrual h).cost n * 1000 :=
      hmin.trans (le_add_of_nonneg_right (Int.mul_nonneg hnn (by decide)))
    rw [Int.mul_comm 1000] at hmax
    exact if_pos ⟨hmin', hmax⟩
  refine ⟨{ bucket with updatedAt := bucket.updatedAt + (rate.accrual h).cost n * 1000 }, ?_⟩
  simp only [advanceClock, micros_max h, cost_eq h hlo hhi, if_neg hfits, Step.bind_run, Step.get_run,
    hadd, Step.modify_run]

/-- For instants the calendar has, a refill succeeds. -/
theorem refill_total (h : rate.Accepted) {bucket : RateBucket} {now : DateTime}
    (hmin : minUtc ≤ bucket.updatedAt) (hle : bucket.updatedAt ≤ now) (hmax : now ≤ maxUtc) :
    ∃ bucket', refill rate now bucket = (.ok (), bucket') := by
  have hlo := elapsedMicros_nonneg bucket.updatedAt now
  have hhi := elapsedMicros_le bucket.updatedAt now
  have hperiod : ¬ i128Max < (Duration.asMicros rate.period : ℤ) :=
    not_lt.mpr ((micros_le h).trans (by decide))
  simp only [refill, Step.bind_run, Step.get_run, if_neg hperiod, earned_eq h hlo hhi, applyCredit,
    credit_eq h hlo]
  split_ifs with hfull hpos
  · exact ⟨_, rfl⟩
  · have hcost := Accrual.cost_credit_le (a := rate.accrual h) (elapsedMicros bucket.updatedAt now)
    have hclock : bucket.updatedAt + 1000 * (rate.accrual h).cost ((rate.accrual h).credit
        (elapsedMicros bucket.updatedAt now)) ≤ now := by
      have := elapsedMicros_mul_le hle
      linarith
    rw [Step.bind_run, Step.modify_run]
    exact advanceClock_total h hpos.le (min_le_left _ _) (hcost.trans hhi) hmin (hclock.trans hmax)
  · exact ⟨_, rfl⟩

/-! ### The local bucket -/

theorem saturatingMulU128_nested (a b c : ℕ) (hc : 0 < c) :
    saturatingMulU128 (saturatingMulU128 a b) c = min (a * (b * c)) u128Max := by
  rw [saturatingMulU128, saturatingMulU128, ← Nat.mul_assoc]
  obtain hle | hgt := Nat.le_total (a * b) u128Max
  · rw [min_eq_left hle]
  · have hbig : u128Max ≤ u128Max * c := Nat.le_mul_of_pos_right _ hc
    rw [min_eq_right hgt, min_eq_right hbig, min_eq_right (hgt.trans (Nat.le_mul_of_pos_right _ hc))]

/-- `credit` is the meter's credit, saturated products included. -/
theorem credit_eq_meter (elapsed : Duration) :
    credit elapsed rate = (rate.accrual h).credit (Duration.asMicros elapsed) := by
  have hperiod : max (Duration.asMicros rate.period) 1 = Duration.asMicros rate.period :=
    max_eq_left h.micros_pos
  have hearned : (rate.accrual h).earned (Duration.asMicros elapsed) =
      ((Duration.asMicros elapsed * (rate.permits * 1000000) / Duration.asMicros rate.period : ℕ) : ℤ) := by
    rw [Accrual.earned, accrual_num, accrual_den, tokenScale]
    push_cast
    ring_nf
  have htop : (rate.accrual h).top = i64Max := rfl
  simp only [credit, hperiod, saturatingMulU128_nested _ _ 1000000 (by decide)]
  rw [Accrual.credit, hearned, htop]
  generalize Duration.asMicros elapsed * (rate.permits * 1000000) = product
  by_cases hfits : product ≤ u128Max
  · rw [min_eq_left hfits]
    split_ifs with hle
    · exact (min_eq_right hle).symm
    · exact (min_eq_left (not_le.mp hle).le).symm
  · -- both the saturated and the exact quotient are past the top
    have hquot : (2 ^ 63 : ℕ) ≤ u128Max / Duration.asMicros rate.period := by
      apply (Nat.le_div_iff_mul_le h.micros_pos).mpr
      have := micros_le h
      rw [u128Max]
      omega
    have hexact : u128Max / Duration.asMicros rate.period ≤ product / Duration.asMicros rate.period :=
      Nat.div_le_div_right (not_le.mp hfits).le
    rw [min_eq_right (not_le.mp hfits).le, if_neg, min_eq_left] <;> rw [i64Max] <;> omega

namespace LocalRateBucket

variable {bucket : LocalRateBucket} (hb : bucket.rate.Accepted) {now : Instant}

/-- Whole microseconds between the bucket's clock and `now`. -/
def ticks (bucket : LocalRateBucket) (now : Instant) : ℤ := Duration.asMicros (now - bucket.updatedAt)

theorem ticks_nonneg (bucket : LocalRateBucket) (now : Instant) : 0 ≤ bucket.ticks now :=
  Int.natCast_nonneg _

theorem ticks_mul_le (bucket : LocalRateBucket) {now : Instant} (hle : bucket.updatedAt ≤ now) :
    (bucket.updatedAt : ℤ) + 1000 * bucket.ticks now ≤ now := by
  have hdiv : 1000 * Duration.asMicros (now - bucket.updatedAt) ≤ now - bucket.updatedAt :=
    Nat.mul_div_le _ _
  have hnow : bucket.updatedAt + 1000 * Duration.asMicros (now - bucket.updatedAt) ≤ now := by
    calc bucket.updatedAt + 1000 * Duration.asMicros (now - bucket.updatedAt)
        ≤ bucket.updatedAt + (now - bucket.updatedAt) := Nat.add_le_add_left hdiv _
      _ = now := Nat.add_sub_cancel' hle
  rw [ticks]
  exact_mod_cast hnow

theorem lt_ticks_succ (bucket : LocalRateBucket) {now : Instant} (hle : bucket.updatedAt ≤ now) :
    (now : ℤ) < bucket.updatedAt + 1000 * (bucket.ticks now + 1) := by
  have hdiv : now - bucket.updatedAt < 1000 * (Duration.asMicros (now - bucket.updatedAt) + 1) :=
    Nat.lt_mul_div_succ _ (by decide)
  have hnow : now < bucket.updatedAt + 1000 * (Duration.asMicros (now - bucket.updatedAt) + 1) := by
    calc now = bucket.updatedAt + (now - bucket.updatedAt) := (Nat.add_sub_cancel' hle).symm
      _ < _ := Nat.add_lt_add_left hdiv _
  rw [ticks]
  exact_mod_cast hnow

theorem refill_rate (now : Instant) (bucket : LocalRateBucket) : (bucket.refill now).rate = bucket.rate := by
  simp only [refill]
  split_ifs <;> rfl

/-- The cases of a refill, in the meter's terms. -/
theorem refill_eq (hlow : i64Min ≤ bucket.tokensMicros) : bucket.refill now =
    if burstTokens bucket.rate ≤ bucket.tokensMicros + (bucket.rate.accrual hb).credit (bucket.ticks now)
    then { bucket with tokensMicros := burstTokens bucket.rate, updatedAt := now }
    else if 0 < (bucket.rate.accrual hb).credit (bucket.ticks now) then
      advanceClock ((bucket.rate.accrual hb).credit (bucket.ticks now)) now { bucket with
        tokensMicros := bucket.tokensMicros + (bucket.rate.accrual hb).credit (bucket.ticks now) }
    else bucket := by
  have hcredit := Accrual.credit_nonneg (a := bucket.rate.accrual hb) (ticks_nonneg bucket now)
  have hle := burst_le hb
  have heq : credit (now - bucket.updatedAt) bucket.rate =
      (bucket.rate.accrual hb).credit (bucket.ticks now) := credit_eq_meter hb _
  simp only [refill, heq, burst_le_saturate (burst_pos hb) hle]
  split_ifs with hfull
  · rfl
  · have hsum : saturate64 (bucket.tokensMicros + (bucket.rate.accrual hb).credit (bucket.ticks now)) =
        bucket.tokensMicros + (bucket.rate.accrual hb).credit (bucket.ticks now) :=
      saturate64_of_mem (by omega) (by omega)
    rw [hsum]
  · rfl

/-- The local `advance_clock` moves the refill time by the cost of the credit. -/
theorem advanceClock_updatedAt (bucket : LocalRateBucket) (hb : bucket.rate.Accepted) {now : Instant}
    {n : ℤ} (hlo : 0 ≤ n) (hhi : n ≤ i64Max)
    (hfits : (bucket.rate.accrual hb).cost n ≤ u64Max)
    (hmax : bucket.updatedAt + 1000 * (bucket.rate.accrual hb).cost n ≤ maxInstant) (tokens : ℤ) :
    ((advanceClock n now { bucket with tokensMicros := tokens }).updatedAt : ℤ) =
      bucket.updatedAt + 1000 * (bucket.rate.accrual hb).cost n := by
  have hmicros := micros_le hb
  have hpermits := hb.permits_le
  have hpos := hb.permits_pos
  obtain ⟨amount, rfl⟩ := Int.eq_ofNat_of_zero_le hlo
  have hprod : saturatingMulU128 amount (Duration.asMicros bucket.rate.period) =
      amount * Duration.asMicros bucket.rate.period := by
    apply min_eq_left
    rw [i64Max] at hhi
    calc amount * Duration.asMicros bucket.rate.period ≤ 2 ^ 63 * 2 ^ 64 :=
          Nat.mul_le_mul (by omega) (by omega)
      _ ≤ u128Max := by decide
  have hdenom : saturatingMulU128 bucket.rate.permits 1000000 = bucket.rate.permits * 1000000 := by
    apply min_eq_left
    rw [u32Max] at hpermits
    rw [u128Max]
    omega
  have hcost : (bucket.rate.accrual hb).cost amount =
      ((amount * Duration.asMicros bucket.rate.period / (bucket.rate.permits * 1000000) : ℕ) : ℤ) := by
    rw [Accrual.cost, accrual_num, accrual_den, tokenScale]
    push_cast
    ring_nf
  rw [hcost] at hfits hmax ⊢
  have hlow : (0 : ℤ) ≤ (amount : ℤ) := Int.natCast_nonneg _
  have hconsumed := Int.ofNat_le.mp hfits
  have hclock : bucket.updatedAt + amount * Duration.asMicros bucket.rate.period /
      (bucket.rate.permits * 1000000) * 1000 ≤ maxInstant := by
    rw [Nat.mul_comm _ 1000]
    exact_mod_cast hmax
  simp only [advanceClock, hprod, hdenom, if_pos hlow, Int.toNat_natCast,
    max_eq_left (show 1 ≤ bucket.rate.permits * 1000000 by omega)]
  rw [if_pos hconsumed, if_pos hclock]
  push_cast
  ring

/-- A refill of the local bucket refills the tokens of its meter. -/
theorem refill_tokens (hlow : i64Min ≤ bucket.tokensMicros) :
    (bucket.refill now).tokensMicros =
      ((bucket.rate.accrual hb).refill (bucket.ticks now) now bucket.meter).tokens := by
  have hcap := accrual_cap hb
  rw [refill_eq hb hlow, Accrual.refill, hcap]
  change _ = (if burstTokens bucket.rate ≤ bucket.tokensMicros +
    (bucket.rate.accrual hb).credit (bucket.ticks now) then _ else _ : Meter).tokens
  split_ifs <;> rfl

include hb in
/-- A refill keeps the tokens within 64 bits and the burst. -/
theorem refill_within (hlow : i64Min ≤ bucket.tokensMicros) (now : Instant) :
    i64Min ≤ (bucket.refill now).tokensMicros ∧
      (bucket.refill now).tokensMicros ≤ burstTokens bucket.rate := by
  have hticks := bucket.ticks_nonneg now
  rw [refill_tokens hb hlow, ← accrual_cap hb]
  exact ⟨Accrual.le_refill_tokens hticks hlow (low_le_cap hb), Accrual.refill_le_cap hticks⟩

/-- A refill that fills the bucket, or whose cost fits 64 bits, moves the clock as its meter does. -/
theorem refill_meter (hlow : i64Min ≤ bucket.tokensMicros) (hle : bucket.updatedAt ≤ now)
    (hmax : now ≤ maxInstant)
    (hfits : burstTokens bucket.rate ≤
        bucket.tokensMicros + (bucket.rate.accrual hb).credit (bucket.ticks now) ∨
      (bucket.rate.accrual hb).cost ((bucket.rate.accrual hb).credit (bucket.ticks now)) ≤ u64Max) :
    (bucket.refill now).meter =
      (bucket.rate.accrual hb).refill (bucket.ticks now) now bucket.meter := by
  have hcap := accrual_cap hb
  rw [refill_eq hb hlow, Accrual.refill, hcap]
  change _ = (if burstTokens bucket.rate ≤ bucket.tokensMicros +
    (bucket.rate.accrual hb).credit (bucket.ticks now) then _ else _ : Meter)
  split_ifs with hfull hpos
  · rfl
  · have hcost := Accrual.cost_credit_le (a := bucket.rate.accrual hb) (bucket.ticks now)
    have hclock : (bucket.updatedAt : ℤ) + 1000 * (bucket.rate.accrual hb).cost
        ((bucket.rate.accrual hb).credit (bucket.ticks now)) ≤ maxInstant := by
      have hlast : (now : ℤ) ≤ maxInstant := by exact_mod_cast hmax
      have := bucket.ticks_mul_le hle
      linarith
    rw [meter, advanceClock_updatedAt bucket hb hpos.le (min_le_left _ _) (hfits.resolve_left hfull)
      hclock]
    rfl
  · rfl

end LocalRateBucket

end

end Vyuh.Tasks
