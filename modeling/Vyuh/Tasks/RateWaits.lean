import Vyuh.Tasks.RateMeter

/-! How long `next_permit` waits. The wait is the exact time of the missing tokens rounded up to
    nanoseconds; the refill that ends it counts whole microseconds of the period truncated to
    microseconds. The wait is long enough exactly when those microseconds pay for what is missing. -/

namespace Vyuh.Tasks
open Lib

/-- The nanoseconds that the tokens missing to one permit take, rounded up. -/
def missingNanos (rate : TaskRate) (tokens : ℤ) : ℤ :=
  ((tokenScale - max tokens 0) * rate.period + (rate.permits * tokenScale - 1)) /
    (rate.permits * tokenScale)

/-- From the bucket's clock to the end of the wait that begins at `now`. -/
def waitedNanos (rate : TaskRate) (tokens clock now : ℤ) : ℤ :=
  now - clock + max 0 (missingNanos rate tokens - max 0 (now - clock))

/-- The whole microseconds of `waited` earn what is missing of one permit, and its credit fits. -/
def Earns (rate : TaskRate) (tokens waited : ℤ) : Prop :=
  tokenScale - tokens ≤ i64Max ∧
    (tokenScale - tokens) * Duration.asMicros rate.period ≤
      waited / 1000 * (rate.permits * tokenScale)

/-- A store's bucket has a permit, or the end of its wait earns one; elapsed time that does not fit 64
    bits of microseconds counts as none. -/
def WallWaitPays (rate : TaskRate) (tokens clock now : ℤ) : Prop :=
  tokenScale ≤ tokens ∨ (waitedNanos rate tokens clock now / 1000 ≤ i64Max ∧
    Earns rate tokens (waitedNanos rate tokens clock now))

/-- A runner's bucket has a permit, or the end of its wait earns one. -/
def LocalWaitPays (rate : TaskRate) (tokens clock now : ℤ) : Prop :=
  tokenScale ≤ tokens ∨ Earns rate tokens (waitedNanos rate tokens clock now)

section

variable {rate : TaskRate} (h : rate.Accepted)

include h in
theorem period_le : (rate.period : ℤ) ≤ 2 ^ 64 - 1 := by
  have hle := Int.ofNat_le.mpr h.period_le
  exact hle.trans (by decide)

include h in
theorem missingNanos_bounds {tokens : ℤ} (hlt : tokens < tokenScale) :
    0 ≤ missingNanos rate tokens ∧ missingNanos rate tokens ≤ rate.period := by
  obtain ⟨hpos, -⟩ := permits_scale h
  have hscale : tokenScale ≤ rate.permits * tokenScale := by
    have := h.permits_pos
    rw [tokenScale]
    omega
  have hperiod : (0 : ℤ) ≤ rate.period := Int.natCast_nonneg _
  have hmissing : 0 ≤ tokenScale - max tokens 0 := by
    rw [tokenScale] at *
    omega
  have hle : tokenScale - max tokens 0 ≤ rate.permits * tokenScale := by omega
  refine ⟨Int.ediv_nonneg ?_ hpos.le, ?_⟩
  · have := Int.mul_nonneg hmissing hperiod
    omega
  · have hprod := mul_le_mul_of_nonneg_right hle hperiod
    have hlt : missingNanos rate tokens < rate.period + 1 := by
      apply Int.ediv_lt_of_lt_mul hpos
      linarith
    omega

include h in
/-- The wait of a bucket without a complete permit. -/
theorem permitDelay_eq (tokens : ℤ) (accrued : Duration) : permitDelay tokens rate accrued =
    if tokenScale ≤ tokens then none else some ((missingNanos rate tokens).toNat - accrued) := by
  obtain ⟨hpos, hle⟩ := permits_scale h
  have hperiod := period_le h
  have hwide : ¬ i128Max < (rate.period : ℤ) := not_lt.mpr (hperiod.trans (by decide))
  by_cases hfull : tokenScale ≤ tokens
  · rw [permitDelay, if_pos hfull, if_pos hfull]
  · obtain ⟨hnn, hbound⟩ := missingNanos_bounds h (not_le.mp hfull)
    have hmissing : 0 ≤ tokenScale - max tokens 0 ∧ tokenScale - max tokens 0 ≤ 1000000 := by
      rw [tokenScale] at *
      omega
    have hprod : (tokenScale - max tokens 0) * (rate.period : ℤ) ≤ 1000000 * (2 ^ 64 - 1) :=
      mul_le_widths hmissing.2 (Int.natCast_nonneg _) hperiod (by decide)
    have hprod' := Int.mul_nonneg hmissing.1 (Int.natCast_nonneg rate.period)
    have hnanos : saturate128 (saturate128 (saturate64 (tokenScale - max tokens 0) * rate.period) +
        saturate128 (saturate128 (rate.permits * tokenScale) - 1)) /
          max (saturate128 (rate.permits * tokenScale)) 1 = missingNanos rate tokens := by
      have hone : (1 : ℤ) ≤ rate.permits * tokenScale := hpos
      have hminus : saturate128 (rate.permits * tokenScale - 1) = rate.permits * tokenScale - 1 :=
        saturate128_of_nonneg (by omega) (by rw [i128Max]; omega)
      rw [saturate64_of_mem ((by decide : i64Min ≤ 0).trans hmissing.1) (hmissing.2.trans (by decide)),
        saturate128_of_nonneg hprod' (hprod.trans (by decide)),
        saturate128_of_nonneg hpos.le (hle.trans (by decide)), hminus,
        saturate128_of_nonneg (by omega) (by rw [i128Max]; omega), max_eq_left hone]
      rfl
    have hfits : ¬ (missingNanos rate tokens < 0 ∨ (u64Max : ℤ) < missingNanos rate tokens) := by
      rw [u64Max]
      omega
    simp only [permitDelay, if_neg hfull, if_neg hwide, hnanos, if_neg hfits]

include h in
/-- A bucket has room for a permit. -/
theorem scale_le_cap : tokenScale ≤ (rate.accrual h).cap := by
  have := h.burst_pos
  rw [accrual_cap h, burstTokens_eq h, tokenScale]
  omega

include h in
/-- A refill `elapsed` nanoseconds after the clock leaves a permit exactly when they earn it. -/
theorem refill_earns {tokens clock now elapsed ticks : ℤ} (hlt : tokens < tokenScale)
    (hticks : ticks = max 0 (elapsed / 1000)) :
    tokenScale ≤ ((rate.accrual h).refill ticks now ⟨tokens, clock⟩).tokens ↔
      Earns rate tokens elapsed := by
  have hnn : 0 ≤ ticks := hticks ▸ le_max_left _ _
  rw [Accrual.le_refill (scale_le_cap h) hlt hnn, Earns, accrual_num, accrual_den]
  refine and_congr Iff.rfl ?_
  obtain ⟨hpos, -⟩ := permits_scale h
  have hmicros := h.micros_pos
  have hmissing : 0 < (tokenScale - tokens) * (Duration.asMicros rate.period : ℤ) :=
    mul_pos (by omega) (by exact_mod_cast hmicros)
  rw [hticks]
  obtain hneg | hge := lt_or_ge (elapsed / 1000) 0
  · rw [max_eq_left hneg.le]
    have := mul_neg_of_neg_of_pos hneg hpos
    constructor <;> intro hle <;> linarith
  · rw [max_eq_right hge]

/-- The wait ends `waitedNanos` after the clock. -/
theorem wait_end {rate : TaskRate} {tokens clock now : ℤ} {accrued : ℕ}
    (hnn : 0 ≤ missingNanos rate tokens) (haccrued : (accrued : ℤ) = max 0 (now - clock)) :
    now + (((missingNanos rate tokens).toNat - accrued : ℕ) : ℤ) - clock =
      waitedNanos rate tokens clock now := by
  rw [waitedNanos]
  omega

/-- The microseconds of a store's bucket at the end of a wait. -/
theorem wall_ticks {clock now : ℤ} (hfits : (now - clock) / 1000 ≤ i64Max) :
    elapsedMicros clock now = max 0 ((now - clock) / 1000) := by
  obtain hlt | hge := lt_or_ge now clock
  · rw [elapsedMicros_of_lt hlt, max_eq_left (by omega)]
  · rw [elapsedMicros_of_le hge, if_neg (not_lt.mpr hfits), max_eq_right (by omega)]

/-- The microseconds of a runner's bucket at the end of a wait. -/
theorem local_ticks (bucket : LocalRateBucket) (now : Instant) :
    bucket.ticks now = max 0 (((now : ℤ) - bucket.updatedAt) / 1000) := by
  obtain hlt | hge := Nat.lt_or_ge now bucket.updatedAt
  · have hzero : now - bucket.updatedAt = 0 := Nat.sub_eq_zero_of_le hlt.le
    have hneg : (now : ℤ) < bucket.updatedAt := Int.ofNat_lt.mpr hlt
    rw [LocalRateBucket.ticks, hzero, max_eq_left (by omega)]
    rfl
  · have hsub : ((now - bucket.updatedAt : ℕ) : ℤ) = (now : ℤ) - bucket.updatedAt := Nat.cast_sub hge
    rw [← hsub, max_eq_right (Int.ediv_nonneg (Int.natCast_nonneg _) (by decide))]
    rfl

include h in
/-- Nothing is earned in no time. -/
theorem not_earns_zero {tokens : ℤ} (hlt : tokens < tokenScale) : ¬ Earns rate tokens 0 := by
  rintro ⟨-, hle⟩
  have hmissing : 0 < (tokenScale - tokens) * (Duration.asMicros rate.period : ℤ) :=
    mul_pos (by omega) (by exact_mod_cast h.micros_pos)
  simp only [Int.zero_ediv, Int.zero_mul] at hle
  omega

include h in
/-- The refill that ends the wait of a store's bucket. -/
theorem wall_wait {bucket again : RateBucket} {now : DateTime} {delay : Duration} {u : Unit}
    (hlow : i64Min ≤ bucket.tokensMicros)
    (hwait : nextPermit bucket.tokensMicros rate bucket.updatedAt now = some delay)
    (hagain : refill rate (now + delay) bucket = (.ok u, again)) :
    tokenScale ≤ again.tokensMicros ↔ WallWaitPays rate bucket.tokensMicros bucket.updatedAt now := by
  rw [nextPermit, permitDelay_eq h] at hwait
  split_ifs at hwait with hfull
  have hlt := not_le.mp hfull
  have haccrued : (((toStd (now - bucket.updatedAt)).getD 0 : ℕ) : ℤ) = max 0 (now - bucket.updatedAt) := by
    rw [toStd]
    split_ifs with hnn
    · rw [max_eq_right hnn]
      exact Int.toNat_of_nonneg hnn
    · rw [max_eq_left (not_le.mp hnn).le]
      rfl
  have hend := wait_end (missingNanos_bounds h hlt).1 haccrued
  rw [Option.some.inj hwait] at hend
  have htokens := congrArg Meter.tokens (refill_meter h hlow hagain)
  change again.tokensMicros = _ at htokens
  rw [htokens, WallWaitPays, or_iff_right hfull, ← hend]
  by_cases hfits : (now + delay - bucket.updatedAt) / 1000 ≤ i64Max
  · rw [and_iff_right hfits]
    exact refill_earns h hlt (wall_ticks hfits)
  · -- the elapsed time does not fit and counts as none
    have hle : bucket.updatedAt ≤ now + delay := by
      by_contra hlate
      have := Int.ediv_neg_of_neg_of_pos (Int.sub_neg_of_lt (not_le.mp hlate)) (by decide : (0 : ℤ) < 1000)
      exact hfits (this.le.trans (by decide))
    have hzero : elapsedMicros bucket.updatedAt (now + delay) = max 0 (0 / 1000) := by
      rw [elapsedMicros_of_le hle, if_pos (not_le.mp hfits)]
      rfl
    exact (refill_earns h hlt hzero).trans
      (iff_of_false (not_earns_zero h hlt) fun hpays => hfits hpays.1)

include h in
/-- The refill that ends the wait of a runner's bucket. -/
theorem local_wait {bucket : LocalRateBucket} {now : Instant} {delay : Duration}
    (hrate : bucket.rate = rate) (hlow : i64Min ≤ bucket.tokensMicros)
    (hwait : permitDelay bucket.tokensMicros rate (now - bucket.updatedAt) = some delay) :
    tokenScale ≤ (bucket.refill (now + delay)).tokensMicros ↔
      LocalWaitPays rate bucket.tokensMicros bucket.updatedAt now := by
  subst hrate
  rw [permitDelay_eq h] at hwait
  split_ifs at hwait with hfull
  have hlt := not_le.mp hfull
  have haccrued : ((now - bucket.updatedAt : ℕ) : ℤ) = max 0 ((now : ℤ) - bucket.updatedAt) := by
    omega
  have hend := wait_end (missingNanos_bounds h hlt).1 haccrued
  rw [Option.some.inj hwait] at hend
  rw [LocalRateBucket.refill_tokens h hlow, LocalWaitPays, or_iff_right hfull, ← hend]
  refine refill_earns h hlt ?_
  rw [local_ticks]
  push_cast
  rfl

/-- A whole permit can be taken. -/
theorem available_pos (bucket : LocalRateBucket) (now : Instant) :
    0 < (bucket.available now).1 ↔ tokenScale ≤ (bucket.refill now).tokensMicros := by
  simp only [LocalRateBucket.available, tokenScale]
  omega

end

/-- The wait of both buckets: without one a permit is there; with one, the refill that ends it leaves a
    complete permit exactly when the whole microseconds up to its end pay for what was missing. -/
theorem next_permit_sound_iff {name label : String} {rate : TaskRate}
    (hvalid : validateRate name label (some rate) = .ok ()) (htyped : rate.Typed) :
    (∀ (bucket refilled : RateBucket) (now : DateTime), i64Min ≤ bucket.tokensMicros →
      refill rate now bucket = (.ok (), refilled) →
        (nextPermit refilled.tokensMicros rate refilled.updatedAt now = none →
          tokenScale ≤ refilled.tokensMicros) ∧
        ∀ delay again, nextPermit refilled.tokensMicros rate refilled.updatedAt now = some delay →
          refill rate (now + delay) refilled = (.ok (), again) →
            (tokenScale ≤ again.tokensMicros ↔
              WallWaitPays rate refilled.tokensMicros refilled.updatedAt now)) ∧
    (∀ (bucket : LocalRateBucket) (now : Instant), bucket.rate = rate → i64Min ≤ bucket.tokensMicros →
      ((bucket.nextPermit now).1 = none → 0 < ((bucket.nextPermit now).2.available now).1) ∧
      ∀ delay, (bucket.nextPermit now).1 = some delay →
        (0 < ((bucket.nextPermit now).2.available (now + delay)).1 ↔
          LocalWaitPays rate (bucket.refill now).tokensMicros (bucket.refill now).updatedAt now)) := by
  have h := validateRate_accepted hvalid htyped
  constructor
  · intro bucket refilled now hlow hrefill
    refine ⟨fun hnone => ?_, fun delay again hwait hagain => ?_⟩
    · rw [nextPermit, permitDelay_eq h] at hnone
      split_ifs at hnone with hfull
      exact hfull
    · exact wall_wait h (refill_low h hlow hrefill) hwait hagain
  · intro bucket now hrate hlow
    have hlow' := (LocalRateBucket.refill_within (hrate ▸ h) hlow now).1
    have hrate' := (LocalRateBucket.refill_rate now bucket).trans hrate
    simp only [LocalRateBucket.nextPermit, hrate', available_pos]
    refine ⟨fun hnone => ?_, fun delay hwait => local_wait h hrate' hlow' hwait⟩
    rw [permitDelay_eq h] at hnone
    split_ifs at hnone with hfull
    subst hrate
    have hagain : (bucket.refill now).rate.Accepted := hrate' ▸ h
    rw [LocalRateBucket.refill_tokens hagain hlow']
    exact Accrual.le_refill_tokens (LocalRateBucket.ticks_nonneg _ _) hfull (scale_le_cap hagain)

/-- With two permits a second the wait for one after a spent bucket is half a second, and is enough. -/
theorem next_permit_sound_iff_even :
    (tokenScale ≤ (1000000 : ℤ) ↔ WallWaitPays ⟨2, 1000000000, 2⟩ 0 0 0) ∧
      (0 < ((LocalRateBucket.mk ⟨2, 1000000000, 2⟩ 0 0).available 500000000).1 ↔
        LocalWaitPays ⟨2, 1000000000, 2⟩ 0 0 0) := by
  have hvalid : validateRate "even" "local" (some ⟨2, 1000000000, 2⟩) = .ok () := rfl
  have hsound := next_permit_sound_iff hvalid ⟨by decide, by decide⟩
  exact ⟨(hsound.1 ⟨0, 0⟩ ⟨0, 0⟩ 0 (by decide) rfl).2 500000000 ⟨1000000, 500000000⟩ rfl rfl,
    (hsound.2 ⟨⟨2, 1000000000, 2⟩, 0, 0⟩ 0 rfl (by decide)).2 500000000 rfl⟩

/-- A third of a second is no whole number of microseconds: after the wait of a spent bucket of three
    permits a second, both buckets are a micro-token short. -/
theorem thirds_wait_too_short :
    validateRate "thirds" "local" (some ⟨3, 1000000000, 3⟩) = .ok () ∧
    (¬ ∀ delay again, nextPermit 0 ⟨3, 1000000000, 3⟩ 0 0 = some delay →
      refill ⟨3, 1000000000, 3⟩ (0 + delay) ⟨0, 0⟩ = (.ok (), again) → tokenScale ≤ again.tokensMicros) ∧
    ¬ ∀ delay, ((LocalRateBucket.mk ⟨3, 1000000000, 3⟩ 0 0).nextPermit 0).1 = some delay →
      0 < (((LocalRateBucket.mk ⟨3, 1000000000, 3⟩ 0 0).nextPermit 0).2.available (0 + delay)).1 := by
  refine ⟨rfl, fun hall => ?_, fun hall => ?_⟩
  · exact absurd (hall 333333334 ⟨999999, 333333000⟩ rfl rfl) (by decide)
  · exact absurd (hall 333333334 rfl) (by decide +kernel)

end Vyuh.Tasks
