import Vyuh.Lib.Run
import Vyuh.Tasks.RateMeter
import Vyuh.Tasks.Store.Memory.Store

/-! What a token bucket issues over a run of refills and consumptions. A bucket is paid exactly when
    every refill credits tokens worth whole microseconds of a period of whole microseconds: then the
    tokens held and consumed never exceed the initial ones and what the elapsed time pays for. A refill
    that credits a part of a microsecond moves the clock by less than it credits, and the difference is
    credited again by the next one. -/

namespace Vyuh.Tasks.Memory
open Lib

/-! ### Uses of a bucket -/

/-- `reserve_permits` on one bucket. -/
def reserveBucket (rate : TaskRate) (limit : ℕ) (now : DateTime) :
    Step RateBucket TaskRuntimeError (ℕ × Option Duration) := do
  refill rate now
  let bucket ← Step.get
  let permits := min (availablePermits bucket.tokensMicros) limit
  Step.modify (debit permits)
  let bucket ← Step.get
  pure (permits, nextPermit bucket.tokensMicros rate bucket.updatedAt now)

/-- A rated lane reserves on its own bucket. -/
theorem reservePermits_rated (lane : TaskLane) {limit : ℕ} (hlimit : limit ≠ 0) (rate : TaskRate)
    (now : DateTime) : reservePermits lane limit (some rate) now =
      Step.zoom (fun rates => (rates lane.asStr).getD (RateBucket.full rate now))
        (fun bucket rates => rates.insert lane.asStr bucket) (reserveBucket rate limit now) := by
  simp only [reservePermits, if_neg hlimit]
  rfl

/-- One use of a bucket at a time of the clock `τ`. -/
inductive BucketUse (τ : Type) where
  | refill (now : τ)
  | consume (permits : ℕ) (now : τ)

def BucketUse.now {τ : Type} : BucketUse τ → τ
  | .refill now | .consume _ now => now

/-- A bucket with the tokens consumed from it and the time of its last use. -/
structure Account (β τ : Type) where
  bucket : β
  consumed : ℤ
  time : τ

/-- A use of a store's bucket; a consumption is a reservation of at most `permits`. -/
structure WallUse (rate : TaskRate) (s : Account RateBucket DateTime) (use : BucketUse DateTime)
    (s' : Account RateBucket DateTime) : Prop where
  ordered : s.time ≤ use.now
  time : s'.time = use.now
  moves : ∃ refilled, refill rate use.now s.bucket = (.ok (), refilled) ∧
    s'.consumed = s.consumed + (refilled.tokensMicros - s'.bucket.tokensMicros) ∧
    match use with
    | .refill _ => s'.bucket = refilled
    | .consume permits now => ∃ answer, reserveBucket rate permits now s.bucket = (.ok answer, s'.bucket)

/-- What a use does to a runner's bucket. -/
def useLocal (bucket : LocalRateBucket) : BucketUse Instant → LocalRateBucket
  | .refill now => bucket.refill now
  | .consume permits now => bucket.consume permits now

/-- A use of a runner's bucket. -/
structure LocalUse (s : Account LocalRateBucket Instant) (use : BucketUse Instant)
    (s' : Account LocalRateBucket Instant) : Prop where
  ordered : s.time ≤ use.now
  in_range : use.now ≤ maxInstant
  time : s'.time = use.now
  consumed : s'.consumed =
    s.consumed + ((s.bucket.refill use.now).tokensMicros - s'.bucket.tokensMicros)
  moves : s'.bucket = useLocal s.bucket use

/-! ### Exact refills -/

/-- The micro-tokens that `elapsed` microseconds earn. -/
def earnedTokens (rate : TaskRate) (elapsed : ℤ) : ℤ :=
  elapsed * (rate.permits * tokenScale) / Duration.asMicros rate.period

/-- What a refill credits of them, narrowed to 64 bits. -/
def creditedTokens (rate : TaskRate) (elapsed : ℤ) : ℤ := min i64Max (earnedTokens rate elapsed)

/-- A refill `elapsed` microseconds after the bucket's clock earns nothing; or the period is whole
    microseconds, and the refill fills the bucket or earns tokens worth whole microseconds. -/
def ExactRefill (rate : TaskRate) (elapsed tokens : ℤ) : Prop :=
  earnedTokens rate elapsed = 0 ∨ (1000 ∣ (rate.period : ℤ) ∧
    (burstTokens rate ≤ tokens + creditedTokens rate elapsed ∨
      (earnedTokens rate elapsed ≤ i64Max ∧
        (rate.permits * tokenScale) ∣ earnedTokens rate elapsed * Duration.asMicros rate.period)))

/-- The cost of a local refill's credit fits 64 bits, unless the refill fills the bucket. -/
def FitsClock (rate : TaskRate) (elapsed tokens : ℤ) : Prop :=
  burstTokens rate ≤ tokens + creditedTokens rate elapsed ∨
    creditedTokens rate elapsed * Duration.asMicros rate.period / (rate.permits * tokenScale) ≤ u64Max

/-- A use of a store's bucket whose refill is exact. -/
def ExactWallUse (rate : TaskRate) (s : Account RateBucket DateTime) (use : BucketUse DateTime)
    (s' : Account RateBucket DateTime) : Prop :=
  ExactRefill rate (elapsedMicros s.bucket.updatedAt use.now) s.bucket.tokensMicros ∧
    WallUse rate s use s'

/-- A use of a runner's bucket whose refill is exact. -/
def ExactLocalUse (rate : TaskRate) (s : Account LocalRateBucket Instant) (use : BucketUse Instant)
    (s' : Account LocalRateBucket Instant) : Prop :=
  ExactRefill rate (s.bucket.ticks use.now) s.bucket.tokensMicros ∧
    FitsClock rate (s.bucket.ticks use.now) s.bucket.tokensMicros ∧ LocalUse s use s'

section

variable {rate : TaskRate} (h : rate.Accepted)

theorem exactRefill_iff {elapsed : ℤ} {m : Meter} :
    ExactRefill rate elapsed m.tokens ↔ (rate.accrual h).Exact elapsed m := by
  have hperiod : 1000 ∣ (rate.period : ℤ) ↔
      (rate.accrual h).period = (rate.accrual h).tick * (rate.accrual h).den := by
    change 1000 ∣ (rate.period : ℤ) ↔ (rate.period : ℤ) = 1000 * ((rate.period / 1000 : ℕ) : ℤ)
    omega
  rw [Accrual.Exact, ← hperiod, accrual_cap h]
  exact Iff.rfl

/-! ### The wall-clock bucket -/

/-- What a number of permits costs, as both buckets narrow it. -/
theorem cost_nonneg (permits : ℕ) :
    0 ≤ saturate64 ((if (permits : ℤ) ≤ i64Max then (permits : ℤ) else i64Max) * tokenScale) := by
  have hnn : (0 : ℤ) ≤ (if (permits : ℤ) ≤ i64Max then (permits : ℤ) else i64Max) := by
    split_ifs
    · omega
    · decide
  rw [saturate64, saturate]
  refine (le_min (by decide) ?_).trans (le_max_right _ _)
  exact Int.mul_nonneg hnn (by decide)

/-- Paying for permits keeps the clock and takes tokens. -/
theorem debit_le (permits : ℕ) {bucket : RateBucket} (hlow : i64Min ≤ bucket.tokensMicros) :
    (debit permits bucket).updatedAt = bucket.updatedAt ∧
      i64Min ≤ (debit permits bucket).tokensMicros ∧
      (debit permits bucket).tokensMicros ≤ bucket.tokensMicros := by
  have hcost := cost_nonneg permits
  refine ⟨rfl, le_max_left _ _, ?_⟩
  refine max_le hlow ((min_le_right _ _).trans ?_)
  omega

/-- A reservation refills the bucket, then pays for what it grants. -/
theorem reserveBucket_ok {limit : ℕ} {now : DateTime} {bucket bucket' refilled : RateBucket}
    {answer : ℕ × Option Duration} (hrefill : refill rate now bucket = (.ok (), refilled))
    (hrun : reserveBucket rate limit now bucket = (.ok answer, bucket')) :
    bucket' = debit (min (availablePermits refilled.tokensMicros) limit) refilled := by
  simp only [reserveBucket, Step.bind_ok, Step.get_ok, Step.modify_ok, Step.pure_ok] at hrun
  obtain ⟨_, _, hr, _, _, ⟨rfl, rfl⟩, _, _, rfl, _, _, ⟨rfl, rfl⟩, -, rfl⟩ := hrun
  rw [hrefill] at hr
  obtain rfl := (Prod.mk.inj hr).2
  rfl

/-- What a use leaves of the refilled bucket. -/
theorem WallUse.spends {s s' : Account RateBucket DateTime} {use : BucketUse DateTime}
    (hu : WallUse rate s use s') (hlow : i64Min ≤ s.bucket.tokensMicros) :
    ∃ refilled : RateBucket, refilled.meter =
        (rate.accrual h).refill (elapsedMicros s.bucket.updatedAt use.now) use.now s.bucket.meter ∧
      s'.consumed = s.consumed + (refilled.tokensMicros - s'.bucket.tokensMicros) ∧
      s'.bucket.updatedAt = refilled.updatedAt ∧ i64Min ≤ s'.bucket.tokensMicros ∧
      s'.bucket.tokensMicros ≤ refilled.tokensMicros := by
  obtain ⟨refilled, hrefill, hconsumed, hmove⟩ := hu.moves
  have hmeter := refill_meter h hlow hrefill
  have hrefilled := refill_low h hlow hrefill
  refine ⟨refilled, hmeter, hconsumed, ?_⟩
  cases use with
  | refill now =>
    rw [show s'.bucket = refilled from hmove]
    exact ⟨rfl, hrefilled, le_refl _⟩
  | consume permits now =>
    obtain ⟨answer, hanswer⟩ := hmove
    rw [reserveBucket_ok hrefill hanswer]
    exact debit_le _ hrefilled

/-- After an exact refill nothing more is earned at the same instant. -/
theorem elapsed_drained {m : Meter} {now : DateTime} (hle : m.clock ≤ now)
    (he : (rate.accrual h).Exact (elapsedMicros m.clock now) m) :
    (rate.accrual h).earned (elapsedMicros
      ((rate.accrual h).refill (elapsedMicros m.clock now) now m).clock now) ≤ 0 := by
  have hticks := elapsedMicros_nonneg m.clock now
  have hclock := (Accrual.refill_clock hticks (elapsed_ticks_le h hle)).2
  by_cases hfits : i64Max < (now - m.clock) / 1000
  · -- a span that does not fit counts as none: the clock stays or the bucket is full
    have hzero : elapsedMicros m.clock now = 0 := by rw [elapsedMicros_of_le hle, if_pos hfits]
    have hnone : (rate.accrual h).earned 0 = 0 := by simp [Accrual.earned]
    rw [hzero, Accrual.refill, Accrual.credit_eq_zero hnone]
    split_ifs with hfull hpos
    · rw [elapsedMicros_of_le (le_refl _)]
      simp [Accrual.earned]
    · exact absurd hpos (by decide)
    · rw [hzero, hnone]
  · have hleft := elapsed_ticks_le h hclock
    have hlast : now < m.clock + (rate.accrual h).tick * (elapsedMicros m.clock now + 1) := by
      rw [elapsedMicros_of_le hle, if_neg hfits]
      change now < m.clock + 1000 * ((now - m.clock) / 1000 + 1)
      have := Int.lt_ediv_add_one_mul_self (now - m.clock) (by decide : (0 : ℤ) < 1000)
      linarith
    exact Accrual.refill_drained he hticks (Int.le_sub_left_of_add_le hleft) hlast

/-- One exact use keeps the account paid and leaves nothing to earn at its instant. -/
theorem WallUse.paid {start : Meter} {s s' : Account RateBucket DateTime} {use : BucketUse DateTime}
    (hu : ExactWallUse rate s use s') (hlow : i64Min ≤ s.bucket.tokensMicros)
    (hpaid : (rate.accrual h).Paid start s.bucket.meter s.consumed s.time) :
    i64Min ≤ s'.bucket.tokensMicros ∧ (rate.accrual h).Paid start s'.bucket.meter s'.consumed s'.time ∧
      s'.bucket.tokensMicros ≤ burstTokens rate ∧
      (rate.accrual h).earned (elapsedMicros s'.bucket.updatedAt s'.time) ≤ 0 := by
  obtain ⟨he, hu⟩ := hu
  have hexact := (exactRefill_iff h (m := s.bucket.meter)).mp he
  obtain ⟨refilled, hmeter, hconsumed, hclock, hlow', hle⟩ := hu.spends h hlow
  have hticks := elapsedMicros_nonneg s.bucket.updatedAt use.now
  have hnow : s.bucket.updatedAt ≤ use.now := hpaid.clock_le.trans hu.ordered
  have hafter := hpaid.refill hexact hticks (elapsed_ticks_le h hnow)
  have hcap : ((rate.accrual h).refill (elapsedMicros s.bucket.updatedAt use.now) use.now
      s.bucket.meter).tokens ≤ burstTokens rate := by
    rw [← accrual_cap h]
    exact Accrual.refill_le_cap hticks
  rw [← hmeter] at hafter hcap
  refine ⟨hlow', ?_, hle.trans hcap, ?_⟩
  · rw [hu.time, hconsumed]
    exact hafter.spend hclock
  · have hdrained := elapsed_drained h (m := s.bucket.meter) hnow hexact
    have hrefilled : refilled.updatedAt = ((rate.accrual h).refill
        (elapsedMicros s.bucket.meter.clock use.now) use.now s.bucket.meter).clock :=
      congrArg Meter.clock hmeter
    rw [hu.time, hclock, hrefilled]
    exact hdrained

/-! ### The local bucket -/

section LocalBucket

variable {start : Meter} {s s' : Account LocalRateBucket Instant} {use : BucketUse Instant}

/-- What a use leaves of the refilled bucket. -/
theorem useLocal_spends {bucket : LocalRateBucket} (hb : bucket.rate.Accepted)
    (hlow : i64Min ≤ bucket.tokensMicros) (use : BucketUse Instant) :
    (useLocal bucket use).rate = bucket.rate ∧
      (useLocal bucket use).updatedAt = (bucket.refill use.now).updatedAt ∧
      i64Min ≤ (useLocal bucket use).tokensMicros ∧
      (useLocal bucket use).tokensMicros ≤ burstTokens bucket.rate := by
  obtain ⟨hlow', hcap⟩ := LocalRateBucket.refill_within hb hlow use.now
  cases use with
  | refill now => exact ⟨LocalRateBucket.refill_rate now bucket, rfl, hlow', hcap⟩
  | consume permits now =>
    refine ⟨LocalRateBucket.refill_rate now bucket, rfl, ?_, ?_⟩
    · exact (by decide : i64Min ≤ 0).trans (le_max_right _ _)
    · have hcost := cost_nonneg permits
      have hpos := burst_pos hb
      refine max_le (max_le ?_ ((min_le_right _ _).trans ?_)) hpos.le
      · exact (by decide : i64Min ≤ 0).trans hpos.le
      · change (bucket.refill now).tokensMicros ≤ _ at hcap
        omega

/-- One exact use keeps the account paid and leaves nothing to earn at its instant. -/
theorem LocalUse.paid {rate : TaskRate} (h : rate.Accepted) (hrate : s.bucket.rate = rate)
    (hu : ExactLocalUse rate s use s') (hlow : i64Min ≤ s.bucket.tokensMicros)
    (hpaid : (rate.accrual h).Paid start s.bucket.meter s.consumed s.time) :
    s'.bucket.rate = rate ∧ i64Min ≤ s'.bucket.tokensMicros ∧
      (rate.accrual h).Paid start s'.bucket.meter s'.consumed s'.time ∧
      s'.bucket.tokensMicros ≤ burstTokens rate ∧
      (rate.accrual h).earned (s'.bucket.ticks s'.time) ≤ 0 := by
  subst hrate
  obtain ⟨he, hfits, hu⟩ := hu
  have hexact := (exactRefill_iff h (m := s.bucket.meter)).mp he
  have hticks := s.bucket.ticks_nonneg use.now
  have hnow : s.bucket.updatedAt ≤ use.now := by
    have := hpaid.clock_le
    exact (Int.ofNat_le.mp this).trans hu.ordered
  have hmeter := LocalRateBucket.refill_meter h hlow hnow hu.in_range hfits
  obtain ⟨hrate, hclock, hlow', hcap⟩ := useLocal_spends h hlow use
  rw [← hu.moves] at hrate hclock hlow' hcap
  have hafter := hpaid.refill hexact hticks (s.bucket.ticks_mul_le hnow)
  rw [← hmeter] at hafter
  refine ⟨hrate, hlow', ?_, hcap, ?_⟩
  · rw [hu.consumed, hu.time]
    exact hafter.spend (congrArg Nat.cast hclock)
  · have hclock' : (s'.bucket.updatedAt : ℤ) =
        ((s.bucket.rate.accrual h).refill (s.bucket.ticks use.now) use.now s.bucket.meter).clock := by
      rw [hclock, ← hmeter]
      rfl
    have hle : s'.bucket.updatedAt ≤ use.now := by
      have hlast : ((s.bucket.rate.accrual h).refill (s.bucket.ticks use.now) use.now
          s.bucket.meter).clock ≤ use.now :=
        (Accrual.refill_clock hticks (s.bucket.ticks_mul_le hnow)).2
      rw [← hclock'] at hlast
      exact Int.ofNat_le.mp hlast
    have hleft := s'.bucket.ticks_mul_le hle
    rw [hclock'] at hleft
    rw [hu.time]
    exact Accrual.refill_drained hexact hticks (Int.le_sub_left_of_add_le hleft)
      (s.bucket.lt_ticks_succ hnow)

end LocalBucket

end

/-! ### Runs -/

/-- Held and consumed tokens within the initial ones and what the elapsed time pays for. -/
def WithinIssue (rate : TaskRate) (start held consumed elapsed : ℤ) : Prop :=
  held + consumed ≤ start + elapsed * (rate.permits * tokenScale) / rate.period

instance (rate : TaskRate) (start held consumed elapsed : ℤ) :
    Decidable (WithinIssue rate start held consumed elapsed) :=
  inferInstanceAs (Decidable (_ ≤ _))

/-- The tokens of a bucket that is refilled once more at the time of its last use. -/
def SettledWall (rate : TaskRate) (s : Account RateBucket DateTime) : Prop :=
  s.bucket.tokensMicros ≤ burstTokens rate ∧
    ∀ again, refill rate s.time s.bucket = (.ok (), again) → again.tokensMicros = s.bucket.tokensMicros

def SettledLocal (rate : TaskRate) (s : Account LocalRateBucket Instant) : Prop :=
  s.bucket.tokensMicros ≤ burstTokens rate ∧
    (s.bucket.refill s.time).tokensMicros = s.bucket.tokensMicros

section

variable {rate : TaskRate} (h : rate.Accepted)

/-- The account of every run of exact uses is paid. -/
theorem wallRun_paid {start : RateBucket} (hlow : i64Min ≤ start.tokensMicros)
    {uses : List (BucketUse DateTime)} {s : Account RateBucket DateTime}
    (hrun : Run (ExactWallUse rate) ⟨start, 0, start.updatedAt⟩ uses s) :
    i64Min ≤ s.bucket.tokensMicros ∧
      (rate.accrual h).Paid start.meter s.bucket.meter s.consumed s.time := by
  refine hrun.inv (I := fun s => i64Min ≤ s.bucket.tokensMicros ∧
    (rate.accrual h).Paid start.meter s.bucket.meter s.consumed s.time) ?_ ⟨hlow, .start _ _⟩
  intro s use s' hs hu
  have hstep := WallUse.paid h hu hs.1 hs.2
  exact ⟨hstep.1, hstep.2.1⟩

include h in
/-- After a use of a run of exact uses the bucket is settled. -/
theorem wallRun_settled {start : RateBucket} (hlow : i64Min ≤ start.tokensMicros)
    {uses : List (BucketUse DateTime)} {s : Account RateBucket DateTime}
    (hrun : Run (ExactWallUse rate) ⟨start, 0, start.updatedAt⟩ uses s) (hne : uses ≠ []) :
    SettledWall rate s := by
  obtain ⟨earlier, use, rfl⟩ := (List.eq_nil_or_concat uses).resolve_left hne
  rw [List.concat_eq_append] at hrun
  obtain ⟨s₁, hearlier, hlast⟩ := hrun.split
  cases hlast with
  | cons hu hnil =>
    cases hnil
    have hpaid := wallRun_paid h hlow hearlier
    obtain ⟨hlow', -, hcap, hdrained⟩ := WallUse.paid h hu hpaid.1 hpaid.2
    refine ⟨hcap, fun again hagain => ?_⟩
    have hmeter := congrArg Meter.tokens (refill_meter h hlow' hagain)
    refine hmeter.trans (Accrual.refill_idle (elapsedMicros_nonneg _ _) hdrained ?_)
    rw [accrual_cap h]
    exact hcap

theorem localRun_paid {start : LocalRateBucket} (hrate : start.rate = rate)
    (hlow : i64Min ≤ start.tokensMicros) {uses : List (BucketUse Instant)}
    {s : Account LocalRateBucket Instant}
    (hrun : Run (ExactLocalUse rate) ⟨start, 0, start.updatedAt⟩ uses s) :
    s.bucket.rate = rate ∧ i64Min ≤ s.bucket.tokensMicros ∧
      (rate.accrual h).Paid start.meter s.bucket.meter s.consumed s.time := by
  refine hrun.inv (I := fun s => s.bucket.rate = rate ∧ i64Min ≤ s.bucket.tokensMicros ∧
    (rate.accrual h).Paid start.meter s.bucket.meter s.consumed s.time) ?_ ⟨hrate, hlow, .start _ _⟩
  intro s use s' hs hu
  have hstep := LocalUse.paid h hs.1 hu hs.2.1 hs.2.2
  exact ⟨hstep.1, hstep.2.1, hstep.2.2.1⟩

include h in
theorem localRun_settled {start : LocalRateBucket} (hrate : start.rate = rate)
    (hlow : i64Min ≤ start.tokensMicros) {uses : List (BucketUse Instant)}
    {s : Account LocalRateBucket Instant}
    (hrun : Run (ExactLocalUse rate) ⟨start, 0, start.updatedAt⟩ uses s) (hne : uses ≠ []) :
    SettledLocal rate s := by
  obtain ⟨earlier, use, rfl⟩ := (List.eq_nil_or_concat uses).resolve_left hne
  rw [List.concat_eq_append] at hrun
  obtain ⟨s₁, hearlier, hlast⟩ := hrun.split
  cases hlast with
  | cons hu hnil =>
    cases hnil
    obtain ⟨hrate₁, hlow₁, hpaid⟩ := localRun_paid h hrate hlow hearlier
    obtain ⟨rfl, hlow', -, hcap, hdrained⟩ := LocalUse.paid h hrate₁ hu hlow₁ hpaid
    refine ⟨hcap, ?_⟩
    rw [LocalRateBucket.refill_tokens h hlow']
    refine Accrual.refill_idle (s.bucket.ticks_nonneg _) hdrained ?_
    rw [accrual_cap h]
    exact hcap

end

/-- A bucket all of whose refills are exact never issues more than its initial tokens and what the
    elapsed time pays for, never holds more than its burst, and credits nothing twice. -/
theorem buckets_never_overissue {name label : String} {rate : TaskRate}
    (hvalid : validateRate name label (some rate) = .ok ()) (htyped : rate.Typed) :
    (∀ (start : RateBucket) uses s, i64Min ≤ start.tokensMicros →
      Run (ExactWallUse rate) ⟨start, 0, start.updatedAt⟩ uses s →
        WithinIssue rate start.tokensMicros s.bucket.tokensMicros s.consumed (s.time - start.updatedAt) ∧
          (uses ≠ [] → SettledWall rate s)) ∧
    (∀ (start : LocalRateBucket) uses s, start.rate = rate → i64Min ≤ start.tokensMicros →
      Run (ExactLocalUse rate) ⟨start, 0, start.updatedAt⟩ uses s →
        WithinIssue rate start.tokensMicros s.bucket.tokensMicros s.consumed (s.time - start.updatedAt) ∧
          (uses ≠ [] → SettledLocal rate s)) := by
  have h := validateRate_accepted hvalid htyped
  constructor
  · intro start uses s hlow hrun
    exact ⟨(wallRun_paid h hlow hrun).2.bound, wallRun_settled h hlow hrun⟩
  · intro start uses s hrate hlow hrun
    exact ⟨(localRun_paid h hrate hlow hrun).2.2.bound, localRun_settled h hrate hlow hrun⟩

/-- Two permits a second. -/
def evenRate : TaskRate := ⟨2, 1000000000, 2⟩

/-- At two permits a second half a second pays for one permit, and a refill at the same instant for none. -/
theorem buckets_never_overissue_even :
    WithinIssue evenRate 0 1000000 0 500000000 ∧ SettledWall evenRate ⟨⟨1000000, 500000000⟩, 0, 500000000⟩ := by
  have hexact : ExactRefill evenRate (elapsedMicros 0 500000000) 0 :=
    Or.inr ⟨by decide, Or.inr ⟨by decide, by decide⟩⟩
  have huse : WallUse evenRate ⟨⟨0, 0⟩, 0, 0⟩ (.refill 500000000) ⟨⟨1000000, 500000000⟩, 0, 500000000⟩ :=
    ⟨by decide, rfl, ⟨1000000, 500000000⟩, rfl, rfl, rfl⟩
  have hvalid : validateRate "even" "global" (some evenRate) = .ok () := rfl
  have hbound := (buckets_never_overissue hvalid ⟨by decide, by decide⟩).1 ⟨0, 0⟩ [.refill 500000000] _ (by decide) (Run.single ⟨hexact, huse⟩)
  exact ⟨hbound.1, hbound.2 (by simp)⟩

/-- One permit every 700 milliseconds: a micro-token costs 0.7 microseconds. -/
def unevenRate : TaskRate := ⟨1, 700000000, 1⟩

/-- A microsecond earns one token at 0.7 microseconds; the clock moves by none, and the next refill at
    the same instant credits the token again. -/
theorem uneven_bucket_overissues :
    validateRate "lane" "global" (some unevenRate) = .ok () ∧
    (¬ ∀ uses s, Run (WallUse unevenRate) ⟨⟨0, 0⟩, 0, 0⟩ uses s →
      WithinIssue unevenRate 0 s.bucket.tokensMicros s.consumed (s.time - 0)) ∧
    (¬ ∀ uses s, Run (WallUse unevenRate) ⟨⟨0, 0⟩, 0, 0⟩ uses s → uses ≠ [] → SettledWall unevenRate s) ∧
    ¬ ∀ uses s, Run LocalUse ⟨⟨unevenRate, 0, 0⟩, 0, 0⟩ uses s →
      WithinIssue unevenRate 0 s.bucket.tokensMicros s.consumed (s.time - 0) := by
  have hfirst : WallUse unevenRate ⟨⟨0, 0⟩, 0, 0⟩ (.refill 1000) ⟨⟨1, 0⟩, 0, 1000⟩ :=
    ⟨by decide, rfl, ⟨1, 0⟩, rfl, rfl, rfl⟩
  have hsecond : WallUse unevenRate ⟨⟨1, 0⟩, 0, 1000⟩ (.refill 1000) ⟨⟨2, 0⟩, 0, 1000⟩ :=
    ⟨by decide, rfl, ⟨2, 0⟩, rfl, rfl, rfl⟩
  refine ⟨rfl, fun hall => ?_, fun hall => ?_, fun hall => ?_⟩
  · exact absurd (hall _ _ (.cons hfirst (.single hsecond))) (by decide)
  · have hsettled := (hall _ _ (.single hfirst) (by simp)).2 ⟨2, 0⟩ rfl
    exact absurd hsettled (by decide)
  · have hfirst : LocalUse ⟨⟨unevenRate, 0, 0⟩, 0, 0⟩ (.refill 1000) ⟨⟨unevenRate, 1, 0⟩, 0, 1000⟩ :=
      ⟨by decide, by decide, rfl, by decide +kernel, by decide +kernel⟩
    have hsecond : LocalUse ⟨⟨unevenRate, 1, 0⟩, 0, 1000⟩ (.refill 1000) ⟨⟨unevenRate, 2, 0⟩, 0, 1000⟩ :=
      ⟨by decide, by decide, rfl, by decide +kernel, by decide +kernel⟩
    exact absurd (hall _ _ (.cons hfirst (.single hsecond))) (by decide)

end Vyuh.Tasks.Memory
