import Vyuh.Tasks.Rate

/-! The token bucket of one local runner, which follows the monotonic clock (`LocalRateBucket` of
    `rate.rs`), and the check a configured rate passes (`validate_rate` of `config.rs`). -/

namespace Vyuh.Tasks
open Lib

/-- `u32::MAX`. -/
def u32Max : ℕ := 2 ^ 32 - 1

/-- `u128::MAX`. -/
def u128Max : ℕ := 2 ^ 128 - 1

/-- `u128::saturating_mul`. -/
def saturatingMulU128 (a b : ℕ) : ℕ := min (a * b) u128Max

/-- Nanoseconds of the monotonic clock. -/
abbrev Instant := ℕ

/-- The last instant the monotonic clock represents. -/
def maxInstant : Instant := (2 ^ 63 - 1) * 1000000000 + 999999999

/-- Refuses a rate that grants nothing or that the arithmetic cannot hold. -/
def validateRate (name label : String) : Option TaskRate → Except TaskRuntimeError Unit
  | none => .ok ()
  | some rate =>
    if rate.permits = 0 ∨ rate.burst = 0 ∨ Duration.asMicros rate.period = 0 ∨ u64Max < rate.period then
      .error (.invalidConfig
        ("task lane '" ++ name ++ "' has an invalid " ++ label ++ " rate limit"))
    else .ok ()

/-- Monotonic token bucket owned by one local task runner. -/
structure LocalRateBucket where
  rate : TaskRate
  tokensMicros : ℤ
  updatedAt : Instant
  deriving DecidableEq, Repr

/-- Tokens that `elapsed` earns. -/
def credit (elapsed : Duration) (rate : TaskRate) : ℤ :=
  let period := max (Duration.asMicros rate.period) 1
  let credited := saturatingMulU128 (saturatingMulU128 (Duration.asMicros elapsed) rate.permits) 1000000
    / period
  if (credited : ℤ) ≤ i64Max then credited else i64Max

namespace LocalRateBucket

def new (rate : TaskRate) (now : Instant) : LocalRateBucket where
  rate := rate
  tokensMicros := burstTokens rate
  updatedAt := now

/-- Moves the refill time by what the credited tokens cost. -/
def advanceClock (credited : ℤ) (now : Instant) (bucket : LocalRateBucket) : LocalRateBucket :=
  let period := Duration.asMicros bucket.rate.period
  let denominator := saturatingMulU128 bucket.rate.permits 1000000
  let amount := if 0 ≤ credited then credited.toNat else u128Max
  let consumed := saturatingMulU128 amount period / max denominator 1
  let consumed := if consumed ≤ u64Max then consumed else u64Max
  { bucket with
    updatedAt := if bucket.updatedAt + consumed * 1000 ≤ maxInstant then
      bucket.updatedAt + consumed * 1000 else now }

/-- Credits what the elapsed time earned, up to the burst. -/
def refill (now : Instant) (bucket : LocalRateBucket) : LocalRateBucket :=
  let credited := credit (now - bucket.updatedAt) bucket.rate
  let burst := burstTokens bucket.rate
  let replenished := saturate64 (bucket.tokensMicros + credited)
  if burst ≤ replenished then { bucket with tokensMicros := burst, updatedAt := now }
  else if 0 < credited then advanceClock credited now { bucket with tokensMicros := replenished }
  else bucket

/-- Complete permits available at `now`. -/
def available (now : Instant) (bucket : LocalRateBucket) : ℕ × LocalRateBucket :=
  let bucket := bucket.refill now
  (((max bucket.tokensMicros 0) / tokenScale).toNat, bucket)

/-- Consumes the permits of the rows a store really claimed. -/
def consume (permits : ℕ) (now : Instant) (bucket : LocalRateBucket) : LocalRateBucket :=
  let bucket := bucket.refill now
  let permits := if (permits : ℤ) ≤ i64Max then (permits : ℤ) else i64Max
  { bucket with
    tokensMicros := max (saturate64 (bucket.tokensMicros - saturate64 (permits * tokenScale))) 0 }

/-- The delay until another complete permit is available. -/
def nextPermit (now : Instant) (bucket : LocalRateBucket) : Option Duration × LocalRateBucket :=
  let bucket := bucket.refill now
  (permitDelay bucket.tokensMicros bucket.rate (now - bucket.updatedAt), bucket)

end LocalRateBucket

end Vyuh.Tasks
