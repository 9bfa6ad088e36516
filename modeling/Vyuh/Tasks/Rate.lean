import Vyuh.Lib.Step
import Vyuh.Tasks.Config

/-! Fixed-point token buckets shared by the task stores (`rate.rs`). -/

namespace Vyuh.Tasks
open Lib

/-- Millionths of a permit per permit. -/
def tokenScale : ℤ := 1000000

/-- One lane's durable bucket. -/
structure RateBucket where
  tokensMicros : ℤ
  updatedAt : DateTime
  deriving DecidableEq, Repr

/-- Tokens of a full bucket. -/
def burstTokens (rate : TaskRate) : ℤ := saturate64 (rate.burst * tokenScale)

/-- A full bucket. -/
def RateBucket.full (rate : TaskRate) (now : DateTime) : RateBucket :=
  { tokensMicros := burstTokens rate, updatedAt := now }

/-- Moves the refill time by what the credited tokens cost. -/
def advanceClock (credited periodMicros : ℤ) (rate : TaskRate) :
    Step RateBucket TaskRuntimeError Unit := do
  let denominator := saturate128 (rate.permits * tokenScale)
  let consumed := saturate128 (credited * periodMicros) / max denominator 1
  if consumed < i64Min ∨ i64Max < consumed then
    Step.fail (.invalidConfig "task rate interval is too large")
  else do
    let bucket ← Step.get
    match checkedAdd minUtc maxUtc bucket.updatedAt (consumed * 1000) with
    | none => Step.fail (.invalidConfig "task rate timestamp overflowed")
    | some updatedAt => Step.modify (fun b => { b with updatedAt := updatedAt })

def applyCredit (credited periodMicros : ℤ) (rate : TaskRate) (now : DateTime) :
    Step RateBucket TaskRuntimeError Unit := do
  let burst := burstTokens rate
  let credited := if credited < i64Min ∨ i64Max < credited then i64Max else credited
  let bucket ← Step.get
  let replenished := saturate64 (bucket.tokensMicros + credited)
  if burst ≤ replenished then
    Step.modify (fun _ => { tokensMicros := burst, updatedAt := now })
  else if 0 < credited then do
    Step.modify (fun b => { b with tokensMicros := replenished })
    advanceClock credited periodMicros rate
  else pure ()

/-- Whole microseconds between two instants, zero when they do not fit or run backwards. -/
def elapsedMicros (since now : DateTime) : ℤ :=
  let micros := Int.tdiv (now - since) 1000
  if micros < i64Min ∨ i64Max < micros then 0 else max micros 0

/-- Refills a bucket without losing sub-token elapsed time. -/
def refill (rate : TaskRate) (now : DateTime) : Step RateBucket TaskRuntimeError Unit := do
  let bucket ← Step.get
  let elapsed := elapsedMicros bucket.updatedAt now
  if i128Max < (Duration.asMicros rate.period : ℤ) then
    Step.fail (.invalidConfig "task rate period is too large")
  else
    let period : ℤ := max (Duration.asMicros rate.period) 1
    let credited := saturate128 (saturate128 (elapsed * rate.permits) * tokenScale) / period
    applyCredit credited period rate now

def permitDelay (tokensMicros : ℤ) (rate : TaskRate) (accrued : Duration) : Option Duration :=
  if tokenScale ≤ tokensMicros then none
  else
    let missing := saturate64 (tokenScale - max tokensMicros 0)
    if i128Max < (rate.period : ℤ) then none
    else
      let denominator := saturate128 (rate.permits * tokenScale)
      let nanos := saturate128 (saturate128 (missing * rate.period) + saturate128 (denominator - 1))
        / max denominator 1
      if nanos < 0 ∨ (u64Max : ℤ) < nanos then none else some (nanos.toNat - accrued)

/-- The delay until one complete permit is available. -/
def nextPermit (tokensMicros : ℤ) (rate : TaskRate) (refillAt now : DateTime) : Option Duration :=
  permitDelay tokensMicros rate ((toStd (now - refillAt)).getD 0)

end Vyuh.Tasks
