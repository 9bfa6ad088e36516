import Vyuh.Tasks.Config

/-! The delay between attempts of one task (`TaskRetry::delay`): a loop that doubles and caps, against the
    closed formula it stands for. -/

namespace Vyuh.Tasks

open Lib

namespace TaskRetry

/-- `MAX_TASK_ATTEMPTS`. -/
def maxTaskAttempts : ℕ := 1000

/-- `MAX_INTERVAL`: seven days. -/
def maxInterval : Duration := Duration.ofSecs (7 * 24 * 60 * 60)

/-- What `validate_lane` asks of the retry policy of a lane. -/
def validate (lane : String) (retry : TaskRetry) : Except TaskRuntimeError Unit :=
  if retry.maxAttempts = 0 ∨ maxTaskAttempts < retry.maxAttempts ∨ retry.initialDelay = Duration.zero ∨
      retry.maxDelay < retry.initialDelay ∨ maxInterval < retry.maxDelay then
    .error (.invalidConfig s!"task lane '{lane}' has an invalid retry policy")
  else .ok ()

/-- `TaskRetry::exponential`, with a cap of five minutes. -/
def exponential (maxAttempts : ℕ) (initialDelay : Duration) : TaskRetry :=
  ⟨maxAttempts, initialDelay, Duration.ofSecs (5 * 60)⟩

/-- The delay without a cap. -/
def doubled (retry : TaskRetry) (attempts : ℤ) : Duration := retry.initialDelay * 2 ^ (attempts - 1).toNat

variable {retry : TaskRetry}

/-- The saturation of the product is beyond the cap. -/
theorem capped_saturatingMul (hcap : retry.maxDelay ≤ Duration.maxValue) (delay : Duration) :
    min (Duration.saturatingMul delay 2) retry.maxDelay = min (delay * 2) retry.maxDelay := by
  rw [Duration.saturatingMul, min_assoc, min_eq_right hcap]

/-- Every round after the first attempt doubles; once at the cap a further doubling stays there. -/
theorem backoff_succ (hcap : retry.maxDelay ≤ Duration.maxValue) : ∀ (n : ℕ) (delay : Duration),
    retry.backoff (n + 1) delay = min (delay * 2 ^ (n + 1)) retry.maxDelay
  | 0, delay => by
    rw [backoff, capped_saturatingMul hcap, pow_one]
    split <;> rfl
  | n + 1, delay => by
    rw [backoff, capped_saturatingMul hcap]
    have hpow : delay * 2 ^ (n + 2) = delay * 2 * 2 ^ (n + 1) := by rw [pow_succ']; exact (mul_assoc ..).symm
    by_cases hreached : min (delay * 2) retry.maxDelay = retry.maxDelay
    · have hle : retry.maxDelay ≤ delay * 2 ^ (n + 2) := by
        rw [hpow]
        exact (min_eq_right_iff.mp hreached).trans (Nat.le_mul_of_pos_right _ (by positivity))
      rw [if_pos hreached, hreached, min_eq_right hle]
    · have hbelow : min (delay * 2) retry.maxDelay = delay * 2 :=
        min_eq_left (le_of_not_ge fun hge => hreached (min_eq_right hge))
      rw [if_neg hreached, hbelow, backoff_succ hcap n (delay * 2), hpow]

theorem delay_first : retry.delay 1 = .ok retry.initialDelay := rfl

/-- From the second attempt on the cap holds whatever the first delay is. -/
theorem delay_later (hcap : retry.maxDelay ≤ Duration.maxValue) {attempts : ℤ} (h : 2 ≤ attempts) :
    retry.delay attempts = .ok (min (retry.doubled attempts) retry.maxDelay) := by
  obtain ⟨n, rfl⟩ : ∃ n : ℕ, attempts = n + 2 := ⟨(attempts - 2).toNat, by omega⟩
  have hrounds : ((n : ℤ) + 2).toNat - 1 = n + 1 := by omega
  have hexponent : ((n : ℤ) + 2 - 1).toNat = n + 1 := by omega
  rw [delay, if_neg (by omega), hrounds, backoff_succ hcap, doubled, hexponent]

theorem delay_eq (hcap : retry.maxDelay ≤ Duration.maxValue) (hfirst : retry.initialDelay ≤ retry.maxDelay)
    {attempts : ℤ} (h : 1 ≤ attempts) :
    retry.delay attempts = .ok (min (retry.doubled attempts) retry.maxDelay) := by
  rcases h.eq_or_lt with rfl | hlater
  · rw [delay_first, doubled]
    simp [min_eq_left hfirst]
  · exact delay_later hcap hlater

theorem doubled_mono {first second : ℤ} (h : first ≤ second) : retry.doubled first ≤ retry.doubled second :=
  Nat.mul_le_mul_left _ (Nat.pow_le_pow_right two_pos (by omega))

/-- An accepted policy starts below its cap. -/
theorem validate_ok {lane : String} (h : retry.validate lane = .ok ()) :
    retry.initialDelay ≤ retry.maxDelay ∧ retry.maxDelay ≤ Duration.maxValue := by
  rw [validate] at h
  split at h
  · cases h
  · next hvalid =>
    rw [not_or, not_or, not_or, not_or, not_lt, not_lt, not_lt] at hvalid
    obtain ⟨-, -, -, hfirst, hlast⟩ := hvalid
    exact ⟨hfirst, hlast.trans (by decide)⟩

/-- Of a policy a lane may have, every delay is the doubled one up to the cap, the delays do not decrease and
    none is above the cap. Any other policy, whose cap is a duration at all, waits its first delay once, and
    from the second attempt on the same delays. -/
theorem delay_doubles_to_cap {lane : String} (hcap : retry.maxDelay ≤ Duration.maxValue) :
    retry.delay 1 = .ok retry.initialDelay ∧
    (∀ attempts : ℤ, 2 ≤ attempts → retry.delay attempts = .ok (min (retry.doubled attempts) retry.maxDelay)) ∧
    (retry.validate lane = .ok () →
      (∀ attempts : ℤ, 1 ≤ attempts →
        retry.delay attempts = .ok (min (retry.doubled attempts) retry.maxDelay)) ∧
      ∀ (first second : ℤ) (earlier later : Duration), 1 ≤ first → first ≤ second →
        retry.delay first = .ok earlier → retry.delay second = .ok later →
        earlier ≤ later ∧ later ≤ retry.maxDelay) := by
  refine ⟨delay_first, fun _ => delay_later hcap, fun hvalid => ?_⟩
  have hfirst := (validate_ok hvalid).1
  refine ⟨fun _ => delay_eq hcap hfirst, fun first second earlier later h₁ h₂ hearlier hlater => ?_⟩
  rw [delay_eq hcap hfirst h₁] at hearlier
  rw [delay_eq hcap hfirst (h₁.trans h₂)] at hlater
  obtain rfl := Except.ok.inj hearlier
  obtain rfl := Except.ok.inj hlater
  exact ⟨min_le_min_right _ (doubled_mono h₂), min_le_right _ _⟩

/-- `DEFAULT_RETRY`: five attempts, one second at first and five minutes at most. -/
def defaultRetry : TaskRetry := exponential 5 (Duration.ofSecs 1)

theorem default_delays_double_to_cap :
    defaultRetry.delay 3 = .ok (Duration.ofSecs 4) ∧ defaultRetry.delay 10 = .ok (Duration.ofSecs 300) := by
  have hvalid : defaultRetry.validate "default" = .ok () := by decide
  have hdelays := ((@delay_doubles_to_cap defaultRetry "default" (by decide)).2.2 hvalid).1
  constructor
  · rw [hdelays 3 (by decide)]
    decide
  · rw [hdelays 10 (by decide)]
    decide +kernel

/-- A first delay of ten minutes is above the cap of five, and is waited nevertheless; no lane may have such a
    policy. -/
theorem first_delay_exceeds_cap :
    (exponential 3 (Duration.ofSecs 600)).delay 1 = .ok (Duration.ofSecs 600) ∧
      min ((exponential 3 (Duration.ofSecs 600)).doubled 1) (exponential 3 (Duration.ofSecs 600)).maxDelay =
        Duration.ofSecs 300 ∧
      (exponential 3 (Duration.ofSecs 600)).validate "default" ≠ .ok () := by
  refine ⟨rfl, rfl, ?_⟩
  decide

end TaskRetry

end Vyuh.Tasks
