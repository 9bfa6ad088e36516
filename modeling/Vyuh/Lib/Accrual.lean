import Mathlib

/-! Accrual of tokens over time in whole numbers. A meter earns `num` tokens every `den` ticks up to a
    cap; a refill rounds down what the elapsed ticks earn, credits it, and moves the meter's clock by
    the rounded-down cost of what it credited.

    The two roundings cancel when what is credited costs whole ticks (`Exact`): then nothing is earned
    twice, however often the meter is refilled (`refill_paid`, `refill_drained`). -/

namespace Lib

/-- `num` tokens every `period` clock units, which the meter takes for `den` ticks of `tick` units; up
    to `cap` tokens, at most `top` in one refill. -/
structure Accrual where
  num : ℤ
  den : ℤ
  tick : ℤ
  period : ℤ
  cap : ℤ
  top : ℤ
  num_pos : 0 < num
  den_pos : 0 < den
  tick_pos : 0 < tick
  period_pos : 0 < period
  top_nonneg : 0 ≤ top

/-- Tokens held, and the time up to which they are earned. -/
structure Meter where
  tokens : ℤ
  clock : ℤ
  deriving DecidableEq, Repr

namespace Accrual

variable (a : Accrual)

/-- What `ticks` earn. -/
def earned (ticks : ℤ) : ℤ := ticks * a.num / a.den

/-- What one refill credits. -/
def credit (ticks : ℤ) : ℤ := min a.top (a.earned ticks)

/-- The whole ticks that `tokens` cost. -/
def cost (tokens : ℤ) : ℤ := tokens * a.den / a.num

/-- One refill at `now`, `ticks` after the meter's clock. -/
def refill (ticks now : ℤ) (m : Meter) : Meter :=
  if a.cap ≤ m.tokens + a.credit ticks then ⟨a.cap, now⟩
  else if 0 < a.credit ticks then
    ⟨m.tokens + a.credit ticks, m.clock + a.tick * a.cost (a.credit ticks)⟩
  else m

/-- A refill that earns nothing, or where the period is whole ticks and the refill fills the meter or
    credits all that was earned for whole ticks. -/
def Exact (ticks : ℤ) (m : Meter) : Prop :=
  a.earned ticks = 0 ∨ (a.period = a.tick * a.den ∧ (a.cap ≤ m.tokens + a.credit ticks ∨
    (a.earned ticks ≤ a.top ∧ a.num ∣ a.earned ticks * a.den)))

variable {a}

/-! ### Rounding -/

theorem earned_nonneg {ticks : ℤ} (h : 0 ≤ ticks) : 0 ≤ a.earned ticks :=
  Int.ediv_nonneg (Int.mul_nonneg h a.num_pos.le) a.den_pos.le

theorem credit_nonneg {ticks : ℤ} (h : 0 ≤ ticks) : 0 ≤ a.credit ticks :=
  le_min a.top_nonneg (earned_nonneg h)

theorem credit_le (ticks : ℤ) : a.credit ticks ≤ a.earned ticks := min_le_right _ _

/-- Earning is the lower adjoint's other half: `n` tokens are earned once their ticks have passed. -/
theorem le_earned {n ticks : ℤ} : n ≤ a.earned ticks ↔ n * a.den ≤ ticks * a.num :=
  Int.le_ediv_iff_mul_le a.den_pos

theorem le_credit {n ticks : ℤ} : n ≤ a.credit ticks ↔ n ≤ a.top ∧ n * a.den ≤ ticks * a.num := by
  rw [credit, le_min_iff, le_earned]

theorem credit_eq_zero {ticks : ℤ} (h : a.earned ticks = 0) : a.credit ticks = 0 := by
  rw [credit, h, min_eq_right a.top_nonneg]

/-- What is credited never costs more ticks than have passed. -/
theorem cost_credit_le (ticks : ℤ) : a.cost (a.credit ticks) ≤ ticks := by
  have hc : a.credit ticks * a.den ≤ ticks * a.num := (le_credit.mp (le_refl _)).2
  exact Int.ediv_le_of_le_mul a.num_pos hc

theorem cost_nonneg {n : ℤ} (h : 0 ≤ n) : 0 ≤ a.cost n :=
  Int.ediv_nonneg (Int.mul_nonneg h a.den_pos.le) a.num_pos.le

/-- Unless it fills the meter, an exact refill credits all that was earned, at its exact cost. -/
theorem Exact.credit_eq {ticks : ℤ} {m : Meter} (he : a.Exact ticks m)
    (hroom : ¬ a.cap ≤ m.tokens + a.credit ticks) :
    a.credit ticks = a.earned ticks ∧ a.cost (a.credit ticks) * a.num = a.credit ticks * a.den := by
  obtain hzero | ⟨-, hfull | ⟨hle, hdvd⟩⟩ := he
  · rw [credit_eq_zero hzero, hzero, cost]
    simp
  · exact absurd hfull hroom
  · have hcredit : a.credit ticks = a.earned ticks := min_eq_right hle
    refine ⟨hcredit, ?_⟩
    rw [cost, hcredit]
    exact Int.ediv_mul_cancel hdvd

/-! ### One refill -/

section Refill

variable {ticks now : ℤ} {m : Meter}

theorem refill_le_cap (h : 0 ≤ ticks) : (a.refill ticks now m).tokens ≤ a.cap := by
  have hc := credit_nonneg (a := a) h
  rw [refill]
  split_ifs with hfull hpos
  · exact le_refl _
  · simp only
    omega
  · omega

/-- A lower bound on the tokens survives a refill. -/
theorem le_refill_tokens (h : 0 ≤ ticks) {low : ℤ} (hlow : low ≤ m.tokens) (hcap : low ≤ a.cap) :
    low ≤ (a.refill ticks now m).tokens := by
  have hc := credit_nonneg (a := a) h
  rw [refill]
  split_ifs with hfull hpos
  · exact hcap
  · simp only
    omega
  · exact hlow

/-- The clock never runs back and never passes the time of the refill. -/
theorem refill_clock (h : 0 ≤ ticks) (hnow : m.clock + a.tick * ticks ≤ now) :
    m.clock ≤ (a.refill ticks now m).clock ∧ (a.refill ticks now m).clock ≤ now := by
  have htick := mul_nonneg a.tick_pos.le h
  rw [refill]
  split_ifs with hfull hpos
  · simp only
    omega
  · have hle := mul_le_mul_of_nonneg_left (cost_credit_le (a := a) ticks) a.tick_pos.le
    have hge := mul_nonneg a.tick_pos.le (cost_nonneg (a := a) hpos.le)
    simp only
    omega
  · omega

/-- An exact refill credits no more than the clock moves for. -/
theorem refill_paid (he : a.Exact ticks m) (h : 0 ≤ ticks) (hnow : m.clock + a.tick * ticks ≤ now) :
    ((a.refill ticks now m).tokens - m.tokens) * a.period ≤
      ((a.refill ticks now m).clock - m.clock) * a.num := by
  by_cases hzero : a.earned ticks = 0
  · have htokens : (a.refill ticks now m).tokens ≤ m.tokens := by
      rw [refill, credit_eq_zero hzero]
      split_ifs with hfull hpos
      · simp only
        omega
      · omega
      · exact le_refl _
    have hclock := (refill_clock h hnow).1
    calc ((a.refill ticks now m).tokens - m.tokens) * a.period
        ≤ 0 := mul_nonpos_of_nonpos_of_nonneg (by omega) a.period_pos.le
      _ ≤ ((a.refill ticks now m).clock - m.clock) * a.num := mul_nonneg (by omega) a.num_pos.le
  · rw [(he.resolve_left hzero).1, refill]
    split_ifs with hfull hpos
    · -- a full meter drops what it cannot hold
      have hheld : (a.cap - m.tokens) * a.den ≤ ticks * a.num :=
        (mul_le_mul_of_nonneg_right (by omega) a.den_pos.le).trans (le_credit.mp (le_refl _)).2
      have hpaid := mul_le_mul_of_nonneg_left hheld a.tick_pos.le
      have helapsed := mul_le_mul_of_nonneg_right hnow a.num_pos.le
      simp only
      linarith
    · have hcost := (he.credit_eq hfull).2
      simp only
      apply le_of_eq
      calc (m.tokens + a.credit ticks - m.tokens) * (a.tick * a.den)
          = a.tick * (a.credit ticks * a.den) := by ring
        _ = a.tick * (a.cost (a.credit ticks) * a.num) := by rw [hcost]
        _ = (m.clock + a.tick * a.cost (a.credit ticks) - m.clock) * a.num := by ring
    · simp

/-- After an exact refill the ticks left over earn nothing yet. -/
theorem refill_drained (he : a.Exact ticks m) (h : 0 ≤ ticks) {left : ℤ}
    (hleft : a.tick * left ≤ now - (a.refill ticks now m).clock)
    (hnow : now < m.clock + a.tick * (ticks + 1)) : a.earned left ≤ 0 := by
  rw [refill] at hleft
  split_ifs at hleft with hfull hpos
  · -- the clock is at `now`
    have hzero : left ≤ 0 := by
      by_contra hpos
      have := mul_pos a.tick_pos (not_le.mp hpos)
      simp only at hleft
      omega
    have hnum := mul_nonpos_of_nonpos_of_nonneg hzero a.num_pos.le
    exact Int.ediv_nonpos_of_nonpos_of_neg hnum a.den_pos
  · obtain ⟨hcredit, hcost⟩ := he.credit_eq hfull
    have hbound : left ≤ ticks - a.cost (a.credit ticks) := by
      simp only at hleft
      have hlt : a.tick * left < a.tick * (ticks - a.cost (a.credit ticks) + 1) := by linarith
      have := lt_of_mul_lt_mul_left hlt a.tick_pos.le
      omega
    by_contra hsome
    have hone : (0 + 1) * a.den ≤ left * a.num := le_earned.mp (Int.add_one_le_iff.mpr (not_le.mp hsome))
    have hmore : a.credit ticks + 1 ≤ a.earned ticks := by
      apply le_earned.mpr
      have := mul_le_mul_of_nonneg_right hbound a.num_pos.le
      linarith
    omega
  · have hzero : a.earned ticks = 0 := by
      have hnn := earned_nonneg (a := a) h
      have := (he.credit_eq hfull).1
      omega
    have hbound : left ≤ ticks := by
      have hlt : a.tick * left < a.tick * (ticks + 1) := by omega
      have := lt_of_mul_lt_mul_left hlt a.tick_pos.le
      omega
    have hmono := mul_le_mul_of_nonneg_right hbound a.num_pos.le
    calc a.earned left ≤ a.earned ticks := Int.ediv_le_ediv a.den_pos hmono
      _ ≤ 0 := hzero.le

/-- A refill reaches `n` tokens exactly when the elapsed ticks earn what is missing. -/
theorem le_refill {n : ℤ} (hcap : n ≤ a.cap) (hlow : m.tokens < n) (h : 0 ≤ ticks) :
    n ≤ (a.refill ticks now m).tokens ↔
      n - m.tokens ≤ a.top ∧ (n - m.tokens) * a.den ≤ ticks * a.num := by
  have hc := credit_nonneg (a := a) h
  rw [← le_credit, refill]
  split_ifs with hfull hpos
  · simp only
    omega
  · simp only
    omega
  · omega

/-- With nothing earned a meter within its cap keeps its tokens. -/
theorem refill_idle (h : 0 ≤ ticks) (hearned : a.earned ticks ≤ 0) (hcap : m.tokens ≤ a.cap) :
    (a.refill ticks now m).tokens = m.tokens := by
  have hle := credit_le (a := a) ticks
  have hnn := credit_nonneg (a := a) h
  rw [refill]
  split_ifs with hfull hpos
  · simp only
    omega
  · omega
  · rfl

end Refill

/-! ### Accounts -/

/-- What was held and spent up to now against what the start and the elapsed time pay for. -/
structure Paid (a : Accrual) (start m : Meter) (spent now : ℤ) : Prop where
  clock_le : m.clock ≤ now
  paid : (m.tokens + spent - start.tokens) * a.period ≤ (m.clock - start.clock) * a.num

theorem Paid.start (a : Accrual) (m : Meter) : Paid a m m 0 m.clock :=
  ⟨le_refl _, by simp⟩

/-- Spending moves tokens from the meter to the account. -/
theorem Paid.spend {start m m' : Meter} {spent now : ℤ} (h : Paid a start m spent now)
    (hclock : m'.clock = m.clock) : Paid a start m' (spent + (m.tokens - m'.tokens)) now := by
  refine ⟨hclock ▸ h.clock_le, ?_⟩
  rw [hclock, show m'.tokens + (spent + (m.tokens - m'.tokens)) = m.tokens + spent by ring]
  exact h.paid

theorem Paid.refill {start m : Meter} {spent time now ticks : ℤ} (h : Paid a start m spent time)
    (he : a.Exact ticks m) (hticks : 0 ≤ ticks) (hnow : m.clock + a.tick * ticks ≤ now) :
    Paid a start (a.refill ticks now m) spent now := by
  refine ⟨(refill_clock hticks hnow).2, ?_⟩
  have hpaid := refill_paid he hticks hnow
  have hbefore := h.paid
  linarith

/-- The bound an account keeps: no more than the initial tokens and what the elapsed time earns. -/
theorem Paid.bound {start m : Meter} {spent now : ℤ} (h : Paid a start m spent now) :
    m.tokens + spent ≤ start.tokens + (now - start.clock) * a.num / a.period := by
  have hclock := mul_le_mul_of_nonneg_right (sub_le_sub_right h.clock_le start.clock) a.num_pos.le
  have hle := (Int.le_ediv_iff_mul_le a.period_pos).mpr (h.paid.trans hclock)
  omega

end Accrual

end Lib
