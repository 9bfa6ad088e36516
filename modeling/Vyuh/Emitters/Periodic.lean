import Vyuh.Emitters.Scheduled

/-! Periodic occurrences (`periodic_boundary` of `emitters/scheduled.rs`): the multiples of an interval counted
    from the Unix epoch, in milliseconds. -/

namespace Vyuh.Emitters

open Lib

/-- An instant without what is below a millisecond; before the epoch this rounds down, too. -/
def floorMillis (time : DateTime) : DateTime := time / 1000000 * 1000000

/-- An interval without what is below a millisecond. -/
def wholeMillis (interval : Duration) : Duration := interval / 1000000 * 1000000

/-- The first time after another that is a multiple of a step. -/
def Follows (step : ℤ) (after next : DateTime) : Prop := IsLeast {time | after < time ∧ step ∣ time} next

/-- The time is one that `chrono` represents. -/
def Representable (time : DateTime) : Prop := minUtc ≤ time ∧ time ≤ maxUtc

instance (time : DateTime) : Decidable (Representable time) := inferInstanceAs (Decidable (_ ∧ _))

theorem follows_iff {step : ℤ} (hstep : 0 < step) {after next : DateTime} :
    Follows step after next ↔ next = (after / step + 1) * step := by
  have hleast : Follows step after ((after / step + 1) * step) := by
    refine ⟨⟨Int.lt_ediv_add_one_mul_self after hstep, Dvd.intro_left _ rfl⟩, ?_⟩
    rintro _ ⟨hafter, slot, rfl⟩
    have hslot : after / step < slot := Int.ediv_lt_of_lt_mul hstep (by rwa [mul_comm] at hafter)
    rw [mul_comm step slot]
    exact Int.mul_le_mul_of_nonneg_right hslot hstep.le
  exact ⟨fun h => IsLeast.unique h hleast, fun h => h ▸ hleast⟩

/-- A factor of a number in range is in range, when the other factor is positive. -/
theorem factor_bounds {slot millis : ℤ} (hpos : 0 < millis) (hlo : i64Min ≤ slot * millis)
    (hhi : slot * millis ≤ i64Max) : i64Min ≤ slot ∧ slot ≤ i64Max := by
  rw [i64Min] at *
  rw [i64Max] at *
  constructor <;> nlinarith

/-- What a time of `chrono` is in milliseconds has room in 64 bits. -/
theorem Representable.millis_bounds {millis : ℤ} (h : Representable (millis * 1000000)) :
    i64Min ≤ millis ∧ millis ≤ i64Max := by
  have hlo : (-8334601228800 * 1000000000 : ℤ) ≤ millis * 1000000 := h.1
  have hhi : millis * 1000000 ≤ (8210266876799 * 1000000000 + 999999999 : ℤ) := h.2
  rw [i64Min, i64Max]
  omega

theorem checkedAdd64_of_bounds {a b : ℤ} (h : i64Min ≤ a + b ∧ a + b ≤ i64Max) :
    checkedAdd64 a b = some (a + b) := if_pos h

/-- The next boundary is computed unless a guard or an intermediate value is out of range, and no intermediate
    value is when the boundary is not. -/
theorem periodicBoundary_ok_iff {after next : DateTime} {interval : Duration} :
    periodicBoundary after interval = .ok next ↔
      0 < ((interval / 1000000 : ℕ) : ℤ) ∧ ((interval / 1000000 : ℕ) : ℤ) ≤ i64Max ∧
        next = (after / 1000000 / (interval / 1000000 : ℕ) + 1) * (interval / 1000000 : ℕ) * 1000000 ∧
        Representable next := by
  generalize hmillis : ((interval / 1000000 : ℕ) : ℤ) = millis
  rw [periodicBoundary]
  simp only [hmillis]
  by_cases hfits : millis > i64Max
  · simp [hfits, not_le_of_gt hfits]
  by_cases hpos : millis ≤ 0
  · simp [hfits, hpos, not_lt_of_ge hpos]
  rw [if_neg hfits, if_neg hpos]
  rw [not_lt] at hfits
  rw [not_le] at hpos
  constructor
  · intro h
    cases hslot : checkedAdd64 (after / 1000000 / millis) 1 with
    | none => simp [hslot] at h
    | some slot =>
      obtain rfl := checkedAdd64_some hslot
      simp only [hslot, Option.bind_some, checkedMul64] at h
      split_ifs at h with hproduct
      · simp only [timestampMillis] at h
        split_ifs at h with hrange
        obtain rfl := Except.ok.inj h
        exact ⟨hpos, hfits, rfl, hrange⟩
  · rintro ⟨-, -, rfl, hrange⟩
    obtain ⟨hlo, hhi⟩ := hrange.millis_bounds
    have hslot := factor_bounds hpos hlo hhi
    simp only [checkedAdd64_of_bounds hslot, Option.bind_some, checkedMul64, if_pos (And.intro hlo hhi),
      timestampMillis, if_pos (show _ ∧ _ from hrange)]

theorem millis_pos {interval : Duration} (h : 1000000 ≤ interval) : 0 < interval / 1000000 :=
  Nat.div_pos h (by decide)

theorem wholeMillis_pos {interval : Duration} (h : 1000000 ≤ interval) : 0 < wholeMillis interval :=
  Nat.mul_pos (millis_pos h) (by decide)

/-- Of milliseconds or of nanoseconds, the slot of a time is the same. -/
theorem slot_eq (after : DateTime) (interval : Duration) :
    floorMillis after / (wholeMillis interval : ℕ) = after / 1000000 / (interval / 1000000 : ℕ) := by
  rw [floorMillis, wholeMillis, Nat.cast_mul, Nat.cast_ofNat, Int.mul_ediv_mul_of_pos_left _ _ (by decide)]

theorem floorMillis_of_dvd {step : ℕ} {time : DateTime} (h : ((step * 1000000 : ℕ) : ℤ) ∣ time) :
    floorMillis time = time := by
  have hmillis : (1000000 : ℤ) ∣ time := dvd_trans (by push_cast; exact Dvd.intro_left _ rfl) h
  exact Int.ediv_mul_cancel hmillis

/-- The boundary after a multiple of the step is the next multiple. -/
theorem follows_multiple {step : ℤ} (hstep : 0 < step) {time next : DateTime} (hmultiple : step ∣ time) :
    Follows step time next ↔ next = time + step := by
  rw [follows_iff hstep, add_mul, one_mul, Int.ediv_mul_cancel hmultiple]

/-- What is returned for an interval of at least a millisecond is the least multiple of its whole milliseconds
    after the millisecond of the time before, unless that is no representable time or the interval has more
    milliseconds than a signed 64-bit number; so occurrences are apart by exactly that step. -/
theorem periodic_boundary_is_least (after : DateTime) (interval : Duration) (h : 1000000 ≤ interval) :
    (∀ next, periodicBoundary after interval = .ok next ↔
      ((interval / 1000000 : ℕ) : ℤ) ≤ i64Max ∧ Follows (wholeMillis interval) (floorMillis after) next ∧
        Representable next) ∧
    ∀ next later, periodicBoundary after interval = .ok next → periodicBoundary next interval = .ok later →
      next < later ∧ later = next + wholeMillis interval := by
  have hstep : (0 : ℤ) < wholeMillis interval := Int.natCast_pos.mpr (wholeMillis_pos h)
  have hok : ∀ before next : DateTime, periodicBoundary before interval = .ok next ↔
      ((interval / 1000000 : ℕ) : ℤ) ≤ i64Max ∧ Follows (wholeMillis interval) (floorMillis before) next ∧
        Representable next := by
    intro before next
    have hmillis : 0 < ((interval / 1000000 : ℕ) : ℤ) := Int.natCast_pos.mpr (millis_pos h)
    have hnext : (floorMillis before / (wholeMillis interval : ℕ) + 1) * (wholeMillis interval : ℕ) =
        (before / 1000000 / (interval / 1000000 : ℕ) + 1) * (interval / 1000000 : ℕ) * 1000000 := by
      rw [slot_eq, wholeMillis, Nat.cast_mul, Nat.cast_ofNat, mul_assoc]
    rw [periodicBoundary_ok_iff, follows_iff hstep, hnext]
    exact and_iff_right hmillis
  refine ⟨hok after, fun next later hnext hlater => ?_⟩
  have hmultiple : (wholeMillis interval : ℤ) ∣ next := ((hok after next).mp hnext).2.1.1.2
  have hfollows := ((hok next later).mp hlater).2.1
  rw [floorMillis_of_dvd hmultiple, follows_multiple hstep hmultiple] at hfollows
  exact ⟨hfollows ▸ Int.lt_add_of_pos_right next hstep, hfollows⟩

/-- A minute before the epoch, every ten seconds. -/
theorem periodic_boundary_is_least_before_epoch :
    periodicBoundary (-60000000001) (Duration.ofSecs 10) = .ok (-60000000000) := by
  have hboundary := (periodic_boundary_is_least (-60000000001) (Duration.ofSecs 10) (by decide)).1
  refine (hboundary (-60000000000)).mpr ⟨by decide, ?_, by decide⟩
  exact (follows_iff (by decide)).mpr (by decide)

/-- An interval of a millisecond and a half counts as one millisecond: the time after the epoch is no multiple
    of it. An interval of more milliseconds than a signed 64-bit number is refused, also where its next
    multiple is the epoch itself. -/
theorem interval_is_cut_to_milliseconds :
    periodicBoundary 0 1500000 = .ok 1000000 ∧ ¬ (1500000 : ℤ) ∣ 1000000 ∧
      Follows ((2 ^ 63 * 1000000 : ℕ) : ℤ) (floorMillis (-1)) 0 ∧ Representable 0 ∧
      periodicBoundary (-1) (2 ^ 63 * 1000000) =
        .error (.invalidSchedule "periodic interval exceeds the supported range") := by
  refine ⟨by decide, by decide, (follows_iff (by decide)).mpr (by decide), by decide, by decide⟩

end Vyuh.Emitters
