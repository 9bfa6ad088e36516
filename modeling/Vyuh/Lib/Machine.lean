import Mathlib

/-! Machine arithmetic and clocks. Fixed-width integers are `ℤ` (or `ℕ` for the unsigned ones) with
    the checked and saturating operations written out; an instant is a number of nanoseconds since
    the Unix epoch, a duration a number of nanoseconds. The ranges are those of the Rust standard
    library and of `chrono`. -/

namespace Lib

def i32Max : ℤ := 2 ^ 31 - 1
def i32Min : ℤ := -2 ^ 31
def i64Max : ℤ := 2 ^ 63 - 1
def i64Min : ℤ := -2 ^ 63
def i128Max : ℤ := 2 ^ 127 - 1
def i128Min : ℤ := -2 ^ 127
def usizeMax : ℕ := 2 ^ 64 - 1
def u64Max : ℕ := 2 ^ 64 - 1

/-- `checked_add` on a signed type with the given bounds. -/
def checkedAdd (lo hi a b : ℤ) : Option ℤ :=
  if lo ≤ a + b ∧ a + b ≤ hi then some (a + b) else none

/-- `i32::checked_add`. -/
def checkedAdd32 (a b : ℤ) : Option ℤ := checkedAdd i32Min i32Max a b

/-- `i64::checked_add`. -/
def checkedAdd64 (a b : ℤ) : Option ℤ := checkedAdd i64Min i64Max a b

/-- `i32::checked_sub`. -/
def checkedSub32 (a b : ℤ) : Option ℤ := checkedAdd i32Min i32Max a (-b)

/-- Clamps into a signed type: the value of a saturating operation. -/
def saturate (lo hi a : ℤ) : ℤ := max lo (min hi a)

def saturate64 (a : ℤ) : ℤ := saturate i64Min i64Max a
def saturate128 (a : ℤ) : ℤ := saturate i128Min i128Max a

/-- `n as i32`: the low 32 bits, read as a signed number. -/
def asI32 (n : ℕ) : ℤ := Int.bmod n (2 ^ 32)

/-- `usize::checked_add`. -/
def checkedAddUsize (a b : ℕ) : Option ℕ := if a + b ≤ usizeMax then some (a + b) else none

/-- `usize::saturating_add`. -/
def saturatingAddUsize (a b : ℕ) : ℕ := min (a + b) usizeMax

/-- `usize::saturating_mul`. -/
def saturatingMulUsize (a b : ℕ) : ℕ := min (a * b) usizeMax

/-- `usize` subtraction, `none` where it would underflow. -/
def checkedSubUsize (a b : ℕ) : Option ℕ := if b ≤ a then some (a - b) else none

theorem checkedSubUsize_of_le {a b : ℕ} (h : b ≤ a) : checkedSubUsize a b = some (a - b) := if_pos h

/-- `u64::wrapping_add`. -/
def wrappingAddU64 (a b : ℕ) : ℕ := (a + b) % 2 ^ 64

/-- Nanoseconds since the Unix epoch, UTC. -/
abbrev DateTime := ℤ

/-- Nanoseconds. -/
abbrev Duration := ℕ

namespace Duration

def zero : Duration := 0
def ofSecs (s : ℕ) : Duration := s * 1000000000
def asMicros (d : Duration) : ℕ := d / 1000

/-- `Duration::MAX`: `u64::MAX` seconds and 999 999 999 nanoseconds. -/
def maxValue : Duration := u64Max * 1000000000 + 999999999

/-- `Duration::saturating_mul`. -/
def saturatingMul (d : Duration) (k : ℕ) : Duration := min (d * k) maxValue

end Duration

/-- The first instant `chrono` represents: -262143-01-01T00:00:00Z. -/
def minUtc : DateTime := -8334601228800 * 1000000000

/-- The last instant `chrono` represents: +262142-12-31T23:59:59.999999999Z. -/
def maxUtc : DateTime := 8210266876799 * 1000000000 + 999999999

/-- The largest `chrono::Duration`: `i64::MAX` milliseconds. -/
def maxTimeDelta : Duration := (2 ^ 63 - 1) * 1000000

/-- `chrono::Duration::from_std`. -/
def fromStd (d : Duration) : Option Duration := if d ≤ maxTimeDelta then some d else none

/-- `DateTime::checked_add_signed` for a nonnegative duration. -/
def checkedAddSigned (t : DateTime) (d : Duration) : Option DateTime :=
  if t + d ≤ maxUtc then some (t + d) else none

/-- `DateTime::checked_sub_signed` for a nonnegative duration. -/
def checkedSubSigned (t : DateTime) (d : Duration) : Option DateTime :=
  if minUtc ≤ t - d then some (t - d) else none

/-- `TimeDelta::to_std().ok()`: a negative difference has no standard duration. -/
def toStd (delta : ℤ) : Option Duration := if 0 ≤ delta then some delta.toNat else none

theorem checkedAdd32_some {a b c : ℤ} (h : checkedAdd32 a b = some c) : c = a + b := by
  simp only [checkedAdd32, checkedAdd] at h
  split at h
  · exact (Option.some.inj h).symm
  · exact absurd h (by simp)

theorem checkedAdd64_some {a b c : ℤ} (h : checkedAdd64 a b = some c) : c = a + b := by
  simp only [checkedAdd64, checkedAdd] at h
  split at h
  · exact (Option.some.inj h).symm
  · exact absurd h (by simp)

end Lib
