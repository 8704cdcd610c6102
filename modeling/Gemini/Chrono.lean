/-
`std::chrono` as the programs use it. A time point is a signed 64-bit number of nanoseconds and the
difference of two wraps around; `duration_cast` truncates toward zero. Durations in milliseconds
are exact rationals.
-/
import Mathlib.Tactic

namespace Gemini

/-- Signed 64-bit wrap-around. -/
def wrap64 (x : ℤ) : ℤ := x.bmod (2 ^ 64)

namespace TimePoint

/-- `timepoint_t::max()`. -/
def max : ℤ := 2 ^ 63 - 1

/-- `timepoint_t::min()`. -/
def min : ℤ := -2 ^ 63

end TimePoint

/-- `b - a` of two time points. -/
def since (a b : ℤ) : ℤ := wrap64 (b - a)

/-- `duration_cast<microseconds>(d).count() / 1e3`. -/
def toMs (d : ℤ) : ℚ := (d.tdiv 1000 : ℤ) / 1000

/-- `duration_cast<milliseconds>(d).count()`. -/
def wholeMs (d : ℤ) : ℤ := d.tdiv 1000000

/-- No wrap-around when the difference fits. -/
theorem since_of_le {a b : ℤ} (h : a ≤ b) (hmax : b - a ≤ TimePoint.max) : since a b = b - a := by
  unfold TimePoint.max at hmax
  exact Int.bmod_eq_of_le (by norm_num; omega) (by norm_num; omega)

/-- No wrap-around between two readings of a clock that started at zero. -/
theorem since_eq {a b : ℤ} (ha : 0 ≤ a) (ha' : a ≤ TimePoint.max) (hb : 0 ≤ b) (hb' : b ≤ TimePoint.max) :
    since a b = b - a := by
  unfold TimePoint.max at ha' hb'
  exact Int.bmod_eq_of_le (by norm_num; omega) (by norm_num; omega)

theorem toMs_mono {a b : ℤ} (h : a ≤ b) : toMs a ≤ toMs b := by
  unfold toMs
  have : ((a.tdiv 1000 : ℤ) : ℚ) ≤ (b.tdiv 1000 : ℤ) := by exact_mod_cast Int.tdiv_le_tdiv (by norm_num) h
  linarith

end Gemini
