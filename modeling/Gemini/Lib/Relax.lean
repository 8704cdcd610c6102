/-
Exponential averages with bounds: at every step the value moves by a fixed fraction toward the input
and is then limited to an interval, the upper bound last, so that the interval may be inverted. Two
values fed the same inputs approach each other by the remaining fraction at every step, and the limited
input is the value that stays where it is.
-/
import Mathlib.Tactic

namespace Gemini.Lib

section

variable {K : Type*} [LinearOrder K]

/-- Limited from below and then from above. -/
def clamp (lo hi x : K) : K := min (max x lo) hi

theorem clamp_le (lo hi x : K) : clamp lo hi x ≤ hi := min_le_right _ _

theorem le_clamp (lo hi x : K) : min lo hi ≤ clamp lo hi x := min_le_min_right hi (le_max_right x lo)

end

variable {K : Type*} [Field K] [LinearOrder K] {r lo hi p q b : K}

/-- One step of the average, at rate `r`. -/
def relax (r lo hi q b : K) : K := clamp lo hi (b * r + q * (1 - r))

variable [IsStrictOrderedRing K]

/-- Limiting does not move two values apart. -/
theorem abs_clamp_sub_le (lo hi p q : K) : |clamp lo hi p - clamp lo hi q| ≤ |p - q| := by
  have h := abs_min_sub_min_le_max (max p lo) hi (max q lo) hi
  rw [sub_self, abs_zero, max_eq_left (abs_nonneg (max p lo - max q lo))] at h
  exact h.trans (abs_max_sub_max_le_abs p q lo)

/-- A mean of a value and its limited value has the same limited value. -/
theorem clamp_mean (h0 : 0 ≤ r) : clamp lo hi (b * r + clamp lo hi b * (1 - r)) = clamp lo hi b := by
  have hmean (x : K) (hx : b ≤ x) : b * r + x * (1 - r) ≤ x := by
    nlinarith [mul_nonneg h0 (sub_nonneg.2 hx)]
  have hmean' (x : K) (hx : x ≤ b) : x ≤ b * r + x * (1 - r) := by
    nlinarith [mul_nonneg h0 (sub_nonneg.2 hx)]
  unfold clamp
  rcases le_total hi lo with hinv | hord
  · rw [min_eq_right (hinv.trans (le_max_right b lo)), min_eq_right (hinv.trans (le_max_right _ lo))]
  rcases le_total b lo with hb | hb
  · rw [max_eq_right hb, min_eq_left hord, max_eq_right (hmean lo hb), min_eq_left hord]
  rw [max_eq_left hb]
  rcases le_total b hi with hb' | hb'
  · rw [min_eq_left hb', show b * r + b * (1 - r) = b by ring, max_eq_left hb, min_eq_left hb']
  · rw [min_eq_right hb', min_eq_right ((hmean' hi hb').trans (le_max_left _ lo))]

theorem relax_clamp (h0 : 0 ≤ r) : relax r lo hi (clamp lo hi b) b = clamp lo hi b := clamp_mean h0

/-- One step brings two values together by the fraction that is left of them. -/
theorem abs_relax_sub_le (h1 : r ≤ 1) : |relax r lo hi p b - relax r lo hi q b| ≤ (1 - r) * |p - q| := by
  have hsub : b * r + p * (1 - r) - (b * r + q * (1 - r)) = (1 - r) * (p - q) := by ring
  calc |relax r lo hi p b - relax r lo hi q b|
      ≤ |b * r + p * (1 - r) - (b * r + q * (1 - r))| := abs_clamp_sub_le ..
    _ = (1 - r) * |p - q| := by rw [hsub, abs_mul, abs_of_nonneg (sub_nonneg.2 h1)]

/-- Two values fed the same inputs. -/
theorem abs_foldl_relax_sub_le (h1 : r ≤ 1) (bs : List K) (p q : K) :
    |bs.foldl (relax r lo hi) p - bs.foldl (relax r lo hi) q| ≤ (1 - r) ^ bs.length * |p - q| := by
  induction bs generalizing p q with
  | nil => simp
  | cons b bs ih =>
    calc |(b :: bs).foldl (relax r lo hi) p - (b :: bs).foldl (relax r lo hi) q|
        ≤ (1 - r) ^ bs.length * |relax r lo hi p b - relax r lo hi q b| := ih ..
      _ ≤ (1 - r) ^ bs.length * ((1 - r) * |p - q|) :=
        mul_le_mul_of_nonneg_left (abs_relax_sub_le h1) (pow_nonneg (sub_nonneg.2 h1) _)
      _ = (1 - r) ^ (b :: bs).length * |p - q| := by rw [List.length_cons]; ring

/-- Fed the same input again and again, the value approaches the limited input. -/
theorem abs_foldl_replicate_sub_le (h0 : 0 ≤ r) (h1 : r ≤ 1) (n : ℕ) (q : K) :
    |(List.replicate n b).foldl (relax r lo hi) q - clamp lo hi b| ≤ (1 - r) ^ n * |q - clamp lo hi b| := by
  have hfix : (List.replicate n b).foldl (relax r lo hi) (clamp lo hi b) = clamp lo hi b := by
    induction n with
    | zero => rfl
    | succ n ih => rw [List.replicate_succ, List.foldl_cons, relax_clamp h0, ih]
  have h : |(List.replicate n b).foldl (relax r lo hi) q - (List.replicate n b).foldl (relax r lo hi) (clamp lo hi b)| ≤
      (1 - r) ^ (List.replicate n b).length * |q - clamp lo hi b| := abs_foldl_relax_sub_le h1 ..
  rwa [hfix, List.length_replicate] at h

end Gemini.Lib
