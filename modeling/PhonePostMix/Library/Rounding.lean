import Mathlib.Algebra.Order.Round
import Mathlib.Data.Int.ConditionallyCompleteOrder
import Mathlib.Tactic.FieldSimp
import Mathlib.Tactic.Linarith
import Mathlib.Tactic.Ring

/-! Rounding to the nearest integer, halves away from zero, and the numbers of a fixed scale that
it gives for values between minus one and one. -/

namespace Rounding

section Clamp
variable {K : Type*} [LinearOrder K]

def clamp (x lo hi : K) : K := if x < lo then lo else if hi < x then hi else x

theorem clamp_mem {lo hi : K} (h : lo ≤ hi) (x : K) : lo ≤ clamp x lo hi ∧ clamp x lo hi ≤ hi := by
  unfold clamp
  split_ifs with hlo hhi
  · exact ⟨le_rfl, h⟩
  · exact ⟨h, le_rfl⟩
  · exact ⟨not_lt.mp hlo, not_lt.mp hhi⟩

theorem clamp_eq {lo hi : K} (h : lo ≤ hi) (x : K) : clamp x lo hi = max lo (min x hi) := by
  unfold clamp
  split_ifs with hlo hhi
  · rw [max_eq_left ((min_le_left x hi).trans hlo.le)]
  · rw [min_eq_right hhi.le, max_eq_right h]
  · rw [min_eq_left (not_lt.mp hhi), max_eq_right (not_lt.mp hlo)]

theorem clamp_mono {lo hi : K} (h : lo ≤ hi) : Monotone fun x => clamp x lo hi := by
  intro x y hxy
  simp only [clamp_eq h]
  exact max_le_max_left lo (min_le_min_right hi hxy)

end Clamp

variable {K : Type*} [Field K] [LinearOrder K] [IsStrictOrderedRing K] [FloorRing K]

def halfAway (x : K) : ℤ :=
  -- the nearest integer, the one further from zero when two are as near
  if 0 ≤ x then round x else -round (-x)

theorem round_nonneg {x : K} (h : 0 ≤ x) : 0 ≤ round x := by
  rw [round_eq]
  exact Int.floor_nonneg.mpr (by positivity)

theorem round_le_round {x y : K} (h : x ≤ y) : round x ≤ round y := by
  rw [round_eq, round_eq]
  exact Int.floor_le_floor (by linarith)

theorem halfAway_neg (x : K) : halfAway (-x) = -halfAway x := by
  unfold halfAway
  rcases lt_trichotomy x 0 with hneg | rfl | hpos
  · rw [if_pos (by linarith), if_neg (not_le.mpr hneg), neg_neg]
  · simp
  · rw [if_neg (by linarith), if_pos hpos.le, neg_neg]

theorem halfAway_mono : Monotone (halfAway : K → ℤ) := by
  intro x y h
  unfold halfAway
  split_ifs with hx hy hy
  · exact round_le_round h
  · exact absurd (hx.trans h) hy
  · have hleft := round_nonneg (neg_nonneg.mpr (not_le.mp hx).le)
    have hright := round_nonneg hy
    omega
  · exact neg_le_neg (round_le_round (neg_le_neg h))

theorem abs_halfAway_sub_le (x : K) : |(halfAway x : K) - x| ≤ 1 / 2 := by
  unfold halfAway
  split_ifs
  · rw [abs_sub_comm]
    exact abs_sub_round x
  · have h := abs_sub_round (-x)
    push_cast
    rwa [sub_eq_add_neg, add_comm, ← sub_eq_add_neg]

@[simp] theorem halfAway_intCast (n : ℤ) : halfAway (n : K) = n := by
  unfold halfAway
  split_ifs
  · exact round_intCast n
  · rw [← Int.cast_neg, round_intCast, neg_neg]

theorem clamp_neg {b : K} (h : 0 ≤ b) (x : K) : clamp (-x) (-b) b = -clamp x (-b) b := by
  unfold clamp
  split_ifs <;> linarith

section Quantise
variable (scale : ℕ)

def quantise (x : K) : ℤ := halfAway (clamp x (-1) 1 * scale)

theorem quantise_mono : Monotone (quantise scale : K → ℤ) := fun _ _ h =>
  halfAway_mono (mul_le_mul_of_nonneg_right (clamp_mono (by norm_num) h) (Nat.cast_nonneg _))

theorem quantise_neg (x : K) : quantise scale (-x) = -quantise scale x := by
  rw [quantise, clamp_neg zero_le_one, neg_mul, halfAway_neg, quantise]

theorem abs_quantise_le (x : K) : |quantise scale x| ≤ scale := by
  obtain ⟨hlo, hhi⟩ := clamp_mem (by norm_num : (-1 : K) ≤ 1) x
  have hscale : (0 : K) ≤ scale := Nat.cast_nonneg _
  have hmin : halfAway (((-scale : ℤ)) : K) ≤ quantise scale x :=
    halfAway_mono (by push_cast; nlinarith)
  have hmax : quantise scale x ≤ halfAway ((scale : ℤ) : K) :=
    halfAway_mono (by push_cast; nlinarith)
  rw [halfAway_intCast] at hmin hmax
  exact abs_le.mpr ⟨hmin, hmax⟩

theorem abs_quantise_div_sub_le (h : 0 < scale) (x : K) :
    |(quantise scale x : K) / scale - clamp x (-1) 1| ≤ 1 / (2 * scale) := by
  have hscale : (0 : K) < scale := Nat.cast_pos.mpr h
  have hround := abs_halfAway_sub_le (clamp x (-1) 1 * scale)
  have hdiv : (quantise scale x : K) / scale - clamp x (-1) 1 =
      (quantise scale x - clamp x (-1) 1 * scale) / scale := by
    field_simp
  rw [hdiv, abs_div, abs_of_pos hscale, ← div_div]
  exact div_le_div_of_nonneg_right hround hscale.le

end Quantise
end Rounding
