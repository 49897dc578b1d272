import Mathlib.Algebra.Order.Field.Basic
import Mathlib.Algebra.Order.Floor.Semiring
import Mathlib.Tactic.Linarith
import Mathlib.Tactic.Ring

/-! A playhead that moves through a queue by fractions of an item: whole steps are paid out of the
queue, which keeps its last item, and what cannot be paid stays owed. And a controller to steer it,
with a proportional part and an integral that is clamped against windup. -/

/-- `phase` is what is owed, `fill` what the queue holds, and `starved` whether the last step
could not be paid. -/
structure Playhead (K : Type*) where
  phase : K
  fill : ℕ
  starved : Bool

namespace Playhead
variable {K : Type*} [Field K] [LinearOrder K] [IsStrictOrderedRing K] [FloorSemiring K]

def pay (p : Playhead K) : Playhead K where
  phase := p.phase - (min ⌊p.phase⌋₊ (p.fill - 1) : ℕ)
  fill := p.fill - min ⌊p.phase⌋₊ (p.fill - 1)
  starved := if p.fill - 1 < ⌊p.phase⌋₊ then true else p.starved && ⌊p.phase⌋₊ = 0

def advance (ratio : K) (p : Playhead K) : Playhead K :=
  { p.pay with phase := p.pay.phase + ratio }

def starvation (ratio : K) : ℕ → Playhead K → List Bool
  | 0, _ => []
  | n + 1, p => p.pay.starved :: starvation ratio n (p.advance ratio)

variable {p : Playhead K} {ratio : K}

omit [IsStrictOrderedRing K] in
theorem pay_fill_pos (h : 1 ≤ p.fill) : 1 ≤ p.pay.fill := by
  simp only [pay]
  omega

omit [IsStrictOrderedRing K] in
theorem pay_balance (h : 1 ≤ p.fill) :
    p.pay.phase - (p.pay.fill : K) = p.phase - (p.fill : K) := by
  have hle : min ⌊p.phase⌋₊ (p.fill - 1) ≤ p.fill := by omega
  simp only [pay, Nat.cast_sub hle]
  ring

theorem pay_phase_nonneg (h : 0 ≤ p.phase) : 0 ≤ p.pay.phase := by
  have hpaid : ((min ⌊p.phase⌋₊ (p.fill - 1) : ℕ) : K) ≤ (⌊p.phase⌋₊ : ℕ) :=
    Nat.cast_le.mpr (Nat.min_le_left _ _)
  exact sub_nonneg.mpr (hpaid.trans (Nat.floor_le h))

theorem pay_of_lt_one (h : p.phase < 1) : p.pay = p := by
  have hfloor : ⌊p.phase⌋₊ = 0 := Nat.floor_eq_zero.mpr h
  simp only [pay, hfloor, Nat.zero_min, Nat.cast_zero, sub_zero, Nat.sub_zero, Nat.not_lt_zero,
    if_false, decide_true, Bool.and_true]

theorem pay_of_last (h : 1 ≤ p.phase) (hfill : p.fill ≤ 1) :
    p.pay = { p with starved := true } := by
  have howed : 0 < ⌊p.phase⌋₊ := (Nat.one_le_floor_iff _).mpr h
  have hnone : p.fill - 1 = 0 := by omega
  simp only [pay, hnone, Nat.min_zero, Nat.cast_zero, sub_zero, Nat.sub_zero, if_pos howed]

theorem pay_step (h : 1 ≤ p.phase) (hfill : 2 ≤ p.fill) :
    pay ⟨p.phase - 1, p.fill - 1, false⟩ = p.pay := by
  have hfloor : ⌊p.phase - 1⌋₊ = ⌊p.phase⌋₊ - 1 := Nat.floor_sub_one p.phase
  have hone : 1 ≤ ⌊p.phase⌋₊ := (Nat.one_le_floor_iff _).mpr h
  have hmin : min ⌊p.phase⌋₊ (p.fill - 1) =
      min (⌊p.phase⌋₊ - 1) (p.fill - 1 - 1) + 1 := by omega
  simp only [pay, hfloor, hmin]
  refine congr (congrArg₂ mk ?_ ?_) ?_
  · push_cast
    ring
  · omega
  · have howed : (p.fill - 1 - 1 < ⌊p.phase⌋₊ - 1) = (p.fill - 1 < ⌊p.phase⌋₊) := by
      apply propext
      omega
    simp only [howed, Bool.false_and]
    split_ifs
    · rfl
    · simp [Nat.ne_of_gt hone]

theorem pay_starved_iff (h : 0 ≤ p.phase) (hfill : 1 ≤ p.fill) :
    p.pay.starved = false ↔ p.phase < p.fill ∧ (p.starved = true → 1 ≤ p.phase) := by
  have hpaid : p.phase < (p.fill : K) ↔ ¬ p.fill - 1 < ⌊p.phase⌋₊ := by
    rw [← Nat.floor_lt h]
    omega
  have hone : 1 ≤ p.phase ↔ ⌊p.phase⌋₊ ≠ 0 := by
    rw [← Nat.one_le_floor_iff]
    omega
  rw [hpaid, hone]
  simp only [pay]
  split_ifs with howed
  · simp [howed]
  · cases p.starved <;> simp [howed]

theorem starvation_none_iff (hratio : 0 ≤ ratio) (n : ℕ) (h : 0 ≤ p.phase) (hfill : 1 ≤ p.fill) :
    (∀ b ∈ starvation ratio n p, b = false) ↔
      n = 0 ∨ p.phase + (n - 1 : K) * ratio < p.fill ∧ (p.starved = true → 1 ≤ p.phase) := by
  induction n generalizing p with
  | zero => simp [starvation]
  | succ n ih =>
    have hbalance := pay_balance hfill
    have hfirst := pay_starved_iff h hfill
    have hrest := ih (p := p.advance ratio) (add_nonneg (pay_phase_nonneg h) hratio)
      (pay_fill_pos hfill)
    have hsplit : (n : K) * ratio = ratio + (n - 1 : K) * ratio := by ring
    have hlast : ((n + 1 : ℕ) - 1 : K) * ratio = n * ratio := by
      rw [Nat.cast_succ, add_sub_cancel_right]
    have hgrow : 0 ≤ (n : K) * ratio := mul_nonneg n.cast_nonneg hratio
    rw [starvation, List.forall_mem_cons, hrest, hfirst, hlast]
    simp only [advance]
    constructor
    · rintro ⟨⟨hnow, hstale⟩, hzero | ⟨hlater, -⟩⟩
      · subst hzero
        exact .inr ⟨by simpa using hnow, hstale⟩
      · exact .inr ⟨by linarith, hstale⟩
    · rintro (hzero | ⟨hlater, hstale⟩)
      · exact absurd hzero n.succ_ne_zero
      · have hnow : p.phase < p.fill := by linarith
        refine ⟨⟨hnow, hstale⟩, .inr ⟨by linarith, fun hstarved => ?_⟩⟩
        rw [hfirst.mpr ⟨hnow, hstale⟩] at hstarved
        exact absurd hstarved (by decide)

def after (ratio : K) (n : ℕ) (p : Playhead K) : Playhead K := (advance ratio)^[n] p

theorem after_balance (n : ℕ) (hfill : 1 ≤ p.fill) :
    1 ≤ (after ratio n p).fill ∧ (after ratio n p).fill ≤ p.fill ∧
      (after ratio n p).phase - ((after ratio n p).fill : K) =
        p.phase - (p.fill : K) + n * ratio := by
  induction n generalizing p with
  | zero => simp [after, hfill]
  | succ n ih =>
    obtain ⟨hpos, hle, hbalance⟩ := ih (p := p.advance ratio) (pay_fill_pos hfill)
    have hpay := pay_balance hfill
    rw [after, Function.iterate_succ_apply]
    refine ⟨hpos, hle.trans (Nat.sub_le _ _), hbalance.trans ?_⟩
    simp only [advance]
    push_cast
    linarith

end Playhead

namespace Feedback
variable {K : Type*} [Field K] [LinearOrder K] [IsStrictOrderedRing K]

def clamp (bound x : K) : K := max (-bound) (min bound x)

def response (proportional integral err windup : K) : K := proportional * err + integral * windup

variable {bound x : K}

theorem abs_clamp_le (h : 0 ≤ bound) (x : K) : |clamp bound x| ≤ bound :=
  abs_le.mpr ⟨le_max_left _ _, max_le (by linarith) (min_le_left _ _)⟩

theorem clamp_of_abs_le (h : |x| ≤ bound) : clamp bound x = x := by
  obtain ⟨hlow, hhigh⟩ := abs_le.mp h
  rw [clamp, min_eq_right hhigh, max_eq_right hlow]

section Response
variable {proportional integral err windup E W : K}

theorem abs_response_le (hproportional : 0 ≤ proportional) (hintegral : 0 ≤ integral)
    (herr : |err| ≤ E) (hwindup : |windup| ≤ W) :
    |response proportional integral err windup| ≤ proportional * E + integral * W := by
  calc |proportional * err + integral * windup|
      ≤ |proportional * err| + |integral * windup| := abs_add_le _ _
    _ = proportional * |err| + integral * |windup| := by
        rw [abs_mul, abs_mul, abs_of_nonneg hproportional, abs_of_nonneg hintegral]
    _ ≤ proportional * E + integral * W :=
        add_le_add (mul_le_mul_of_nonneg_left herr hproportional)
          (mul_le_mul_of_nonneg_left hwindup hintegral)

theorem lt_of_lt_abs_response (hproportional : 0 ≤ proportional) (hintegral : 0 ≤ integral)
    (hwindup : |windup| ≤ W) (h : bound < |response proportional integral err windup|) :
    bound - integral * W < proportional * |err| := by
  have hresponse := abs_response_le hproportional hintegral (le_refl |err|) hwindup
  linarith

end Response

end Feedback
