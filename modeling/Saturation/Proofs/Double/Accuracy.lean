import Saturation.Proofs.Double.Monotone

/-!
How far rounding goes. The nearest double is within half a step of a value, which is a fixed part of
the value or of the least step; from half a step above the largest double on, values are rounded to
infinity.
-/

set_option autoImplicit false

namespace Saturation.Double

open Exact (number)
open Float.Model (UnpackedFloat)

/-! ### Half a step -/

theorem Rounds.abs_sub_le {x : ℚ} {n : Nat} (h : Rounds x n) : |(n : ℚ) - x| ≤ 1 / 2 :=
  abs_le.mpr ⟨by linarith [h.upper], by linarith [h.lower]⟩

theorem IsStep.half_le {x : ℚ} {t : Int} (h : IsStep x t) (h0 : 0 ≤ x) :
    (2 : ℚ) ^ (t - 1) ≤ x * 2 ^ (-53 : Int) + 2 ^ (-1075 : Int) := by
  rcases h.ge with rfl | hge
  · exact le_add_of_nonneg_left (mul_nonneg h0 (two_zpow_pos _).le)
  · have hpart : (2 : ℚ) ^ (t - 1) = 2 ^ (t + 52) * 2 ^ (-53 : Int) := by
      rw [← zpow_add₀ two_ne_zero]
      congr 1
      omega
    rw [hpart]
    exact le_add_of_le_of_nonneg (mul_le_mul_of_nonneg_right hge (two_zpow_pos _).le)
      (two_zpow_pos _).le

theorem IsNearest.abs_sub_le {x : ℚ} {m : Nat} {q : Int} (h : IsNearest x m q) (h0 : 0 ≤ x) :
    |(m : ℚ) * 2 ^ q - x| ≤ x * 2 ^ (-53 : Int) + 2 ^ (-1075 : Int) := by
  obtain ⟨-, t, n, ht, hn, hm⟩ := h
  have hscale : (n : ℚ) * 2 ^ t - x = (n - x / 2 ^ t) * 2 ^ t := by
    rw [sub_mul, div_mul_cancel₀ _ (two_zpow_pos t).ne']
  calc |(m : ℚ) * 2 ^ q - x| = |(n : ℚ) - x / 2 ^ t| * 2 ^ t := by
        rw [hm, hscale, abs_mul, abs_of_pos (two_zpow_pos t)]
    _ ≤ 1 / 2 * 2 ^ t := mul_le_mul_of_nonneg_right hn.abs_sub_le (two_zpow_pos t).le
    _ = 2 ^ (t - 1) := by rw [zpow_sub_one₀ two_ne_zero, mul_comm, one_div]
    _ ≤ x * 2 ^ (-53 : Int) + 2 ^ (-1075 : Int) := ht.half_le h0

/-! ### Infinity -/

/-- The least value that is rounded to infinity, half a step above the largest double. -/
def overflow : ℚ := 2 ^ 1024 - 2 ^ 970

theorem overflow_eq : overflow = (2 ^ 53 - 1 / 2) * 2 ^ (971 : Int) := by
  have htop : (2 : ℚ) ^ 1024 = 2 ^ 53 * 2 ^ 971 := pow_add 2 53 971
  have hhalf : (2 : ℚ) ^ 970 = 1 / 2 * 2 ^ 971 := by
    rw [pow_succ 2 970, mul_comm, mul_assoc, mul_one_div_cancel two_ne_zero, mul_one]
  rw [overflow, htop, hhalf, ← sub_mul]
  rfl

theorem two_zpow_le_overflow {k : Int} (h : k ≤ 1023) : (2 : ℚ) ^ k ≤ overflow := by
  refine (zpow_le_zpow_right₀ one_le_two h).trans ?_
  rw [overflow_eq, show (1023 : Int) = 52 + 971 from rfl, zpow_add₀ two_ne_zero]
  exact mul_le_mul_of_nonneg_right (by norm_num) (two_zpow_pos 971).le

theorem isNearest_overflow : IsNearest overflow leastNormal 972 := by
  have hstep : overflow / 2 ^ (971 : Int) = 2 ^ 53 - 1 / 2 := by
    rw [overflow_eq, mul_div_cancel_right₀ _ (two_zpow_pos 971).ne']
  refine ⟨⟨by decide, by decide, .inl le_rfl⟩, 971, 2 ^ 53, ⟨by decide, ?_, .inr ?_⟩, ?_, ?_⟩
  · rw [show (971 + 53 : Int) = 971 + (53 : Nat) from rfl, div_step, hstep]
    norm_num
  · exact two_zpow_le_overflow le_rfl
  · rw [hstep]
    exact ⟨by norm_num, by norm_num, fun _ => by decide⟩
  · rw [show (972 : Int) = 971 + 1 from rfl, zpow_add_one₀ two_ne_zero, leastNormal]
    generalize (2 : ℚ) ^ (971 : Int) = step
    norm_num
    ring

theorem IsNearest.overflow_le_iff {x : ℚ} {m : Nat} {q : Int} (h : IsNearest x m q) :
    overflow ≤ x ↔ greatestExponent < q := by
  constructor
  · intro hx
    have hle := (isNearest_overflow.canonical.le_iff h.canonical).mp (isNearest_overflow.mono h hx)
    simp only [greatestExponent]
    omega
  · intro hq
    by_contra hx
    have hlt := not_le.mp hx
    obtain ⟨hc, t, n, ht, hn, hm⟩ := h
    -- The double is a power of two at least, which a smaller step does not reach.
    have hlarge : (2 : ℚ) ^ (1024 : Int) ≤ n * 2 ^ t := by
      have hq' : (972 : Int) ≤ q := hq
      have hnormal : (2 : ℚ) ^ (52 : Int) ≤ m := by
        have := hc.normal.resolve_right (by simp only [leastExponent]; omega)
        exact_mod_cast this
      rw [← hm]
      calc (2 : ℚ) ^ (1024 : Int) = 2 ^ (52 : Int) * 2 ^ (972 : Int) := by
            rw [← zpow_add₀ two_ne_zero]
            rfl
        _ ≤ m * 2 ^ q := mul_le_mul hnormal (zpow_le_zpow_right₀ one_le_two hq')
            (two_zpow_pos _).le m.cast_nonneg
    have hstep : t ≤ 971 := by
      by_contra hlarger
      have hge := ht.ge.resolve_left (by simp only [leastExponent]; omega)
      have : (2 : ℚ) ^ (1024 : Int) ≤ 2 ^ (t + 52) := zpow_le_zpow_right₀ one_le_two (by omega)
      have hbelow : overflow < 2 ^ (1024 : Int) := by norm_num [overflow]
      linarith
    have hround : (n : ℚ) * 2 ^ t - 2 ^ (t - 1) ≤ x := by
      have hhalf : (2 : ℚ) ^ (t - 1) = 1 / 2 * 2 ^ t := by
        rw [zpow_sub_one₀ two_ne_zero, mul_comm, one_div]
      rw [hhalf, ← sub_mul, ← le_div_iff₀ (two_zpow_pos t)]
      exact hn.lower
    have : (2 : ℚ) ^ (t - 1) ≤ 2 ^ (970 : Int) := zpow_le_zpow_right₀ one_le_two (by omega)
    have hoverflow : overflow = 2 ^ (1024 : Int) - 2 ^ (970 : Int) := rfl
    linarith

/-- The values of finite doubles without a sign. -/
def IsHeld (v : ℚ) : Prop :=
  ∃ (m : Nat) (q : Int), IsCanonical m q ∧ q ≤ greatestExponent ∧ (m : ℚ) * 2 ^ q = v

theorem isHeld_natCast {n : Nat} (h : n < 2 ^ 53) : IsHeld n := exists_canonical h

/-- A number of up to 53 bits is held at every binary place down to the least normal double. -/
theorem isHeld_binary {n : Nat} (h : n < 2 ^ 53) {e : Int} (hle : leastExponent + 52 ≤ e)
    (hge : e ≤ greatestExponent) : IsHeld (n * 2 ^ e) := by
  rcases Nat.eq_zero_or_pos n with rfl | hn
  · exact ⟨0, leastExponent, isCanonical_zero, by decide, by simp⟩
  · obtain ⟨m, q, hc, hq, hvalue⟩ := exists_canonical_shift hn h hle
    exact ⟨m, q, hc, hq.trans hge, hvalue⟩

namespace IsNearestTo

variable {x : Float} {v u : ℚ}

theorem isAmount (h : IsNearestTo x v) (hv : v < overflow) : IsAmount x := by
  rcases isAmount_or_infinite h.isNonneg with hx | hx
  · exact hx
  · obtain ⟨s, m, q, hm, -, hread⟩ := h
    rw [held_of_le (not_lt.mp fun hq => not_le.mpr hv (hm.overflow_le_iff.mpr hq)), hx] at hread
    cases hread

theorem infinite (h : IsNearestTo x v) (hv : overflow ≤ v) : ofFloat x = .infinite false := by
  obtain ⟨s, m, q, hm, hs, hread⟩ := h
  have hq := hm.overflow_le_iff.mp hv
  rw [hread, held, if_pos hq]
  cases s
  · rfl
  · -- A zero does not overflow.
    have := hm.canonical.normal
    simp only [hs rfl, leastNormal, leastExponent, greatestExponent] at this hq
    omega

theorem abs_sub_le (h : IsNearestTo x v) (h0 : 0 ≤ v) (hx : HasValue x u) :
    |u - v| ≤ v * 2 ^ (-53 : Int) + 2 ^ (-1075 : Int) := by
  obtain ⟨s, m, q, hm, -, hread⟩ := h
  obtain ⟨t, n, r, hread', -, rfl⟩ := hx.finite
  have hsame : m = n ∧ q = r := by
    rw [hread', held] at hread
    split at hread
    · cases hread
    · cases hread
      exact ⟨rfl, rfl⟩
  rw [← hsame.1, ← hsame.2]
  exact hm.abs_sub_le h0

/-- What a double holds is not rounded. -/
theorem hasValue (h : IsNearestTo x v) (hv : IsHeld v) : HasValue x v := by
  obtain ⟨s, m, q, hm, hs, hread⟩ := h
  obtain ⟨n, r, hn, hr, rfl⟩ := hv
  obtain ⟨rfl, rfl⟩ := hm.exact hn rfl
  rw [held_of_le hr] at hread
  refine ⟨?_, mul_nonneg m.cast_nonneg (two_zpow_pos q).le⟩
  rw [Exact.ofFloat, hread, exact_finite hs]

end IsNearestTo

/-! ### Whole parts -/

theorem toNat_truncate {x : Float} {v : ℚ} (h : HasValue x v) :
    (Scalar.truncate x).toNat = min ⌊v⌋₊ 0xFFFFFFFFFFFFFFFF := by
  rw [truncate_eq, h.eq, Exact.toNat_truncate]
  rfl

theorem abs_floor_sub_lt {x y e : ℚ} (hx : 0 ≤ x) (hy : 0 ≤ y) (h : |x - y| ≤ e) :
    |(⌊x⌋₊ : ℚ) - ⌊y⌋₊| < 1 + e := by
  obtain ⟨hlower, hupper⟩ := abs_le.mp h
  have hx1 := Nat.floor_le hx
  have hx2 := Nat.lt_floor_add_one x
  have hy1 := Nat.floor_le hy
  have hy2 := Nat.lt_floor_add_one y
  exact abs_lt.mpr ⟨by linarith, by linarith⟩

/-- Cutting off a number at a limit brings it no farther from what is within the limit. -/
theorem abs_min_sub_lt {a b m : Nat} {e : ℚ} (hb : b ≤ m) (h : |(a : ℚ) - b| < e) :
    |((min a m : Nat) : ℚ) - b| < e := by
  rcases le_total a m with ham | ham
  · rwa [min_eq_left ham]
  · have hbm : (b : ℚ) ≤ m := Nat.cast_le.mpr hb
    have hma : (m : ℚ) ≤ a := Nat.cast_le.mpr ham
    rw [min_eq_right ham, abs_of_nonneg (sub_nonneg.mpr hbm)]
    rw [abs_of_nonneg (sub_nonneg.mpr (hbm.trans hma))] at h
    linarith

/-- What is not negative is not below zero. -/
theorem not_lt_zero {x : Float} (h : Scalar.IsNonneg x) : ¬ x < 0.0 := by
  intro hlt
  have hmodel : x.toModel.unpack.lt (0.0 : Float).toModel.unpack = true := of_decide_eq_true hlt
  rcases isNonneg_cases h with hx | ⟨s, m, q, hx, hs⟩
  · rw [unpack_of_infinite hx] at hmodel
    cases hmodel
  · rcases unpack_cases hx with ⟨hzero, -⟩ | ⟨hm, hfinite⟩
    · rw [hzero] at hmodel
      cases s <;> cases hmodel
    · obtain rfl : s = false := by
        cases s
        · rfl
        · exact absurd (hs rfl) hm.ne'
      rw [hfinite] at hmodel
      cases hmodel

end Saturation.Double
