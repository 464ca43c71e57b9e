import Saturation.Fraction
import Saturation.Proofs.Order

/-!
The fraction of a double. A double has the nearest whole number of what it stands for, and taking it
at 64 binary places only moves its exponent, so nothing is rounded before the expansion: the
fraction of a double is that of the value that it stands for.
-/

set_option autoImplicit false

namespace Saturation

open Exact (number infinite undefined)

namespace Double

/-! ### Whole numbers -/

theorem roundHalfUp_eq (m : Nat) (q : Int) : (roundHalfUp m q : Int) = ⌊(m : ℚ) * 2 ^ q + 1 / 2⌋ := by
  cases q with
  | ofNat q =>
    have hvalue : (m : ℚ) * 2 ^ (Int.ofNat q) = (m * 2 ^ q : Nat) := by
      push_cast
      rfl
    rw [hvalue, Int.floor_natCast_add, show ⌊(1 / 2 : ℚ)⌋ = 0 by norm_num, add_zero]
    rfl
  | negSucc q =>
    have hvalue : (m : ℚ) * 2 ^ (Int.negSucc q) + 1 / 2 =
        (m + 2 ^ q : Nat) / (2 ^ (q + 1) : Nat) := by
      rw [zpow_negSucc]
      push_cast
      field_simp
      ring
    rw [hvalue, Rat.floor_natCast_div_natCast]
    rfl

theorem toNat_floor_neg {a : ℚ} (h : 0 ≤ a) : ⌊-a + 1 / 2⌋.toNat = 0 := by
  have hlt : ⌊-a + 1 / 2⌋ < 1 := Int.floor_lt.mpr (by push_cast; linarith)
  omega

/-- A double has the nearest whole number of what it stands for. -/
theorem nearest_eq (x : Float) : Scalar.nearest x = Scalar.nearest (Exact.ofFloat x) := by
  show (ofFloat x).nearest = _
  rw [Exact.ofFloat]
  cases ofFloat x with
  | notANumber => rfl
  | infinite s =>
    cases s
    · simp only [nearest, Exact.ofDouble, Scalar.nearest, Exact.nearest]
    · rfl
  | finite s m q =>
    cases s
    · have h := roundHalfUp_eq m q
      show roundHalfUp m q = ⌊(m : ℚ) * 2 ^ q + 1 / 2⌋.toNat
      omega
    · exact (toNat_floor_neg (mul_nonneg m.cast_nonneg (two_zpow_pos q).le)).symm

/-! ### Comparisons -/

theorem atMost_eq {x y : Float} (hx : ofFloat x ≠ .infinite true) :
    Scalar.atMost x y = Scalar.atMost (Exact.ofFloat x) (Exact.ofFloat y) := by
  rw [Bool.eq_iff_iff, atMost_iff, le_iff hx, Exact.atMost_iff]

theorem below_eq {x y : Float} (hx : ofFloat x ≠ .infinite true) :
    Scalar.below x y = Scalar.below (Exact.ofFloat x) (Exact.ofFloat y) := by
  unfold Scalar.below
  rw [atMost_eq hx]
  by_cases hy : ofFloat y = .infinite true
  · have hnot : Scalar.atMost (Exact.ofFloat x) (Exact.ofFloat y) = false := by
      rw [Bool.eq_false_iff]
      simp [Exact.ofFloat, hy, Exact.ofDouble]
    rw [hnot, Bool.false_and, Bool.false_and]
  · rw [atMost_eq hy]

theorem ofFloat_fixedPoint :
    ofFloat (Scalar.ofNat Fraction.fixedPoint) = .finite false (2 ^ 52) 12 := by decide +kernel

theorem ofFloat_exactLimit :
    ofFloat (Scalar.ofNat Fraction.exactLimit) = .finite false (2 ^ 52) (-12) := by decide +kernel

theorem exact_exactLimit :
    Exact.ofFloat (Scalar.ofNat Fraction.exactLimit) = number Fraction.exactLimit := by
  rw [Exact.ofFloat, ofFloat_exactLimit, Exact.ofDouble, Fraction.exactLimit]
  norm_num

/-! ### Binary places -/

/-- A positive double reads as a mantissa and an exponent of its value. -/
theorem finite_of_pos {x : Float} {a : ℚ} (hx : Exact.ofFloat x = number a) (h0 : 0 < a) :
    ∃ (m : Nat) (q : Int), 0 < m ∧ ofFloat x = .finite false m q ∧ a = m * 2 ^ q := by
  rw [Exact.ofFloat] at hx
  cases h : ofFloat x with
  | notANumber => simp [h, Exact.ofDouble] at hx
  | infinite s => cases s <;> simp [h, Exact.ofDouble] at hx
  | finite s m q =>
    rw [h, Exact.ofDouble, Exact.number.injEq] at hx
    have hpos : (0 : ℚ) ≤ m * 2 ^ q := mul_nonneg m.cast_nonneg (two_zpow_pos q).le
    cases s
    · refine ⟨m, q, ?_, rfl, hx.symm⟩
      rcases Nat.eq_zero_or_pos m with rfl | hm
      · simp only [Bool.false_eq_true, if_false, Nat.cast_zero, zero_mul] at hx
        linarith
      · exact hm
    · simp only [if_true] at hx
      linarith

/-- Below the limit, a value is exact at 64 binary places. -/
theorem exact_mul_fixedPoint {x : Float} {a : ℚ} (hx : Exact.ofFloat x = number a) (h0 : 0 < a)
    (hlimit : a < Fraction.exactLimit) :
    Exact.ofFloat (x * Scalar.ofNat Fraction.fixedPoint) = number (a * Fraction.fixedPoint) := by
  obtain ⟨m, q, hm, hread, rfl⟩ := finite_of_pos hx h0
  obtain ⟨hc, -⟩ := isCanonical_ofFloat hread
  have hfixed : ((2 ^ 52 : Nat) : ℚ) * 2 ^ (12 : Int) = Fraction.fixedPoint := by
    rw [Fraction.fixedPoint]
    norm_num
  obtain ⟨k, r, hk, hproduct⟩ := ofFloat_mul hread ofFloat_fixedPoint
  rw [hfixed] at hk
  -- The product is the same mantissa behind a larger exponent, far from the largest one.
  have hq : q < 40 := by
    have hle : (2 : ℚ) ^ q ≤ m * 2 ^ q :=
      le_mul_of_one_le_left (two_zpow_pos q).le (by exact_mod_cast hm)
    have hlt : (2 : ℚ) ^ q < 2 ^ (40 : Int) :=
      (hle.trans_lt hlimit).trans_eq (by rw [Fraction.exactLimit]; norm_num)
    exact (zpow_lt_zpow_iff_right₀ one_lt_two).mp hlt
  have hlt := hc.lt
  have hle := hc.le
  simp only [leastNormal, leastExponent] at hlt hle
  obtain ⟨n, p, hn, hp, hvalue⟩ := exists_canonical_shift hm (by omega : m < 2 ^ 53)
    (e := q + 64) (by simp only [leastExponent]; omega)
  have hscaled : (n : ℚ) * 2 ^ p = m * 2 ^ q * Fraction.fixedPoint := by
    rw [hvalue, zpow_add₀ two_ne_zero, Fraction.fixedPoint]
    norm_num
    ring
  obtain ⟨rfl, rfl⟩ := hk.exact hn hscaled
  rw [exact_held hproduct, if_neg (by simp only [greatestExponent]; omega), hscaled]

theorem below_zero_eq (x : Float) :
    Scalar.below Scalar.zero x = Scalar.below Scalar.zero (Exact.ofFloat x) := by
  rw [below_eq (by decide +kernel), ofFloat_zero, Exact.zero_eq]

theorem exactLimit_atMost_eq (x : Float) :
    Scalar.atMost (Scalar.ofNat Fraction.exactLimit) x =
      Scalar.atMost (Scalar.ofNat Fraction.exactLimit) (Exact.ofFloat x) := by
  rw [atMost_eq (by rw [ofFloat_exactLimit]; simp), exact_exactLimit, Exact.ofNat_eq]

/-- A double that is expanded stands for a positive number below the limit. -/
theorem exists_value {x : Float} (hpos : Scalar.below Scalar.zero x = true)
    (hlimit : Scalar.atMost (Scalar.ofNat Fraction.exactLimit) x ≠ true) :
    ∃ a : ℚ, Exact.ofFloat x = number a ∧ 0 < a ∧ a < Fraction.exactLimit := by
  rw [below_zero_eq] at hpos
  rw [exactLimit_atMost_eq] at hlimit
  cases hx : Exact.ofFloat x with
  | undefined => simp [hx, Scalar.below] at hpos
  | infinite => simp [hx] at hlimit
  | number a =>
    rw [hx, Exact.zero_eq] at hpos
    rw [hx, ne_eq, Exact.ofNat_eq, Exact.atMost_iff, Exact.number_le, not_le] at hlimit
    exact ⟨a, rfl, (Exact.number_lt 0 a).mp hpos, hlimit⟩

end Double

/-- The fraction of a double is that of the value that it stands for. -/
theorem Fraction.ofValue_eq (x : Float) (bound : Nat) :
    ofValue x bound = ofValue (Exact.ofFloat x) bound := by
  unfold ofValue
  rw [← Double.below_zero_eq, ← Double.exactLimit_atMost_eq, Double.nearest_eq, Double.nearest_eq]
  split_ifs with hpos hlimit
  · rfl
  · rfl
  · rw [Bool.not_eq_true', Bool.not_eq_false] at hpos
    obtain ⟨a, hx, h0, ha⟩ := Double.exists_value hpos hlimit
    rw [Double.exact_mul_fixedPoint hx h0 ha, hx]
    rfl

end Saturation
