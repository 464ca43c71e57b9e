import Saturation.Proofs.Double.Rounding

/-!
The operations of the core library on finite doubles: each gives the double nearest to the exact
result. Sums are only needed of values that are not negative.
-/

set_option autoImplicit false

namespace Saturation.Double

open Float.Model (UnpackedFloat Format)
open Float.Model.UnpackedFloat (Sign Accuracy ExtendedMantissa)

theorem log2_shiftLeft {m : Nat} (hm : 0 < m) (k : Nat) : (m <<< k).log2 = m.log2 + k := by
  have hm0 : m ≠ 0 := hm.ne'
  have h0 : m <<< k ≠ 0 := by
    rw [Nat.shiftLeft_eq]
    positivity
  apply le_antisymm
  · apply Nat.le_of_lt_succ
    rw [Nat.log2_lt h0, Nat.shiftLeft_eq, show (m.log2 + k).succ = m.log2 + 1 + k by omega, pow_add]
    exact Nat.mul_lt_mul_of_pos_right Nat.lt_log2_self (Nat.two_pow_pos k)
  · rw [Nat.le_log2 h0, Nat.shiftLeft_eq, pow_add]
    exact Nat.mul_le_mul_right _ (Nat.log2_self_le hm0)

theorem log2_le_div (m : Nat) {n : Nat} (hn : 0 < n) :
    m.log2 ≤ (m / n).log2 + 1 + n.log2 := by
  by_cases hm : m = 0
  · simp [hm]
  · apply Nat.le_of_lt_succ
    rw [Nat.log2_lt hm]
    have h1 : m / n + 1 ≤ 2 ^ ((m / n).log2 + 1) := Nat.lt_log2_self
    have h2 : n ≤ 2 ^ (n.log2 + 1) := Nat.lt_log2_self.le
    calc m < (m / n + 1) * n := by
          rw [Nat.add_mul, Nat.one_mul]
          have := Nat.div_add_mod' m n
          have := Nat.mod_lt m hn
          omega
      _ ≤ 2 ^ ((m / n).log2 + 1) * 2 ^ (n.log2 + 1) := Nat.mul_le_mul h1 h2
      _ = 2 ^ ((m / n).log2 + 1 + n.log2 + 1) := by rw [← pow_add, ← Nat.add_assoc]

theorem value_shiftLeft (m : Nat) (e : Int) (k : Nat) :
    ((m <<< k : Nat) : ℚ) * 2 ^ (e - k) = m * 2 ^ e := by
  rw [Nat.shiftLeft_eq, zpow_sub₀ two_ne_zero, zpow_natCast]
  push_cast
  field_simp

/-! ### Unpacked values -/

theorem round_nearest (negative : Bool) {m : Nat} (hm : 0 < m) (e : Int) :
    ∃ (n : Nat) (q : Int), IsNearest (m * 2 ^ e) n q ∧
      UnpackedFloat.round Format.binary64 (sign negative) m e = (finite negative n q).unpacked := by
  let k := (e - roundingExponent m e).toNat
  have hround : UnpackedFloat.round Format.binary64 (sign negative) m e =
      UnpackedFloat.roundWithAccuracy Format.binary64 (sign negative) (m <<< k) (e - k) .exact := rfl
  have hexp : roundingExponent (m <<< k) (e - k) = roundingExponent m e := by
    unfold roundingExponent
    rw [log2_shiftLeft hm]
    push_cast
    congr 2
    omega
  rw [hround, ← value_shiftLeft m e k]
  exact roundWithAccuracy_nearest (holds_exact _) (by rw [hexp]; omega)

theorem ofNat_nearest (n : Nat) :
    ∃ (m : Nat) (q : Int), IsNearest n m q ∧
      UnpackedFloat.ofNat Format.binary64 n = (finite false m q).unpacked := by
  rcases Nat.eq_zero_or_pos n with rfl | hn
  · refine ⟨0, leastExponent, ?_, rfl⟩
    have h : IsCanonical 0 leastExponent := ⟨by decide, le_rfl, .inr rfl⟩
    simpa using h.isNearest
  · obtain ⟨m, q, h, hround⟩ := round_nearest false hn 0
    refine ⟨m, q, by simpa using h, ?_⟩
    have hcmp : compare (n : Int) 0 = .gt := by
      rw [Int.compare_eq_gt]
      omega
    rw [← hround]
    show UnpackedFloat.normalize Format.binary64 n 0 .positive = _
    simp only [UnpackedFloat.normalize, hcmp]
    rfl

theorem div_nearest (negative : Bool) {m n : Nat} (hm : 0 < m) (hn : 0 < n) (p q : Int) :
    ∃ (k : Nat) (r : Int), IsNearest (m * 2 ^ p / (n * 2 ^ q)) k r ∧
      UnpackedFloat.roundWithAccuracy Format.binary64 (sign negative)
        (UnpackedFloat.divCore Format.binary64 m p n q).1
        (UnpackedFloat.divCore Format.binary64 m p n q).2.1
        (UnpackedFloat.divCore Format.binary64 m p n q).2.2 = (finite negative k r).unpacked := by
  -- The quotient is taken with all the bits that the step at its size has room for.
  let t := min (p - q) (max ((m.log2 + 1 + p) - (n.log2 + 1 + q) - 53) leastExponent)
  let k := (p - q - t).toNat
  have hdiv : UnpackedFloat.divCore Format.binary64 m p n q =
      (m <<< k / n, t, UnpackedFloat.accuracyOfFraction (m <<< k % n) n) := rfl
  have hlog := log2_le_div (m <<< k) hn
  have hexp : t ≤ roundingExponent (m <<< k / n) t := by
    unfold roundingExponent
    rw [log2_shiftLeft hm] at hlog
    omega
  have hvalue : ((m <<< k / n : Nat) + (m <<< k % n : Nat) / n : ℚ) * 2 ^ t =
      m * 2 ^ p / (n * 2 ^ q) := by
    have hn' : (n : ℚ) ≠ 0 := by exact_mod_cast hn.ne'
    have hmod : ((m <<< k / n : Nat) : ℚ) * n + (m <<< k % n : Nat) = (m <<< k : Nat) := by
      exact_mod_cast Nat.div_add_mod' (m <<< k) n
    have hshift := value_shiftLeft m (p - q) k
    rw [show p - q - k = t by omega] at hshift
    calc ((m <<< k / n : Nat) + (m <<< k % n : Nat) / n : ℚ) * 2 ^ t
        = ((m <<< k / n : Nat) * n + (m <<< k % n : Nat)) / n * 2 ^ t := by
          rw [add_div, mul_div_cancel_right₀ _ hn']
      _ = (m <<< k : Nat) * 2 ^ t / n := by rw [hmod, div_mul_eq_mul_div]
      _ = m * 2 ^ p / (n * 2 ^ q) := by
          rw [hshift, zpow_sub₀ two_ne_zero, ← mul_div_assoc, div_div, mul_comm (2 ^ q : ℚ)]
  rw [hdiv, ← hvalue]
  exact roundWithAccuracy_nearest (holds_fraction _ (Nat.mod_lt _ hn)) hexp

theorem mul_nearest (negative : Bool) {m n : Nat} {p q : Int}
    (h : p + q ≤ roundingExponent (m * n) (p + q)) :
    ∃ (k : Nat) (r : Int), IsNearest (m * 2 ^ p * (n * 2 ^ q)) k r ∧
      UnpackedFloat.roundWithAccuracy Format.binary64 (sign negative) (m * n) (p + q) .exact =
        (finite negative k r).unpacked := by
  have hvalue : ((m * n : Nat) : ℚ) * 2 ^ (p + q) = m * 2 ^ p * (n * 2 ^ q) := by
    rw [zpow_add₀ two_ne_zero]
    push_cast
    ring
  rw [← hvalue]
  exact roundWithAccuracy_nearest (holds_exact _) h

/-- Products of canonical pairs have enough bits to be rounded. -/
theorem IsCanonical.mul {m n : Nat} {p q : Int} (hm : IsCanonical m p) (hn : IsCanonical n q)
    (hm0 : 0 < m) (hn0 : 0 < n) : p + q ≤ roundingExponent (m * n) (p + q) := by
  unfold roundingExponent
  have hmn : m * n ≠ 0 := (Nat.mul_pos hm0 hn0).ne'
  by_cases h : 2 ^ 52 ≤ m * n
  · have := (Nat.le_log2 hmn).mpr h
    omega
  · have h1 : m ≤ m * n := Nat.le_mul_of_pos_right m hn0
    have h2 : n ≤ m * n := Nat.le_mul_of_pos_left n hm0
    have hp := hm.normal
    have hq := hn.normal
    simp only [leastNormal, leastExponent] at *
    omega

theorem add_nearest {m n : Nat} (h : 0 < m + n) (p q : Int) :
    ∃ (k : Nat) (r : Int), IsNearest (m * 2 ^ p + n * 2 ^ q) k r ∧
      UnpackedFloat.normalize Format.binary64
        ((m <<< (p - min p q).toNat : Nat) + (n <<< (q - min p q).toNat : Nat)) (min p q) .positive =
        (finite false k r).unpacked := by
  have hm := value_shiftLeft m p (p - min p q).toNat
  have hn := value_shiftLeft n q (q - min p q).toNat
  rw [show p - ((p - min p q).toNat : Int) = min p q by omega] at hm
  rw [show q - ((q - min p q).toNat : Int) = min p q by omega] at hn
  have hpos : 0 < m <<< (p - min p q).toNat + n <<< (q - min p q).toNat := by
    simp only [Nat.shiftLeft_eq]
    rcases Nat.eq_zero_or_pos m with rfl | hm
    · have : 0 < n := by omega
      positivity
    · positivity
  obtain ⟨k, r, hk, hround⟩ := round_nearest false hpos (min p q)
  refine ⟨k, r, ?_, ?_⟩
  · rw [← hm, ← hn, ← add_mul]
    exact_mod_cast hk
  · rw [← hround]
    have hcmp : compare ((m <<< (p - min p q).toNat : Nat) + (n <<< (q - min p q).toNat : Nat) : Int) 0 =
        .gt := by
      rw [Int.compare_eq_gt]
      exact_mod_cast hpos
    simp only [UnpackedFloat.normalize, hcmp]
    rfl

end Saturation.Double
