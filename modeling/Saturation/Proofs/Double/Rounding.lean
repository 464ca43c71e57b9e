import Saturation.Proofs.Double.Packed

/-!
Rounding to the nearest double. A mantissa with its two residual bits stands for a number up to
what rounding needs to know; shifting keeps this, so what the core library rounds to is the number
of steps nearest to the exact value, a half going to the even number.
-/

set_option autoImplicit false

namespace Saturation.Double

open Float.Model (UnpackedFloat Format)
open Float.Model.UnpackedFloat (Sign Accuracy ExtendedMantissa)

/-- The natural number nearest to a value, a half going to the even one. -/
structure Rounds (x : ℚ) (n : Nat) : Prop where
  lower : (n : ℚ) - 1 / 2 ≤ x
  upper : x ≤ n + 1 / 2
  even : x = n - 1 / 2 ∨ x = n + 1 / 2 → n % 2 = 0

theorem Rounds.natCast (n : Nat) : Rounds n n := by
  refine ⟨by linarith, by linarith, ?_⟩
  rintro (h | h) <;> linarith

theorem Rounds.mono {x y : ℚ} {m n : Nat} (hx : Rounds x m) (hy : Rounds y n) (h : x ≤ y) :
    m ≤ n := by
  by_contra hlt
  have hcast : (n : ℚ) + 1 ≤ m := by exact_mod_cast (by omega : n + 1 ≤ m)
  have h1 := hx.lower
  have h2 := hy.upper
  -- Both values are the half between the two numbers, which would both be even.
  have hm := hx.even (.inl (by linarith))
  have hn := hy.even (.inr (by linarith))
  have heq : (n : ℚ) + 1 = m := by linarith
  have : n + 1 = m := by exact_mod_cast heq
  omega

theorem Rounds.le_of_lt {x : ℚ} {n b : Nat} (h : Rounds x n) (hx : x < b) : n ≤ b := by
  have h1 := h.lower
  have h2 : (n : ℚ) < b + 1 := by linarith
  have h3 : n < b + 1 := by exact_mod_cast h2
  omega

theorem Rounds.ge_of_le {x : ℚ} {n b : Nat} (h : Rounds x n) (hx : b ≤ x) : b ≤ n := by
  have h1 := h.upper
  have h2 : (b : ℚ) < n + 1 := by linarith
  have h3 : b < n + 1 := by exact_mod_cast h2
  omega

/-! ### Residual bits -/

/-- What a mantissa with a round bit and a sticky bit knows about a value. -/
def Holds (x : ℚ) : ExtendedMantissa → Prop
  | ⟨m, false, false⟩ => x = m
  | ⟨m, false, true⟩ => m < x ∧ x < m + 1 / 2
  | ⟨m, true, false⟩ => x = m + 1 / 2
  | ⟨m, true, true⟩ => m + 1 / 2 < x ∧ x < m + 1

theorem Holds.rounds {x : ℚ} {em : ExtendedMantissa} (h : Holds x em) :
    Rounds x em.roundedMantissa := by
  rcases em with ⟨m, r, s⟩
  cases r <;> cases s <;> dsimp only [Holds] at h
  · rw [h]
    exact Rounds.natCast m
  · refine ⟨?_, ?_, ?_⟩ <;>
      simp only [ExtendedMantissa.roundedMantissa, ExtendedMantissa.accuracy,
        Accuracy.roundToNearestEven]
    · linarith
    · linarith
    · rintro (h' | h') <;> linarith
  · have hm : (m % 2 = 0 ∧ m + m % 2 = m) ∨ m + m % 2 = m + 1 ∧ (m + 1) % 2 = 0 := by omega
    simp only [ExtendedMantissa.roundedMantissa, ExtendedMantissa.accuracy,
      Accuracy.roundToNearestEven]
    rcases hm with ⟨heven, hm⟩ | ⟨hm, heven⟩
    · rw [hm]
      exact ⟨by linarith, by linarith, fun _ => heven⟩
    · rw [hm]
      exact ⟨by push_cast; linarith, by push_cast; linarith, fun _ => heven⟩
  · refine ⟨?_, ?_, ?_⟩ <;>
      simp only [ExtendedMantissa.roundedMantissa, ExtendedMantissa.accuracy,
        Accuracy.roundToNearestEven] <;> push_cast
    · linarith
    · linarith
    · rintro (h' | h') <;> linarith

theorem Holds.lower {x : ℚ} {em : ExtendedMantissa} (h : Holds x em) : (em.mantissa : ℚ) ≤ x := by
  rcases em with ⟨m, r, s⟩
  cases r <;> cases s <;> dsimp only [Holds] at h ⊢ <;> linarith

theorem Holds.upper {x : ℚ} {em : ExtendedMantissa} (h : Holds x em) : x < em.mantissa + 1 := by
  rcases em with ⟨m, r, s⟩
  cases r <;> cases s <;> dsimp only [Holds] at h ⊢ <;> linarith

theorem Holds.shiftRightOne {x : ℚ} {em : ExtendedMantissa} (h : Holds x em) :
    Holds (x / 2) em.shiftRightOne := by
  rcases em with ⟨m, r, s⟩
  have hm : m = 2 * (m / 2) + m % 2 := by omega
  have hcast : (m : ℚ) = 2 * (m / 2 : Nat) + (m % 2 : Nat) := by exact_mod_cast hm
  rcases Nat.mod_two_eq_zero_or_one m with h2 | h2 <;> rw [h2] at hcast <;>
    cases r <;> cases s <;>
      simp only [Holds, ExtendedMantissa.shiftRightOne, h2, Bool.or_false, Bool.or_true,
        bne_self_eq_false, Nat.reduceBNe, Nat.cast_zero, Nat.cast_one] at h hcast ⊢ <;>
      (try constructor) <;> linarith

theorem Holds.shiftRight {x : ℚ} {em : ExtendedMantissa} (h : Holds x em) (k : Nat) :
    Holds (x / 2 ^ k) (em >>> k) := by
  show Holds _ (k.repeat ExtendedMantissa.shiftRightOne em)
  induction k with
  | zero => simpa [Nat.repeat] using h
  | succ k ih =>
    rw [Nat.repeat, pow_succ, ← div_div]
    exact ih.shiftRightOne

theorem holds_exact (m : Nat) : Holds m (.ofMantissaAndAccuracy m .exact) := rfl

theorem holds_fraction (m : Nat) {n d : Nat} (h : n < d) :
    Holds (m + n / d) (.ofMantissaAndAccuracy m (UnpackedFloat.accuracyOfFraction n d)) := by
  have hd : (0 : ℚ) < d := by exact_mod_cast (by omega : 0 < d)
  have hlt : (n : ℚ) / d < 1 := (div_lt_one hd).mpr (by exact_mod_cast h)
  unfold UnpackedFloat.accuracyOfFraction
  split
  · rename_i h0
    simp [h0, ExtendedMantissa.ofMantissaAndAccuracy, Holds]
  · rename_i h0
    have hn : (0 : ℚ) < n := by exact_mod_cast Nat.pos_of_ne_zero h0
    have hpos : (0 : ℚ) < n / d := div_pos hn hd
    rcases Nat.lt_trichotomy (2 * n) d with h2 | h2 | h2
    · rw [Nat.compare_eq_lt.mpr h2]
      have : (n : ℚ) / d < 1 / 2 := by
        rw [div_lt_div_iff₀ hd two_pos]
        exact_mod_cast (by omega : n * 2 < 1 * d)
      exact ⟨by linarith, by linarith⟩
    · rw [Nat.compare_eq_eq.mpr h2]
      have : (n : ℚ) / d = 1 / 2 := by
        rw [div_eq_div_iff hd.ne' two_ne_zero]
        exact_mod_cast (by omega : n * 2 = 1 * d)
      show (m : ℚ) + n / d = m + 1 / 2
      rw [this]
    · rw [Nat.compare_eq_gt.mpr h2]
      have : (1 : ℚ) / 2 < n / d := by
        rw [div_lt_div_iff₀ two_pos hd]
        exact_mod_cast (by omega : 1 * d < n * 2)
      exact ⟨by linarith, by linarith⟩

/-! ### The nearest double -/

/-- The step between the doubles around a value. -/
structure IsStep (x : ℚ) (t : Int) : Prop where
  le : leastExponent ≤ t
  lt : x < 2 ^ (t + 53)
  ge : t = leastExponent ∨ 2 ^ (t + 52) ≤ x

/-- The canonical pair nearest to a value that is not negative. -/
structure IsNearest (x : ℚ) (m : Nat) (q : Int) : Prop where
  canonical : IsCanonical m q
  rounds : ∃ (t : Int) (n : Nat), IsStep x t ∧ Rounds (x / 2 ^ t) n ∧ (m : ℚ) * 2 ^ q = n * 2 ^ t

theorem two_zpow_pos (q : Int) : (0 : ℚ) < 2 ^ q := by positivity

theorem div_step {x : ℚ} {t : Int} (k : Nat) : x < 2 ^ (t + k) ↔ x / 2 ^ t < (2 ^ k : Nat) := by
  rw [div_lt_iff₀ (two_zpow_pos t), add_comm, zpow_add₀ two_ne_zero, zpow_natCast]
  push_cast
  rfl

theorem IsStep.le_of_le {x y : ℚ} {s t : Int} (hx : IsStep x s) (hy : IsStep y t) (h : x ≤ y) :
    s ≤ t := by
  rcases hx.ge with hs | hs
  · exact hs ▸ hy.le
  · have := (hs.trans h).trans_lt hy.lt
    rw [zpow_lt_zpow_iff_right₀ one_lt_two] at this
    omega

theorem IsNearest.mono {x y : ℚ} {m n : Nat} {p q : Int} (hx : IsNearest x m p)
    (hy : IsNearest y n q) (h : x ≤ y) : (m : ℚ) * 2 ^ p ≤ n * 2 ^ q := by
  obtain ⟨-, s, i, hs, hi, hm⟩ := hx
  obtain ⟨-, t, j, ht, hj, hn⟩ := hy
  rw [hm, hn]
  rcases (hs.le_of_le ht h).eq_or_lt with rfl | hst
  · have : x / 2 ^ s ≤ y / 2 ^ s := div_le_div_of_nonneg_right h (two_zpow_pos s).le
    exact mul_le_mul_of_nonneg_right (by exact_mod_cast hi.mono hj this) (two_zpow_pos s).le
  · -- Between the steps there is a power of two, which both sides keep to.
    have hi' : i ≤ 2 ^ 53 := hi.le_of_lt ((div_step 53).mp hs.lt)
    have hj' : 2 ^ 52 ≤ j := by
      have := ht.ge.resolve_left (by have := hs.le; omega)
      exact hj.ge_of_le (not_lt.mp fun hlt => not_lt.mpr this ((div_step 52).mpr hlt))
    calc (i : ℚ) * 2 ^ s ≤ (2 ^ 53 : Nat) * 2 ^ s := by
          exact mul_le_mul_of_nonneg_right (by exact_mod_cast hi') (two_zpow_pos s).le
      _ = 2 ^ (s + 53) := by
          rw [add_comm, zpow_add₀ two_ne_zero]
          norm_num
      _ ≤ 2 ^ (t + 52) := zpow_le_zpow_right₀ one_le_two (by omega)
      _ = (2 ^ 52 : Nat) * 2 ^ t := by
          rw [add_comm, zpow_add₀ two_ne_zero]
          norm_num
      _ ≤ j * 2 ^ t := mul_le_mul_of_nonneg_right (by exact_mod_cast hj') (two_zpow_pos t).le

/-- A canonical pair is at the step of its value. -/
theorem IsCanonical.isStep {m : Nat} {q : Int} (h : IsCanonical m q) :
    IsStep ((m : ℚ) * 2 ^ q) q := by
  have hself : (m : ℚ) * 2 ^ q / 2 ^ q = m := mul_div_cancel_right₀ _ (two_zpow_pos q).ne'
  have hlt := h.lt
  simp only [leastNormal] at hlt
  refine ⟨h.le, ?_, h.normal.symm.imp_right fun hm => not_lt.mp fun hlt => ?_⟩
  · rw [show q + 53 = q + (53 : Nat) from rfl, div_step, hself]
    exact_mod_cast (by omega : m < 2 ^ 53)
  · rw [show q + 52 = q + (52 : Nat) from rfl, div_step, hself] at hlt
    simp only [leastNormal] at hm
    have : m < 2 ^ 52 := by exact_mod_cast hlt
    omega

theorem IsCanonical.isNearest {m : Nat} {q : Int} (h : IsCanonical m q) :
    IsNearest ((m : ℚ) * 2 ^ q) m q := by
  refine ⟨h, q, m, h.isStep, ?_, rfl⟩
  rw [mul_div_cancel_right₀ _ (two_zpow_pos q).ne']
  exact Rounds.natCast m

/-- Canonical pairs are ordered by their exponents first. -/
theorem IsCanonical.le_iff {m n : Nat} {p q : Int} (hm : IsCanonical m p) (hn : IsCanonical n q) :
    (m : ℚ) * 2 ^ p ≤ n * 2 ^ q ↔ p < q ∨ p = q ∧ m ≤ n := by
  constructor
  · intro h
    rcases (hm.isStep.le_of_le hn.isStep h).eq_or_lt with rfl | hlt
    · refine .inr ⟨rfl, ?_⟩
      have := le_of_mul_le_mul_right h (two_zpow_pos p)
      exact_mod_cast this
    · exact .inl hlt
  · rintro (h | ⟨rfl, h⟩)
    · by_contra hlt
      have := hn.isStep.le_of_le hm.isStep (not_le.mp hlt).le
      omega
    · exact mul_le_mul_of_nonneg_right (by exact_mod_cast h) (two_zpow_pos p).le

theorem IsCanonical.eq_of_value {m n : Nat} {p q : Int} (hm : IsCanonical m p)
    (hn : IsCanonical n q) (h : (m : ℚ) * 2 ^ p = n * 2 ^ q) : m = n ∧ p = q := by
  have h1 := (hm.le_iff hn).mp h.le
  have h2 := (hn.le_iff hm).mp h.ge
  omega

theorem IsNearest.unique {x : ℚ} {m n : Nat} {p q : Int} (hm : IsNearest x m p)
    (hn : IsNearest x n q) : m = n ∧ p = q :=
  hm.canonical.eq_of_value hn.canonical
    ((hm.mono hn le_rfl).antisymm (hn.mono hm le_rfl))

/-! ### The rounding of the core library -/

/-- The exponent at which a mantissa is rounded. -/
def roundingExponent (m : Nat) (e : Int) : Int := max (m.log2 + 1 + e - 53) leastExponent

theorem shiftToTargetExponent_eq (m : Nat) (e : Int) (a : Accuracy) :
    UnpackedFloat.shiftToTargetExponent Format.binary64 m e a =
      (ExtendedMantissa.ofMantissaAndAccuracy m a >>> (roundingExponent m e - e).toNat,
        e + (roundingExponent m e - e).toNat) := rfl

theorem isStep_of_holds {m : Nat} {e : Int} {y : ℚ} (hlower : m ≤ y) (hupper : y < m + 1)
    (he : e ≤ roundingExponent m e) : IsStep (y * 2 ^ e) (roundingExponent m e) := by
  have hpos := two_zpow_pos e
  unfold roundingExponent at *
  refine ⟨le_max_right _ _, ?_, ?_⟩
  · have hm : m + 1 ≤ 2 ^ (m.log2 + 1) := Nat.lt_log2_self
    have hy : y < ((2 ^ (m.log2 + 1) : Nat) : ℚ) := hupper.trans_le (by exact_mod_cast hm)
    calc y * 2 ^ e < ((2 ^ (m.log2 + 1) : Nat) : ℚ) * 2 ^ e := mul_lt_mul_of_pos_right hy hpos
      _ = 2 ^ (((m.log2 + 1 : Nat) : Int) + e) := by
          rw [zpow_add₀ two_ne_zero, zpow_natCast]
          push_cast
          rfl
      _ ≤ _ := zpow_le_zpow_right₀ one_le_two (by push_cast; omega)
  · by_cases h : m.log2 + 1 + e - 53 ≤ leastExponent
    · exact .inl (max_eq_right h)
    · right
      rw [max_eq_left (by omega)] at he ⊢
      have hm0 : m ≠ 0 := by
        rintro rfl
        simp at he
        omega
      have hm : ((2 ^ m.log2 : Nat) : ℚ) ≤ y :=
        le_trans (by exact_mod_cast Nat.log2_self_le hm0) hlower
      calc (2 : ℚ) ^ ((m.log2 : Int) + 1 + e - 53 + 52) = ((2 ^ m.log2 : Nat) : ℚ) * 2 ^ e := by
            rw [show (m.log2 : Int) + 1 + e - 53 + 52 = m.log2 + e by omega,
              zpow_add₀ two_ne_zero, zpow_natCast]
            push_cast
            rfl
        _ ≤ y * 2 ^ e := mul_le_mul_of_nonneg_right hm hpos.le

/-- Rounding may make the mantissa too long by a bit; it is a power of two then. -/
theorem carry {t : Int} {n : Nat} (ht : leastExponent ≤ t) (hn : n ≤ 2 ^ 53)
    (hnormal : t = leastExponent ∨ 2 ^ 52 ≤ n) :
    ∃ (m : Nat) (q : Int), IsCanonical m q ∧ (m : ℚ) * 2 ^ q = n * 2 ^ t ∧
      (UnpackedFloat.shiftToTargetExponent Format.binary64 n t .exact).1.mantissa = m ∧
      (UnpackedFloat.shiftToTargetExponent Format.binary64 n t .exact).2 = q := by
  rw [shiftToTargetExponent_eq]
  rcases hn.lt_or_eq with hlt | rfl
  · have hlog : n.log2 < 53 := by
      by_cases h0 : n = 0
      · simp [h0]
      · exact (Nat.log2_lt h0).mpr hlt
    have hshift : (roundingExponent n t - t).toNat = 0 := by
      unfold roundingExponent
      omega
    rw [hshift]
    refine ⟨n, t, ⟨?_, ht, ?_⟩, rfl, rfl, Int.add_zero t⟩
    · simp only [leastNormal]
      omega
    · simp only [leastNormal]
      omega
  · have hshift : (roundingExponent (2 ^ 53) t - t).toNat = 1 := by
      unfold roundingExponent
      rw [Nat.log2_two_pow]
      omega
    rw [hshift]
    refine ⟨2 ^ 52, t + 1, ⟨by decide, by omega, .inl (by decide)⟩, ?_, rfl, rfl⟩
    rw [zpow_add_one₀ two_ne_zero]
    push_cast
    ring

theorem roundWithAccuracy_eq {s : Sign} {m n n' : Nat} {e t q : Int} {a : Accuracy}
    (hn : (UnpackedFloat.shiftToTargetExponent Format.binary64 m e a).1.roundedMantissa = n)
    (ht : (UnpackedFloat.shiftToTargetExponent Format.binary64 m e a).2 = t)
    (hn' : (UnpackedFloat.shiftToTargetExponent Format.binary64 n t .exact).1.mantissa = n')
    (hq : (UnpackedFloat.shiftToTargetExponent Format.binary64 n t .exact).2 = q) :
    UnpackedFloat.roundWithAccuracy Format.binary64 s m e a =
      if h : n' = 0 then .zero s else .finite s n' q (Nat.pos_of_ne_zero h) := by
  subst hn ht hn' hq
  rfl

theorem roundWithAccuracy_nearest {negative : Bool} {m : Nat} {e : Int} {a : Accuracy} {y : ℚ}
    (hy : Holds y (.ofMantissaAndAccuracy m a)) (he : e ≤ roundingExponent m e) :
    ∃ (n : Nat) (q : Int), IsNearest (y * 2 ^ e) n q ∧
      UnpackedFloat.roundWithAccuracy Format.binary64 (sign negative) m e a =
        (finite negative n q).unpacked := by
  have hm : (ExtendedMantissa.ofMantissaAndAccuracy m a).mantissa = m := by
    rcases a with _ | o
    · rfl
    · cases o <;> rfl
  have hstep : IsStep (y * 2 ^ e) (roundingExponent m e) :=
    isStep_of_holds (by simpa [hm] using hy.lower) (by simpa [hm] using hy.upper) he
  have hexp : e + (roundingExponent m e - e).toNat = roundingExponent m e := by omega
  have hrounds := (hy.shiftRight (roundingExponent m e - e).toNat).rounds
  have hvalue : y / 2 ^ (roundingExponent m e - e).toNat = y * 2 ^ e / 2 ^ roundingExponent m e := by
    rw [← hexp, zpow_add₀ two_ne_zero, zpow_natCast, mul_comm y,
      mul_div_mul_left _ _ (two_zpow_pos e).ne', hexp]
  rw [hvalue] at hrounds
  obtain ⟨n, q, hcanonical, hn, hmantissa, hexponent⟩ := carry hstep.le
    (hrounds.le_of_lt ((div_step 53).mp hstep.lt))
    (hstep.ge.imp_right fun h => hrounds.ge_of_le
      (not_lt.mp fun hlt => not_lt.mpr h ((div_step 52).mpr hlt)))
  refine ⟨n, q, ⟨hcanonical, _, _, hstep, hrounds, hn⟩, ?_⟩
  rw [roundWithAccuracy_eq rfl hexp hmantissa hexponent, unpacked]
  by_cases h0 : n = 0
  · simp [h0]
  · simp [h0, Nat.pos_of_ne_zero h0]

end Saturation.Double
