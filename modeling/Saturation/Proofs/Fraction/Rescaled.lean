import Saturation.Proofs.Double.Accuracy
import Saturation.Proofs.Fraction.Closest

/-!
The rescaling of a fraction to a larger packet. It is computed on doubles, with a quotient and a
product that are both rounded, and gives the whole quotient of the exact numbers all the same: what
is no whole number is at least one part of the denominator away from one, which is far more than the
rounding.
-/

set_option autoImplicit false

namespace Saturation

open Exact (number)
open Double (HasValue IsNearestTo isHeld_natCast isNearestTo_ofNat two_zpow_pos)

/-! ### Fractions of small ratios -/

namespace Fraction

variable {f : Fraction} {bound limit : Nat} {t : ℚ}

/-- A fraction in lowest terms with a bounded denominator and a bounded value. -/
structure IsBounded (bound limit : Nat) (f : Fraction) : Prop where
  coprime : f.numerator.Coprime f.denominator
  pos : 0 < f.denominator
  le : f.denominator ≤ bound
  numerator_le : f.numerator ≤ limit * f.denominator

/-- A whole number that is not below a value is not below its best approximation either. -/
theorem IsClosest.isBounded (h : IsClosest bound t f) (hb : 1 ≤ bound) (ht : t ≤ limit) :
    IsBounded bound limit f := by
  refine ⟨h.coprime, h.pos, h.le, ?_⟩
  have hpos : (0 : ℚ) < f.denominator := Nat.cast_pos.mpr h.pos
  have hnear := h.nearest limit 1 le_rfl hb
  rw [Nat.cast_one, div_one, abs_of_nonneg (sub_nonneg.mpr ht)] at hnear
  have hle : (f.numerator : ℚ) / f.denominator ≤ limit := by
    linarith [le_abs_self ((f.numerator : ℚ) / f.denominator - t)]
  rw [div_le_iff₀ hpos] at hle
  exact_mod_cast hle

theorem ofValue_eq_closest {v : Float} {x : ℚ} (hx : Exact.ofFloat v = number x) (h0 : 0 < x)
    (hlimit : x < exactLimit) (hb : 1 ≤ bound) :
    ofValue v bound = closest bound (reduced (Scalar.nearest (number (x * fixedPoint))) fixedPoint) := by
  have hlow : Scalar.below Scalar.zero (number x) = true := (Exact.number_lt 0 x).mpr h0
  have hhigh : Scalar.atMost (Scalar.ofNat exactLimit) (number x) = false := by
    rw [Bool.eq_false_iff, ne_eq, Exact.ofNat_eq, Exact.atMost_iff, Exact.number_le, not_le]
    exact hlimit
  rw [ofValue_eq, hx, ofValue, hlow, hhigh, max_eq_left hb]
  rfl

/-- The fraction of a double below a limit has a value within the limit. -/
theorem ofValue_isBounded {v : Float} {x : ℚ} (hv : HasValue v x) (hx : x < limit)
    (hlimit : limit ≤ exactLimit) (hb : 1 ≤ bound) : IsBounded bound limit (ofValue v bound) := by
  rcases hv.nonneg.eq_or_lt with rfl | h0
  · have hlow : Scalar.below Scalar.zero (number 0) = false := by
      rw [Bool.eq_false_iff]
      exact fun h => lt_irrefl _ ((Exact.number_lt 0 0).mp h)
    have hzero : ofValue v bound = ⟨0, 1⟩ := by
      rw [ofValue_eq, hv.eq, ofValue, hlow]
      rfl
    rw [hzero]
    exact ⟨Nat.coprime_one_right 0, Nat.one_pos, hb, Nat.zero_le _⟩
  · have hfixed : 0 < fixedPoint := by decide
    have hlow : x < exactLimit := hx.trans_le (Nat.cast_le.mpr hlimit)
    have hwhole : Scalar.nearest (number (x * fixedPoint)) ≤ limit * fixedPoint := by
      have hbelow : x * fixedPoint < limit * fixedPoint :=
        mul_lt_mul_of_pos_right hx (Nat.cast_pos.mpr hfixed)
      have hfloor : ⌊x * fixedPoint + 1 / 2⌋ < (limit * fixedPoint : Nat) + 1 := by
        rw [Int.floor_lt]
        push_cast
        linarith
      show ⌊x * fixedPoint + 1 / 2⌋.toNat ≤ _
      omega
    rw [ofValue_eq_closest hv.eq h0 hlow hb]
    refine (closest_isClosest hb (reduced_coprime _ hfixed) (reduced_pos _ hfixed)).isBounded hb ?_
    rw [reduced_value _ hfixed, div_le_iff₀ (Nat.cast_pos.mpr hfixed)]
    exact_mod_cast hwhole

end Fraction

/-! ### Whole quotients from rounded ones -/

namespace Double

theorem hasValue_ofNat {n : Nat} (h : n < 2 ^ 53) : HasValue (Scalar.ofNat n) n :=
  (isNearestTo_ofNat n).hasValue (isHeld_natCast h)

/-- What is nearer to a quotient with a remainder than one part of the divisor has the same whole
part. -/
theorem floor_eq_div {w : ℚ} {a q : Nat} (hq : 0 < q) (h : ¬ q ∣ a) (hw : |w - a / q| < 1 / q) :
    ⌊w⌋₊ = a / q := by
  have hq' : (0 : ℚ) < q := Nat.cast_pos.mpr hq
  have hrest : 1 ≤ a % q := Nat.pos_of_ne_zero fun h0 => h (Nat.dvd_of_mod_eq_zero h0)
  have hlast : a % q + 1 ≤ q := Nat.mod_lt a hq
  have hsplit : (a : ℚ) / q = (a / q : Nat) + (a % q : Nat) / q := by
    have hcast : (q : ℚ) * (a / q : Nat) + (a % q : Nat) = a := by exact_mod_cast Nat.div_add_mod a q
    rw [← hcast, add_div, mul_div_cancel_left₀ _ hq'.ne']
  have hlow : (1 : ℚ) / q ≤ (a % q : Nat) / q := by
    rw [div_le_div_iff_of_pos_right hq']
    exact_mod_cast hrest
  have hhigh : ((a % q : Nat) : ℚ) / q + 1 / q ≤ 1 := by
    rw [← add_div, div_le_one hq']
    exact_mod_cast hlast
  obtain ⟨h1, h2⟩ := abs_lt.mp hw
  have hge : ((a / q : Nat) : ℚ) ≤ w := by linarith
  rw [Nat.floor_eq_iff ((Nat.cast_nonneg _).trans hge)]
  exact ⟨hge, by linarith⟩

section

variable {p m q : Nat}

theorem quotient_isNearestTo (hq : 0 < q) (hm : m < 2 ^ 14) (hq' : q < 2 ^ 14) :
    IsNearestTo (Scalar.ofNat m / Scalar.ofNat q) (m / q) :=
  (hasValue_ofNat (hm.trans (by decide))).div (hasValue_ofNat (hq'.trans (by decide)))
    (Nat.cast_pos.mpr hq)

/-- Where the quotient is whole, nothing is rounded. -/
theorem hasValue_scaled (hq : 0 < q) (hp : p < 2 ^ 26) (hm : m < 2 ^ 14) (hq' : q < 2 ^ 14)
    (h : q ∣ m) : HasValue (Scalar.ofNat p * (Scalar.ofNat m / Scalar.ofNat q)) (p * (m / q) : Nat) := by
  have hquotient : ((m / q : Nat) : ℚ) = m / q := Nat.cast_div h (Nat.cast_ne_zero.mpr hq.ne')
  have hle : m / q ≤ m := Nat.div_le_self m q
  have hs := quotient_isNearestTo hq hm hq'
  rw [← hquotient] at hs
  have hproduct := (hasValue_ofNat (hp.trans (by decide))).mul
    (hs.hasValue (isHeld_natCast (hle.trans_lt (hm.trans (by decide)))))
  rw [← Nat.cast_mul] at hproduct
  refine hproduct.hasValue (isHeld_natCast ?_)
  calc p * (m / q) ≤ 2 ^ 26 * 2 ^ 14 := Nat.mul_le_mul hp.le (hle.trans hm.le)
    _ < 2 ^ 53 := by decide

/-- Both roundings together stay below one part of the denominator. -/
theorem exists_scaled (hq : 0 < q) (hp : p ≤ 2 ^ 12 * q) (hm : m < 2 ^ 14) (hq' : q < 2 ^ 14) :
    ∃ w, HasValue (Scalar.ofNat p * (Scalar.ofNat m / Scalar.ofNat q)) w ∧
      |w - (p * m : Nat) / q| < 1 / q := by
  have hqpos : (0 : ℚ) < q := Nat.cast_pos.mpr hq
  have hplarge : p < 2 ^ 26 := by omega
  have hpq : (p : ℚ) ≤ 2 ^ 26 := by exact_mod_cast hplarge.le
  have hmq : (m : ℚ) / q ≤ 2 ^ 14 := by
    rw [div_le_iff₀ hqpos]
    exact_mod_cast hm.le.trans (Nat.le_mul_of_pos_right _ hq)
  have hz : (p : ℚ) * (m / q) ≤ 2 ^ 26 := by
    have hratio : (p : ℚ) / q ≤ 2 ^ 12 := by
      rw [div_le_iff₀ hqpos]
      exact_mod_cast hp
    calc (p : ℚ) * (m / q) = p / q * m := by ring
      _ ≤ 2 ^ 12 * 2 ^ 14 := mul_le_mul hratio (by exact_mod_cast hm.le) m.cast_nonneg (by positivity)
      _ = 2 ^ 26 := by norm_num
  have hleast : (2 : ℚ) ^ (-1075 : Int) ≤ 2 ^ (-80 : Int) := zpow_le_zpow_right₀ one_le_two (by decide)
  -- The quotient.
  have hs := quotient_isNearestTo hq hm hq'
  have hm0 : (0 : ℚ) ≤ m / q := div_nonneg m.cast_nonneg hqpos.le
  obtain ⟨u, hu⟩ := hs.isAmount ((hmq.trans_lt (by norm_num)).trans_le
    (two_zpow_le_overflow (k := 15) (by decide)))
  have hquotient : |p * u - p * (m / q)| ≤ 2 ^ (-26 : Int) := by
    rw [← mul_sub, abs_mul, abs_of_nonneg p.cast_nonneg]
    calc (p : ℚ) * |u - m / q| ≤ p * (m / q * 2 ^ (-53 : Int) + 2 ^ (-80 : Int)) :=
          mul_le_mul_of_nonneg_left
            ((hs.abs_sub_le hm0 hu).trans (add_le_add_right hleast _)) p.cast_nonneg
      _ = p * (m / q) * 2 ^ (-53 : Int) + p * 2 ^ (-80 : Int) := by ring
      _ ≤ 2 ^ 26 * 2 ^ (-53 : Int) + 2 ^ 26 * 2 ^ (-80 : Int) :=
          add_le_add (mul_le_mul_of_nonneg_right hz (two_zpow_pos _).le)
            (mul_le_mul_of_nonneg_right hpq (two_zpow_pos _).le)
      _ ≤ 2 ^ (-26 : Int) := by norm_num
  -- The product.
  have hproduct := (hasValue_ofNat (hplarge.trans (by decide))).mul hu
  have hu0 : 0 ≤ (p : ℚ) * u := mul_nonneg p.cast_nonneg hu.nonneg
  have hle : (p : ℚ) * u ≤ 2 ^ 27 := by
    have := (abs_le.mp hquotient).2
    norm_num at this hz ⊢
    linarith
  obtain ⟨w, hw⟩ := hproduct.isAmount ((hle.trans_lt (by norm_num)).trans_le
    (two_zpow_le_overflow (k := 28) (by decide)))
  have hrounded : |w - p * u| ≤ 2 ^ (-25 : Int) :=
    calc |w - p * u| ≤ p * u * 2 ^ (-53 : Int) + 2 ^ (-80 : Int) :=
          (hproduct.abs_sub_le hu0 hw).trans (add_le_add_right hleast _)
      _ ≤ 2 ^ 27 * 2 ^ (-53 : Int) + 2 ^ (-80 : Int) :=
          add_le_add_left (mul_le_mul_of_nonneg_right hle (two_zpow_pos _).le) _
      _ ≤ 2 ^ (-25 : Int) := by norm_num
  refine ⟨w, hw, ?_⟩
  have hpart : (2 : ℚ) ^ (-14 : Int) < 1 / q := by
    rw [zpow_neg, ← one_div]
    exact one_div_lt_one_div_of_lt hqpos (by exact_mod_cast hq')
  calc |w - (p * m : Nat) / q| = |w - p * u + (p * u - p * (m / q))| := by
        push_cast
        ring_nf
    _ ≤ |w - p * u| + |p * u - p * (m / q)| := abs_add_le _ _
    _ ≤ 2 ^ (-25 : Int) + 2 ^ (-26 : Int) := add_le_add hrounded hquotient
    _ < 2 ^ (-14 : Int) := by norm_num
    _ < 1 / q := hpart

theorem scaled_le (hq : 0 < q) (hp : p ≤ 2 ^ 12 * q) : p * m / q ≤ 2 ^ 12 * m :=
  calc p * m / q ≤ q * (2 ^ 12 * m) / q := by
        refine Nat.div_le_div_right ?_
        rw [← Nat.mul_assoc, Nat.mul_comm q]
        exact Nat.mul_le_mul_right m hp
    _ = 2 ^ 12 * m := Nat.mul_div_cancel_left _ hq

/-- The scaled numerator of a fraction in lowest terms is cut to the whole quotient. -/
theorem truncate_scaled (hq : 0 < q) (hcoprime : p.Coprime q) (hp : p ≤ 2 ^ 12 * q)
    (hm : m < 2 ^ 14) (hq' : q < 2 ^ 14) :
    (Scalar.truncate (Scalar.ofNat p * (Scalar.ofNat m / Scalar.ofNat q) : Float)).toNat =
      p * m / q := by
  have hwhole : p * m / q ≤ 2 ^ 12 * m := scaled_le hq hp
  by_cases h : q ∣ m
  · rw [toNat_truncate (hasValue_scaled hq (by omega) hm hq' h), Nat.floor_natCast,
      ← Nat.mul_div_assoc p h]
    omega
  · obtain ⟨w, hw, hclose⟩ := exists_scaled hq hp hm hq'
    have hdvd : ¬ q ∣ p * m := fun hd => h (hcoprime.symm.dvd_of_dvd_mul_left hd)
    rw [toNat_truncate hw, floor_eq_div hq hdvd hclose]
    omega

end

end Double

/-! ### The packet of a ratio -/

/-- A fraction as a job and a packet: itself where its denominator is large enough for a packet, else
the whole quotient of the scaled numerator. -/
structure Attack.IsRescaled (f : Fraction) (minSize : UInt64) (a : Attack Float) : Prop where
  kept : minSize.toNat ≤ f.denominator →
    a.packetSize.toNat = f.denominator ∧ HasValue a.jobSize f.numerator
  scaled : f.denominator < minSize.toNat →
    a.packetSize = minSize ∧ HasValue a.jobSize (f.numerator * minSize.toNat / f.denominator : Nat)
  minSize_le : minSize ≤ a.packetSize
  le_maxSize : a.packetSize ≤ maxPacketSize
  ratio : ∃ j : Nat, HasValue a.jobSize j ∧
    f.value - 1 / a.packetSize.toNat < j / a.packetSize.toNat ∧
    (j : ℚ) / a.packetSize.toNat ≤ f.value

theorem Fraction.ratio_scaled {f : Fraction} (hf : 0 < f.denominator) {n : Nat} (hn : 0 < n) :
    f.value - 1 / n < (f.numerator * n / f.denominator : Nat) / n ∧
      ((f.numerator * n / f.denominator : Nat) : ℚ) / n ≤ f.value := by
  have hden : (0 : ℚ) < f.denominator := Nat.cast_pos.mpr hf
  have hn' : (0 : ℚ) < n := Nat.cast_pos.mpr hn
  have hlow : f.numerator * n / f.denominator * f.denominator ≤ f.numerator * n :=
    Nat.div_mul_le_self _ _
  have hhigh : f.numerator * n < (f.numerator * n / f.denominator + 1) * f.denominator := by
    rw [Nat.mul_comm _ f.denominator]
    exact Nat.lt_mul_div_succ _ hf
  constructor
  · rw [sub_lt_iff_lt_add, ← add_div, value, div_lt_div_iff₀ hden hn']
    exact_mod_cast hhigh
  · rw [value, div_le_div_iff₀ hn' hden]
    exact_mod_cast hlow

/-- The attack of a ratio below 4096 is its best approximation, rescaled in whole numbers. -/
theorem Attack.ofCostRatio_isRescaled {r : Float} {x : ℚ} (hr : HasValue r x) (hx : x < 4096)
    {minSize : UInt64} (hmin : minSize ≤ maxPacketSize) :
    (ofCostRatio r minSize).IsRescaled (Fraction.ofValue r maxPacketSize.toNat) minSize := by
  have hm : minSize.toNat ≤ 12144 := UInt64.le_iff_toNat_le.mp hmin
  have hf : (Fraction.ofValue r maxPacketSize.toNat).IsBounded maxPacketSize.toNat (2 ^ 12) :=
    Fraction.ofValue_isBounded hr (by norm_num; exact hx) (by decide) (by decide)
  have hden : (Fraction.ofValue r maxPacketSize.toNat).denominator ≤ 12144 := hf.le
  have hnum := hf.numerator_le
  unfold ofCostRatio
  dsimp only
  generalize Fraction.ofValue r maxPacketSize.toNat = f at *
  split
  · -- The packet is made larger, and the job with it.
    rename_i hlt
    have hscaled := Double.truncate_scaled hf.pos hf.coprime hnum (m := minSize.toNat) (by omega)
      (by omega)
    have hwhole := Double.scaled_le (m := minSize.toNat) hf.pos hnum
    have hjob : HasValue (Scalar.ofWord (Scalar.truncate (Scalar.ofNat f.numerator *
        (Scalar.ofWord minSize / Scalar.ofNat f.denominator) : Float)))
        (f.numerator * minSize.toNat / f.denominator : Nat) := by
      rw [← hscaled]
      exact Double.hasValue_ofNat ((hscaled.trans_le hwhole).trans_lt (by omega))
    have hpacket : 0 < minSize.toNat := by omega
    exact ⟨fun hle => absurd hle (not_le.mpr hlt), fun _ => ⟨rfl, hjob⟩, UInt64.le_refl _, hmin,
      _, hjob, Fraction.ratio_scaled hf.pos hpacket⟩
  · -- The denominator is a packet already.
    rename_i hle
    have hword : f.denominator.toUInt64.toNat = f.denominator :=
      UInt64.toNat_ofNat_of_lt' (hden.trans_lt (by decide))
    have hjob : HasValue (Scalar.ofNat f.numerator) f.numerator := Double.hasValue_ofNat (by omega)
    have hpos : (0 : ℚ) < f.denominator := Nat.cast_pos.mpr hf.pos
    refine ⟨fun _ => ⟨hword, hjob⟩, fun hlt => absurd hlt hle, ?_, ?_, _, hjob, ?_⟩
    · rw [UInt64.le_iff_toNat_le, hword]
      exact not_lt.mp hle
    · rw [UInt64.le_iff_toNat_le, hword]
      exact hden
    · rw [hword]
      exact ⟨sub_lt_self _ (one_div_pos.mpr hpos), le_rfl⟩

/-- A third in packets of 8192 bits. -/
theorem Attack.ofCostRatio_isRescaled_third :
    HasValue (1 / 3 : Float) (6004799503160661 / 2 ^ 54) ∧
      (ofCostRatio (1 / 3 : Float) 8192).IsRescaled ⟨1, 3⟩ 8192 := by
  have hthird : HasValue (1 / 3 : Float) (6004799503160661 / 2 ^ 54) :=
    ⟨by decide +kernel, by norm_num⟩
  have hfraction : Fraction.ofValue (1 / 3 : Float) maxPacketSize.toNat = ⟨1, 3⟩ := by decide +kernel
  rw [← hfraction]
  exact ⟨hthird, ofCostRatio_isRescaled hthird (by norm_num) (by decide)⟩

end Saturation
