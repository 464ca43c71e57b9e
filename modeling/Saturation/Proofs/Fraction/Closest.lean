import Mathlib.Algebra.Order.Field.Basic
import Mathlib.Algebra.Order.Round
import Saturation.Proofs.Attack
import Saturation.Proofs.Double.Scaling
import Saturation.Proofs.Fraction.Expansion

/-!
The best approximation of a value. Every fraction within the bound is a combination of the last
convergent and the last fraction in front of the next one. These two lie on both sides of the target,
so one of them is at least as near to it as the combination.
-/

set_option autoImplicit false

namespace Saturation.Fraction

open Exact (number)

def value (f : Fraction) : ℚ := f.numerator / f.denominator

/-- A fraction in lowest terms and within the bound that is as near to a value as any fraction within
the bound. -/
structure IsClosest (bound : Nat) (t : ℚ) (f : Fraction) : Prop where
  coprime : f.numerator.Coprime f.denominator
  pos : 1 ≤ f.denominator
  le : f.denominator ≤ bound
  nearest : ∀ a b : Nat, 1 ≤ b → b ≤ bound → |f.numerator / f.denominator - t| ≤ |a / b - t|

variable {f g t : Fraction} {bound : Nat}

theorem abs_value_sub (hf : 0 < f.denominator) (ht : 0 < t.denominator) :
    |f.value - t.value| = f.gap t / (f.denominator * t.denominator) := by
  have hf' : (0 : ℚ) < f.denominator := Nat.cast_pos.mpr hf
  have ht' : (0 : ℚ) < t.denominator := Nat.cast_pos.mpr ht
  have hgap : ((f.gap t : ℤ) : ℚ) = |((det f t : ℤ) : ℚ)| := by
    rw [gap_eq_abs, Int.cast_abs]
  rw [value, value, div_sub_div _ _ hf'.ne' ht'.ne', abs_div, abs_of_pos (mul_pos hf' ht'),
    ← Int.cast_natCast (f.gap t), hgap, det]
  push_cast
  ring_nf

theorem isNearer_iff (hf : 0 < f.denominator) (hg : 0 < g.denominator) (ht : 0 < t.denominator) :
    isNearer t f g = true ↔ |f.value - t.value| ≤ |g.value - t.value| := by
  have hf' : (0 : ℚ) < f.denominator := Nat.cast_pos.mpr hf
  have hg' : (0 : ℚ) < g.denominator := Nat.cast_pos.mpr hg
  have ht' : (0 : ℚ) < t.denominator := Nat.cast_pos.mpr ht
  rw [abs_value_sub hf ht, abs_value_sub hg ht, ← div_div, ← div_div,
    div_le_div_iff_of_pos_right ht', div_le_div_iff₀ hf' hg', isNearer, decide_eq_true_iff]
  exact_mod_cast Iff.rfl

/-! ### The last two fractions of an expansion -/

theorem det_mul_denominator (f g h : Fraction) :
    det f g * h.denominator = det h g * f.denominator + det f h * g.denominator := by
  simp only [det]
  ring

theorem det_mul_det (f g h t : Fraction) :
    det f g * det h t = det h g * det f t + det f h * det g t := by
  simp only [det]
  ring

namespace Expansion.IsLast

variable {e : Expansion}

/-- The two fractions have determinant 1 or -1, so each fraction is a combination of them; its
distance combines theirs with opposite signs. -/
theorem exists_combination (h : e.IsLast t bound) (ht : bound < t.denominator) (g : Fraction) :
    ∃ u w : ℤ, (g.denominator : ℤ) = u * e.later.denominator + w * (e.last bound).denominator ∧
      (g.gap t : ℤ) = |u * e.later.gap t - w * (e.last bound).gap t| := by
  have hlast : det e.later (e.last bound) = det e.later e.earlier := det_later_between e _
  have hsquare : det e.later e.earlier * det e.later e.earlier = 1 := by
    rw [← abs_mul_abs_self, h.det_eq, one_mul]
  have hlater : det e.later t = det e.later e.earlier * e.later.gap t := by
    rw [h.det_later, h.gap_later]
  have hgap : det (e.last bound) t = -(det e.later e.earlier * (e.last bound).gap t) := by
    rw [h.det_last, h.gap_last ht]
    push_cast [(h.steps_mul_lt ht).le]
    rfl
  have hunit := h.det_eq
  have hden := det_mul_denominator e.later (e.last bound) g
  have hdet := det_mul_det e.later (e.last bound) g t
  rw [hlast] at hden hdet
  rw [hlater, hgap] at hdet
  generalize det e.later e.earlier = s at hsquare hunit hden hdet
  refine ⟨s * det g (e.last bound), s * det e.later g, ?_, ?_⟩
  · linear_combination s * hden - (g.denominator : ℤ) * hsquare
  · have hcombined : s * det g (e.last bound) * e.later.gap t -
        s * det e.later g * (e.last bound).gap t = s * det g t := by
      linear_combination -hdet
    rw [hcombined, abs_mul, hunit, one_mul, gap_eq_abs]

/-- A fraction within the bound is no nearer to the target than both of the two. -/
theorem isNearer_or (h : e.IsLast t bound) (ht : bound < t.denominator)
    (hle : g.denominator ≤ bound) :
    isNearer t e.later g = true ∨ isNearer t (e.last bound) g = true := by
  obtain ⟨u, w, hden, hgap⟩ := h.exists_combination ht g
  have hlt := h.lt_last_add
  simp only [isNearer, decide_eq_true_iff]
  zify at hle hlt ⊢
  rw [hgap, hden]
  rw [hden] at hle
  have hgap0 : (0 : ℤ) ≤ e.later.gap t * (e.last bound).denominator +
      (e.last bound).gap t * e.later.denominator := by positivity
  rcases le_or_gt w 0 with hw | hw
  · left
    calc (e.later.gap t : ℤ) * (u * e.later.denominator + w * (e.last bound).denominator)
        ≤ (u * e.later.gap t - w * (e.last bound).gap t) * e.later.denominator := by
          linarith [mul_nonpos_of_nonpos_of_nonneg hw hgap0]
      _ ≤ _ := mul_le_mul_of_nonneg_right (le_abs_self _) (Nat.cast_nonneg _)
  · right
    -- With a positive amount of both, the denominator would be above the bound.
    have hu : u ≤ 0 := by
      by_contra hu
      have h1 : (e.later.denominator : ℤ) ≤ u * e.later.denominator :=
        le_mul_of_one_le_left (Nat.cast_nonneg _) (by omega)
      have h2 : ((e.last bound).denominator : ℤ) ≤ w * (e.last bound).denominator :=
        le_mul_of_one_le_left (Nat.cast_nonneg _) hw
      linarith
    calc ((e.last bound).gap t : ℤ) * (u * e.later.denominator + w * (e.last bound).denominator)
        ≤ -(u * e.later.gap t - w * (e.last bound).gap t) * (e.last bound).denominator := by
          linarith [mul_nonpos_of_nonpos_of_nonneg hu hgap0]
      _ ≤ _ := mul_le_mul_of_nonneg_right (neg_le_abs _) (Nat.cast_nonneg _)

/-- The nearer one of the two is as near to the target as any fraction within the bound. -/
theorem nearest (h : e.IsLast t bound) (ht : bound < t.denominator)
    (hlater : |f.value - t.value| ≤ |e.later.value - t.value|)
    (hlast : |f.value - t.value| ≤ |(e.last bound).value - t.value|) (hg : 0 < g.denominator)
    (hle : g.denominator ≤ bound) : |f.value - t.value| ≤ |g.value - t.value| := by
  have ht0 : 0 < t.denominator := by omega
  rcases h.isNearer_or ht hle with hnearer | hnearer
  · exact hlater.trans ((isNearer_iff h.later_pos hg ht0).mp hnearer)
  · exact hlast.trans ((isNearer_iff h.last_pos hg ht0).mp hnearer)

theorem later_coprime (h : e.IsLast t bound) :
    e.later.numerator.Coprime e.later.denominator := coprime_of_det h.det_eq

theorem last_coprime (h : e.IsLast t bound) :
    (e.last bound).numerator.Coprime (e.last bound).denominator := by
  apply coprime_of_det (g := e.later)
  rw [det_swap, abs_neg, last, det_later_between, h.det_eq]

end Expansion.IsLast

/-- Past the bound, the best approximation is the nearer one of the last two fractions of an
expansion. -/
theorem exists_last (hb : 1 ≤ bound) (h : t.numerator.Coprime t.denominator)
    (ht : bound < t.denominator) : ∃ e : Expansion, e.IsLast t bound ∧
      convergents bound ⟨0, 1⟩ ⟨1, 0⟩ t.numerator t.denominator = (e.earlier, e.later) ∧
      closest bound t = if isNearer t e.later (e.last bound) then e.later else e.last bound := by
  obtain ⟨e, he, hwalk⟩ := Expansion.convergents_isLast (Expansion.start_isOf h hb) ht
  have hwalk : convergents bound ⟨0, 1⟩ ⟨1, 0⟩ t.numerator t.denominator = (e.earlier, e.later) :=
    hwalk
  refine ⟨e, he, hwalk, ?_⟩
  rw [closest, if_neg (not_le.mpr ht), hwalk]
  rfl

/-- The best approximation of a fraction in lowest terms. -/
theorem closest_isClosest (hb : 1 ≤ bound) (h : t.numerator.Coprime t.denominator)
    (ht : 0 < t.denominator) : IsClosest bound t.value (closest bound t) := by
  rcases Nat.lt_or_ge bound t.denominator with hlt | hle
  · obtain ⟨e, he, -, hclosest⟩ := exists_last hb h hlt
    have hnearer := isNearer_iff he.later_pos he.last_pos ht
    rw [hclosest]
    split_ifs with hchoice
    · exact ⟨he.later_coprime, he.later_pos, he.later_le,
        fun a b => he.nearest hlt le_rfl (hnearer.mp hchoice) (g := ⟨a, b⟩)⟩
    · rw [hnearer, not_le] at hchoice
      exact ⟨he.last_coprime, he.last_pos, he.last_le,
        fun a b => he.nearest hlt hchoice.le le_rfl (g := ⟨a, b⟩)⟩
  · rw [closest_of_le hle]
    refine ⟨h, ht, hle, fun a b _ _ => ?_⟩
    rw [show (t.numerator / t.denominator : ℚ) = t.value from rfl, sub_self, abs_zero]
    exact abs_nonneg _

/-! ### Doubles -/

theorem reduced_coprime (n : Nat) {d : Nat} (hd : 0 < d) :
    (reduced n d).numerator.Coprime (reduced n d).denominator :=
  Nat.coprime_div_gcd_div_gcd (Nat.gcd_pos_of_pos_right n hd)

theorem reduced_pos (n : Nat) {d : Nat} (hd : 0 < d) : 0 < (reduced n d).denominator :=
  Nat.div_pos (Nat.gcd_le_right n hd) (Nat.gcd_pos_of_pos_right n hd)

theorem reduced_value (n : Nat) {d : Nat} (hd : 0 < d) : (reduced n d).value = n / d := by
  have hg : ((n.gcd d : Nat) : ℚ) ≠ 0 := Nat.cast_ne_zero.mpr (Nat.gcd_pos_of_pos_right n hd).ne'
  rw [value, reduced, Nat.cast_div (Nat.gcd_dvd_left n d) hg, Nat.cast_div (Nat.gcd_dvd_right n d) hg,
    div_div_div_cancel_right₀ hg]

/-- The fraction of a positive double below the limit is the best approximation of its value at 64
binary places. -/
theorem ofValue_isClosest {v : Float} {x : ℚ} (hx : Exact.ofFloat v = number x) (h0 : 0 < x)
    (hlimit : x < 2 ^ 40) (hb : 1 ≤ bound) :
    IsClosest bound (round (x * 2 ^ 64) / 2 ^ 64) (ofValue v bound) := by
  have hlow : Scalar.below Scalar.zero (number x) = true := (Exact.number_lt 0 x).mpr h0
  have hhigh : Scalar.atMost (Scalar.ofNat exactLimit) (number x) = false := by
    rw [Bool.eq_false_iff, ne_eq, Exact.ofNat_eq, Exact.atMost_iff, Exact.number_le, not_le]
    exact hlimit.trans_eq (by rw [exactLimit]; norm_num)
  have hfixed : ((fixedPoint : Nat) : ℚ) = 2 ^ 64 := by
    rw [fixedPoint]
    norm_num
  have hround : ((Scalar.nearest (number (x * fixedPoint)) : Nat) : ℚ) = round (x * 2 ^ 64) := by
    have hpos : 0 ≤ ⌊x * 2 ^ 64 + 1 / 2⌋ := Int.floor_nonneg.mpr (by positivity)
    rw [hfixed, round_eq, ← Int.toNat_of_nonneg hpos]
    rfl
  have hvalue : ofValue v bound =
      closest bound (reduced (Scalar.nearest (number (x * fixedPoint))) fixedPoint) := by
    rw [ofValue_eq, hx, ofValue, hlow, hhigh, max_eq_left hb]
    rfl
  have hpos : 0 < fixedPoint := by decide
  rw [hvalue, ← hround, ← hfixed, ← reduced_value _ hpos]
  exact closest_isClosest hb (reduced_coprime _ hpos) (reduced_pos _ hpos)

/-- With denominators up to 7, a tenth is nearest to a seventh. -/
theorem ofValue_isClosest_tenth :
    IsClosest 7 (round ((3602879701896397 / 36028797018963968 : ℚ) * 2 ^ 64) / 2 ^ 64)
      (ofValue (0.1 : Float) 7) ∧ ofValue (0.1 : Float) 7 = ⟨1, 7⟩ :=
  ⟨ofValue_isClosest (by decide +kernel) (by norm_num) (by norm_num) (by decide), by decide +kernel⟩

end Saturation.Fraction
