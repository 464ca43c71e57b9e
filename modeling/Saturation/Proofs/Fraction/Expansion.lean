import Mathlib.Algebra.Order.Ring.Abs
import Mathlib.Algebra.Order.Ring.Int
import Mathlib.RingTheory.Coprime.Lemmas
import Mathlib.Tactic.Linarith
import Mathlib.Tactic.LinearCombination
import Mathlib.Tactic.Ring
import Saturation.Fraction

/-!
The expansion of a target into a continued fraction. Two neighbouring convergents have determinant
1 or -1, and together with the quotient that is left they give back the target. So the distances of
the convergents to the target are what is left, and no fraction with a small denominator gets
between the last convergent and the last fraction in front of the next one.
-/

set_option autoImplicit false

namespace Saturation.Fraction

/-- The determinant of two fractions; it has the sign of their difference. -/
def det (f g : Fraction) : ℤ := f.numerator * g.denominator - g.numerator * f.denominator

theorem gap_eq_natAbs (f g : Fraction) : f.gap g = (det f g).natAbs := by
  have h : ∀ p q : Nat, p - q + (q - p) = ((p : ℤ) - q).natAbs := by omega
  rw [gap, h, det]
  push_cast
  rfl

theorem gap_eq_abs (f g : Fraction) : (f.gap g : ℤ) = |det f g| := by
  rw [gap_eq_natAbs, Int.natCast_natAbs]

/-- Fractions with determinant 1 or -1 are in lowest terms. -/
theorem coprime_of_det {f g : Fraction} (h : |det f g| = 1) :
    f.numerator.Coprime f.denominator := by
  rw [← Nat.isCoprime_iff_coprime]
  rcases abs_eq (zero_le_one' ℤ) |>.mp h with h | h
  · exact ⟨g.denominator, -g.numerator, by rw [det] at h; linarith⟩
  · exact ⟨-g.denominator, g.numerator, by rw [det] at h; linarith⟩

theorem det_swap (f g : Fraction) : det g f = -det f g := by
  simp only [det]
  ring

/-- Where the expansion of a target stands: the last two convergents, and the quotient `n / d` that is
left to expand. -/
structure Expansion where
  earlier : Fraction
  later : Fraction
  n : Nat
  d : Nat

namespace Expansion

def start (target : Fraction) : Expansion :=
  ⟨⟨0, 1⟩, ⟨1, 0⟩, target.numerator, target.denominator⟩

/-- The fractions from the earlier convergent on in the direction of the later one. With the whole
part of the quotient that is left for `k`, it is the next convergent. -/
def between (e : Expansion) (k : Nat) : Fraction :=
  ⟨e.earlier.numerator + k * e.later.numerator, e.earlier.denominator + k * e.later.denominator⟩

def next (e : Expansion) : Expansion := ⟨e.later, e.between (e.n / e.d), e.d, e.n % e.d⟩

/-- What holds of an expansion whose convergents have denominators within a bound. -/
structure IsOf (target : Fraction) (bound : Nat) (e : Expansion) : Prop where
  det_eq : |det e.later e.earlier| = 1
  numerator_eq : target.numerator = e.later.numerator * e.n + e.earlier.numerator * e.d
  denominator_eq : target.denominator = e.later.denominator * e.n + e.earlier.denominator * e.d
  coprime : e.n.Coprime e.d
  earlier_le : e.earlier.denominator ≤ bound
  later_le : e.later.denominator ≤ bound

theorem start_isOf {target : Fraction} {bound : Nat}
    (h : target.numerator.Coprime target.denominator) (hb : 1 ≤ bound) :
    (start target).IsOf target bound where
  det_eq := by simp [start, det]
  numerator_eq := by simp [start]
  denominator_eq := by simp [start]
  coprime := h
  earlier_le := hb
  later_le := Nat.zero_le bound

theorem det_between (e : Expansion) (k : Nat) (f : Fraction) :
    det (e.between k) f = det e.earlier f + k * det e.later f := by
  simp only [det, between]
  push_cast
  ring

theorem det_later_between (e : Expansion) (k : Nat) :
    det e.later (e.between k) = det e.later e.earlier := by
  simp only [det, between]
  push_cast
  ring

variable {target : Fraction} {bound : Nat} {e : Expansion}

namespace IsOf

theorem det_later (h : e.IsOf target bound) :
    det e.later target = det e.later e.earlier * e.d := by
  simp only [det, h.numerator_eq, h.denominator_eq]
  push_cast
  ring

theorem det_earlier (h : e.IsOf target bound) :
    det e.earlier target = -(det e.later e.earlier * e.n) := by
  simp only [det, h.numerator_eq, h.denominator_eq]
  push_cast
  ring

/-- The quotient does not end: with no remainder, the later convergent would be the target. -/
theorem d_pos (h : e.IsOf target bound) (ht : bound < target.denominator) : 0 < e.d := by
  rcases Nat.eq_zero_or_pos e.d with hd | hd
  · have hn : e.n = 1 := by
      have := h.coprime
      rwa [hd, Nat.coprime_zero_right] at this
    have hden := h.denominator_eq
    have hle := h.later_le
    rw [hd, hn] at hden
    omega
  · exact hd

theorem next (h : e.IsOf target bound)
    (hle : (e.between (e.n / e.d)).denominator ≤ bound) : e.next.IsOf target bound where
  det_eq := by
    show |det (e.between (e.n / e.d)) e.later| = 1
    rw [det_swap, det_later_between, abs_neg, h.det_eq]
  numerator_eq := by
    have hn := Nat.div_add_mod e.n e.d
    show _ = (e.earlier.numerator + e.n / e.d * e.later.numerator) * e.d +
      e.later.numerator * (e.n % e.d)
    rw [h.numerator_eq]
    linear_combination e.later.numerator * hn.symm
  denominator_eq := by
    have hn := Nat.div_add_mod e.n e.d
    show _ = (e.earlier.denominator + e.n / e.d * e.later.denominator) * e.d +
      e.later.denominator * (e.n % e.d)
    rw [h.denominator_eq]
    linear_combination e.later.denominator * hn.symm
  coprime := by
    show e.d.Coprime (e.n % e.d)
    rw [Nat.coprime_comm, Nat.coprime_iff_gcd_eq_one, ← Nat.gcd_rec, Nat.gcd_comm]
    exact h.coprime
  earlier_le := h.later_le
  later_le := hle

end IsOf

/-- The expansion ends where the next convergent would have a denominator above the bound. -/
structure IsLast (target : Fraction) (bound : Nat) (e : Expansion) : Prop extends
    e.IsOf target bound where
  lt_next : bound < (e.between (e.n / e.d)).denominator

/-- The walk through the convergents ends with the last two of the expansion. -/
theorem convergents_isLast (h : e.IsOf target bound) (ht : bound < target.denominator) :
    ∃ l : Expansion, l.IsLast target bound ∧
      convergents bound e.earlier e.later e.n e.d = (l.earlier, l.later) := by
  obtain ⟨earlier, later, n, d⟩ := e
  fun_induction convergents bound earlier later n d with
  | case1 earlier later n =>
    have := h.d_pos ht
    simp at this
  | case2 earlier later n d hd a next hlt => exact ⟨⟨earlier, later, n, d⟩, ⟨h, hlt⟩, rfl⟩
  | case3 earlier later n d hd a next hle ih => exact ih (h.next (not_lt.mp hle))

/-- How many steps from the earlier convergent stay within the bound. -/
def steps (e : Expansion) (bound : Nat) : Nat :=
  (bound - e.earlier.denominator) / e.later.denominator

/-- The last fraction in front of the next convergent that is within the bound. -/
def last (e : Expansion) (bound : Nat) : Fraction := e.between (e.steps bound)

namespace IsLast

theorem later_pos (h : e.IsLast target bound) : 0 < e.later.denominator := by
  have hle := h.earlier_le
  have hlt := h.lt_next
  rcases Nat.eq_zero_or_pos e.later.denominator with h0 | h0
  · simp only [between, h0] at hlt
    omega
  · exact h0

theorem last_le (h : e.IsLast target bound) : (e.last bound).denominator ≤ bound := by
  have hle := h.earlier_le
  have hsteps := Nat.div_mul_le_self (bound - e.earlier.denominator) e.later.denominator
  simp only [last, between, steps]
  omega

theorem lt_last_add (h : e.IsLast target bound) :
    bound < (e.last bound).denominator + e.later.denominator := by
  have hle := h.earlier_le
  have hsteps := Nat.lt_div_mul_add h.later_pos (a := bound - e.earlier.denominator)
  simp only [last, between, steps]
  omega

theorem last_pos (h : e.IsLast target bound) : 0 < (e.last bound).denominator := by
  have hlt := h.lt_last_add
  have hle := h.later_le
  omega

theorem steps_lt (h : e.IsLast target bound) : e.steps bound < e.n / e.d := by
  have hle := h.last_le
  have hlt := h.lt_next
  simp only [last, between] at hle hlt
  exact Nat.lt_of_mul_lt_mul_right (a := e.later.denominator) (by omega)

/-- Of the quotient that is left, more than the steps is left behind them. -/
theorem steps_mul_lt (h : e.IsLast target bound) (ht : bound < target.denominator) :
    e.steps bound * e.d < e.n := by
  have hd := h.d_pos ht
  have hle : (e.steps bound + 1) * e.d ≤ e.n :=
    (Nat.mul_le_mul_right e.d h.steps_lt).trans (Nat.div_mul_le_self e.n e.d)
  rw [Nat.add_mul, Nat.one_mul] at hle
  omega

theorem gap_later (h : e.IsLast target bound) : e.later.gap target = e.d := by
  rw [gap_eq_natAbs, h.det_later, Int.natAbs_mul, Int.natAbs_natCast]
  have := h.det_eq
  rw [Int.abs_eq_natAbs] at this
  norm_cast at this
  rw [this, one_mul]

theorem det_last (h : e.IsLast target bound) :
    det (e.last bound) target =
      -(det e.later e.earlier * ((e.n : ℤ) - e.steps bound * e.d)) := by
  rw [last, det_between, h.det_earlier, h.det_later]
  ring

theorem gap_last (h : e.IsLast target bound) (ht : bound < target.denominator) :
    (e.last bound).gap target = e.n - e.steps bound * e.d := by
  have hlt := h.steps_mul_lt ht
  have habs : ((e.last bound).gap target : ℤ) = (e.n : ℤ) - e.steps bound * e.d := by
    rw [gap_eq_abs, h.det_last, abs_neg, abs_mul, h.det_eq, one_mul, abs_of_nonneg]
    have : ((e.steps bound * e.d : Nat) : ℤ) < e.n := by exact_mod_cast hlt
    push_cast at this
    linarith
  have hcast : ((e.n - e.steps bound * e.d : Nat) : ℤ) = (e.n : ℤ) - e.steps bound * e.d := by
    push_cast [hlt.le]
    rfl
  exact_mod_cast habs.trans hcast.symm

end IsLast

end Expansion

end Saturation.Fraction
