import Saturation.Proofs.Attack
import Saturation.Proofs.Fraction.Closest

/-!
The best approximation in machine words. Here the computation goes on only as long as each sum and
product fits in 128 bits, no difference is below zero and no divisor is zero. For a double it always
comes to its end, with the fraction that the definition on natural numbers gives: what is left of
the quotient times the next denominator stays within the denominator of the target, and the target
has the few bits of a double.
-/

set_option autoImplicit false

namespace Saturation

open Exact (number)

/-! ### Words -/

namespace Word

/-- A number as a word of 128 bits. -/
def held (n : Nat) : Option Nat := if n < 2 ^ 128 then some n else none

def add (a b : Nat) : Option Nat := held (a + b)

def mul (a b : Nat) : Option Nat := held (a * b)

def sub (a b : Nat) : Option Nat := if b ≤ a then some (a - b) else none

def div (a b : Nat) : Option Nat := if b = 0 then none else some (a / b)

variable {a b : Nat}

theorem held_eq (h : a < 2 ^ 128) : held a = some a := if_pos h

theorem add_eq (h : a + b < 2 ^ 128) : add a b = some (a + b) := if_pos h

theorem mul_eq (h : a * b < 2 ^ 128) : mul a b = some (a * b) := if_pos h

theorem sub_eq (h : b ≤ a) : sub a b = some (a - b) := if_pos h

theorem div_eq (h : 0 < b) : div a b = some (a / b) := if_neg h.ne'

variable {c : Nat}

theorem eq_of_mul (h : mul a b = some c) : c = a * b := by
  rw [mul, held, Option.ite_none_right_eq_some] at h
  exact (Option.some.inj h.2).symm

theorem eq_of_sub (h : sub a b = some c) : c = a - b := by
  rw [sub, Option.ite_none_right_eq_some] at h
  exact (Option.some.inj h.2).symm

theorem eq_of_div (h : div a b = some c) : 0 < b ∧ c = a / b := by
  rw [div, Option.ite_none_left_eq_some] at h
  exact ⟨Nat.pos_of_ne_zero h.1, (Option.some.inj h.2).symm⟩

end Word

namespace Fraction

namespace Checked

open Word

/-- One pass of the walk through the convergents: what is left to expand behind the next one, or
nothing if its denominator is above the bound. -/
def pass (bound : Nat) (e : Expansion) : Option (Option Expansion) := do
  let a ← div e.n e.d
  let q ← add e.earlier.denominator (← mul a e.later.denominator)
  if bound < q then
    pure none
  else
    let p ← add e.earlier.numerator (← mul a e.later.numerator)
    let r ← sub e.n (← mul a e.d)
    pure (some ⟨e.later, ⟨p, q⟩, e.d, r⟩)

/-- A pass that leaves something to expand leaves a smaller remainder, so the walk ends. -/
theorem d_lt_of_pass {bound : Nat} {e rest : Expansion} (h : pass bound e = some (some rest)) :
    rest.d < e.d := by
  simp only [pass, Option.bind_eq_bind, Option.bind_eq_some_iff] at h
  obtain ⟨a, ha, -, -, q, -, h⟩ := h
  obtain ⟨hd, rfl⟩ := eq_of_div ha
  split_ifs at h
  · cases h
  simp only [Option.bind_eq_some_iff] at h
  obtain ⟨-, -, p, -, whole, hwhole, r, hr, h⟩ := h
  cases h
  have hwhole := eq_of_mul hwhole
  have hrest := eq_of_sub hr
  rw [hrest, hwhole, ← Nat.mod_eq_sub_div_mul]
  exact Nat.mod_lt e.n hd

/-- The walk in words. -/
def walk (bound : Nat) (e : Expansion) : Option (Fraction × Fraction) :=
  match _ : pass bound e with
  | none => none
  | some none => some (e.earlier, e.later)
  | some (some rest) => walk bound rest
termination_by e.d
decreasing_by exact d_lt_of_pass ‹_›

/-- The distance of a fraction to a target, times both denominators. -/
def distance (f target : Fraction) : Option Nat := do
  let p ← mul f.numerator target.denominator
  let q ← mul target.numerator f.denominator
  pure ((p - q) + (q - p))

def isNearer (target f g : Fraction) : Option Bool := do
  let distanceF ← distance f target
  let distanceG ← distance g target
  let a ← mul distanceF g.denominator
  let b ← mul distanceG f.denominator
  pure (decide (a ≤ b))

def reduced (n d : Nat) : Option Fraction :=
  if Nat.gcd n d = 0 then pure ⟨0, 1⟩
  else do
    let p ← div n (Nat.gcd n d)
    let q ← div d (Nat.gcd n d)
    pure ⟨p, q⟩

/-- The last fraction in front of the next convergent that is within the bound. -/
def last (bound : Nat) (earlier later : Fraction) : Option Fraction := do
  let k ← div (← sub bound earlier.denominator) later.denominator
  let p ← add earlier.numerator (← mul k later.numerator)
  let q ← add earlier.denominator (← mul k later.denominator)
  pure ⟨p, q⟩

def closest (bound : Nat) (target : Fraction) : Option Fraction :=
  if target.denominator ≤ bound then reduced target.numerator target.denominator
  else do
    let (earlier, later) ← walk bound (.start target)
    let between ← last bound earlier later
    if ← isNearer target later between then reduced later.numerator later.denominator
    else reduced between.numerator between.denominator

/-- The fraction of a double in words; the conversion to 64 bits cuts off what is above them. -/
def ofValue (value : Float) (maxDenominator : UInt64) : Option (UInt64 × UInt64) :=
  if !Scalar.below Scalar.zero value then some (0, 1)
  else if Scalar.atMost (Scalar.ofNat exactLimit) value then
    some ((min (Scalar.nearest value) 0xFFFFFFFFFFFFFFFF).toUInt64, 1)
  else do
    let n ← held (Scalar.nearest (value * Scalar.ofNat fixedPoint))
    let target ← reduced n fixedPoint
    let best ← closest (max maxDenominator.toNat 1) target
    pure (best.numerator.toUInt64, best.denominator.toUInt64)

end Checked

/-! ### The expansion -/

/-- A target with the bits of a double at 64 binary places. -/
structure Fits (t : Fraction) : Prop where
  numerator_le : t.numerator ≤ 2 ^ 53
  denominator_le : t.denominator ≤ 2 ^ 64

namespace Expansion

variable {target : Fraction} {bound : Nat} {e : Expansion}

/-- What is left of the quotient keeps the fractions up to the next convergent within the target. -/
theorem IsOf.between_mul_le (h : e.IsOf target bound) {k : Nat} (hk : k ≤ e.n / e.d) :
    (e.between k).numerator * e.d ≤ target.numerator ∧
      (e.between k).denominator * e.d ≤ target.denominator := by
  have hn : k * e.d ≤ e.n := (Nat.mul_le_mul_right e.d hk).trans (Nat.div_mul_le_self e.n e.d)
  rw [h.numerator_eq, h.denominator_eq]
  constructor
  · calc (e.earlier.numerator + k * e.later.numerator) * e.d
        = e.later.numerator * (k * e.d) + e.earlier.numerator * e.d := by ring
      _ ≤ _ := Nat.add_le_add_right (Nat.mul_le_mul_left _ hn) _
  · calc (e.earlier.denominator + k * e.later.denominator) * e.d
        = e.later.denominator * (k * e.d) + e.earlier.denominator * e.d := by ring
      _ ≤ _ := Nat.add_le_add_right (Nat.mul_le_mul_left _ hn) _

theorem IsOf.between_le (h : e.IsOf target bound) (ht : bound < target.denominator) {k : Nat}
    (hk : k ≤ e.n / e.d) :
    (e.between k).numerator ≤ target.numerator ∧ (e.between k).denominator ≤ target.denominator := by
  obtain ⟨hnum, hden⟩ := h.between_mul_le hk
  have hd := h.d_pos ht
  exact ⟨(Nat.le_mul_of_pos_right _ hd).trans hnum, (Nat.le_mul_of_pos_right _ hd).trans hden⟩

theorem IsLast.later_le_target (h : e.IsLast target bound) (ht : bound < target.denominator) :
    e.later.numerator ≤ target.numerator := by
  have hn := h.steps_mul_lt ht
  calc e.later.numerator ≤ e.later.numerator * e.n := Nat.le_mul_of_pos_right _ (by omega)
    _ ≤ target.numerator := by
      rw [h.numerator_eq]
      exact Nat.le_add_right _ _

/-- The products of the comparison stay within the denominator of the target. -/
theorem IsLast.gap_mul_le (h : e.IsLast target bound) (ht : bound < target.denominator) :
    e.later.gap target * (e.last bound).denominator ≤ target.denominator ∧
      (e.last bound).gap target * e.later.denominator ≤ target.denominator := by
  constructor
  · rw [h.gap_later, mul_comm]
    exact (h.between_mul_le h.steps_lt.le).2
  · rw [h.gap_last ht, h.denominator_eq, mul_comm]
    exact (Nat.mul_le_mul_left _ (Nat.sub_le _ _)).trans (Nat.le_add_right _ _)

end Expansion

/-! ### No step fails -/

namespace Checked

open Word

variable {target : Fraction} {bound : Nat} {e : Expansion}

theorem pass_eq (h : e.IsOf target bound) (hf : target.Fits) (ht : bound < target.denominator)
    (hn : e.n ≤ 2 ^ 64) :
    pass bound e =
      some (if bound < (e.between (e.n / e.d)).denominator then none else some e.next) := by
  have hd := h.d_pos ht
  obtain ⟨hnum, hden⟩ := h.between_le ht le_rfl
  have hwhole := Nat.div_mul_le_self e.n e.d
  have hnum' := hf.numerator_le
  have hden' := hf.denominator_le
  simp only [Expansion.between] at hnum hden
  simp only [pass, div_eq hd, mul_eq (by omega : e.n / e.d * e.later.denominator < 2 ^ 128),
    mul_eq (by omega : e.n / e.d * e.later.numerator < 2 ^ 128),
    mul_eq (by omega : e.n / e.d * e.d < 2 ^ 128),
    add_eq (by omega : e.earlier.denominator + e.n / e.d * e.later.denominator < 2 ^ 128),
    add_eq (by omega : e.earlier.numerator + e.n / e.d * e.later.numerator < 2 ^ 128),
    sub_eq hwhole, Option.bind_eq_bind, Option.bind_some]
  rw [← Nat.mod_eq_sub_div_mul]
  show ite (bound < (e.between (e.n / e.d)).denominator) _ _ = _
  split_ifs <;> rfl

/-- The walk ends where the walk on natural numbers does. -/
theorem walk_eq (h : e.IsOf target bound) (hf : target.Fits) (ht : bound < target.denominator)
    (hn : e.n ≤ 2 ^ 64) (hd : e.d ≤ 2 ^ 64) :
    walk bound e = some (convergents bound e.earlier e.later e.n e.d) := by
  obtain ⟨earlier, later, n, d⟩ := e
  fun_induction convergents bound earlier later n d with
  | case1 earlier later n =>
    have := h.d_pos ht
    simp at this
  | case2 earlier later n d hd0 a next hlt =>
    have hpass := (pass_eq h hf ht hn).trans (congrArg some (if_pos hlt))
    rw [walk, hpass]
  | case3 earlier later n d hd0 a next hle ih =>
    have hpass := (pass_eq h hf ht hn).trans (congrArg some (if_neg hle))
    rw [walk, hpass]
    exact ih (h.next (not_lt.mp hle)) hd ((Nat.mod_lt n (Nat.pos_of_ne_zero hd0)).le.trans hd)

theorem reduced_eq (n : Nat) {d : Nat} (hd : 0 < d) : reduced n d = some (Fraction.reduced n d) := by
  have hg : 0 < Nat.gcd n d := Nat.gcd_pos_of_pos_right n hd
  simp only [reduced, if_neg hg.ne', div_eq hg, Option.bind_eq_bind, Option.bind_some]
  rfl

theorem reduced_coprime {f : Fraction} (h : f.numerator.Coprime f.denominator) :
    reduced f.numerator f.denominator = some f := by
  simp only [reduced, Nat.Coprime.gcd_eq_one h, one_ne_zero, if_false, div_eq zero_lt_one,
    Option.bind_eq_bind, Option.bind_some, Nat.div_one]
  rfl

theorem distance_eq {f : Fraction} (hf : target.Fits) (hnum : f.numerator ≤ target.numerator)
    (hden : f.denominator ≤ target.denominator) : distance f target = some (f.gap target) := by
  have hmul : ∀ a b : Nat, a ≤ 2 ^ 53 → b ≤ 2 ^ 64 → a * b < 2 ^ 128 := fun a b ha hb =>
    (Nat.mul_le_mul ha hb).trans_lt (by decide)
  simp only [distance, mul_eq (hmul _ _ (hnum.trans hf.numerator_le) hf.denominator_le),
    mul_eq (hmul _ _ hf.numerator_le (hden.trans hf.denominator_le)), Option.bind_eq_bind,
    Option.bind_some]
  rfl

theorem isNearer_eq (h : e.IsLast target bound) (hf : target.Fits)
    (ht : bound < target.denominator) :
    isNearer target e.later (e.last bound) =
      some (Fraction.isNearer target e.later (e.last bound)) := by
  obtain ⟨hlater, hlast⟩ := h.gap_mul_le ht
  obtain ⟨hnum, hden⟩ := h.between_le ht h.steps_lt.le
  have hlimit := hf.denominator_le
  simp only [isNearer,
    distance_eq hf (h.later_le_target ht) (h.later_le.trans ht.le),
    distance_eq (f := e.last bound) hf hnum hden,
    mul_eq (by omega : e.later.gap target * (e.last bound).denominator < 2 ^ 128),
    mul_eq (by omega : (e.last bound).gap target * e.later.denominator < 2 ^ 128),
    Option.bind_eq_bind, Option.bind_some]
  rfl

theorem last_eq (h : e.IsLast target bound) (hf : target.Fits) (ht : bound < target.denominator) :
    last bound e.earlier e.later = some (e.last bound) := by
  obtain ⟨hnum, hden⟩ := h.between_le ht h.steps_lt.le
  have hnum' := hf.numerator_le
  have hden' := hf.denominator_le
  simp only [Expansion.between] at hnum hden
  have hk : div (bound - e.earlier.denominator) e.later.denominator = some (e.steps bound) :=
    div_eq h.later_pos
  simp only [last, sub_eq h.earlier_le, hk,
    mul_eq (by omega : e.steps bound * e.later.numerator < 2 ^ 128),
    mul_eq (by omega : e.steps bound * e.later.denominator < 2 ^ 128),
    add_eq (by omega : e.earlier.numerator + e.steps bound * e.later.numerator < 2 ^ 128),
    add_eq (by omega : e.earlier.denominator + e.steps bound * e.later.denominator < 2 ^ 128),
    Option.bind_eq_bind, Option.bind_some]
  rfl

theorem closest_eq (hb : 1 ≤ bound) (h : target.numerator.Coprime target.denominator)
    (hf : target.Fits) : closest bound target = some (Fraction.closest bound target) := by
  rcases Nat.lt_or_ge bound target.denominator with ht | hle
  · obtain ⟨e, he, hconvergents, hclosest⟩ := exists_last hb h ht
    have hwalk := (walk_eq (Expansion.start_isOf h hb) hf ht
      (hf.numerator_le.trans (by decide)) hf.denominator_le).trans (congrArg some hconvergents)
    rw [hclosest, closest, if_neg (not_le.mpr ht)]
    simp only [hwalk, last_eq he hf ht, isNearer_eq he hf ht, reduced_coprime he.later_coprime,
      reduced_coprime he.last_coprime, Option.bind_eq_bind, Option.bind_some]
    split_ifs <;> rfl
  · rw [closest, if_pos hle, reduced_coprime h, Fraction.closest_of_le hle]

end Checked

/-! ### Doubles -/

/-- What a double becomes at 64 binary places has its bits again when it is reduced. -/
theorem reduced_fits {m : Nat} (hm : m < 2 ^ 53) (q : Int)
    (h : Double.roundHalfUp m q ≤ 2 ^ 104) :
    (reduced (Double.roundHalfUp m q) fixedPoint).Fits := by
  refine ⟨?_, Nat.div_le_self _ _⟩
  have hself : ∀ n d : Nat, (reduced n d).numerator ≤ n := fun n d => Nat.div_le_self n _
  cases q with
  | negSucc j =>
    refine (hself _ _).trans ?_
    show (m + 2 ^ j) / 2 ^ (j + 1) ≤ 2 ^ 53
    apply Nat.div_le_of_le_mul
    have hj : 0 < 2 ^ j := Nat.two_pow_pos j
    rw [pow_succ]
    nlinarith
  | ofNat j =>
    change m * 2 ^ j ≤ 2 ^ 104 at h
    show (reduced (m * 2 ^ j) fixedPoint).numerator ≤ 2 ^ 53
    rcases Nat.le_total j 64 with hj | hj
    · -- The scale is divided by the whole power of two.
      have hscale : fixedPoint = 2 ^ (64 - j) * 2 ^ j := by
        rw [← pow_add, Nat.sub_add_cancel hj]
        rfl
      rw [hscale, reduced_mul (Nat.two_pow_pos j)]
      exact (hself _ _).trans hm.le
    · have hvalue : m * 2 ^ j = m * 2 ^ (j - 64) * fixedPoint := by
        rw [show fixedPoint = 2 ^ 64 from rfl, mul_assoc, ← pow_add, Nat.sub_add_cancel hj]
      have hreduced := reduced_mul (by decide : 0 < fixedPoint) (m * 2 ^ (j - 64)) 1
      rw [Nat.one_mul] at hreduced
      rw [hvalue] at h ⊢
      rw [hreduced]
      refine (hself _ _).trans ?_
      simp only [fixedPoint] at h
      omega

/-- Scaled to 64 binary places, a double below the limit fits. -/
theorem reduced_nearest_fits {y : Float} {a : ℚ} (hy : Exact.ofFloat y = number a) (h0 : 0 < a)
    (hle : a ≤ 2 ^ 104) :
    Scalar.nearest y ≤ 2 ^ 104 ∧ (reduced (Scalar.nearest y) fixedPoint).Fits := by
  obtain ⟨m, q, -, hread, rfl⟩ := Double.finite_of_pos hy h0
  have hm : m < 2 ^ 53 := (Double.isCanonical_ofFloat hread).1.lt
  have hnearest : Scalar.nearest y = Double.roundHalfUp m q := by
    show (Double.ofFloat y).nearest = _
    rw [hread]
    rfl
  have hbound : Double.roundHalfUp m q ≤ 2 ^ 104 := by
    have hfloor := Double.roundHalfUp_eq m q
    have hlt : ⌊(m : ℚ) * 2 ^ q + 1 / 2⌋ < 2 ^ 104 + 1 :=
      Int.floor_lt.mpr (by push_cast; linarith)
    omega
  rw [hnearest]
  exact ⟨hbound, reduced_fits hm q hbound⟩

theorem target_fits {x : Float} {a : ℚ} (hx : Exact.ofFloat x = number a) (h0 : 0 < a)
    (ha : a < exactLimit) :
    Scalar.nearest (x * Scalar.ofNat fixedPoint) ≤ 2 ^ 104 ∧
      (reduced (Scalar.nearest (x * Scalar.ofNat fixedPoint)) fixedPoint).Fits := by
  have hscaled := Double.exact_mul_fixedPoint hx h0 ha
  have hle : a * fixedPoint ≤ 2 ^ 104 := by
    rw [exactLimit] at ha
    rw [fixedPoint]
    push_cast at ha ⊢
    linarith
  exact reduced_nearest_fits hscaled (mul_pos h0 (Nat.cast_pos.mpr (by decide))) hle

/-- The numerator of the best approximation of a target that fits. -/
theorem closest_numerator_le {bound : Nat} {t : Fraction} (hb : 1 ≤ bound)
    (h : t.numerator.Coprime t.denominator) (hf : t.Fits) :
    (closest bound t).numerator ≤ 2 ^ 53 := by
  rcases Nat.lt_or_ge bound t.denominator with ht | hle
  · obtain ⟨e, he, -, hclosest⟩ := exists_last hb h ht
    rw [hclosest]
    split_ifs
    · exact (he.later_le_target ht).trans hf.numerator_le
    · exact (he.between_le ht he.steps_lt.le).1.trans hf.numerator_le
  · rw [closest_of_le hle]
    exact hf.numerator_le

/-- For every double and every bound of 64 bits the computation in words comes to its end, and the
conversions of its result lose nothing. -/
theorem ofValue_checked (v : Float) (maxDenominator : UInt64) :
    ∃ n d : UInt64, Checked.ofValue v maxDenominator = some (n, d) ∧
      ofValue v maxDenominator.toNat = ⟨n.toNat, d.toNat⟩ := by
  rw [ofValue, Checked.ofValue]
  split_ifs with hpos hlimit
  · exact ⟨0, 1, rfl, rfl⟩
  · have hword : (min (Scalar.nearest v) 0xFFFFFFFFFFFFFFFF).toUInt64.toNat =
        min (Scalar.nearest v) 0xFFFFFFFFFFFFFFFF :=
      UInt64.toNat_ofNat_of_lt' ((min_le_right _ _).trans_lt (by decide))
    exact ⟨_, 1, rfl, by rw [hword]; rfl⟩
  · rw [Bool.not_eq_true', Bool.not_eq_false] at hpos
    obtain ⟨a, hx, h0, ha⟩ := Double.exists_value hpos hlimit
    obtain ⟨hnearest, hfits⟩ := target_fits hx h0 ha
    have hfixed : 0 < fixedPoint := by decide
    have hb : 1 ≤ max maxDenominator.toNat 1 := le_max_right _ _
    have hcoprime := reduced_coprime (Scalar.nearest (v * Scalar.ofNat fixedPoint)) hfixed
    have hbest := Checked.closest_eq hb hcoprime hfits
    have hnum := closest_numerator_le hb hcoprime hfits
    have hden := (closest_isClosest hb hcoprime (reduced_pos _ hfixed)).le
    have hlt := maxDenominator.toNat_lt
    generalize closest (max maxDenominator.toNat 1)
      (reduced (Scalar.nearest (v * Scalar.ofNat fixedPoint)) fixedPoint) = best at *
    have hnumerator : best.numerator.toUInt64.toNat = best.numerator :=
      UInt64.toNat_ofNat_of_lt' (hnum.trans_lt (by decide))
    have hdenominator : best.denominator.toUInt64.toNat = best.denominator :=
      UInt64.toNat_ofNat_of_lt' (hden.trans_lt (max_lt hlt (by decide)))
    refine ⟨best.numerator.toUInt64, best.denominator.toUInt64, ?_, ?_⟩
    · simp only [Word.held_eq (hnearest.trans_lt (by decide)), Checked.reduced_eq _ hfixed, hbest,
        Option.bind_eq_bind, Option.bind_some]
      rfl
    · rw [hnumerator, hdenominator]

end Fraction

end Saturation
