import Saturation.Scalar

/-!
Best rational approximations: the fraction nearest to a value among those whose denominator stays
within a bound. The value is taken at 64 binary places, and all comparisons are exact.
-/

set_option autoImplicit false

namespace Saturation

structure Fraction where
  numerator : Nat
  denominator : Nat
  deriving DecidableEq, Repr

namespace Fraction

/-- The continued fraction of `n / d` as far as the denominators of its convergents stay within
`bound`: the last two convergents, the later one second. -/
def convergents (bound : Nat) (earlier later : Fraction) (n d : Nat) : Fraction × Fraction :=
  if _h : d = 0 then (earlier, later)
  else
    let a := n / d
    let next := earlier.denominator + a * later.denominator
    if bound < next then (earlier, later)
    else convergents bound later ⟨earlier.numerator + a * later.numerator, next⟩ d (n % d)
termination_by d
decreasing_by exact Nat.mod_lt _ (Nat.pos_of_ne_zero _h)

/-- The distance to `target`, times both denominators. -/
def gap (f target : Fraction) : Nat :=
  let p := f.numerator * target.denominator
  let q := target.numerator * f.denominator
  (p - q) + (q - p)

/-- Whether `f` is at least as near to `target` as `g`. -/
def isNearer (target f g : Fraction) : Bool :=
  decide (f.gap target * g.denominator ≤ g.gap target * f.denominator)

/-- The fraction nearest to a target in lowest terms, with a denominator within `bound`: the last
convergent within it or the last fraction between the convergents. -/
def closest (bound : Nat) (target : Fraction) : Fraction :=
  if target.denominator ≤ bound then target
  else
    let (earlier, later) := convergents bound ⟨0, 1⟩ ⟨1, 0⟩ target.numerator target.denominator
    let k := (bound - earlier.denominator) / later.denominator
    let between : Fraction :=
      ⟨earlier.numerator + k * later.numerator, earlier.denominator + k * later.denominator⟩
    if isNearer target later between then later else between

def reduced (n d : Nat) : Fraction := ⟨n / Nat.gcd n d, d / Nat.gcd n d⟩

/-- Values from this one on are rounded to whole numbers. -/
def exactLimit : Nat := 0x10000000000

/-- The scale at which a value is taken. -/
def fixedPoint : Nat := 0x10000000000000000

/-- The best approximation of a value; 0 for what is not positive. -/
def ofValue {α : Type} [Scalar α] (value : α) (maxDenominator : Nat) : Fraction :=
  if !Scalar.below Scalar.zero value then ⟨0, 1⟩
  else if Scalar.atMost (Scalar.ofNat exactLimit) value then ⟨min (Scalar.nearest value) 0xFFFFFFFFFFFFFFFF, 1⟩
  else
    closest (max maxDenominator 1)
      (reduced (Scalar.nearest (value * Scalar.ofNat fixedPoint)) fixedPoint)

end Fraction

end Saturation
