import Saturation.Decimal.Double

/-!
Doubles with a fixed number of places after the point. The exact value is rounded once, a half
going to the even neighbour.
-/

set_option autoImplicit false

namespace Saturation.Decimal

/-- A quotient to the nearest natural number, a half going to the even one. -/
def roundHalfEven (num den : Nat) : Nat :=
  let c := num / den
  let rest := 2 * (num % den)
  if rest < den then c
  else if den < rest then c + 1
  else if c % 2 = 0 then c else c + 1

/-- `c` units of `10 ^ -places`, written out. -/
def placed (places c : Nat) : List Char :=
  let ds := Nat.toDigits 10 c
  let full := List.replicate (places + 1 - ds.length) '0' ++ ds
  full.take (full.length - places) ++ '.' :: full.drop (full.length - places)

/-- The value `m * 2 ^ q` in units of `10 ^ -places`. -/
def unitsOf (places m : Nat) (q : Int) : Nat :=
  roundHalfEven (m * Nat.pow 10 places * Nat.pow 2 q.toNat) (Nat.pow 2 (-q).toNat)

def fixed (places : Nat) : Double → List Char
  | .notANumber => ['N', 'a', 'N']
  | .infinite negative => (if negative then ['-'] else []) ++ ['i', 'n', 'f']
  | .finite negative m q => (if negative then ['-'] else []) ++ placed places (unitsOf places m q)

/-- The text of a double with the given number of places, at least one. -/
def fixedText (places : Nat) (x : Float) : String := String.ofList (fixed places (Double.ofFloat x))

end Saturation.Decimal
