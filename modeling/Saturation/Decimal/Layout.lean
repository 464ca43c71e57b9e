import Saturation.Decimal.Shortest

/-!
The written form of a double: positional for exponents in a range, with an exponent elsewhere.
A format is one `Layout` value, kept in the module that writes it.
-/

set_option autoImplicit false

namespace Saturation.Decimal

/-- What a format decides about the text of a double. -/
structure Layout where
  /-- The exponents of the first digit that are written positionally: from this one on, -/
  positionalFrom : Int
  /-- and below this one. -/
  positionalBelow : Int
  /-- Whether a positive exponent has a sign. -/
  plusSign : Bool
  tie : Tie
  deriving DecidableEq, Repr

/-- Positional notation; there is at least one digit on each side of the point. -/
def Digits.positional (d : Digits) : List Char :=
  if 0 ≤ d.exponent then d.digits ++ List.replicate d.exponent.toNat '0' ++ ['.', '0']
  else
    let places := (-d.exponent).toNat
    if places < d.digits.length then
      d.digits.take (d.digits.length - places) ++ '.' :: d.digits.drop (d.digits.length - places)
    else '0' :: '.' :: List.replicate (places - d.digits.length) '0' ++ d.digits

/-- One digit before the point, no point after a single digit, then the exponent. -/
def Digits.scientific (plusSign : Bool) (d : Digits) : List Char :=
  let mantissa := match d.digits with
    | first :: second :: rest => first :: '.' :: second :: rest
    | short => short
  let mark := if d.lead < 0 then ['e', '-'] else if plusSign then ['e', '+'] else ['e']
  mantissa ++ mark ++ Nat.toDigits 10 d.lead.natAbs

def Layout.digits (l : Layout) (d : Digits) : List Char :=
  if l.positionalFrom ≤ d.lead ∧ d.lead < l.positionalBelow then d.positional
  else d.scientific l.plusSign

/-- The text of a double; the names of the values that are not finite are the same in all formats. -/
def Layout.text (l : Layout) : Double → List Char
  | .notANumber => ['N', 'a', 'N']
  | .infinite negative => (if negative then ['-'] else []) ++ ['i', 'n', 'f']
  | .finite negative m q =>
    (if negative then ['-'] else []) ++
      if m = 0 then ['0', '.', '0'] else l.digits (shortest l.tie m q)

def Layout.ofFloat (l : Layout) (x : Float) : List Char := l.text (Double.ofFloat x)

end Saturation.Decimal
