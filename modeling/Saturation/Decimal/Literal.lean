import Saturation.Decimal.Double

/-!
Numbers read from text: words and integers in a fixed range, and doubles.

A reader of a whole text gives nothing unless every character belongs to the number. A decimal
means the double nearest to its exact value; the rounding is `Float.ofScientific`.
-/

set_option autoImplicit false

namespace Saturation.Decimal

/-- A sign in front of a number. -/
def signed : List Char → Bool × List Char
  | '-' :: cs => (true, cs)
  | '+' :: cs => (false, cs)
  | cs => (false, cs)

/-- The value of a run of decimal digits. -/
def digitsValue (ds : List Char) : Nat := Nat.ofDigitChars 10 ds 0

/-- A text of digits alone, at least one. -/
def natural? (cs : List Char) : Option Nat :=
  if cs ≠ [] ∧ cs.all Char.isDigit then some (digitsValue cs) else none

/-- A 64-bit word; one plus sign may stand in front. -/
def word? (cs : List Char) : Option UInt64 :=
  let body := match cs with
    | '+' :: r => r
    | r => r
  match natural? body with
  | some n => if n < 0x10000000000000000 then some n.toUInt64 else none
  | none => none

/-- The integers a signed 64-bit word holds. -/
def inInt64 (n : Int) : Bool := decide (-0x8000000000000000 ≤ n ∧ n < 0x8000000000000000)

/-- A signed 64-bit integer with an optional sign. -/
def int64? (cs : List Char) : Option Int :=
  let (negative, body) := signed cs
  match natural? body with
  | some n =>
    let value : Int := if negative then -n else n
    if inInt64 value then some value else none
  | none => none

/-- The double nearest to `mantissa * 10 ^ exponent`, with a sign. -/
def scaled (negative : Bool) (mantissa : Nat) (exponent : Int) : Float :=
  let x := Float.ofScientific mantissa (decide (exponent < 0)) exponent.natAbs
  if negative then -x else x

/-- The value of an exponent's digits; once it has reached 65536, further digits add nothing. -/
def exponentValue (ds : List Char) : Nat :=
  ds.foldl (fun e d => if e < 0x10000 then 10 * e + (d.toNat - '0'.toNat) else e) 0

/-- An exponent mark with its digits, and what follows it. -/
def exponent? : List Char → Option (Int × List Char)
  | c :: cs =>
    if c = 'e' ∨ c = 'E' then
      let (negative, body) := signed cs
      let (ds, rest) := body.span Char.isDigit
      if ds = [] then none
      else some ((if negative then -(exponentValue ds : Int) else exponentValue ds), rest)
    else none
  | [] => none

/-- An exponent if there is one. -/
def optionalExponent (cs : List Char) : Int × List Char := (exponent? cs).getD (0, cs)

/-- Digits with at most one point among them, at least one digit in all, then an optional exponent:
the mantissa, the power of ten, and what follows. -/
def unsigned? (cs : List Char) : Option (Nat × Int × List Char) :=
  let (whole, rest) := cs.span Char.isDigit
  let (fraction, rest) := match rest with
    | '.' :: r => r.span Char.isDigit
    | r => ([], r)
  if whole = [] ∧ fraction = [] then none
  else
    let (e, rest) := optionalExponent rest
    some (digitsValue (whole ++ fraction), e - fraction.length, rest)

/-- A double: decimal digits with an optional point and exponent, or one of the names `inf`,
`infinity` and `nan` in any case of letters, each with an optional sign. -/
def double? (cs : List Char) : Option Float :=
  let (negative, body) := signed cs
  let name := body.map Char.toLower
  if name = ['i', 'n', 'f'] ∨ name = ['i', 'n', 'f', 'i', 'n', 'i', 't', 'y'] then
    some (if negative then -1.0 / 0.0 else 1.0 / 0.0)
  else if name = ['n', 'a', 'n'] then some (0.0 / 0.0)
  else match unsigned? body with
    | some (m, e, []) => some (scaled negative m e)
    | _ => none

end Saturation.Decimal
