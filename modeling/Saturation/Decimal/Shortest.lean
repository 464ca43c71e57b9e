import Saturation.Decimal.Double

/-!
The shortest decimal of a positive double: among the decimals that read back as the double, those
with the fewest digits, and among these the nearest.

A decimal reads back as `m * 2 ^ q` when it lies between the midpoints to the neighbouring
doubles, the midpoints included if `m` is even. The search tests the two neighbours of the exact
value on the decimal grids of 1, 2, ... 17 digits, in whole numbers.
-/

set_option autoImplicit false

namespace Saturation.Decimal

/-- Which of two equally near decimals is taken. -/
inductive Tie where
  | up
  | toEven
  deriving DecidableEq, Repr

/-- The digits of a decimal, the last with the weight `10 ^ exponent`. -/
structure Digits where
  digits : List Char
  exponent : Int
  deriving DecidableEq, Repr

/-- The exponent of the first digit. -/
def Digits.lead (d : Digits) : Int := d.exponent + d.digits.length - 1

/-- The doubles' neighbourhood of a value: `value / scale`, and the midpoints below and above. -/
structure Band where
  value : Nat
  low : Nat
  high : Nat
  scale : Nat
  closed : Bool
  deriving DecidableEq, Repr

def Band.ofParts (m : Nat) (q : Int) : Band :=
  let down := if m = Double.leastNormal ∧ Double.leastExponent < q then 1 else 2
  let up := Nat.pow 2 (q - 2).toNat
  { value := 4 * m * up
    low := (4 * m - down) * up
    high := (4 * m + 2) * up
    scale := Nat.pow 2 (2 - q).toNat
    closed := m % 2 == 0 }

/-- Whether `c * 10 ^ p` lies in the band. -/
def Band.contains (b : Band) (c : Nat) (p : Int) : Bool :=
  let point := c * b.scale * Nat.pow 10 p.toNat
  let unit := Nat.pow 10 (-p).toNat
  if b.closed then decide (b.low * unit ≤ point ∧ point ≤ b.high * unit)
  else decide (b.low * unit < point ∧ point < b.high * unit)

/-- The largest `e` with `10 ^ e ≤ value / scale`. -/
def Band.lead (b : Band) : Int :=
  if b.scale ≤ b.value then (Nat.toDigits 10 (b.value / b.scale)).length - 1
  else -((Nat.toDigits 10 ((b.scale + b.value - 1) / b.value - 1)).length : Int)

/-- The nearest decimal of the grid `10 ^ p` that lies in the band. -/
def Band.onGrid (b : Band) (tie : Tie) (p : Int) : Option Nat :=
  let num := b.value * Nat.pow 10 (-p).toNat
  let den := b.scale * Nat.pow 10 p.toNat
  let c := num / den
  match b.contains c p, b.contains (c + 1) p with
  | false, false => none
  | true, false => some c
  | false, true => some (c + 1)
  | true, true =>
    let rest := 2 * (num % den)
    if rest < den then some c
    else if den < rest then some (c + 1)
    else match tie with
      | .up => some (c + 1)
      | .toEven => some (if c % 2 = 0 then c else c + 1)

/-- The first hit on `n` grids, each ten times finer than the one before. Seventeen grids always
have a hit: their last step is below the width of the band. -/
def Band.search (b : Band) (tie : Tie) : Nat → Int → Nat × Int
  | 0, p => (b.value * Nat.pow 10 (-p).toNat / (b.scale * Nat.pow 10 p.toNat), p)
  | n + 1, p =>
    match b.onGrid tie p with
    | some c => (c, p)
    | none => b.search tie n (p - 1)

/-- A decimal without the zeros at its end. -/
def Digits.trimmed (c : Nat) (p : Int) : Digits :=
  let ds := Nat.toDigits 10 c
  let kept := (ds.reverse.dropWhile (· == '0')).reverse
  ⟨kept, p + (ds.length - kept.length : Nat)⟩

/-- The shortest decimal of `m * 2 ^ q`, where `m` is positive. -/
def shortest (tie : Tie) (m : Nat) (q : Int) : Digits :=
  let b := Band.ofParts m q
  let (c, p) := b.search tie 17 b.lead
  Digits.trimmed c p

end Saturation.Decimal
