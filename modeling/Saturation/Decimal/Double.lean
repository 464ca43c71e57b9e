import Saturation.Scalar

/-!
A double read as what it stands for: a sign, and a natural mantissa times a power of two.

Texts of numbers and roundings are computed from this reading in exact arithmetic; nothing here
depends on how a machine rounds.
-/

set_option autoImplicit false

namespace Saturation

/-- A double apart from its bits: `finite s m q` is `m * 2 ^ q` with the sign of `s`. -/
inductive Double where
  | notANumber
  | infinite (negative : Bool)
  | finite (negative : Bool) (mantissa : Nat) (exponent : Int)
  deriving DecidableEq, Repr

namespace Double

/-- The exponent of the smallest step between doubles. -/
def leastExponent : Int := -1074

/-- The mantissa at which the step below is half the step above. -/
def leastNormal : Nat := 0x10000000000000

def ofBits (bits : UInt64) : Double :=
  let n := bits.toNat
  let negative := decide (0x8000000000000000 ≤ n)
  let biased := n / leastNormal % 0x800
  let fraction := n % leastNormal
  if biased = 2047 then
    if fraction = 0 then .infinite negative else .notANumber
  else if biased = 0 then .finite negative fraction leastExponent
  else .finite negative (leastNormal + fraction) (leastExponent + (biased - 1 : Nat))

def ofFloat (x : Float) : Double := ofBits x.toBits

def isFinite : Double → Bool
  | .finite _ _ _ => true
  | _ => false

/-- `m * 2 ^ q` to the nearest natural number, a half going up. -/
def roundHalfUp (m : Nat) : Int → Nat
  | .ofNat q => m * Nat.pow 2 q
  | .negSucc q => (m + Nat.pow 2 q) / Nat.pow 2 (q + 1)

/-- A natural number above every finite double. -/
def beyondFinite : Nat := Nat.pow 2 1024

/-- Infinity is rounded to a number above every finite double. -/
def nearest : Double → Nat
  | .notANumber | .infinite true | .finite true _ _ => 0
  | .infinite false => beyondFinite
  | .finite false m q => roundHalfUp m q

/-- The nearest integer, a half going away from zero. -/
def nearestInt : Double → Int
  | .notANumber => 0
  | .infinite negative => if negative then -(beyondFinite : Int) else beyondFinite
  | .finite negative m q => if negative then -(roundHalfUp m q : Int) else roundHalfUp m q

/-- The place of a double's bits in the order of numbers: -0 comes before 0, and what is not a
number comes after infinity. -/
def orderKey (bits : UInt64) : Int :=
  if bits.toNat < 0x8000000000000000 then bits.toNat else -(bits.toNat - 0x8000000000000000 : Nat) - 1

/-- The double nearest to a natural number; numbers of one word are converted by the machine. -/
@[inline] def ofNat (n : Nat) : Float := if n < 0x10000000000000000 then n.toUInt64.toFloat else Float.ofNat n

end Double

instance : Scalar Float where
  ofNat := Double.ofNat
  atMost a b := decide (a ≤ b)
  precedes a b := decide (Double.orderKey a.toBits ≤ Double.orderKey b.toBits)
  truncate := Float.toUInt64
  nearest x := (Double.ofFloat x).nearest

end Saturation
