import Saturation.Decimal.Literal
import Saturation.Error
import Saturation.Text.Blank

/-!
Link rates: whole bits per second, or a decimal with a unit `K`, `M` or `G`. A rate is written with
the largest unit that divides it.
-/

set_option autoImplicit false

namespace Saturation

structure Rate where
  bps : UInt64
  deriving DecidableEq, Repr

namespace Rate

/-- The units, the largest first. -/
def units : List (UInt64 × Char) := [(1000000000, 'G'), (1000000, 'M'), (1000, 'K')]

/-- A rate in Gbps, as strategies are computed from it. -/
def gbps {α : Type} [Scalar α] (r : Rate) : α := Scalar.ofWord r.bps / Scalar.ofNat 1000000000

/-- The rate in the largest unit that divides it. -/
def inUnit (r : Rate) : Option (UInt64 × Char) :=
  (units.find? fun u => decide (u.1 ≤ r.bps ∧ r.bps % u.1 = 0)).map fun u => (r.bps / u.1, u.2)

def display (r : Rate) : String :=
  match r.inUnit with
  | some (n, unit) => s!"{n}{unit}"
  | none => toString r.bps

/-- As `display`, with a blank in front of the unit. -/
def pretty (r : Rate) : String :=
  match r.inUnit with
  | some (n, unit) => s!"{n} {unit}"
  | none => toString r.bps

/-- The rate of a number of units; what is below one bit is dropped. -/
def ofUnits (unit : UInt64) (value : Float) : Option Rate :=
  if value.isFinite && !(value < 0.0) then
    some ⟨Scalar.truncate (value * (Scalar.ofWord unit : Float))⟩
  else none

/-- The rate a text without blanks around it stands for. -/
def ofChars? (cs : List Char) : Option Rate :=
  match cs.getLast?.bind fun c => units.find? fun u => u.2 == c with
  | some (unit, _) => (Decimal.double? cs.dropLast).bind (ofUnits unit)
  | none => (Decimal.word? cs).map Rate.mk

def read (text : String) : Except Fault Rate :=
  match ofChars? (Text.trim text.toList) with
  | some r => .ok r
  | none => .error (.invalidRate text)

end Rate

/-- The offered load of innocent and attack traffic, in Gbps. -/
structure Rates (α : Type) where
  innocent : α
  attack : α
  deriving Repr

end Saturation
