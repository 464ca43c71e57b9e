/-!
The arithmetic that profiles, thresholds and goodput are computed with.

The definitions of this library ask for these operations and for no law, so they run on doubles
and can be read over any other system of numbers, exact quotients with an infinity among them.
-/

set_option autoImplicit false

namespace Saturation

class Scalar (α : Type) extends Add α, Sub α, Mul α, Div α where
  ofNat : Nat → α
  /-- The comparison `≤`, false when a side is not a number. -/
  atMost : α → α → Bool
  /-- A total order that agrees with `atMost` on numbers; lists are sorted by it. -/
  precedes : α → α → Bool
  /-- The whole part, held within 64 bits; 0 for what is not a number. -/
  truncate : α → UInt64
  /-- The nearest natural number, a half going up; 0 for what is negative or not a number. -/
  nearest : α → Nat

namespace Scalar

variable {α : Type} [Scalar α]

@[inline] def zero : α := ofNat 0

@[inline] def one : α := ofNat 1

@[inline] def below (a b : α) : Bool := atMost a b && !atMost b a

@[inline] def isZero (a : α) : Bool := atMost a zero && atMost zero a

@[inline] def isNumber (a : α) : Bool := atMost a a

/-- The smaller of two values, the second one if neither is smaller; what is not a number gives way
to the other side. -/
@[inline] def smaller (a b : α) : α :=
  if !isNumber b then a else if below a b then a else b

/-- The larger of two values, the second one if neither is larger; what is not a number gives way
to the other side. -/
@[inline] def larger (a b : α) : α :=
  if !isNumber b then a else if below b a then a else b

/-- A word as a value. -/
@[inline] def ofWord (n : UInt64) : α := ofNat n.toNat

end Scalar

end Saturation
