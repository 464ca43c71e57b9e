import Saturation.Scalar

/-!
Values that remember whether they are undefined. Adding and dividing numbers may give no number, as
the cost ratio of a flow without bits is none. In a ranking, what is undefined comes in front of
all numbers, and what was given as no number comes behind them.
-/

set_option autoImplicit false

namespace Saturation

/-- A value, and whether it is undefined: no number, although it was computed from numbers. -/
structure Computed (α : Type) where
  value : α
  undefined : Bool
  deriving Repr

namespace Computed

variable {α : Type} [Scalar α]

/-- A value as it is given. -/
def given (value : α) : Computed α := ⟨value, false⟩

/-- The outcome of an operation on a computed value and a given one. What is undefined stays so,
unless the other side was given as no number. -/
def outcome (a : Computed α) (b result : α) : Computed α :=
  ⟨result, Scalar.isNumber b &&
    (a.undefined || (Scalar.isNumber a.value && !Scalar.isNumber result))⟩

def add (a : Computed α) (b : α) : Computed α := outcome a b (a.value + b)

def divide (a : Computed α) (b : α) : Computed α := outcome a b (a.value / b)

/-- The order of a ranking. -/
def precedes (a b : Computed α) : Bool :=
  if a.undefined = b.undefined then Scalar.precedes a.value b.value else a.undefined

@[simp] theorem value_add (a : Computed α) (b : α) : (a.add b).value = a.value + b := rfl

@[simp] theorem value_divide (a : Computed α) (b : α) : (a.divide b).value = a.value / b := rfl

end Computed

end Saturation
