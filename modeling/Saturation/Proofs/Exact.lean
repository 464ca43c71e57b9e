import Mathlib.Algebra.Order.Field.Rat
import Mathlib.Data.Rat.Floor
import Mathlib.Tactic.Positivity
import Saturation.Decimal.Double
import Saturation.Trace.Packet

/-!
Exact arithmetic: quotients, with the infinity that a division by zero gives. What would be a
negative infinity, or no number at all, is undefined.
-/

set_option autoImplicit false

namespace Saturation

inductive Exact where
  | number (q : ℚ)
  | infinite
  | undefined
  deriving DecidableEq

namespace Exact

def add : Exact → Exact → Exact
  | number a, number b => number (a + b)
  | infinite, number _ | number _, infinite | infinite, infinite => infinite
  | undefined, _ | _, undefined => undefined

def sub : Exact → Exact → Exact
  | number a, number b => number (a - b)
  | infinite, number _ => infinite
  | number _, infinite | infinite, infinite => undefined
  | undefined, _ | _, undefined => undefined

def mul : Exact → Exact → Exact
  | number a, number b => number (a * b)
  | infinite, number a | number a, infinite => if 0 < a then infinite else undefined
  | infinite, infinite => infinite
  | undefined, _ | _, undefined => undefined

def div : Exact → Exact → Exact
  | number a, number b =>
    if b = 0 then if 0 < a then infinite else undefined else number (a / b)
  | number _, infinite => number 0
  | infinite, number a => if 0 ≤ a then infinite else undefined
  | infinite, infinite => undefined
  | undefined, _ | _, undefined => undefined

def atMost : Exact → Exact → Bool
  | number a, number b => decide (a ≤ b)
  | number _, infinite | infinite, infinite => true
  | _, _ => false

/-- Numbers come first, and what is undefined comes last. -/
def precedes : Exact → Exact → Bool
  | number a, number b => decide (a ≤ b)
  | number _, _ | infinite, infinite | _, undefined => true
  | _, _ => false

def truncate : Exact → UInt64
  | number a => (min ⌊a⌋.toNat 0xFFFFFFFFFFFFFFFF).toUInt64
  | infinite => 0xFFFFFFFFFFFFFFFF
  | undefined => 0

def nearest : Exact → Nat
  | number a => ⌊a + 1 / 2⌋.toNat
  | infinite => Double.beyondFinite
  | undefined => 0

instance : Scalar Exact where
  add := add
  sub := sub
  mul := mul
  div := div
  ofNat n := number n
  atMost := atMost
  precedes := precedes
  truncate := truncate
  nearest := nearest

/-- The comparison of the arithmetic: nothing is comparable with what is undefined. -/
instance : LE Exact := ⟨fun a b => Scalar.atMost a b = true⟩

instance : LT Exact := ⟨fun a b => Scalar.below a b = true⟩

instance (a b : Exact) : Decidable (a ≤ b) := inferInstanceAs (Decidable (_ = true))

instance (a b : Exact) : Decidable (a < b) := inferInstanceAs (Decidable (_ = true))

@[simp] theorem number_add (a b : ℚ) : number a + number b = number (a + b) := rfl

@[simp] theorem number_mul (a b : ℚ) : number a * number b = number (a * b) := rfl

@[simp] theorem undefined_add (x : Exact) : undefined + x = undefined := by cases x <;> rfl

@[simp] theorem div_undefined (x : Exact) : x / undefined = undefined := by cases x <;> rfl

protected theorem add_comm (x y : Exact) : x + y = y + x := by
  cases x <;> cases y <;> first | rfl | exact congrArg number (Rat.add_comm _ _)

theorem number_div {b : ℚ} (a : ℚ) (hb : b ≠ 0) : number a / number b = number (a / b) :=
  if_neg hb

theorem number_div_zero {a : ℚ} (ha : 0 < a) : number a / number 0 = infinite := by
  show ite _ _ _ = _
  simp [ha]

theorem number_mul_infinite {a : ℚ} (ha : 0 < a) : number a * infinite = infinite := if_pos ha

theorem infinite_div {a : ℚ} (ha : 0 ≤ a) : infinite / number a = infinite := if_pos ha

@[simp] theorem ofNat_eq (n : Nat) : (Scalar.ofNat n : Exact) = number n := rfl

@[simp] theorem zero_eq : (Scalar.zero : Exact) = number 0 := rfl

@[simp] theorem one_eq : (Scalar.one : Exact) = number 1 := by
  show number ((1 : Nat) : ℚ) = number 1
  rw [Nat.cast_one]

@[simp] theorem ofWord_eq (n : UInt64) : (Scalar.ofWord n : Exact) = number n.toNat := rfl

@[simp] theorem number_le (a b : ℚ) : number a ≤ number b ↔ a ≤ b := decide_eq_true_iff

@[simp] theorem number_le_infinite (a : ℚ) : number a ≤ infinite := rfl

@[simp] theorem not_le_undefined (x : Exact) : ¬ x ≤ undefined := by
  cases x <;> exact Bool.false_ne_true

@[simp] theorem not_undefined_le (x : Exact) : ¬ undefined ≤ x := by
  cases x <;> exact Bool.false_ne_true

@[simp] theorem infinite_le_infinite : infinite ≤ infinite := rfl

@[simp] theorem not_infinite_le_number (a : ℚ) : ¬ infinite ≤ number a := Bool.false_ne_true

@[simp] theorem number_lt (a b : ℚ) : number a < number b ↔ a < b := by
  show (decide (a ≤ b) && !decide (b ≤ a)) = true ↔ a < b
  simp only [Bool.and_eq_true, decide_eq_true_iff, Bool.not_eq_true', decide_eq_false_iff_not]
  exact ⟨fun h => lt_of_not_ge h.2, fun h => ⟨h.le, not_le_of_gt h⟩⟩

@[simp] theorem atMost_iff (a b : Exact) : Scalar.atMost a b = true ↔ a ≤ b := Iff.rfl

theorem le_iff_precedes (a b : Exact) :
    a ≤ b ↔ Scalar.precedes a b = true ∧ b ≠ undefined := by
  cases b with
  | undefined => simp
  | number q => cases a <;> simp [Scalar.precedes, precedes, LE.le, Scalar.atMost, atMost]
  | infinite => cases a <;> simp [Scalar.precedes, precedes, LE.le, Scalar.atMost, atMost]

theorem precedes_number (a b : ℚ) : Scalar.precedes (number a) (number b) = decide (a ≤ b) := rfl

theorem precedes_total (a b : Exact) :
    (Scalar.precedes a b || Scalar.precedes b a) = true := by
  cases a <;> cases b <;> first | rfl | skip
  simp only [precedes_number, Bool.or_eq_true, decide_eq_true_iff]
  exact le_total _ _

theorem precedes_trans (a b c : Exact) (hab : Scalar.precedes a b = true)
    (hbc : Scalar.precedes b c = true) : Scalar.precedes a c = true := by
  cases a <;> cases b <;> cases c <;>
    first
      | rfl
      | exact absurd hab Bool.false_ne_true
      | exact absurd hbc Bool.false_ne_true
      | skip
  simp only [precedes_number, decide_eq_true_iff] at *
  exact hab.trans hbc

/-- A number that is not negative. -/
def IsAmount (x : Exact) : Prop := ∃ q, 0 ≤ q ∧ x = number q

theorem isAmount_ofNat (n : Nat) : IsAmount (number n) := ⟨n, n.cast_nonneg, rfl⟩

theorem IsAmount.add {x y : Exact} (hx : x.IsAmount) (hy : y.IsAmount) : (x + y).IsAmount := by
  obtain ⟨a, ha, rfl⟩ := hx
  obtain ⟨b, hb, rfl⟩ := hy
  exact ⟨a + b, add_nonneg ha hb, rfl⟩

theorem IsAmount.mul {x y : Exact} (hx : x.IsAmount) (hy : y.IsAmount) : (x * y).IsAmount := by
  obtain ⟨a, ha, rfl⟩ := hx
  obtain ⟨b, hb, rfl⟩ := hy
  exact ⟨a * b, mul_nonneg ha hb, rfl⟩

theorem IsAmount.div {x : Exact} (hx : x.IsAmount) {b : ℚ} (hb : 0 < b) :
    (x / number b).IsAmount := by
  obtain ⟨a, ha, rfl⟩ := hx
  exact ⟨a / b, div_nonneg ha hb.le, number_div a hb.ne'⟩

theorem le_trans {a b c : Exact} (hab : a ≤ b) (hbc : b ≤ c) : a ≤ c := by
  rw [le_iff_precedes] at *
  exact ⟨precedes_trans a b c hab.1 hbc.1, hbc.2⟩

theorem toNat_truncate (q : ℚ) :
    (Scalar.truncate (number q)).toNat = min ⌊q⌋.toNat 0xFFFFFFFFFFFFFFFF :=
  UInt64.toNat_ofNat_of_lt' (Nat.lt_of_le_of_lt (Nat.min_le_right _ _) (by decide))

theorem truncate_natCast_div {n d : Nat} (h : n < 2 ^ 64) :
    (Scalar.truncate (number ((n : ℚ) / d))).toNat = n / d := by
  have hle : n / d ≤ n := Nat.div_le_self _ _
  have hf : ⌊(n : ℚ) / d⌋.toNat = n / d := by
    rw [Rat.floor_natCast_div_natCast]
    rfl
  rw [toNat_truncate, hf, Nat.min_eq_left (Nat.le_of_lt_succ (hle.trans_lt h))]

end Exact

end Saturation
