import Saturation.Proofs.Double.Arithmetic
import Saturation.Proofs.Exact

/-!
What doubles stand for in exact arithmetic. Their comparison is that of the exact values, and they
have the same whole parts.
-/

set_option autoImplicit false

namespace Saturation

namespace Exact

/-- What a double stands for. Below all finite doubles there is nothing in exact arithmetic. -/
def ofDouble : Double → Exact
  | .finite negative m q => number (if negative then -(m * 2 ^ q) else m * 2 ^ q)
  | .infinite false => infinite
  | .infinite true | .notANumber => undefined

def ofFloat (x : Float) : Exact := ofDouble (Double.ofFloat x)

end Exact

namespace Double

open Exact (number infinite undefined)
open Float.Model (UnpackedFloat Format)

variable {x y : Float} {s t : Bool} {m n : Nat} {p q : Int}

theorem le_iff_unpacked (x y : Float) :
    x ≤ y ↔ (ofFloat x).unpacked.le (ofFloat y).unpacked = true := by
  rw [← unpack_toModel, ← unpack_toModel]
  exact decide_eq_true_iff

theorem isLE_lex : ((compare p q).then (compare m n)).isLE = true ↔ p < q ∨ p = q ∧ m ≤ n := by
  rcases lt_trichotomy p q with h | h | h
  · simp [Int.compare_eq_lt.mpr h, h]
  · simp [h, Nat.isLE_compare]
  · simp [Int.compare_eq_gt.mpr h]
    omega

theorem isGE_lex : ((compare p q).then (compare m n)).isGE = true ↔ q < p ∨ q = p ∧ n ≤ m := by
  rw [← Ordering.isLE_swap, Ordering.swap_then, Int.compare_swap, Nat.compare_swap]
  exact isLE_lex

theorem le_unpacked (hm : IsCanonical m p) (hn : IsCanonical n q) :
    (finite s m p).unpacked.le (finite t n q).unpacked = true ↔
      Exact.ofDouble (finite s m p) ≤ Exact.ofDouble (finite t n q) := by
  have hvalue : ∀ {k : Nat} (r : Int), 0 < k → (0 : ℚ) < k * 2 ^ r :=
    fun r hk => mul_pos (Nat.cast_pos.mpr hk) (two_zpow_pos r)
  simp only [Exact.ofDouble, Exact.number_le]
  rcases Nat.eq_zero_or_pos m with rfl | hm0 <;> rcases Nat.eq_zero_or_pos n with rfl | hn0
  · cases s <;> cases t <;> simp [unpacked, sign, UnpackedFloat.le, UnpackedFloat.compare]
  · have := hvalue q hn0
    cases s <;> cases t <;>
      simp [unpacked, hn0, sign, UnpackedFloat.le, UnpackedFloat.compare, this.le, not_le.mpr this]
  · have := hvalue p hm0
    cases s <;> cases t <;>
      simp [unpacked, hm0, sign, UnpackedFloat.le, UnpackedFloat.compare, this.le, not_le.mpr this]
  · have h1 := hvalue p hm0
    have h2 := hvalue q hn0
    simp only [unpacked, hm0, hn0, dif_pos, UnpackedFloat.le]
    cases s <;> cases t <;> simp only [sign, UnpackedFloat.compare]
    · simpa [isLE_lex] using (hm.le_iff hn).symm
    · simp
      linarith
    · simp
      linarith
    · simpa [isGE_lex] using (hn.le_iff hm).symm

theorem unpacked_finite_cases (s : Bool) (m : Nat) (p : Int) :
    (finite s m p).unpacked = .zero (sign s) ∨
      ∃ h : 0 < m, (finite s m p).unpacked = .finite (sign s) m p h := by
  by_cases h : 0 < m
  · exact .inr ⟨h, dif_pos h⟩
  · exact .inl (dif_neg h)

@[simp] theorem not_le_notANumber (u : UnpackedFloat) : u.le .notANumber = false := by
  cases u <;> rfl

@[simp] theorem notANumber_not_le (u : UnpackedFloat) : UnpackedFloat.le .notANumber u = false := rfl

@[simp] theorem infinite_le (s t : Bool) (n : Nat) (q : Int) :
    (infinite s).unpacked.le (finite t n q).unpacked = s := by
  rcases unpacked_finite_cases t n q with h | ⟨_, h⟩ <;> rw [h] <;> cases s <;> cases t <;> rfl

@[simp] theorem le_infinite (s : Bool) (m : Nat) (p : Int) (t : Bool) :
    (finite s m p).unpacked.le (infinite t).unpacked = !t := by
  rcases unpacked_finite_cases s m p with h | ⟨_, h⟩ <;> rw [h] <;> cases s <;> cases t <;> rfl

@[simp] theorem infinite_le_infinite (s t : Bool) :
    (infinite s).unpacked.le (infinite t).unpacked = (s || !t) := by
  cases s <;> cases t <;> rfl

/-- Apart from what is below all finite doubles, doubles compare as what they stand for. -/
theorem le_iff (h : ofFloat x ≠ .infinite true) : x ≤ y ↔ Exact.ofFloat x ≤ Exact.ofFloat y := by
  rw [le_iff_unpacked, Exact.ofFloat, Exact.ofFloat]
  cases hx : ofFloat x with
  | notANumber => simp [unpacked, Exact.ofDouble]
  | infinite s =>
    cases s
    · cases hy : ofFloat y with
      | notANumber => simp [unpacked, Exact.ofDouble]
      | infinite t => cases t <;> simp [Exact.ofDouble]
      | finite t n q => simp [Exact.ofDouble]
    · exact absurd hx h
  | finite s m p =>
    cases hy : ofFloat y with
    | notANumber => simp [unpacked, Exact.ofDouble]
    | infinite t => cases t <;> simp [Exact.ofDouble]
    | finite t n q => exact le_unpacked (isCanonical_ofFloat hx).1 (isCanonical_ofFloat hy).1

/-! ### Whole parts -/

theorem floor_mantissa (m : Nat) (e : Int) :
    (⌊(m : ℚ) * 2 ^ e⌋ : Int) = (UnpackedFloat.shiftToExponent (m <<< (e - 0).toNat)
      (e - (e - 0).toNat) .exact 0).1.mantissa := by
  let k := (e - 0).toNat
  let j := (0 - (e - k)).toNat
  have h := (holds_exact (m <<< k)).shiftRight j
  have hvalue : ((m <<< k : Nat) : ℚ) / 2 ^ j = m * 2 ^ e := by
    rw [← value_shiftLeft m e k, div_eq_mul_inv, ← zpow_natCast, ← zpow_neg]
    congr 2
    omega
  rw [hvalue] at h
  exact Int.floor_eq_iff.mpr ⟨by exact_mod_cast h.lower, by exact_mod_cast h.upper⟩

theorem toNat_ofNatClamp (n : Nat) :
    (UInt64.ofNatClamp n).toNat = min n 0xFFFFFFFFFFFFFFFF := by
  unfold UInt64.ofNatClamp
  split
  · rename_i h
    rw [UInt64.toNat_ofNatLT]
    simp only [UInt64.size] at h
    omega
  · rename_i h
    simp only [UInt64.size] at h ⊢
    rw [UInt64.toNat_ofNatLT]
    omega

/-- A double has the whole part of what it stands for. -/
theorem truncate_eq (x : Float) : Scalar.truncate x = Scalar.truncate (Exact.ofFloat x) := by
  have htruncate : Scalar.truncate x = x.toModel.unpack.toUInt64 := rfl
  rw [htruncate, unpack_toModel, Exact.ofFloat]
  cases ofFloat x with
  | notANumber => rfl
  | infinite s => cases s <;> rfl
  | finite s m p =>
    apply UInt64.toNat_inj.mp
    rw [Exact.ofDouble, Exact.toNat_truncate, UnpackedFloat.toUInt64, toNat_ofNatClamp]
    congr 1
    rcases Nat.eq_zero_or_pos m with rfl | hm
    · cases s <;> simp [unpacked, UnpackedFloat.toInt]
    · have hfloor := floor_mantissa m p
      have hint : (finite s m p).unpacked.toInt 0 (UInt64.size - 1) =
          (sign s).apply ⌊(m : ℚ) * 2 ^ p⌋ := by
        rw [unpacked, dif_pos hm, hfloor]
        rfl
      rw [hint]
      cases s
      · rfl
      · have hpos : (0 : ℚ) ≤ m * 2 ^ p := mul_nonneg m.cast_nonneg (two_zpow_pos p).le
        have h1 : (0 : Int) ≤ ⌊(m : ℚ) * 2 ^ p⌋ := Int.floor_nonneg.mpr hpos
        have h2 : ⌊-((m : ℚ) * 2 ^ p)⌋ ≤ 0 := Int.floor_nonpos (by linarith)
        show (-⌊(m : ℚ) * 2 ^ p⌋).toNat = ⌊-((m : ℚ) * 2 ^ p)⌋.toNat
        omega

end Double

end Saturation
