import Mathlib
import Saturation.Decimal.Double

/-!
The core library computes with doubles in an unpacked form. The reading of a double's bits as a
sign, a mantissa and an exponent is that form, so both have the same finite values.
-/

set_option autoImplicit false

namespace Saturation.Double

open Float.Model (UnpackedFloat Format)
open Float.Model.UnpackedFloat (Sign)

def sign (negative : Bool) : Sign := if negative then .negative else .positive

/-- A double in the form in which the core library computes with it. -/
def unpacked : Double → UnpackedFloat
  | .notANumber => .notANumber
  | .infinite negative => .infinity (sign negative)
  | .finite negative m q => if h : 0 < m then .finite (sign negative) m q h else .zero (sign negative)

theorem toNat_unpackMantissa (b : BitVec Format.binary64.numBits) :
    (UnpackedFloat.unpackMantissa b).toNat = b.toNat % 2 ^ 52 := by
  simp [UnpackedFloat.unpackMantissa]

theorem toNat_unpackExponent (b : BitVec Format.binary64.numBits) :
    (UnpackedFloat.unpackExponent b).toNat = b.toNat / 2 ^ 52 % 2 ^ 11 := by
  simp [UnpackedFloat.unpackExponent, Nat.shiftRight_eq_div_pow]

theorem toNat_unpackSign (b : BitVec Format.binary64.numBits) :
    (UnpackedFloat.unpackSign b).toNat = b.toNat / 2 ^ 63 % 2 := by
  simp [UnpackedFloat.unpackSign, Nat.shiftRight_eq_div_pow]

theorem sign_unpackSign (b : BitVec Format.binary64.numBits) :
    Sign.ofBitVec (UnpackedFloat.unpackSign b) = sign (decide (2 ^ 63 ≤ b.toNat)) := by
  have h := toNat_unpackSign b
  have hlt : b.toNat < 2 ^ 64 := b.isLt
  unfold Sign.ofBitVec sign
  by_cases hs : 2 ^ 63 ≤ b.toNat
  · have hne : UnpackedFloat.unpackSign b ≠ 0#1 := by
      intro h0
      rw [h0, show (0#1).toNat = 0 by decide] at h
      omega
    rw [decide_eq_true hs, if_neg hne]
    rfl
  · have h0 : UnpackedFloat.unpackSign b = 0#1 := by
      apply BitVec.eq_of_toNat_eq
      rw [h, show (0#1).toNat = 0 by decide]
      omega
    rw [decide_eq_false hs, if_pos h0]
    rfl

theorem finite_congr {s : Sign} {m m' : Nat} {e e' : Int} (hm : m = m') (he : e = e')
    (h : 0 < m) (h' : 0 < m') : UnpackedFloat.finite s m e h = .finite s m' e' h' := by
  subst hm he
  rfl

theorem unpack_ofBits (bits : UInt64) :
    UnpackedFloat.unpack Format.binary64 bits.toBitVec = (ofBits bits).unpacked := by
  have hm := toNat_unpackMantissa bits.toBitVec
  have he := toNat_unpackExponent bits.toBitVec
  have hs := sign_unpackSign bits.toBitVec
  have hlt : bits.toNat < 2 ^ 64 := bits.toNat_lt
  have hbias : (Format.binary64.exponentBias : Int) = 1023 := by decide
  rw [UInt64.toNat_toBitVec] at hm he hs
  simp only [show 2 ^ 52 = leastNormal by decide, show 2 ^ 11 = 0x800 by decide] at hm he
  have he1 := BitVec.toNat_inj (x := @UnpackedFloat.unpackExponent .binary64 bits.toBitVec)
    (y := -1#11)
  have he0 := BitVec.toNat_inj (x := @UnpackedFloat.unpackExponent .binary64 bits.toBitVec)
    (y := 0#11)
  have hm0 := BitVec.toNat_inj (x := @UnpackedFloat.unpackMantissa .binary64 bits.toBitVec)
    (y := 0#52)
  rw [he, show (-1#11).toNat = 2047 by decide] at he1
  rw [he, show (0#11).toNat = 0 by decide] at he0
  rw [hm, show (0#52).toNat = 0 by decide] at hm0
  unfold UnpackedFloat.unpack ofBits
  simp only [hs, ← he1, ← he0, ← hm0, show (0x8000000000000000 : Nat) = 2 ^ 63 by decide]
  split
  · split <;> rfl
  · rename_i h1
    split
    · rename_i h0
      split
      · rename_i h2
        simp [h2, unpacked]
      · rename_i h2
        have hpos : 0 < bits.toNat % leastNormal := by omega
        simp only [unpacked, hpos, dif_pos]
        apply finite_congr hm
        rw [he, hbias, h0]
        decide
    · rename_i h0
      have hpos : 0 < leastNormal + bits.toNat % leastNormal := Nat.add_pos_left (by decide) _
      simp only [unpacked, hpos, dif_pos]
      apply finite_congr
      · have hlt : bits.toNat % leastNormal < 2 ^ 52 := Nat.mod_lt _ (by decide)
        rw [BitVec.toNat_append, hm, ← Nat.shiftLeft_add_eq_or_of_lt hlt]
        rfl
      · rw [he, hbias]
        simp [leastExponent]
        omega

theorem unpack_toModel (x : Float) : x.toModel.unpack = (ofFloat x).unpacked :=
  unpack_ofBits x.toModel.toBits

theorem isFinite_ofFloat (x : Float) : (ofFloat x).isFinite = x.isFinite := by
  have h : x.isFinite = x.toModel.unpack.isFinite := rfl
  rw [h, unpack_toModel]
  cases ofFloat x with
  | notANumber => rfl
  | infinite b => rfl
  | finite b m q =>
    simp only [unpacked]
    split <;> rfl

end Saturation.Double
