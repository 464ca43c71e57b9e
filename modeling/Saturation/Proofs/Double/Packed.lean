import Saturation.Proofs.Decimal.Unpacked

/-!
Finite doubles in canonical form. Packing such a pair of a mantissa and an exponent gives a double
that reads as this pair again, unless the exponent is too large for a double; then it is infinite.
-/

set_option autoImplicit false

namespace Saturation.Double

open Float.Model (UnpackedFloat Format)
open Float.Model.UnpackedFloat (Sign)

/-- The exponent of the largest step between doubles. -/
def greatestExponent : Int := 971

/-- Mantissas have 53 bits, or fewer where the step is the smallest one. -/
structure IsCanonical (m : Nat) (q : Int) : Prop where
  lt : m < 2 * leastNormal
  le : leastExponent ≤ q
  normal : leastNormal ≤ m ∨ q = leastExponent

/-- What a canonical pair becomes in a double. -/
def held (negative : Bool) (m : Nat) (q : Int) : Double :=
  if greatestExponent < q then infinite negative else finite negative m q

theorem held_of_le {negative : Bool} {m : Nat} {q : Int} (h : q ≤ greatestExponent) :
    held negative m q = finite negative m q := if_neg (Int.not_lt.mpr h)

/-! ### Words -/

theorem toNat_packComponents (s : Sign) (e : BitVec 11) (m : BitVec 52) :
    (UnpackedFloat.packComponents Format.binary64 s e m).toNat =
      s.toBitVec.toNat * 2 ^ 63 + e.toNat * 2 ^ 52 + m.toNat := by
  have he : e.toNat < 2 ^ 11 := e.isLt
  have hm : m.toNat < 2 ^ 52 := m.isLt
  unfold UnpackedFloat.packComponents
  rw [BitVec.toNat_append, ← Nat.shiftLeft_add_eq_or_of_lt hm, BitVec.toNat_append,
    ← Nat.shiftLeft_add_eq_or_of_lt he]
  simp only [Nat.shiftLeft_eq]
  omega

theorem toNat_sign (negative : Bool) : (sign negative).toBitVec.toNat = negative.toNat := by
  cases negative <;> rfl

/-- The fields of a word. -/
theorem ofBits_eq {bits : UInt64} {negative : Bool} {e m : Nat}
    (h : bits.toNat = negative.toNat * 2 ^ 63 + e * 2 ^ 52 + m) (he : e < 2 ^ 11) (hm : m < 2 ^ 52) :
    ofBits bits =
      if e = 2047 then if m = 0 then .infinite negative else .notANumber
      else if e = 0 then .finite negative m leastExponent
      else .finite negative (leastNormal + m) (leastExponent + (e - 1 : Nat)) := by
  have hsign : decide (0x8000000000000000 ≤ bits.toNat) = negative := by
    cases negative <;> simp [h] <;> omega
  have hexponent : bits.toNat / leastNormal % 0x800 = e := by
    cases negative <;> simp [h, leastNormal] <;> omega
  have hmantissa : bits.toNat % leastNormal = m := by
    cases negative <;> simp [h, leastNormal] <;> omega
  simp only [ofBits, hsign, hexponent, hmantissa]

theorem fields (bits : UInt64) : ∃ (negative : Bool) (e m : Nat),
    bits.toNat = negative.toNat * 2 ^ 63 + e * 2 ^ 52 + m ∧ e < 2 ^ 11 ∧ m < 2 ^ 52 := by
  have h := bits.toNat_lt
  refine ⟨decide (2 ^ 63 ≤ bits.toNat), bits.toNat / 2 ^ 52 % 2 ^ 11, bits.toNat % 2 ^ 52, ?_, ?_, ?_⟩
  · by_cases hs : 2 ^ 63 ≤ bits.toNat
    · simp only [decide_eq_true hs, Bool.toNat_true]
      omega
    · simp only [decide_eq_false hs, Bool.toNat_false]
      omega
  · omega
  · omega

theorem isCanonical_ofBits {bits : UInt64} {negative : Bool} {m : Nat} {q : Int}
    (h : ofBits bits = .finite negative m q) : IsCanonical m q ∧ q ≤ greatestExponent := by
  obtain ⟨s, e, f, hbits, he, hf⟩ := fields bits
  rw [ofBits_eq hbits he hf] at h
  split at h
  · split at h <;> simp at h
  · split at h <;> cases h
    · refine ⟨⟨?_, ?_, ?_⟩, ?_⟩ <;> simp [leastNormal, leastExponent, greatestExponent]
      omega
    · refine ⟨⟨?_, ?_, ?_⟩, ?_⟩ <;> simp [leastNormal, leastExponent, greatestExponent] <;> omega

theorem isCanonical_ofFloat {x : Float} {negative : Bool} {m : Nat} {q : Int}
    (h : ofFloat x = .finite negative m q) : IsCanonical m q ∧ q ≤ greatestExponent :=
  isCanonical_ofBits h

/-! ### Packing -/

/-- A value in the form in which the core library computes, as a double. -/
def pack (u : UnpackedFloat) : Float := .ofModel (.pack u)

theorem ofFloat_pack_components {negative : Bool} {e : BitVec 11} {m : BitVec 52}
    {u : UnpackedFloat} (h : UnpackedFloat.pack Format.binary64 u =
      UnpackedFloat.packComponents Format.binary64 (sign negative) e m) :
    ofFloat (pack u) =
      if e.toNat = 2047 then if m.toNat = 0 then .infinite negative else .notANumber
      else if e.toNat = 0 then .finite negative m.toNat leastExponent
      else .finite negative (leastNormal + m.toNat) (leastExponent + (e.toNat - 1 : Nat)) := by
  refine ofBits_eq ?_ e.isLt m.isLt
  have hbits : (pack u).toBits.toNat = (UnpackedFloat.pack Format.binary64 u).toNat := rfl
  rw [hbits, h, toNat_packComponents, toNat_sign]

@[simp] theorem ofFloat_pack_notANumber : ofFloat (pack .notANumber) = .notANumber := by decide +kernel

@[simp] theorem ofFloat_pack_infinity (negative : Bool) :
    ofFloat (pack (.infinity (sign negative))) = .infinite negative := by
  cases negative <;> decide +kernel

@[simp] theorem ofFloat_pack_zero (negative : Bool) :
    ofFloat (pack (.zero (sign negative))) = .finite negative 0 leastExponent := by
  cases negative <;> decide +kernel

theorem log2_add_one_eq {m : Nat} (h : 0 < m) : m.log2 + 1 = 53 ↔ 2 ^ 52 ≤ m ∧ m < 2 ^ 53 := by
  have h0 : m ≠ 0 := Nat.pos_iff_ne_zero.mp h
  rw [← Nat.le_log2 h0, ← Nat.log2_lt h0]
  omega

theorem pack_finite (negative : Bool) {m : Nat} (q : Int) (hm : 0 < m) :
    UnpackedFloat.pack Format.binary64 (.finite (sign negative) m q hm) =
      if 2048 ≤ (q + 1075).toNat + 1 then
        UnpackedFloat.packComponents Format.binary64 (sign negative) (-1#11) 0
      else if 2 ^ 52 ≤ m ∧ m < 2 ^ 53 then
        UnpackedFloat.packComponents Format.binary64 (sign negative)
          (BitVec.ofNat 11 (q + 1075).toNat) (BitVec.ofNat 52 m)
      else UnpackedFloat.packComponents Format.binary64 (sign negative) 0#11 (BitVec.ofNat 52 m) := by
  have hbiased : q + Format.binary64.exponentBias + Format.binary64.mantissaBitsWithoutImplicit =
      q + 1075 := by
    show q + 1023 + 52 = _
    omega
  have hbits : Format.binary64.mantissaBits = 53 := rfl
  simp only [UnpackedFloat.pack, hbiased, hbits, log2_add_one_eq hm]
  rfl

theorem ofFloat_pack_finite {negative : Bool} {m : Nat} {q : Int} (hm : 0 < m)
    (h : IsCanonical m q) :
    ofFloat (pack (.finite (sign negative) m q hm)) = held negative m q := by
  obtain ⟨hlt, hle, hnormal⟩ := h
  simp only [leastNormal, leastExponent] at hlt hle hnormal
  have hpack := pack_finite negative q hm
  by_cases hover : greatestExponent < q
  · rw [held, if_pos hover]
    simp only [greatestExponent] at hover
    rw [if_pos (by omega)] at hpack
    rw [ofFloat_pack_components hpack]
    rfl
  · rw [held, if_neg hover]
    simp only [greatestExponent] at hover
    rw [if_neg (by omega)] at hpack
    by_cases hn : 2 ^ 52 ≤ m
    · rw [if_pos ⟨hn, by omega⟩] at hpack
      have he : (BitVec.ofNat 11 (q + 1075).toNat).toNat = (q + 1075).toNat := by
        rw [BitVec.toNat_ofNat]
        omega
      have hf : (BitVec.ofNat 52 m).toNat = m - 2 ^ 52 := by
        rw [BitVec.toNat_ofNat]
        omega
      rw [ofFloat_pack_components hpack, he, hf, if_neg (by omega), if_neg (by omega)]
      simp only [leastNormal, leastExponent, finite.injEq, true_and]
      omega
    · rw [if_neg fun h => hn h.1] at hpack
      have hf : (BitVec.ofNat 52 m).toNat = m := by
        rw [BitVec.toNat_ofNat]
        omega
      rw [ofFloat_pack_components hpack, hf]
      simp [leastExponent]
      omega

/-! ### Readings -/

theorem toNat_of_infinite {bits : UInt64} {negative : Bool}
    (h : ofBits bits = .infinite negative) :
    bits.toNat = negative.toNat * 2 ^ 63 + 2047 * 2 ^ 52 := by
  obtain ⟨s, e, m, hbits, he, hm⟩ := fields bits
  rw [ofBits_eq hbits he hm] at h
  split at h
  · rename_i he
    split at h <;> cases h
    rename_i hm
    rw [hbits, he, hm, Nat.add_zero]
  · split at h <;> cases h

/-- The words of finite doubles count through all canonical pairs. -/
theorem toNat_of_finite {bits : UInt64} {negative : Bool} {m : Nat} {q : Int}
    (h : ofBits bits = .finite negative m q) :
    bits.toNat = negative.toNat * 2 ^ 63 + (q - leastExponent).toNat * 2 ^ 52 + m := by
  obtain ⟨s, e, f, hbits, he, hf⟩ := fields bits
  rw [ofBits_eq hbits he hf] at h
  rw [hbits]
  split at h
  · split at h <;> cases h
  · split at h <;> cases h
    · rename_i he
      simp [he]
    · have hq : (leastExponent + ((e - 1 : Nat) : Int) - leastExponent).toNat = e - 1 := by omega
      rw [hq, leastNormal]
      omega

/-- Doubles are told apart by their reading. -/
theorem ofFloat_injective {x y : Float} (h : ofFloat x = ofFloat y) : x = y := by
  have hunpack : x.toModel.unpack = y.toModel.unpack := by
    rw [unpack_toModel, unpack_toModel, h]
  have hbits := (UnpackedFloat.unpack_inj_of_valid x.toModel.valid y.toModel.valid).mp hunpack
  exact Float.toBits_inj.mp (UInt64.toBitVec_inj.mp hbits)

end Saturation.Double
