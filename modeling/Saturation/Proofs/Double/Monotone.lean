import Saturation.Proofs.Order

/-!
The arithmetic of amounts is monotone on doubles. Each operation gives the double nearest to the exact
result, and a larger value never has a smaller nearest double; where a result overflows, infinity is
above all of them.
-/

set_option autoImplicit false

namespace Saturation.Double

open Exact (number infinite undefined)
open Float.Model (UnpackedFloat Format)

/-- A finite double with a value that is not negative. -/
structure HasValue (x : Float) (v : ℚ) : Prop where
  eq : Exact.ofFloat x = number v
  nonneg : 0 ≤ v

/-- A finite double that is not negative. -/
def IsAmount (x : Float) : Prop := ∃ v, HasValue x v

/-- The double nearest to a value that is not negative; a zero may have a sign. -/
def IsNearestTo (x : Float) (v : ℚ) : Prop :=
  ∃ (s : Bool) (m : Nat) (q : Int), IsNearest v m q ∧ (s = true → m = 0) ∧ ofFloat x = held s m q

variable {x y z w : Float} {v u : ℚ}

theorem IsNearestTo.isNonneg (h : IsNearestTo x v) : Scalar.IsNonneg x := by
  obtain ⟨s, m, q, hm, hs, hread⟩ := h
  exact isNonneg_of_held hread hm.canonical hs

theorem ne_negative_infinite (h : Scalar.IsNonneg x) : ofFloat x ≠ .infinite true := by
  rcases isNonneg_cases h with hx | ⟨s, m, q, hx, -⟩ <;> rw [hx] <;> simp

theorem le_infinite_of_isNonneg (h : Scalar.IsNonneg x) (hy : ofFloat y = .infinite false) : x ≤ y := by
  rw [le_iff (ne_negative_infinite h), Exact.ofFloat, Exact.ofFloat, hy]
  rcases isNonneg_cases h with hx | ⟨s, m, q, hx, hs⟩
  · rw [hx]
    exact Exact.infinite_le_infinite
  · rw [hx, exact_finite hs]
    exact Exact.number_le_infinite _

theorem IsNearestTo.le (hx : IsNearestTo x v) (hy : IsNearestTo y u) (h : v ≤ u) : x ≤ y := by
  have hnonneg := hx.isNonneg
  obtain ⟨s, m, p, hm, hs, hreadx⟩ := hx
  obtain ⟨t, n, q, hn, ht, hready⟩ := hy
  have hle := hm.mono hn h
  have hlex := (hm.canonical.le_iff hn.canonical).mp hle
  by_cases hq : greatestExponent < q
  · -- A zero does not overflow.
    obtain rfl : t = false := by
      cases t
      · rfl
      · have := hn.canonical.normal
        simp only [ht rfl, leastNormal, leastExponent, greatestExponent] at this hq
        omega
    exact le_infinite_of_isNonneg hnonneg (hready.trans (if_pos hq))
  · rw [held_of_le (by omega)] at hreadx hready
    rw [le_iff (ne_negative_infinite hnonneg), Exact.ofFloat, Exact.ofFloat, hreadx, hready,
      exact_finite hs, exact_finite ht, Exact.number_le]
    exact hle

/-! ### Amounts -/

theorem HasValue.isNonneg (h : HasValue x v) : Scalar.IsNonneg x := by
  rw [isNonneg_iff, h.eq, Exact.isNonneg_number]
  exact h.nonneg

theorem IsAmount.isNonneg (h : IsAmount x) : Scalar.IsNonneg x := by
  obtain ⟨v, hv⟩ := h
  exact hv.isNonneg

theorem HasValue.finite (h : HasValue x v) : ∃ (s : Bool) (m : Nat) (q : Int),
    ofFloat x = .finite s m q ∧ (s = true → m = 0) ∧ v = m * 2 ^ q := by
  have heq := h.eq
  rw [Exact.ofFloat] at heq
  rcases isNonneg_cases h.isNonneg with hx | ⟨s, m, q, hx, hs⟩
  · simp [hx, Exact.ofDouble] at heq
  · rw [hx, exact_finite hs, Exact.number.injEq] at heq
    exact ⟨s, m, q, hx, hs, heq.symm⟩

theorem HasValue.isNearestTo (h : HasValue x v) : IsNearestTo x v := by
  obtain ⟨s, m, q, hx, hs, rfl⟩ := h.finite
  obtain ⟨hc, hq⟩ := isCanonical_ofFloat hx
  exact ⟨s, m, q, hc.isNearest, hs, by rw [hx, held_of_le hq]⟩

theorem HasValue.le_iff (hx : HasValue x v) (hy : HasValue y u) : x ≤ y ↔ v ≤ u := by
  rw [Double.le_iff (ne_negative_infinite hx.isNonneg), hx.eq, hy.eq, Exact.number_le]

theorem isAmount_or_infinite (h : Scalar.IsNonneg x) : IsAmount x ∨ ofFloat x = .infinite false := by
  rcases isNonneg_cases h with hx | ⟨s, m, q, hx, hs⟩
  · exact .inr hx
  · refine .inl ⟨m * 2 ^ q, ?_, mul_nonneg m.cast_nonneg (two_zpow_pos q).le⟩
    rw [Exact.ofFloat, hx, exact_finite hs]

/-- What is not above an amount is finite. -/
theorem IsAmount.of_le (hy : IsAmount y) (hx : Scalar.IsNonneg x) (h : x ≤ y) : IsAmount x := by
  rcases isAmount_or_infinite hx with hamount | hread
  · exact hamount
  · obtain ⟨v, hv⟩ := hy
    rw [Double.le_iff (ne_negative_infinite hx), hv.eq, Exact.ofFloat, hread] at h
    exact absurd h (Exact.not_infinite_le_number v)

theorem le_total_of_isNonneg (hx : Scalar.IsNonneg x) (hy : Scalar.IsNonneg y) : x ≤ y ∨ y ≤ x := by
  rcases isAmount_or_infinite hx with ⟨v, hv⟩ | hx'
  · rcases isAmount_or_infinite hy with ⟨u, hu⟩ | hy'
    · rw [hv.le_iff hu, hu.le_iff hv]
      exact le_total v u
    · exact .inl (le_infinite_of_isNonneg hx hy')
  · exact .inr (le_infinite_of_isNonneg hy hx')

theorem isNearestTo_ofNat (n : Nat) : IsNearestTo (Scalar.ofNat n) n := by
  obtain ⟨m, q, hm, hread⟩ := ofFloat_ofNat n
  exact ⟨false, m, q, hm, by simp, hread⟩

theorem isAmount_ofNat {n : Nat} (h : n < 2 ^ 64) : IsAmount (Scalar.ofNat n) := by
  have htop : IsAmount (Scalar.ofNat (2 ^ 64)) := by
    refine ⟨2 ^ 52 * 2 ^ (12 : Int), ?_, by positivity⟩
    have hread : ofFloat (Scalar.ofNat (2 ^ 64)) = .finite false (2 ^ 52) 12 := by decide +kernel
    rw [Exact.ofFloat, hread]
    norm_num [Exact.ofDouble]
  exact htop.of_le (isNearestTo_ofNat n).isNonneg (ofNat_mono h.le)

theorem le_trans (hxy : x ≤ y) (hyz : y ≤ z) : x ≤ z :=
  (atMost_iff x z).mp
    (Scalar.IsOrdered.atMost_trans ((atMost_iff x y).mpr hxy) ((atMost_iff y z).mpr hyz))

theorem le_refl_of_isNonneg (hx : Scalar.IsNonneg x) : x ≤ x := (atMost_iff x x).mp hx.isNumber

/-! ### Operations -/

theorem HasValue.mul (hx : HasValue x v) (hy : HasValue y u) : IsNearestTo (x * y) (v * u) := by
  obtain ⟨s, m, p, hreadx, hs, rfl⟩ := hx.finite
  obtain ⟨t, n, q, hready, ht, rfl⟩ := hy.finite
  obtain ⟨k, r, hk, hread⟩ := ofFloat_mul hreadx hready
  refine ⟨s ^^ t, k, r, hk, fun hsign => ?_, hread⟩
  have hzero : (m : ℚ) * 2 ^ p * (n * 2 ^ q) = 0 := by
    cases s
    · rw [ht (by simpa using hsign), Nat.cast_zero, zero_mul, mul_zero]
    · rw [hs rfl, Nat.cast_zero, zero_mul, zero_mul]
  rw [hzero] at hk
  exact (hk.unique .zero).1

theorem HasValue.div (hx : HasValue x v) (hy : HasValue y u) (hu : 0 < u) :
    IsNearestTo (x / y) (v / u) := by
  obtain ⟨s, m, p, hreadx, hs, rfl⟩ := hx.finite
  obtain ⟨t, n, q, hready, ht, rfl⟩ := hy.finite
  have hn : 0 < n := by
    rcases Nat.eq_zero_or_pos n with rfl | hn
    · simp at hu
    · exact hn
  obtain rfl : t = false := by
    cases t
    · rfl
    · exact absurd (ht rfl) hn.ne'
  obtain ⟨k, r, hk, hread⟩ := ofFloat_div hreadx hready hn
  refine ⟨s ^^ false, k, r, hk, fun hsign => ?_, hread⟩
  rw [hs (by simpa using hsign), Nat.cast_zero, zero_mul, zero_div] at hk
  exact (hk.unique .zero).1

theorem isNonneg_mul (hx : IsAmount x) (hy : IsAmount y) : Scalar.IsNonneg (x * y) := by
  obtain ⟨a, ha⟩ := hx
  obtain ⟨b, hb⟩ := hy
  exact (ha.mul hb).isNonneg

theorem mul_mono (hz : IsAmount z) (hx : IsAmount x) (hy : IsAmount y) (h : x ≤ y) :
    z * x ≤ z * y := by
  obtain ⟨a, ha⟩ := hx
  obtain ⟨b, hb⟩ := hy
  obtain ⟨c, hc⟩ := hz
  exact (hc.mul ha).le (hc.mul hb) (mul_le_mul_of_nonneg_left ((ha.le_iff hb).mp h) hc.nonneg)

/-- Infinity times what is positive is infinite. -/
theorem ofFloat_infinite_mul {m : Nat} {q : Int} (hx : ofFloat x = .infinite false) (hm : 0 < m)
    (hy : ofFloat y = .finite false m q) : ofFloat (x * y) = .infinite false := by
  suffices hinfinite : x * y = pack (.infinity (sign false)) by
    rw [hinfinite, ofFloat_pack_infinity]
  have hmul : x * y = pack (UnpackedFloat.mul Format.binary64 x.toModel.unpack y.toModel.unpack) :=
    rfl
  rw [hmul, unpack_of_infinite hx, unpack_of_finite hm hy]
  rfl

theorem one_le_value (h1 : Scalar.one ≤ z) (hz : HasValue z v) : 1 ≤ v := by
  have hone : HasValue Scalar.one 1 := ⟨by decide +kernel, zero_le_one⟩
  exact (hone.le_iff hz).mp h1

/-- Division by what is at least 1 does not overflow. -/
theorem isAmount_div (hx : IsAmount x) (hz : IsAmount z) (h1 : Scalar.one ≤ z) :
    IsAmount (x / z) := by
  obtain ⟨a, ha⟩ := hx
  obtain ⟨c, hc⟩ := hz
  have hc1 := one_le_value h1 hc
  have hquotient := ha.div hc (one_pos.trans_le hc1)
  exact IsAmount.of_le ⟨a, ha⟩ hquotient.isNonneg
    (hquotient.le ha.isNearestTo (div_le_self ha.nonneg hc1))

/-- A divisor that is finite and has no sign leaves infinity as it is. -/
theorem ofFloat_infinite_div {m : Nat} {q : Int} (hx : ofFloat x = .infinite false)
    (hy : ofFloat y = .finite false m q) : ofFloat (x / y) = .infinite false := by
  suffices hinfinite : x / y = pack (.infinity (sign false)) by
    rw [hinfinite, ofFloat_pack_infinity]
  rw [div_eq_pack, unpack_of_infinite hx]
  rcases unpack_cases hy with ⟨h, -⟩ | ⟨_, h⟩ <;> rw [h] <;> rfl

/-- Dividing by what is at least 1 keeps the sign. -/
theorem isNonneg_div_of_one_le (hx : Scalar.IsNonneg x) (hz : IsAmount z) (h1 : Scalar.one ≤ z) :
    Scalar.IsNonneg (x / z) := by
  rcases isAmount_or_infinite hx with hx' | hx'
  · exact (isAmount_div hx' hz h1).isNonneg
  · obtain ⟨c, hc⟩ := hz
    have hc1 := one_le_value h1 hc
    obtain ⟨s, m, q, hread, hs, rfl⟩ := hc.finite
    obtain rfl : s = false := by
      cases s
      · rfl
      · rw [hs rfl, Nat.cast_zero, zero_mul] at hc1
        linarith
    exact isNonneg_of_infinite (ofFloat_infinite_div hx' hread)

/-- What is finite has no sign behind a division by a count, even by one that is rounded to infinity. -/
theorem isNonneg_div_ofNat (hx : IsAmount x) {n : Nat} (hn : 0 < n) :
    Scalar.IsNonneg (x / Scalar.ofNat n) := by
  rcases isAmount_or_infinite (Scalar.isNonneg_ofNat n) with hfinite | hinfinite
  · exact isNonneg_div_of_one_le hx.isNonneg hfinite (ofNat_mono hn)
  · obtain ⟨v, hv⟩ := hx
    obtain ⟨s, m, q, hread, -, -⟩ := hv.finite
    have hzero : x / Scalar.ofNat n = pack (.zero (sign s)) := by
      rw [div_eq_pack, unpack_of_infinite hinfinite]
      rcases unpack_cases hread with ⟨h, -⟩ | ⟨_, h⟩ <;> rw [h] <;> cases s <;> rfl
    exact isNonneg_of_finite (by rw [hzero, ofFloat_pack_zero]) fun _ => rfl

theorem div_mono (hx : IsAmount x) (hy : IsAmount y) (h : x ≤ y) (hz : IsAmount z)
    (h1 : Scalar.one ≤ z) : x / z ≤ y / z := by
  obtain ⟨a, ha⟩ := hx
  obtain ⟨b, hb⟩ := hy
  obtain ⟨c, hc⟩ := hz
  have hc0 : 0 < c := one_pos.trans_le (one_le_value h1 hc)
  exact (ha.div hc hc0).le (hb.div hc hc0)
    (div_le_div_of_nonneg_right ((ha.le_iff hb).mp h) hc0.le)

theorem HasValue.add (hx : HasValue x v) (hy : HasValue y u) : IsNearestTo (x + y) (v + u) := by
  obtain ⟨s, m, p, hreadx, hs, rfl⟩ := hx.finite
  obtain ⟨t, n, q, hready, ht, rfl⟩ := hy.finite
  obtain ⟨i, k, r, hk, hi, hread⟩ := ofFloat_add hreadx hready hs ht
  exact ⟨i, k, r, hk, hi, hread⟩

/-- Sums keep the order also where they overflow. -/
theorem add_mono (hx : Scalar.IsNonneg x) (hy : Scalar.IsNonneg y) (hxz : x ≤ z) (hyw : y ≤ w)
    (hz : Scalar.IsNonneg z) (hw : Scalar.IsNonneg w) : x + y ≤ z + w := by
  have hsum := isNonneg_add hx hy
  rcases isAmount_or_infinite hz with hz' | hz'
  · rcases isAmount_or_infinite hw with hw' | hw'
    · obtain ⟨a, ha⟩ := hz'.of_le hx hxz
      obtain ⟨b, hb⟩ := hw'.of_le hy hyw
      obtain ⟨c, hc⟩ := hz'
      obtain ⟨d, hd⟩ := hw'
      exact (ha.add hb).le (hc.add hd)
        (by linarith [(ha.le_iff hc).mp hxz, (hb.le_iff hd).mp hyw])
    · exact le_infinite_of_isNonneg hsum (ofFloat_add_infinite hz hw (.inr hw'))
  · exact le_infinite_of_isNonneg hsum (ofFloat_add_infinite hz hw (.inl hz'))

/-- A sum of amounts is not below its first summand. -/
theorem le_add (hx : Scalar.IsNonneg x) (hy : Scalar.IsNonneg y) : x ≤ x + y := by
  rcases isAmount_or_infinite hx with ⟨v, hv⟩ | hx'
  · rcases isAmount_or_infinite hy with ⟨u, hu⟩ | hy'
    · exact hv.isNearestTo.le (hv.add hu) (le_add_of_nonneg_right hu.nonneg)
    · exact le_infinite_of_isNonneg hx (ofFloat_add_infinite hx hy (.inr hy'))
  · exact le_infinite_of_isNonneg hx (ofFloat_add_infinite hx hy (.inl hx'))

end Saturation.Double
