import Saturation.Proofs.Double.Operations

/-! Sums, products and quotients of doubles, and doubles from natural numbers and decimals. -/

set_option autoImplicit false

namespace Saturation.Double

open Float.Model (UnpackedFloat Format)
open Float.Model.UnpackedFloat (Sign)

theorem isCanonical_zero : IsCanonical 0 leastExponent := ⟨by decide, le_rfl, .inr rfl⟩

theorem ofFloat_pack_unpacked {negative : Bool} {m : Nat} {q : Int} (h : IsCanonical m q) :
    ofFloat (pack (finite negative m q).unpacked) = held negative m q := by
  by_cases hm : 0 < m
  · rw [unpacked, dif_pos hm]
    exact ofFloat_pack_finite hm h
  · have h0 : m = 0 := by omega
    rw [unpacked, dif_neg hm]
    have hq : q = leastExponent := h.normal.resolve_left (by rw [h0]; decide)
    rw [ofFloat_pack_zero, h0, hq]
    rfl

theorem unpack_of_finite {x : Float} {negative : Bool} {m : Nat} {q : Int} (hm : 0 < m)
    (h : ofFloat x = .finite negative m q) : x.toModel.unpack = .finite (sign negative) m q hm := by
  rw [unpack_toModel, h, unpacked, dif_pos hm]

theorem unpack_of_zero {x : Float} {negative : Bool} {q : Int}
    (h : ofFloat x = .finite negative 0 q) : x.toModel.unpack = .zero (sign negative) := by
  rw [unpack_toModel, h]
  rfl

variable {x y : Float} {s t : Bool} {m n : Nat} {p q : Int}

theorem ofFloat_neg (h : ofFloat x = .finite s m p) : ofFloat (-x) = .finite (!s) m p := by
  obtain ⟨hc, hp⟩ := isCanonical_ofFloat h
  have hneg : (finite s m p).unpacked.neg = (finite (!s) m p).unpacked := by
    unfold unpacked
    dsimp only
    split <;> cases s <;> rfl
  have hpack : -x = pack x.toModel.unpack.neg := rfl
  rw [hpack, unpack_toModel, h, hneg, ofFloat_pack_unpacked hc, held_of_le hp]

theorem ofFloat_neg_held (h : ofFloat x = held s m p) : ofFloat (-x) = held (!s) m p := by
  by_cases hp : p ≤ greatestExponent
  · rw [held_of_le hp] at h ⊢
    exact ofFloat_neg h
  · have hheld (t : Bool) : held t m p = .infinite t := if_pos (Int.not_le.mp hp)
    have hneg : (infinite s).unpacked.neg = .infinity (sign !s) := by cases s <;> rfl
    have hpack : -x = pack x.toModel.unpack.neg := rfl
    rw [hheld] at h ⊢
    rw [hpack, unpack_toModel, h, hneg, ofFloat_pack_infinity]

theorem sign_div (s t : Bool) : sign s / sign t = sign (s ^^ t) := by cases s <;> cases t <;> rfl

theorem sign_mul (s t : Bool) : sign s * sign t = sign (s ^^ t) := by cases s <;> cases t <;> rfl

theorem IsNearest.zero : IsNearest 0 0 leastExponent := by
  simpa using isCanonical_zero.isNearest

theorem ofFloat_div (hx : ofFloat x = .finite s m p) (hy : ofFloat y = .finite t n q)
    (hn : 0 < n) : ∃ (k : Nat) (r : Int), IsNearest (m * 2 ^ p / (n * 2 ^ q)) k r ∧
      ofFloat (x / y) = held (s ^^ t) k r := by
  have hy' := unpack_of_finite hn hy
  have hdiv : x / y = pack (UnpackedFloat.div Format.binary64 x.toModel.unpack y.toModel.unpack) :=
    rfl
  rw [hdiv, hy']
  rcases Nat.eq_zero_or_pos m with rfl | hm
  · refine ⟨0, leastExponent, by simpa using IsNearest.zero, ?_⟩
    rw [unpack_of_zero hx]
    show ofFloat (pack (.zero (sign s / sign t))) = _
    rw [sign_div, ofFloat_pack_zero]
    rfl
  · obtain ⟨k, r, h, hround⟩ := div_nearest (s ^^ t) hm hn p q
    refine ⟨k, r, h, ?_⟩
    rw [unpack_of_finite hm hx, ← ofFloat_pack_unpacked h.canonical, ← hround, ← sign_div]
    rfl

theorem ofFloat_mul (hx : ofFloat x = .finite s m p) (hy : ofFloat y = .finite t n q) :
    ∃ (k : Nat) (r : Int), IsNearest (m * 2 ^ p * (n * 2 ^ q)) k r ∧
      ofFloat (x * y) = held (s ^^ t) k r := by
  have hmul : x * y = pack (UnpackedFloat.mul Format.binary64 x.toModel.unpack y.toModel.unpack) :=
    rfl
  rw [hmul]
  rcases Nat.eq_zero_or_pos m with rfl | hm
  · refine ⟨0, leastExponent, by simpa using IsNearest.zero, ?_⟩
    have hzero : UnpackedFloat.mul Format.binary64 x.toModel.unpack y.toModel.unpack =
        .zero (sign s * sign t) := by
      rw [unpack_of_zero hx]
      rcases Nat.eq_zero_or_pos n with rfl | hn
      · rw [unpack_of_zero hy]
        rfl
      · rw [unpack_of_finite hn hy]
        rfl
    rw [hzero, sign_mul, ofFloat_pack_zero]
    rfl
  · rcases Nat.eq_zero_or_pos n with rfl | hn
    · refine ⟨0, leastExponent, by simpa using IsNearest.zero, ?_⟩
      rw [unpack_of_finite hm hx, unpack_of_zero hy]
      show ofFloat (pack (.zero (sign s * sign t))) = _
      rw [sign_mul, ofFloat_pack_zero]
      rfl
    · obtain ⟨k, r, h, hround⟩ := mul_nearest (s ^^ t)
        ((isCanonical_ofFloat hx).1.mul (isCanonical_ofFloat hy).1 hm hn)
      refine ⟨k, r, h, ?_⟩
      rw [unpack_of_finite hm hx, unpack_of_finite hn hy, ← ofFloat_pack_unpacked h.canonical,
        ← hround, ← sign_mul]
      rfl

/-- Amounts have no sign, except that a zero may have one. -/
theorem ofFloat_add (hx : ofFloat x = .finite s m p) (hy : ofFloat y = .finite t n q)
    (hs : s = true → m = 0) (ht : t = true → n = 0) :
    ∃ (u : Bool) (k : Nat) (r : Int), IsNearest (m * 2 ^ p + n * 2 ^ q) k r ∧
      (u = true → k = 0) ∧ ofFloat (x + y) = held u k r := by
  have hadd : x + y = pack (UnpackedFloat.add Format.binary64 x.toModel.unpack y.toModel.unpack) :=
    rfl
  have hxc := (isCanonical_ofFloat hx).1
  have hyc := (isCanonical_ofFloat hy).1
  rw [hadd]
  rcases Nat.eq_zero_or_pos m with rfl | hm
  · rcases Nat.eq_zero_or_pos n with rfl | hn
    · refine ⟨s && t, 0, leastExponent, by simpa using IsNearest.zero, fun _ => rfl, ?_⟩
      rw [unpack_of_zero hx, unpack_of_zero hy]
      cases s <;> cases t <;> decide +kernel
    · refine ⟨t, n, q, by simpa using hyc.isNearest, ht, ?_⟩
      rw [unpack_of_zero hx, unpack_of_finite hn hy, ← ofFloat_pack_finite hn hyc]
      rfl
  · rcases Nat.eq_zero_or_pos n with rfl | hn
    · refine ⟨s, m, p, by simpa using hxc.isNearest, hs, ?_⟩
      rw [unpack_of_finite hm hx, unpack_of_zero hy, ← ofFloat_pack_finite hm hxc]
      rfl
    · obtain rfl : s = false := by
        cases s
        · rfl
        · exact absurd (hs rfl) hm.ne'
      obtain rfl : t = false := by
        cases t
        · rfl
        · exact absurd (ht rfl) hn.ne'
      obtain ⟨k, r, h, hround⟩ := add_nearest (Nat.add_pos_left hm n) p q
      refine ⟨false, k, r, h, by simp, ?_⟩
      rw [unpack_of_finite hm hx, unpack_of_finite hn hy, ← ofFloat_pack_unpacked h.canonical,
        ← hround]
      rfl

theorem ofFloat_toFloat (n : UInt64) :
    ∃ (m : Nat) (q : Int), IsNearest n.toNat m q ∧ ofFloat n.toFloat = held false m q := by
  obtain ⟨m, q, h, hn⟩ := ofNat_nearest n.toNat
  refine ⟨m, q, h, ?_⟩
  rw [← ofFloat_pack_unpacked h.canonical, ← hn]
  rfl

/-! ### Numbers -/

theorem ofFloat_toFloat_of_lt {n : Nat} (h : n < 2 ^ 64) :
    ∃ (m : Nat) (q : Int), IsNearest n m q ∧ ofFloat n.toUInt64.toFloat = held false m q := by
  have hn : n.toUInt64.toNat = n := UInt64.toNat_ofNat_of_lt' h
  simpa only [hn] using ofFloat_toFloat n.toUInt64

/-- The values that are too large for a double. -/
theorem IsNearest.lt_exponent {x : ℚ} {k : Nat} {r : Int} (h : IsNearest x k r)
    (hx : 2 ^ (1024 : Int) ≤ x) : greatestExponent < r := by
  have hc : IsCanonical leastNormal 972 := ⟨by decide, by decide, .inl le_rfl⟩
  have hvalue : (leastNormal : ℚ) * 2 ^ (972 : Int) = 2 ^ (1024 : Int) := by
    rw [show (1024 : Int) = 52 + 972 from rfl, zpow_add₀ two_ne_zero]
    norm_num [leastNormal]
  have hle := hc.isNearest.mono h (hvalue.trans_le hx)
  rw [hc.le_iff h.canonical] at hle
  simp only [greatestExponent]
  omega

theorem IsNearest.of_lt {x : ℚ} (h0 : 0 ≤ x) (hx : x < 2 ^ (-1076 : Int)) :
    IsNearest x 0 leastExponent := by
  refine ⟨isCanonical_zero, leastExponent, 0, ⟨le_rfl, hx.trans ?_, .inl rfl⟩, ?_, rfl⟩
  · exact zpow_lt_zpow_right₀ one_lt_two (by decide)
  · have hhalf : x / 2 ^ leastExponent < 1 / 2 := by
      rw [div_lt_iff₀ (two_zpow_pos _)]
      refine hx.trans_le ?_
      rw [show (-1076 : Int) = -2 + leastExponent from rfl, zpow_add₀ two_ne_zero]
      exact mul_le_mul_of_nonneg_right (by norm_num) (two_zpow_pos _).le
    have hpos : 0 ≤ x / 2 ^ leastExponent := div_nonneg h0 (two_zpow_pos _).le
    refine ⟨?_, ?_, fun _ => rfl⟩ <;> push_cast <;> linarith

/-- The table of the core library has the exact powers of ten. -/
theorem ofFloat_powerOfTen (e : Fin Float.exactlyRepresentablePowersOfTen.size) :
    ∃ (m : Nat) (q : Int), 0 < m ∧ (m : ℚ) * 2 ^ q = 10 ^ e.val ∧
      ofFloat Float.exactlyRepresentablePowersOfTen[e] = .finite false m q := by
  have htable : ∀ e : Fin Float.exactlyRepresentablePowersOfTen.size,
      ofFloat Float.exactlyRepresentablePowersOfTen[e] =
        .finite false (10 ^ e.val * 2 ^ 52 / 2 ^ (10 ^ e.val).log2) ((10 ^ e.val).log2 - 52) ∧
      10 ^ e.val * 2 ^ 52 / 2 ^ (10 ^ e.val).log2 * 2 ^ (10 ^ e.val).log2 = 10 ^ e.val * 2 ^ 52 := by
    decide +kernel
  obtain ⟨hread, hexact⟩ := htable e
  generalize 10 ^ e.val * 2 ^ 52 / 2 ^ (10 ^ e.val).log2 = m at hread hexact
  have hexact' : (m : ℚ) * 2 ^ (10 ^ e.val).log2 = 10 ^ e.val * 2 ^ 52 := by exact_mod_cast hexact
  refine ⟨m, _, ?_, ?_, hread⟩
  · rcases Nat.eq_zero_or_pos m with rfl | hm
    · have : 0 < 10 ^ e.val * 2 ^ 52 := by positivity
      omega
    · exact hm
  · rw [zpow_sub₀ two_ne_zero, zpow_natCast, ← mul_div_assoc, hexact', mul_div_assoc]
    norm_num

theorem scientific_large {m : Nat} (hm : 0 < m) {e : Int} (he : 2048 < e) :
    ∃ (k : Nat) (r : Int), IsNearest (m * 10 ^ e) k r ∧ greatestExponent < r := by
  have hvalue : ((m * 10 ^ e.toNat : Nat) : ℚ) = m * 10 ^ e := by
    push_cast
    rw [← zpow_natCast, Int.toNat_of_nonneg (by omega)]
  have hlarge : (2 : ℚ) ^ (1024 : Int) ≤ m * 10 ^ e :=
    calc (2 : ℚ) ^ (1024 : Int) ≤ 10 ^ (1024 : Int) :=
          zpow_le_zpow_left₀ (by decide) two_pos.le (by norm_num)
      _ ≤ 10 ^ e := zpow_le_zpow_right₀ (by norm_num) (by omega)
      _ ≤ m * 10 ^ e := le_mul_of_one_le_left (by positivity) (by exact_mod_cast hm)
  obtain ⟨k, r, h, -⟩ := ofNat_nearest (m * 10 ^ e.toNat)
  rw [hvalue] at h
  exact ⟨k, r, h, h.lt_exponent hlarge⟩

theorem scientific_small {m : Nat} {e : Int} (he : e < -(2048 + m.log2)) :
    IsNearest (m * 10 ^ e) 0 leastExponent := by
  have hm : (m : ℚ) < 2 ^ ((m.log2 : Int) + 1) := by
    have : m < 2 ^ (m.log2 + 1) := Nat.lt_log2_self
    exact_mod_cast this
  have hpow : (10 : ℚ) ^ e ≤ 2 ^ e := by
    rw [← neg_neg e, zpow_neg, zpow_neg 2]
    exact inv_anti₀ (by positivity) (zpow_le_zpow_left₀ (by omega) two_pos.le (by norm_num))
  refine .of_lt (by positivity) ?_
  calc (m : ℚ) * 10 ^ e ≤ m * 2 ^ e := mul_le_mul_of_nonneg_left hpow (Nat.cast_nonneg m)
    _ < 2 ^ ((m.log2 : Int) + 1) * 2 ^ e := mul_lt_mul_of_pos_right hm (two_zpow_pos e)
    _ = 2 ^ ((m.log2 : Int) + 1 + e) := (zpow_add₀ two_ne_zero _ _).symm
    _ ≤ 2 ^ (-1076 : Int) := zpow_le_zpow_right₀ one_le_two (by omega)

theorem scientific_mul {m : Nat} (hm : 0 < m) {e : Int} (he : 0 ≤ e) :
    ∃ (k : Nat) (r : Int), IsNearest (m * 10 ^ e) k r ∧
      UnpackedFloat.roundWithAccuracy Format.binary64 (sign false) (m <<< 53 * 10 ^ e.toNat)
        (-53 + 0) .exact = (finite false k r).unpacked := by
  have hlog : (-53 + 0 : Int) ≤ roundingExponent (m <<< 53 * 10 ^ e.toNat) (-53 + 0) := by
    have hge : 2 ^ 53 ≤ m <<< 53 * 10 ^ e.toNat := by
      rw [Nat.shiftLeft_eq]
      exact (Nat.le_mul_of_pos_left _ hm).trans (Nat.le_mul_of_pos_right _ (by positivity))
    have hne : m <<< 53 * 10 ^ e.toNat ≠ 0 := by omega
    have := (Nat.le_log2 hne).mpr hge
    unfold roundingExponent
    omega
  have hvalue : ((m <<< 53 : Nat) : ℚ) * 2 ^ (-53 : Int) * ((10 ^ e.toNat : Nat) * 2 ^ (0 : Int)) =
      m * 10 ^ e := by
    have hten : ((10 ^ e.toNat : Nat) : ℚ) = 10 ^ e := by
      push_cast
      rw [← zpow_natCast, Int.toNat_of_nonneg he]
    have hshift : ((m <<< 53 : Nat) : ℚ) * 2 ^ (-53 : Int) = m * 2 ^ (0 : Int) :=
      value_shiftLeft m 0 53
    rw [hshift, hten, zpow_zero, mul_one, mul_one]
  rw [← hvalue]
  exact mul_nearest false hlog

theorem scientific_div {m : Nat} (hm : 0 < m) {e : Int} (he : e < 0) :
    ∃ (k : Nat) (r : Int), IsNearest (m * 10 ^ e) k r ∧
      UnpackedFloat.roundWithAccuracy Format.binary64 (sign false)
        (UnpackedFloat.divCore Format.binary64 m 0 (10 ^ (-e).toNat) 0).1
        (UnpackedFloat.divCore Format.binary64 m 0 (10 ^ (-e).toNat) 0).2.1
        (UnpackedFloat.divCore Format.binary64 m 0 (10 ^ (-e).toNat) 0).2.2 =
          (finite false k r).unpacked := by
  have hvalue : (m : ℚ) * 2 ^ (0 : Int) / ((10 ^ (-e).toNat : Nat) * 2 ^ (0 : Int)) = m * 10 ^ e := by
    have hten : ((10 ^ (-e).toNat : Nat) : ℚ) = 10 ^ (-e) := by
      push_cast
      rw [← zpow_natCast, Int.toNat_of_nonneg (by omega)]
    rw [hten, zpow_zero, mul_one, mul_one, zpow_neg, div_inv_eq_mul]
  rw [← hvalue]
  exact div_nearest false hm (by positivity) 0 0

/-- A decimal becomes the double nearest to it. -/
theorem ofScientific_nearest (m : Nat) (e : Int) :
    ∃ (k : Nat) (r : Int), IsNearest (m * 10 ^ e) k r ∧
      ofFloat (pack (UnpackedFloat.ofScientific Format.binary64 m e)) = held false k r := by
  unfold UnpackedFloat.ofScientific
  by_cases hm : m = 0
  · refine ⟨0, leastExponent, by simpa [hm] using IsNearest.zero, ?_⟩
    rw [dif_pos hm, ← ofFloat_pack_unpacked isCanonical_zero]
    rfl
  have hpos : 0 < m := Nat.pos_of_ne_zero hm
  rw [dif_neg hm]
  split
  · rename_i hlarge
    obtain ⟨k, r, h, hr⟩ := scientific_large hpos (e := e) hlarge
    refine ⟨k, r, h, ?_⟩
    rw [held, if_pos hr]
    exact ofFloat_pack_infinity false
  · split
    · rename_i hsmall
      refine ⟨0, leastExponent, scientific_small hsmall, ?_⟩
      rw [← ofFloat_pack_unpacked isCanonical_zero]
      rfl
    · split
      · rename_i he
        obtain ⟨k, r, h, hround⟩ := scientific_mul hpos he
        refine ⟨k, r, h, ?_⟩
        rw [← ofFloat_pack_unpacked h.canonical, ← hround]
        rfl
      · rename_i he
        obtain ⟨k, r, h, hround⟩ := scientific_div hpos (not_le.mp he)
        refine ⟨k, r, h, ?_⟩
        rw [← ofFloat_pack_unpacked h.canonical, ← hround]
        rfl

/-- What has up to 53 bits and is not below the normal doubles has a canonical pair. -/
theorem exists_canonical_shift {n : Nat} (hn : 0 < n) (h : n < 2 ^ 53) {e : Int}
    (he : leastExponent + 52 ≤ e) :
    ∃ (m : Nat) (q : Int), IsCanonical m q ∧ q ≤ e ∧ (m : ℚ) * 2 ^ q = n * 2 ^ e := by
  have hlog : n.log2 < 53 := (Nat.log2_lt hn.ne').mpr h
  have hm := log2_shiftLeft hn (52 - n.log2)
  rw [Nat.add_sub_cancel' (by omega)] at hm
  have hpos : n <<< (52 - n.log2) ≠ 0 := by
    intro h0
    simp [h0] at hm
  refine ⟨n <<< (52 - n.log2), e - (52 - n.log2 : Nat), ⟨?_, by omega, .inl ?_⟩, by omega, ?_⟩
  · exact (Nat.log2_lt hpos).mp (by omega : _ < 53)
  · exact (Nat.le_log2 hpos).mp (by omega : 52 ≤ _)
  · exact value_shiftLeft n e _

theorem exists_canonical {n : Nat} (h : n < 2 ^ 53) :
    ∃ (m : Nat) (q : Int), IsCanonical m q ∧ q ≤ greatestExponent ∧ (m : ℚ) * 2 ^ q = n := by
  rcases Nat.eq_zero_or_pos n with rfl | hn
  · exact ⟨0, leastExponent, isCanonical_zero, by decide, by simp⟩
  · obtain ⟨m, q, hc, hq, hvalue⟩ := exists_canonical_shift hn h (e := 0) (by decide)
    exact ⟨m, q, hc, hq.trans (by decide), by simpa using hvalue⟩

theorem IsNearest.exact {x : ℚ} {m n : Nat} {p q : Int} (h : IsNearest x m p)
    (hn : IsCanonical n q) (hx : (n : ℚ) * 2 ^ q = x) : m = n ∧ p = q :=
  h.unique (hx ▸ hn.isNearest)

/-- Numbers of up to 53 bits are exact. -/
theorem ofFloat_toFloat_exact {n : Nat} (h : n < 2 ^ 53) :
    ∃ (m : Nat) (q : Int), (m : ℚ) * 2 ^ q = n ∧ ofFloat n.toUInt64.toFloat = .finite false m q := by
  obtain ⟨m, q, hm, hread⟩ := ofFloat_toFloat_of_lt (n := n) (by omega)
  obtain ⟨k, r, hk, hr, hvalue⟩ := exists_canonical h
  obtain ⟨rfl, rfl⟩ := hm.exact hk hvalue
  exact ⟨m, q, hvalue, by rw [hread, held_of_le hr]⟩

theorem ofScientific_table {m e : Nat} (hm : m < 2 ^ 53) (he : e ≤ 22) (negative : Bool) :
    Float.ofScientific m negative e =
      if negative then
        m.toUInt64.toFloat / Float.exactlyRepresentablePowersOfTen[Fin.mk e (Nat.lt_succ_of_le he)]
      else
        m.toUInt64.toFloat * Float.exactlyRepresentablePowersOfTen[Fin.mk e (Nat.lt_succ_of_le he)] := by
  unfold Float.ofScientific
  exact dif_pos ⟨hm, he⟩

theorem ofScientific_model {m e : Nat} (h : ¬ (m < 2 ^ 53 ∧ e ≤ 22)) (negative : Bool) :
    Float.ofScientific m negative e = pack (UnpackedFloat.ofScientific Format.binary64 m
      (if negative then -(e : Int) else e)) := by
  unfold Float.ofScientific
  rw [dif_neg h]
  cases negative
  · rfl
  · rw [if_pos rfl, if_pos rfl, Int.negOfNat_eq]
    rfl

theorem ofFloat_ofScientific (m : Nat) (negative : Bool) (e : Nat) :
    ∃ (k : Nat) (r : Int), IsNearest (m * 10 ^ (if negative then -(e : Int) else e)) k r ∧
      ofFloat (Float.ofScientific m negative e) = held false k r := by
  by_cases h : m < 2 ^ 53 ∧ e ≤ 22
  · obtain ⟨a, p, ha, hm⟩ := ofFloat_toFloat_exact h.1
    obtain ⟨b, q, hb, hten, hpow⟩ := ofFloat_powerOfTen ⟨e, Nat.lt_succ_of_le h.2⟩
    rw [ofScientific_table h.1 h.2]
    cases negative
    · obtain ⟨k, r, hk, hread⟩ := ofFloat_mul hm hpow
      rw [ha, hten] at hk
      exact ⟨k, r, by simpa using hk, hread⟩
    · obtain ⟨k, r, hk, hread⟩ := ofFloat_div hm hpow hb
      rw [ha, hten] at hk
      exact ⟨k, r, by simpa [div_eq_mul_inv] using hk, hread⟩
  · rw [ofScientific_model h]
    exact ofScientific_nearest m _

theorem ofFloat_ofNat (n : Nat) :
    ∃ (m : Nat) (q : Int), IsNearest n m q ∧ ofFloat (ofNat n) = held false m q := by
  by_cases h : n < 0x10000000000000000
  · rw [ofNat, if_pos h]
    exact ofFloat_toFloat_of_lt h
  · obtain ⟨m, q, hm, hread⟩ := ofFloat_ofScientific n false 0
    refine ⟨m, q, by simpa using hm, ?_⟩
    rw [← hread, ofNat, if_neg h]
    rfl

end Saturation.Double
