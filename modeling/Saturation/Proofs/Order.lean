import Saturation.Proofs.Double.Value

/-!
What doubles and exact quotients have in common. Neither has all laws of numbers, but both compare
by an order, and what they compute from values that are not negative is not negative.
-/

set_option autoImplicit false

namespace Saturation

/-- Infinity is not negative; what is not a number is neither. -/
def Scalar.IsNonneg {α : Type} [Scalar α] (a : α) : Prop := Scalar.atMost Scalar.zero a = true

class Scalar.IsOrdered (α : Type) [Scalar α] : Prop where
  atMost_trans {a b c : α} (hab : Scalar.atMost a b = true) (hbc : Scalar.atMost b c = true) :
    Scalar.atMost a c = true
  ofNat_mono {m n : Nat} (h : m ≤ n) : Scalar.atMost (Scalar.ofNat m : α) (Scalar.ofNat n) = true
  precedes_total (a b : α) : (Scalar.precedes a b || Scalar.precedes b a) = true
  precedes_trans {a b c : α} (hab : Scalar.precedes a b = true)
    (hbc : Scalar.precedes b c = true) : Scalar.precedes a c = true
  isNonneg_add {a b : α} (ha : Scalar.IsNonneg a) (hb : Scalar.IsNonneg b) :
    Scalar.IsNonneg (a + b)
  /-- Infinity by a number that is too large is no number. -/
  isNonneg_div {a : α} {n : Nat} (ha : Scalar.IsNonneg a)
    (h : Scalar.isNumber (a / Scalar.ofNat n) = true) : Scalar.IsNonneg (a / Scalar.ofNat n)
  atMost_of_precedes {a b : α} (ha : Scalar.IsNonneg a) (hb : Scalar.IsNonneg b)
    (hab : Scalar.precedes a b = true) : Scalar.atMost a b = true
  truncate_mono {a b : α} (ha : Scalar.IsNonneg a) (hab : Scalar.atMost a b = true) :
    (Scalar.truncate a).toNat ≤ (Scalar.truncate b).toNat
  isNumber_of_atMost {a b : α} (hab : Scalar.atMost a b = true) : Scalar.isNumber b = true
  truncate_of_not_number {a : α} (h : Scalar.isNumber a = false) : Scalar.truncate a = 0

namespace Scalar

variable {α : Type} [Scalar α]

theorem IsNonneg.larger {a b : α} (ha : IsNonneg a) (hb : IsNonneg b) : IsNonneg (larger a b) := by
  unfold Scalar.larger
  split
  · exact ha
  · split
    · exact ha
    · exact hb

variable [IsOrdered α]

theorem isNonneg_ofNat (n : Nat) : IsNonneg (ofNat n : α) := IsOrdered.ofNat_mono n.zero_le

theorem IsNonneg.isNumber {a : α} (h : IsNonneg a) : isNumber a = true :=
  IsOrdered.isNumber_of_atMost h

end Scalar

namespace Exact

theorem isNonneg_iff (x : Exact) :
    Scalar.IsNonneg x ↔ x = infinite ∨ ∃ q, 0 ≤ q ∧ x = number q := by
  have h : Scalar.IsNonneg x ↔ number 0 ≤ x := by
    rw [Scalar.IsNonneg, zero_eq]
    rfl
  rw [h]
  cases x <;> simp

theorem isNonneg_number {q : ℚ} : Scalar.IsNonneg (number q) ↔ 0 ≤ q := by
  simp [isNonneg_iff]

theorem IsAmount.isNonneg {x : Exact} (h : x.IsAmount) : Scalar.IsNonneg x :=
  (isNonneg_iff x).mpr (.inr h)

theorem isNonneg_infinite : Scalar.IsNonneg infinite := (isNonneg_iff _).mpr (.inl rfl)

theorem truncate_mono {x y : Exact} (h : x ≤ y) :
    (Scalar.truncate x).toNat ≤ (Scalar.truncate y).toNat := by
  cases y with
  | undefined => simp at h
  | infinite => exact Nat.le_of_lt_succ (Scalar.truncate x).toNat_lt
  | number b =>
    cases x with
    | number a =>
      rw [toNat_truncate, toNat_truncate]
      have := Int.toNat_le_toNat (Int.floor_mono ((number_le a b).mp h))
      omega
    | infinite => exact absurd h Bool.false_ne_true
    | undefined => exact absurd h Bool.false_ne_true

instance : Scalar.IsOrdered Exact where
  atMost_trans := le_trans
  ofNat_mono h := (number_le _ _).mpr (Nat.cast_le.mpr h)
  precedes_total := precedes_total
  precedes_trans := precedes_trans _ _ _
  isNonneg_add := by
    intro a b ha hb
    rw [isNonneg_iff] at ha hb
    rcases ha with rfl | ⟨p, hp, rfl⟩ <;> rcases hb with rfl | ⟨q, hq, rfl⟩
    · exact isNonneg_infinite
    · exact isNonneg_infinite
    · exact isNonneg_infinite
    · exact isNonneg_number.mpr (add_nonneg hp hq)
  isNonneg_div := by
    intro a n ha h
    rw [isNonneg_iff] at ha
    rw [ofNat_eq] at h ⊢
    rcases ha with rfl | ⟨p, hp, rfl⟩
    · rw [infinite_div n.cast_nonneg]
      exact isNonneg_infinite
    · rcases Nat.eq_zero_or_pos n with rfl | hn
      · rcases hp.eq_or_lt with rfl | hp
        · exact absurd h Bool.false_ne_true
        · rw [Nat.cast_zero, number_div_zero hp]
          exact isNonneg_infinite
      · have hn' : (0 : ℚ) < n := Nat.cast_pos.mpr hn
        rw [number_div p hn'.ne']
        exact isNonneg_number.mpr (div_nonneg hp hn'.le)
  atMost_of_precedes := by
    intro a b _ hb hab
    refine (le_iff_precedes a b).mpr ⟨hab, ?_⟩
    rintro rfl
    simp [isNonneg_iff] at hb
  truncate_mono _ := truncate_mono
  isNumber_of_atMost := by
    intro a b hab
    cases b with
    | number q => exact decide_eq_true le_rfl
    | infinite => rfl
    | undefined => exact absurd hab (not_le_undefined a)
  truncate_of_not_number := by
    intro a h
    cases a with
    | number q => exact absurd (decide_eq_true le_rfl) (ne_true_of_eq_false h)
    | infinite => exact absurd h Bool.noConfusion
    | undefined => rfl

end Exact

namespace Double

open Exact (number infinite undefined)
open Float.Model (UnpackedFloat Format)

theorem ofFloat_zero : Exact.ofFloat Scalar.zero = number 0 := by
  have h : ofFloat (Scalar.zero : Float) = .finite false 0 leastExponent := by decide +kernel
  simp [Exact.ofFloat, h, Exact.ofDouble]

theorem atMost_iff (x y : Float) : Scalar.atMost x y = true ↔ x ≤ y := decide_eq_true_iff

theorem not_le_of_notANumber {x y : Float} (h : ofFloat y = .notANumber) : ¬ x ≤ y := by
  rw [le_iff_unpacked, h]
  simp [unpacked]

theorem le_of_infinite {x y : Float} (hx : ofFloat x = .infinite true)
    (hy : ofFloat y ≠ .notANumber) : x ≤ y := by
  rw [le_iff_unpacked, hx]
  cases h : ofFloat y with
  | notANumber => exact absurd h hy
  | infinite t => simp
  | finite t n q => simp

theorem not_le_infinite {x y : Float} (h : x ≤ y) (hx : ofFloat x ≠ .infinite true) :
    ofFloat y ≠ .infinite true := by
  intro hy
  rw [le_iff hx] at h
  simp [Exact.ofFloat, hy, Exact.ofDouble] at h

theorem isNonneg_iff (x : Float) : Scalar.IsNonneg x ↔ Scalar.IsNonneg (Exact.ofFloat x) := by
  have hzero : ofFloat Scalar.zero ≠ .infinite true := by decide +kernel
  rw [Scalar.IsNonneg, atMost_iff, le_iff hzero, ofFloat_zero]
  simp [Scalar.IsNonneg]

/-- A double that is not negative has no sign, except that a zero may have one. -/
theorem isNonneg_cases {x : Float} (h : Scalar.IsNonneg x) :
    ofFloat x = .infinite false ∨
      ∃ (s : Bool) (m : Nat) (q : Int), ofFloat x = .finite s m q ∧ (s = true → m = 0) := by
  rw [isNonneg_iff, Exact.isNonneg_iff, Exact.ofFloat] at h
  cases hx : ofFloat x with
  | notANumber => simp [hx, Exact.ofDouble] at h
  | infinite s =>
    cases s
    · exact .inl rfl
    · simp [hx, Exact.ofDouble] at h
  | finite s m q =>
    refine .inr ⟨s, m, q, rfl, ?_⟩
    rintro rfl
    simp only [hx, Exact.ofDouble, if_true, Exact.number.injEq, reduceCtorEq, false_or] at h
    obtain ⟨r, hr, h⟩ := h
    have hpos := two_zpow_pos q
    by_contra hm
    have : (0 : ℚ) < m * 2 ^ q := mul_pos (Nat.cast_pos.mpr (Nat.pos_of_ne_zero hm)) hpos
    linarith

theorem isNonneg_of_infinite {x : Float} (h : ofFloat x = .infinite false) : Scalar.IsNonneg x := by
  rw [isNonneg_iff, Exact.ofFloat, h]
  exact Exact.isNonneg_infinite

theorem exact_finite {s : Bool} {m : Nat} (hs : s = true → m = 0) (q : Int) :
    Exact.ofDouble (.finite s m q) = number (m * 2 ^ q) := by
  cases s
  · rfl
  · simp [Exact.ofDouble, hs rfl]

theorem isNonneg_of_finite {x : Float} {s : Bool} {m : Nat} {q : Int}
    (h : ofFloat x = .finite s m q) (hs : s = true → m = 0) : Scalar.IsNonneg x := by
  rw [isNonneg_iff, Exact.ofFloat, h, exact_finite hs, Exact.isNonneg_number]
  exact mul_nonneg m.cast_nonneg (two_zpow_pos q).le

theorem isNonneg_of_held {x : Float} {s : Bool} {m : Nat} {q : Int}
    (h : ofFloat x = held s m q) (hc : IsCanonical m q) (hs : s = true → m = 0) :
    Scalar.IsNonneg x := by
  unfold held at h
  split at h
  · rename_i hq
    cases s
    · exact isNonneg_of_infinite h
    · -- A zero does not overflow.
      have := hc.normal
      simp only [hs rfl, leastNormal, leastExponent, greatestExponent] at *
      omega
  · exact isNonneg_of_finite h hs

theorem isNumber_iff (x : Float) : Scalar.isNumber x = true ↔ ofFloat x ≠ .notANumber := by
  rw [Scalar.isNumber, atMost_iff]
  constructor
  · exact fun h hx => not_le_of_notANumber hx h
  · intro h
    by_cases hx : ofFloat x = .infinite true
    · exact le_of_infinite hx h
    · rw [le_iff hx, Exact.ofFloat]
      cases hd : ofFloat x with
      | notANumber => exact absurd hd h
      | infinite s =>
        cases s
        · rfl
        · exact absurd hd hx
      | finite s m q => simp [Exact.ofDouble]

theorem unpack_of_infinite {x : Float} {s : Bool} (h : ofFloat x = .infinite s) :
    x.toModel.unpack = .infinity (sign s) := by rw [unpack_toModel, h, unpacked]

/-- A finite double in the form in which the core library computes. -/
theorem unpack_cases {x : Float} {s : Bool} {m : Nat} {q : Int} (h : ofFloat x = .finite s m q) :
    x.toModel.unpack = .zero (sign s) ∧ m = 0 ∨
      ∃ hm : 0 < m, x.toModel.unpack = .finite (sign s) m q hm := by
  rcases Nat.eq_zero_or_pos m with rfl | hm
  · exact .inl ⟨unpack_of_zero h, rfl⟩
  · exact .inr ⟨hm, unpack_of_finite hm h⟩

theorem isNonneg_of_pack {x : Float} (h : x = pack (.infinity (sign false))) :
    Scalar.IsNonneg x := isNonneg_of_infinite (by rw [h, ofFloat_pack_infinity])

theorem ne_pack_notANumber {x : Float} (h : Scalar.isNumber x = true) : x ≠ pack .notANumber := by
  intro hn
  rw [hn, isNumber_iff, ofFloat_pack_notANumber] at h
  exact h rfl

/-- An infinite summand makes the sum of amounts infinite. -/
theorem ofFloat_add_infinite {x y : Float} (hx : Scalar.IsNonneg x) (hy : Scalar.IsNonneg y)
    (h : ofFloat x = .infinite false ∨ ofFloat y = .infinite false) :
    ofFloat (x + y) = .infinite false := by
  have hadd : x + y = pack (UnpackedFloat.add Format.binary64 x.toModel.unpack y.toModel.unpack) :=
    rfl
  suffices hinfinite : x + y = pack (.infinity (sign false)) by
    rw [hinfinite, ofFloat_pack_infinity]
  rcases isNonneg_cases hx with hx | ⟨s, m, p, hx, -⟩ <;>
    rcases isNonneg_cases hy with hy | ⟨t, n, q, hy, -⟩
  · rw [hadd, unpack_of_infinite hx, unpack_of_infinite hy]
    rfl
  · rw [hadd, unpack_of_infinite hx]
    rcases unpack_cases hy with ⟨h, -⟩ | ⟨_, h⟩ <;> rw [h] <;> rfl
  · rw [hadd, unpack_of_infinite hy]
    rcases unpack_cases hx with ⟨h, -⟩ | ⟨_, h⟩ <;> rw [h] <;> rfl
  · simp [hx, hy] at h

theorem isNonneg_add {x y : Float} (hx : Scalar.IsNonneg x) (hy : Scalar.IsNonneg y) :
    Scalar.IsNonneg (x + y) := by
  rcases isNonneg_cases hx with hxi | ⟨s, m, p, hxf, hs⟩
  · exact isNonneg_of_infinite (ofFloat_add_infinite hx hy (.inl hxi))
  · rcases isNonneg_cases hy with hyi | ⟨t, n, q, hyf, ht⟩
    · exact isNonneg_of_infinite (ofFloat_add_infinite hx hy (.inr hyi))
    · obtain ⟨u, k, r, h, hu, hread⟩ := ofFloat_add hxf hyf hs ht
      exact isNonneg_of_held hread h.canonical hu

theorem div_eq_pack (x y : Float) :
    x / y = pack (UnpackedFloat.div Format.binary64 x.toModel.unpack y.toModel.unpack) := rfl

/-- Infinity by infinity is no number; what is finite becomes zero. -/
theorem isNonneg_div_infinite {x y : Float} (hx : Scalar.IsNonneg x)
    (hy : ofFloat y = .infinite false) (h : Scalar.isNumber (x / y) = true) :
    Scalar.IsNonneg (x / y) := by
  rcases isNonneg_cases hx with hx | ⟨s, m, p, hx, -⟩
  · have hnan : x / y = pack .notANumber := by
      rw [div_eq_pack, unpack_of_infinite hx, unpack_of_infinite hy]
      rfl
    exact absurd hnan (ne_pack_notANumber h)
  · have hzero : x / y = pack (.zero (sign s)) := by
      rw [div_eq_pack, unpack_of_infinite hy]
      rcases unpack_cases hx with ⟨h, -⟩ | ⟨_, h⟩ <;> rw [h] <;> cases s <;> rfl
    exact isNonneg_of_finite (by rw [hzero, ofFloat_pack_zero]) fun _ => rfl

/-- Zero by zero is no number, and what is positive becomes infinite when it is divided by zero. -/
theorem isNonneg_div_zero {x y : Float} {s : Bool} {m : Nat} {p r : Int}
    (hx : ofFloat x = .finite s m p) (hs : s = true → m = 0) (hy : ofFloat y = .finite false 0 r)
    (h : Scalar.isNumber (x / y) = true) : Scalar.IsNonneg (x / y) := by
  rcases Nat.eq_zero_or_pos m with rfl | hm
  · have hnan : x / y = pack .notANumber := by
      rw [div_eq_pack, unpack_of_zero hx, unpack_of_zero hy]
      rfl
    exact absurd hnan (ne_pack_notANumber h)
  · obtain rfl : s = false := by
      cases s
      · rfl
      · exact absurd (hs rfl) hm.ne'
    apply isNonneg_of_pack
    rw [div_eq_pack, unpack_of_finite hm hx, unpack_of_zero hy]
    rfl

theorem isNonneg_div {x y : Float} (hx : Scalar.IsNonneg x) {k : Nat} {r : Int}
    (hk : IsCanonical k r) (hy : ofFloat y = held false k r)
    (h : Scalar.isNumber (x / y) = true) : Scalar.IsNonneg (x / y) := by
  unfold held at hy
  split at hy
  · exact isNonneg_div_infinite hx hy h
  · rcases isNonneg_cases hx with hx | ⟨s, m, p, hx, hs⟩
    · apply isNonneg_of_pack
      rw [div_eq_pack, unpack_of_infinite hx]
      rcases unpack_cases hy with ⟨h, -⟩ | ⟨_, h⟩ <;> rw [h] <;> rfl
    · rcases Nat.eq_zero_or_pos k with rfl | hk0
      · exact isNonneg_div_zero hx hs hy h
      · obtain ⟨i, j, hi, hread⟩ := ofFloat_div hx hy hk0
        refine isNonneg_of_held hread hi.canonical ?_
        intro hsign
        have hm : m = 0 := hs (by simpa using hsign)
        rw [hm, Nat.cast_zero, zero_mul, zero_div] at hi
        exact (hi.unique .zero).1

theorem exact_held {x : Float} {m : Nat} {q : Int} (h : ofFloat x = held false m q) :
    Exact.ofFloat x = if greatestExponent < q then .infinite else number (m * 2 ^ q) := by
  unfold Exact.ofFloat
  rw [h]
  unfold held
  split <;> rfl

theorem ofNat_mono {m n : Nat} (h : m ≤ n) : (Scalar.ofNat m : Float) ≤ Scalar.ofNat n := by
  obtain ⟨k, p, hk, hm⟩ := ofFloat_ofNat m
  obtain ⟨l, q, hl, hn⟩ := ofFloat_ofNat n
  have hm' : ofFloat (Scalar.ofNat m : Float) = held false k p := hm
  have hn' : ofFloat (Scalar.ofNat n : Float) = held false l q := hn
  have hle := hk.mono hl (Nat.cast_le.mpr h)
  have hlex := (hk.canonical.le_iff hl.canonical).mp hle
  have hpos : ofFloat (Scalar.ofNat m : Float) ≠ .infinite true := by
    rw [hm', held]
    split <;> simp
  rw [le_iff hpos, exact_held hm', exact_held hn']
  by_cases hq : greatestExponent < q
  · rw [if_pos hq]
    split
    · rfl
    · exact Exact.number_le_infinite _
  · rw [if_neg hq, if_neg (by omega)]
    exact (Exact.number_le _ _).mpr hle

/-! ### The order of bits -/

theorem orderKey_finite {x : Float} {m : Nat} {q : Int} (h : ofFloat x = .finite false m q) :
    orderKey x.toBits = (q - leastExponent) * 2 ^ 52 + m := by
  have hbits := toNat_of_finite h
  obtain ⟨⟨hlt, hle, -⟩, hgreat⟩ := isCanonical_ofFloat h
  simp only [leastNormal, leastExponent, greatestExponent, Bool.toNat_false] at *
  unfold orderKey
  rw [if_pos (by omega)]
  omega

theorem orderKey_zero {x : Float} {q : Int} (h : ofFloat x = .finite true 0 q) :
    orderKey x.toBits = -1 := by
  have hbits := toNat_of_finite h
  have hq : q = leastExponent := (isCanonical_ofFloat h).1.normal.resolve_left (by decide)
  subst hq
  simp only [Bool.toNat_true] at hbits
  unfold orderKey
  rw [if_neg (by omega)]
  omega

theorem orderKey_infinite {x : Float} (h : ofFloat x = .infinite false) :
    orderKey x.toBits = 2047 * 2 ^ 52 := by
  have hbits := toNat_of_infinite h
  simp only [Bool.toNat_false] at hbits
  unfold orderKey
  rw [if_pos (by omega)]
  omega

theorem le_of_orderKey {x y : Float} (hx : Scalar.IsNonneg x) (hy : Scalar.IsNonneg y)
    (h : orderKey x.toBits ≤ orderKey y.toBits) : x ≤ y := by
  rcases isNonneg_cases hx with hx | ⟨s, m, p, hx, hs⟩ <;>
    rcases isNonneg_cases hy with hy | ⟨t, n, q, hy, ht⟩ <;>
      rw [le_iff (by rw [hx]; simp), Exact.ofFloat, Exact.ofFloat, hx, hy]
  · rfl
  · exfalso
    obtain ⟨⟨hlt, hle, -⟩, hgreat⟩ := isCanonical_ofFloat hy
    simp only [leastNormal, leastExponent, greatestExponent] at *
    rw [orderKey_infinite hx] at h
    cases t
    · rw [orderKey_finite hy] at h
      simp only [leastExponent] at h
      omega
    · obtain rfl := ht rfl
      rw [orderKey_zero hy] at h
      omega
  · rfl
  · rw [exact_finite hs, exact_finite ht, Exact.number_le]
    have hxc := (isCanonical_ofFloat hx).1
    have hyc := (isCanonical_ofFloat hy).1
    cases s
    · rw [orderKey_finite hx] at h
      cases t
      · -- The words of canonical pairs are in the order of the exponents first.
        rw [orderKey_finite hy] at h
        rw [hxc.le_iff hyc]
        obtain ⟨hm, hp, hm'⟩ := hxc
        obtain ⟨hn, hq, hn'⟩ := hyc
        simp only [leastNormal, leastExponent] at *
        omega
      · obtain rfl := ht rfl
        have hle := hxc.le
        rw [orderKey_zero hy] at h
        omega
    · rw [hs rfl, Nat.cast_zero, zero_mul]
      exact mul_nonneg n.cast_nonneg (two_zpow_pos q).le

instance : Scalar.IsOrdered Float where
  atMost_trans := by
    intro a b c hab hbc
    rw [atMost_iff] at *
    by_cases ha : ofFloat a = .infinite true
    · exact le_of_infinite ha fun hc => not_le_of_notANumber hc hbc
    · have hb := not_le_infinite hab ha
      rw [le_iff ha] at hab ⊢
      rw [le_iff hb] at hbc
      exact Exact.le_trans hab hbc
  ofNat_mono h := (atMost_iff _ _).mpr (ofNat_mono h)
  precedes_total a b := by
    simp only [Scalar.precedes, Bool.or_eq_true, decide_eq_true_eq]
    omega
  precedes_trans := by
    intro a b c hab hbc
    simp only [Scalar.precedes, decide_eq_true_eq] at *
    omega
  isNonneg_add := isNonneg_add
  isNonneg_div := by
    intro a n ha h
    obtain ⟨k, r, hk, hn⟩ := ofFloat_ofNat n
    exact isNonneg_div ha hk.canonical hn h
  atMost_of_precedes := by
    intro a b ha hb hab
    exact (atMost_iff a b).mpr (le_of_orderKey ha hb (of_decide_eq_true hab))
  truncate_mono := by
    intro a b ha hab
    have hinf : ofFloat a ≠ .infinite true := by
      rcases isNonneg_cases ha with h | ⟨s, m, q, h, -⟩ <;> rw [h] <;> simp
    rw [atMost_iff, le_iff hinf] at hab
    rw [truncate_eq, truncate_eq]
    exact Exact.truncate_mono hab
  isNumber_of_atMost := by
    intro a b hab
    rw [isNumber_iff]
    exact fun h => not_le_of_notANumber h ((atMost_iff a b).mp hab)
  truncate_of_not_number := by
    intro a h
    have hnan : ofFloat a = .notANumber := by
      by_contra hne
      simp [(isNumber_iff a).mpr hne] at h
    rw [truncate_eq, Exact.ofFloat, hnan]
    rfl

end Double

end Saturation
