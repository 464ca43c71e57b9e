import Saturation.Proofs.Decimal.Layout
import Saturation.Proofs.Double.Accuracy
import Saturation.Proofs.Settings.Grammar
import Saturation.Rate

/-!
What written rates mean. Whole bits per second are exact and held to the range of a word. A number of
units is rounded twice, to the double nearest to it and to the double nearest to this one times the
unit; the rate is the whole part of the second, and the largest word where that is too large. Only
what is too large for a double is refused.
-/

set_option autoImplicit false

namespace Saturation

open Double (IsNearestTo HasValue IsHeld)

namespace Text

theorem isBlank_of_isDigit {c : Char} (h : c.isDigit) : isBlank c = false := by
  simp only [Char.isDigit, Bool.and_eq_true, decide_eq_true_eq, ge_iff_le,
    UInt32.le_iff_toNat_le] at h
  have hlower : 48 ≤ c.toNat := h.1
  have hupper : c.toNat ≤ 57 := h.2
  simp [isBlank]
  omega

theorem trim_eq_self {cs : List Char} (h : ∀ c ∈ cs, isBlank c = false) : trim cs = cs := by
  have hdrop : ∀ l : List Char, (∀ c ∈ l, isBlank c = false) → l.dropWhile isBlank = l :=
    fun l hl => Decimal.dropWhile_stop (l := []) (by simp) fun c hc => hl c (List.mem_of_head? hc)
  rw [trim, hdrop cs h, hdrop cs.reverse fun c hc => h c (List.mem_reverse.mp hc),
    List.reverse_reverse]

end Text

namespace Decimal

theorem digitsValue_append (ds es : List Char) :
    digitsValue (ds ++ es) = 10 ^ es.length * digitsValue ds + digitsValue es := by
  unfold digitsValue
  rw [Nat.ofDigitChars_append, Nat.ofDigitChars_eq_ofDigitChars_zero]

theorem unsigned?_digits {ds : List Char} (hne : ds ≠ []) (hd : ∀ c ∈ ds, c.isDigit) :
    unsigned? ds = some (digitsValue ds, 0, []) := by
  have hspan := span_digits (s := []) hd (by simp [NoDigit])
  rw [List.append_nil] at hspan
  unfold unsigned?
  rw [hspan]
  simp [hne, optionalExponent, exponent?]

theorem double?_nearest {t : List Char} {m : Nat} {e : Int} (h : unsigned? t = some (m, e, [])) :
    ∃ x, double? t = some x ∧ IsNearestTo x (m * 10 ^ e) := by
  obtain ⟨k, r, hnear, hread⟩ := ofFloat_scaled_held false m e
  exact ⟨_, double?_unsigned h false, false, k, r, hnear, by simp, hread⟩

theorem natural?_digits {ds : List Char} (hne : ds ≠ []) (hd : ∀ c ∈ ds, c.isDigit) :
    natural? ds = some (digitsValue ds) := if_pos ⟨hne, List.all_eq_true.mpr hd⟩

theorem word?_digits {ds : List Char} (hne : ds ≠ []) (hd : ∀ c ∈ ds, c.isDigit) :
    word? ds = if digitsValue ds < 2 ^ 64 then some (digitsValue ds).toUInt64 else none := by
  obtain ⟨c, cs, rfl⟩ := List.exists_cons_of_ne_nil hne
  have hplus : c ≠ '+' := by
    rintro rfl
    exact absurd (hd '+' (by simp)) (by decide)
  simp [word?, hplus, natural?_digits hne hd]

end Decimal

namespace Rate

/-- A number of units as it is written: digits, or digits with a point and further digits. -/
inductive Quantity where
  | whole (digits : Settings.Digits)
  | pointed (whole fraction : Settings.Digits)

namespace Quantity

def text : Quantity → List Char
  | whole ds => ds.text
  | pointed ws fs => ws.text ++ '.' :: fs.text

/-- The exact number. -/
def value : Quantity → ℚ
  | whole ds => Decimal.digitsValue ds.text
  | pointed ws fs => Decimal.digitsValue ws.text + Decimal.digitsValue fs.text / 10 ^ fs.text.length

theorem isBlank_of_mem {q : Quantity} {c : Char} (h : c ∈ q.text) : Text.isBlank c = false := by
  cases q with
  | whole ds => exact Text.isBlank_of_isDigit (ds.isDigit c h)
  | pointed ws fs =>
    rcases List.mem_append.mp h with h | h
    · exact Text.isBlank_of_isDigit (ws.isDigit c h)
    · rcases List.mem_cons.mp h with rfl | h
      · decide
      · exact Text.isBlank_of_isDigit (fs.isDigit c h)

theorem value_nonneg (q : Quantity) : 0 ≤ q.value := by
  cases q <;> unfold value <;> positivity

theorem double?_text (q : Quantity) :
    ∃ x, Decimal.double? q.text = some x ∧ IsNearestTo x q.value := by
  cases q with
  | whole ds =>
    have h := Decimal.double?_nearest (Decimal.unsigned?_digits ds.nonempty ds.isDigit)
    rwa [zpow_zero, mul_one] at h
  | pointed ws fs =>
    have hnone : Decimal.NoDigit [] := by simp [Decimal.NoDigit]
    have h := Decimal.double?_nearest
      (Decimal.unsigned?_point ws.nonempty ws.isDigit fs.isDigit hnone rfl)
    have hvalue : (Decimal.digitsValue (ws.text ++ fs.text) : ℚ) * 10 ^ (0 - fs.text.length : Int) =
        (pointed ws fs).value := by
      rw [Decimal.digitsValue_append, zero_sub, zpow_neg, zpow_natCast, value]
      push_cast
      field_simp
    rw [hvalue, List.append_nil] at h
    exact h

end Quantity

/-! ### Units -/

variable {unit : UInt64} {symbol : Char}

theorem unit_cases (h : (unit, symbol) ∈ units) :
    unit = 1000000000 ∧ symbol = 'G' ∨ unit = 1000000 ∧ symbol = 'M' ∨
      unit = 1000 ∧ symbol = 'K' := by
  simpa [units] using h

theorem hasValue_unit (h : (unit, symbol) ∈ units) :
    HasValue (Scalar.ofWord unit) unit.toNat := by
  refine (Double.isNearestTo_ofNat unit.toNat).hasValue (Double.isHeld_natCast ?_)
  rcases unit_cases h with ⟨rfl, -⟩ | ⟨rfl, -⟩ | ⟨rfl, -⟩ <;> decide

theorem unit_pos (h : (unit, symbol) ∈ units) : (0 : ℚ) < unit.toNat := by
  rw [Nat.cast_pos]
  rcases unit_cases h with ⟨rfl, -⟩ | ⟨rfl, -⟩ | ⟨rfl, -⟩ <;> decide

theorem hasValue_end : HasValue (Scalar.ofNat (2 ^ 64)) (2 ^ 64 : Nat) := by
  refine (Double.isNearestTo_ofNat (2 ^ 64)).hasValue ?_
  have h : IsHeld ((1 : Nat) * 2 ^ (64 : Int)) :=
    Double.isHeld_binary (by decide) (by decide) (by decide)
  rw [Nat.cast_one, one_mul] at h
  exact_mod_cast h

theorem ofChars?_unit (h : (unit, symbol) ∈ units) (cs : List Char) :
    ofChars? (cs ++ [symbol]) = (Decimal.double? cs).bind (ofUnits unit) := by
  have hfind : (units.find? fun u => u.2 == symbol) = some (unit, symbol) := by
    rcases unit_cases h with ⟨rfl, rfl⟩ | ⟨rfl, rfl⟩ | ⟨rfl, rfl⟩ <;> decide
  simp [ofChars?, hfind]

theorem ofUnits_of_hasValue {x : Float} {v : ℚ} (h : HasValue x v) (unit : UInt64) :
    ofUnits unit x = some ⟨Scalar.truncate (x * Scalar.ofWord unit)⟩ := by
  have hfinite : x.isFinite = true := by
    obtain ⟨s, m, q, hread, -, -⟩ := h.finite
    rw [← Double.isFinite_ofFloat, hread]
    rfl
  simp [ofUnits, hfinite, Double.not_lt_zero h.isNonneg]

theorem ofUnits_of_infinite {x : Float} (h : Double.ofFloat x = .infinite false) (unit : UInt64) :
    ofUnits unit x = none := by
  have hfinite : x.isFinite = false := by
    rw [← Double.isFinite_ofFloat, h]
    rfl
  simp [ofUnits, hfinite]

/-! ### Rounding -/

/-- What the rate of a number of units keeps of the exact number. -/
structure IsRounded (r : Rate) (value : ℚ) (unit : UInt64) : Prop where
  doubles : ∃ (x y : Float) (v : ℚ), IsNearestTo x value ∧ HasValue x v ∧
    IsNearestTo y (v * unit.toNat) ∧ r.bps = Scalar.truncate y
  saturated : 2 ^ 64 ≤ value * unit.toNat → r.bps.toNat = 2 ^ 64 - 1
  close : value * unit.toNat < 2 ^ 64 →
    |(r.bps.toNat : ℚ) - ⌊value * unit.toNat⌋₊| < 1 + (1 + value * unit.toNat) / 2 ^ 51
  exact : value * unit.toNat < 2 ^ 64 → IsHeld value → IsHeld (value * unit.toNat) →
    r.bps.toNat = ⌊value * unit.toNat⌋₊

variable {x : Float} {value v w : ℚ}

/-- A product reaches the end of the words where the exact one does: the least double that may stand
for such a number of units gets there. -/
theorem truncate_saturated (h : (unit, symbol) ∈ units) (hx : IsNearestTo x value)
    (hv : HasValue x v) (hlarge : 2 ^ 64 ≤ value * unit.toNat) :
    (Scalar.truncate (x * Scalar.ofWord unit)).toNat = 2 ^ 64 - 1 := by
  let least : Float := Scalar.ofNat (2 ^ 64) / Scalar.ofWord unit
  have hunit := hasValue_unit h
  have hpos := unit_pos h
  have hleast : IsNearestTo least ((2 ^ 64 : Nat) / unit.toNat) := hasValue_end.div hunit hpos
  have hreaches : Scalar.ofNat (2 ^ 64) ≤ least * Scalar.ofWord unit := by
    rcases unit_cases h with ⟨rfl, -⟩ | ⟨rfl, -⟩ | ⟨rfl, -⟩ <;> decide +kernel
  have hle : least ≤ x := hleast.le hx ((div_le_iff₀ hpos).mpr (by exact_mod_cast hlarge))
  obtain ⟨u, hu⟩ := Double.IsAmount.of_le ⟨v, hv⟩ hleast.isNonneg hle
  have hproduct : least * Scalar.ofWord unit ≤ x * Scalar.ofWord unit :=
    (hu.mul hunit).le (hv.mul hunit) (mul_le_mul_of_nonneg_right ((hu.le_iff hv).mp hle) hpos.le)
  have hmono := Scalar.IsOrdered.truncate_mono hasValue_end.isNonneg
    ((Double.atMost_iff _ _).mpr (Double.le_trans hreaches hproduct))
  rw [Double.toNat_truncate hasValue_end, Nat.floor_natCast] at hmono
  have hword := UInt64.toNat_lt (Scalar.truncate (x * Scalar.ofWord unit))
  omega

theorem abs_mul_unit_sub_le (h : (unit, symbol) ∈ units) (h0 : 0 ≤ value)
    (hx : IsNearestTo x value) (hv : HasValue x v) :
    |v * unit.toNat - value * unit.toNat| ≤ value * unit.toNat * 2 ^ (-53 : Int) + 2 ^ (-53 : Int) := by
  have hpos := unit_pos h
  have hlarge : (unit.toNat : ℚ) ≤ 10 ^ 9 := by
    have : unit.toNat ≤ 10 ^ 9 := by
      rcases unit_cases h with ⟨rfl, -⟩ | ⟨rfl, -⟩ | ⟨rfl, -⟩ <;> decide
    exact_mod_cast this
  have htiny : (2 : ℚ) ^ (-1075 : Int) * unit.toNat ≤ 2 ^ (-53 : Int) :=
    calc (2 : ℚ) ^ (-1075 : Int) * unit.toNat ≤ 2 ^ (-83 : Int) * 10 ^ 9 :=
          mul_le_mul (zpow_le_zpow_right₀ one_le_two (by decide)) hlarge hpos.le
            (Double.two_zpow_pos _).le
      _ ≤ 2 ^ (-53 : Int) := by norm_num
  rw [← sub_mul, abs_mul, abs_of_pos hpos]
  linarith [mul_le_mul_of_nonneg_right (hx.abs_sub_le h0 hv) hpos.le]

/-- Two roundings move a product by one part in `2 ^ 51` at most. -/
theorem abs_product_sub_le (h : (unit, symbol) ∈ units) (h0 : 0 ≤ value)
    (hx : IsNearestTo x value) (hv : HasValue x v) (hw : HasValue (x * Scalar.ofWord unit) w) :
    |w - value * unit.toNat| ≤ (1 + value * unit.toNat) / 2 ^ 51 := by
  have hunit := hasValue_unit h
  have hproduct : 0 ≤ value * unit.toNat := mul_nonneg h0 hunit.nonneg
  have hleast : (2 : ℚ) ^ (-1075 : Int) ≤ 2 ^ (-53 : Int) :=
    zpow_le_zpow_right₀ one_le_two (by decide)
  have hsecond := (hv.mul hunit).abs_sub_le (mul_nonneg hv.nonneg hunit.nonneg) hw
  obtain ⟨h1, h2⟩ := abs_le.mp (abs_mul_unit_sub_le h h0 hx hv)
  obtain ⟨h3, h4⟩ := abs_le.mp (hsecond.trans (add_le_add_right hleast _))
  norm_num at h1 h2 h3 h4 ⊢
  exact abs_le.mpr ⟨by linarith, by linarith⟩

theorem isAmount_product (h : (unit, symbol) ∈ units) (h0 : 0 ≤ value)
    (hx : IsNearestTo x value) (hv : HasValue x v) (hsmall : value * unit.toNat < 2 ^ 64) :
    Double.IsAmount (x * Scalar.ofWord unit) := by
  have hclose := (abs_le.mp (abs_mul_unit_sub_le h h0 hx hv)).2
  have hbelow : v * unit.toNat < 2 ^ (65 : Int) := by
    norm_num at hclose hsmall ⊢
    linarith
  exact (hv.mul (hasValue_unit h)).isAmount
    (hbelow.trans_le (Double.two_zpow_le_overflow (by decide)))

theorem floor_lt_word (h0 : 0 ≤ v) (hsmall : v < 2 ^ 64) : ⌊v⌋₊ < 2 ^ 64 :=
  (Nat.floor_lt h0).mpr (by exact_mod_cast hsmall)

theorem isRounded_truncate (h : (unit, symbol) ∈ units) (h0 : 0 ≤ value) (hx : IsNearestTo x value)
    (hv : HasValue x v) : IsRounded ⟨Scalar.truncate (x * Scalar.ofWord unit)⟩ value unit where
  doubles := ⟨x, _, v, hx, hv, hv.mul (hasValue_unit h), rfl⟩
  saturated := truncate_saturated h hx hv
  close hsmall := by
    obtain ⟨w, hw⟩ := isAmount_product h h0 hx hv hsmall
    have hproduct : 0 ≤ value * unit.toNat := mul_nonneg h0 (hasValue_unit h).nonneg
    rw [Double.toNat_truncate hw]
    exact Double.abs_min_sub_lt (Nat.le_of_lt_succ (floor_lt_word hproduct hsmall))
      (Double.abs_floor_sub_lt hw.nonneg hproduct (abs_product_sub_le h h0 hx hv hw))
  exact hsmall hvalue hproduct := by
    have hy := ((hx.hasValue hvalue).mul (hasValue_unit h)).hasValue hproduct
    have hfloor := floor_lt_word hy.nonneg hsmall
    rw [Double.toNat_truncate hy]
    omega

/-! ### Texts -/

theorem ofChars?_digits (ds : Settings.Digits) :
    ofChars? ds.text = (Decimal.word? ds.text).map Rate.mk := by
  have hnone : (ds.text.getLast?.bind fun c => units.find? fun u => u.2 == c) = none := by
    rw [Option.bind_eq_none_iff]
    intro c hc
    have hdigit := ds.isDigit c (List.mem_of_getLast? hc)
    rw [List.find?_eq_none]
    rintro ⟨size, symbol⟩ hu hsymbol
    obtain rfl : symbol = c := by simpa using hsymbol
    rcases unit_cases hu with ⟨-, rfl⟩ | ⟨-, rfl⟩ | ⟨-, rfl⟩ <;> exact absurd hdigit (by decide)
  unfold ofChars?
  rw [hnone]

theorem ofChars?_quantity (h : (unit, symbol) ∈ units) (q : Quantity) :
    if q.value < Double.overflow then
      ∃ r, ofChars? (q.text ++ [symbol]) = some r ∧ IsRounded r q.value unit
    else ofChars? (q.text ++ [symbol]) = none := by
  obtain ⟨x, hread, hx⟩ := q.double?_text
  rw [ofChars?_unit h, hread, Option.bind_some]
  split
  · rename_i hsmall
    obtain ⟨v, hv⟩ := hx.isAmount hsmall
    exact ⟨_, ofUnits_of_hasValue hv unit, isRounded_truncate h q.value_nonneg hx hv⟩
  · rename_i hlarge
    exact ofUnits_of_infinite (hx.infinite (not_lt.mp hlarge)) unit

theorem read_eq {text : String} (h : ∀ c ∈ text.toList, Text.isBlank c = false) :
    read text = (ofChars? text.toList).elim (.error (.invalidRate text)) .ok := by
  unfold read
  rw [Text.trim_eq_self h]
  cases ofChars? text.toList <;> rfl

theorem read_digits {text : String} {ds : Settings.Digits} (h : text.toList = ds.text) :
    read text = if Decimal.digitsValue ds.text < 2 ^ 64 then
      .ok ⟨(Decimal.digitsValue ds.text).toUInt64⟩ else .error (.invalidRate text) := by
  have hblank : ∀ c ∈ text.toList, Text.isBlank c = false := by
    rw [h]
    exact fun c hc => Text.isBlank_of_isDigit (ds.isDigit c hc)
  rw [read_eq hblank, h, ofChars?_digits, Decimal.word?_digits ds.nonempty ds.isDigit]
  split <;> rfl

theorem read_quantity {text : String} {q : Quantity} (hunit : (unit, symbol) ∈ units)
    (h : text.toList = q.text ++ [symbol]) :
    if q.value < Double.overflow then ∃ r, read text = .ok r ∧ r.IsRounded q.value unit
    else read text = .error (.invalidRate text) := by
  have hblank : ∀ c ∈ text.toList, Text.isBlank c = false := by
    rw [h]
    intro c hc
    rcases List.mem_append.mp hc with hc | hc
    · exact Quantity.isBlank_of_mem hc
    · rw [List.mem_singleton.mp hc]
      rcases unit_cases hunit with ⟨-, rfl⟩ | ⟨-, rfl⟩ | ⟨-, rfl⟩ <;> decide
  have hread := ofChars?_quantity hunit q
  rw [read_eq hblank, h]
  split at hread
  · rename_i hsmall
    obtain ⟨r, hr, hrounded⟩ := hread
    rw [if_pos hsmall, hr]
    exact ⟨r, rfl, hrounded⟩
  · rename_i hlarge
    rw [if_neg hlarge, hread]
    rfl

/-- Digits alone are exact or refused. With a unit they are rounded, and refused only from the end of
the doubles on. -/
theorem read_written (text : String) :
    (∀ ds : Settings.Digits, text.toList = ds.text →
      read text = if Decimal.digitsValue ds.text < 2 ^ 64 then
        .ok ⟨(Decimal.digitsValue ds.text).toUInt64⟩ else .error (.invalidRate text)) ∧
    ∀ (q : Quantity) (unit : UInt64) (symbol : Char), (unit, symbol) ∈ units →
      text.toList = q.text ++ [symbol] →
      if q.value < Double.overflow then ∃ r, read text = .ok r ∧ r.IsRounded q.value unit
      else read text = .error (.invalidRate text) :=
  ⟨fun _ h => read_digits h, fun _ _ _ hunit h => read_quantity hunit h⟩

/-- 2.5 and its product with a million are doubles. -/
theorem read_written_megabits :
    ∃ r, read "2.5M" = .ok r ∧ r.bps.toNat = 2500000 := by
  let q := Quantity.pointed ⟨['2'], by simp, by simp⟩ ⟨['5'], by simp, by simp⟩
  have hvalue : q.value = (5 : Nat) * 2 ^ (-1 : Int) := by
    show ((2 : Nat) : ℚ) + (5 : Nat) / 10 ^ 1 = _
    norm_num
  have hproduct : q.value * (1000000 : UInt64).toNat = (2500000 : Nat) := by
    rw [hvalue]
    show _ * ((1000000 : Nat) : ℚ) = _
    norm_num
  have hsmall : q.value < Double.overflow := by
    refine lt_of_lt_of_le ?_ (Double.two_zpow_le_overflow (k := 2) (by decide))
    rw [hvalue]
    norm_num
  have hread := (read_written "2.5M").2 q 1000000 'M' (by simp [units]) (by decide)
  rw [if_pos hsmall] at hread
  obtain ⟨r, hr, hrounded⟩ := hread
  refine ⟨r, hr, ?_⟩
  have hexact := hrounded.exact
  rw [hproduct, Nat.floor_natCast] at hexact
  refine hexact (by norm_num) ?_ (Double.isHeld_natCast (by decide))
  rw [hvalue]
  exact Double.isHeld_binary (by decide) (by decide) (by decide)

/-- A bit can be lost, and a rate beyond the words is not refused. -/
theorem read_not_exact :
    (¬ ∀ (text : String) (q : Quantity) (unit : UInt64) (symbol : Char), (unit, symbol) ∈ units →
      text.toList = q.text ++ [symbol] → q.value * unit.toNat < 2 ^ 64 →
      read text = .ok ⟨⌊q.value * unit.toNat⌋₊.toUInt64⟩) ∧
    ¬ ∀ (text : String) (q : Quantity) (unit : UInt64) (symbol : Char), (unit, symbol) ∈ units →
      text.toList = q.text ++ [symbol] → 2 ^ 64 ≤ q.value * unit.toNat →
      read text = .error (.invalidRate text) := by
  constructor
  · intro h
    let q := Quantity.pointed ⟨['1'], by simp, by simp⟩ ⟨['0', '0', '1'], by simp, by simp⟩
    have hproduct : q.value * (1000 : UInt64).toNat = (1001 : Nat) := by
      show (((1 : Nat) : ℚ) + (1 : Nat) / 10 ^ 3) * ((1000 : Nat) : ℚ) = _
      norm_num
    have hread := h "1.001K" q 1000 'K' (by simp [units]) (by decide) (by rw [hproduct]; norm_num)
    rw [hproduct, Nat.floor_natCast] at hread
    exact absurd hread (by decide +kernel)
  · intro h
    let q := Quantity.whole ⟨List.replicate 11 '9', by simp, by simp⟩
    have hlarge : 2 ^ 64 ≤ q.value * (1000000000 : UInt64).toNat := by
      show _ ≤ ((99999999999 : Nat) : ℚ) * ((1000000000 : Nat) : ℚ)
      norm_num
    exact absurd (h "99999999999G" q 1000000000 'G' (by simp [units]) (by decide) hlarge) (by decide +kernel)

end Rate

end Saturation
