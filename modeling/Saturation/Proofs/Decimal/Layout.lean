import Saturation.Decimal.Layout
import Saturation.Proofs.Decimal.Literal
import Saturation.Proofs.Decimal.Shortest
import Saturation.Proofs.Double.Arithmetic

/-!
Every layout of a finite double is read back as this double. The written digits stand for a number
in its band, with a point or with an exponent.
-/

set_option autoImplicit false

namespace Saturation.Decimal

open Double (IsCanonical IsNearest leastExponent greatestExponent)

theorem ofFloat_scaled_held (negative : Bool) (m : Nat) (e : Int) : ∃ (k : Nat) (r : Int),
    IsNearest (m * 10 ^ e) k r ∧ Double.ofFloat (scaled negative m e) = Double.held negative k r := by
  obtain ⟨k, r, hnear, hread⟩ := Double.ofFloat_ofScientific m (decide (e < 0)) e.natAbs
  have he : (if decide (e < 0) = true then -(e.natAbs : Int) else e.natAbs) = e := by
    simp only [decide_eq_true_eq]
    split <;> omega
  rw [he] at hnear
  refine ⟨k, r, hnear, ?_⟩
  cases negative
  · exact hread
  · exact Double.ofFloat_neg_held hread

theorem ofFloat_scaled {m k : Nat} {e r : Int} (h : IsNearest (m * 10 ^ e) k r)
    (hr : r ≤ greatestExponent) (negative : Bool) :
    Double.ofFloat (scaled negative m e) = .finite negative k r := by
  obtain ⟨k', r', hnear, hread⟩ := ofFloat_scaled_held negative m e
  obtain ⟨rfl, rfl⟩ := hnear.unique h
  rw [hread, Double.held_of_le hr]

namespace Digits

/-- Digits are read from a text when it means the number that they stand for. -/
def IsReadFrom (d : Digits) (t : List Char) : Prop :=
  ∃ (m : Nat) (e : Int), unsigned? t = some (m, e, []) ∧ (m : ℚ) * 10 ^ e = d.value

variable {d : Digits}

theorem isReadFrom_point (whole fraction : List Char) {rest : List Char} {e : Int}
    (hne : whole ≠ []) (hw : ∀ c ∈ whole, c.isDigit) (hf : ∀ c ∈ fraction, c.isDigit)
    (hr : NoDigit rest) (he : optionalExponent rest = (e, []))
    (hvalue : (digitsValue (whole ++ fraction) : ℚ) * 10 ^ (e - fraction.length) = d.value) :
    d.IsReadFrom (whole ++ '.' :: (fraction ++ rest)) :=
  ⟨_, _, unsigned?_point hne hw hf hr he, hvalue⟩

theorem isDigit_replicate {n : Nat} : ∀ c ∈ List.replicate n '0', c.isDigit := by
  intro c hc
  rw [List.eq_of_mem_replicate hc]
  decide

theorem noDigit_nil : NoDigit [] := by simp [NoDigit]

/-- A whole number, with a zero behind the point. -/
theorem isReadFrom_whole (hd : d.IsDecimal) {k : Nat} (hk : d.exponent = k) :
    d.IsReadFrom (d.digits ++ List.replicate k '0' ++ ['.', '0']) := by
  have hread := isReadFrom_point (d := d) (d.digits ++ List.replicate k '0') ['0']
    (by simp [hd.ne_nil]) ?_ (isDigit_replicate (n := 1)) noDigit_nil rfl ?_
  · simpa using hread
  · intro c hc
    exact (List.mem_append.mp hc).elim (hd.digits c) (isDigit_replicate c)
  · rw [digitsValue, Nat.ofDigitChars_append, Nat.ofDigitChars_append,
      Nat.ofDigitChars_replicate_zero, value, hk]
    simp [Nat.ofDigitChars_cons, digitsValue]
    ring

/-- The point is among the digits. -/
theorem isReadFrom_inside (hd : d.IsDecimal) {k : Nat} (hk : d.exponent = -(k : Int))
    (hlt : k < d.digits.length) :
    d.IsReadFrom (d.digits.take (d.digits.length - k) ++
      '.' :: d.digits.drop (d.digits.length - k)) := by
  have hlen : (d.digits.drop (d.digits.length - k)).length = k := by
    rw [List.length_drop]
    omega
  have hread := isReadFrom_point (d := d) (d.digits.take (d.digits.length - k))
    (d.digits.drop (d.digits.length - k)) ?_
    (fun c hc => hd.digits c (List.mem_of_mem_take hc))
    (fun c hc => hd.digits c (List.mem_of_mem_drop hc)) noDigit_nil rfl ?_
  · simpa using hread
  · rw [← List.length_pos_iff, List.length_take]
    omega
  · rw [List.take_append_drop, hlen, zero_sub, ← hk, value]

/-- The point is in front of the digits. -/
theorem isReadFrom_front (hd : d.IsDecimal) {k : Nat} (hk : d.exponent = -(k : Int))
    (hge : d.digits.length ≤ k) :
    d.IsReadFrom ('0' :: '.' :: List.replicate (k - d.digits.length) '0' ++ d.digits) := by
  have hread := isReadFrom_point (d := d) ['0']
    (List.replicate (k - d.digits.length) '0' ++ d.digits) (by simp) (isDigit_replicate (n := 1)) ?_
    noDigit_nil rfl ?_
  · simpa using hread
  · intro c hc
    exact (List.mem_append.mp hc).elim (isDigit_replicate c) (hd.digits c)
  · have hlen : ((List.replicate (k - d.digits.length) '0' ++ d.digits).length : Int) = k := by
      rw [List.length_append, List.length_replicate]
      omega
    rw [hlen, zero_sub, ← hk, value, digitsValue, digitsValue, Nat.ofDigitChars_append,
      Nat.ofDigitChars_append, Nat.ofDigitChars_replicate_zero]
    rfl

theorem positional_isReadFrom (hd : d.IsDecimal) : d.IsReadFrom d.positional := by
  unfold positional
  split
  · rename_i he
    exact isReadFrom_whole hd (Int.toNat_of_nonneg he).symm
  · rename_i he
    have hk : d.exponent = -((-d.exponent).toNat : Int) := by omega
    dsimp only
    split
    · rename_i hlt
      exact isReadFrom_inside hd hk hlt
    · rename_i hge
      exact isReadFrom_front hd hk (not_lt.mp hge)

theorem exponent?_lead {e : Int} (h : e.natAbs < 0x10000) (plusSign : Bool) : ∃ rest,
    (if e < 0 then ['e', '-'] else if plusSign then ['e', '+'] else ['e']) ++
      Nat.toDigits 10 e.natAbs = 'e' :: rest ∧ exponent? ('e' :: rest) = some (e, []) := by
  by_cases hneg : e < 0
  · refine ⟨['-'] ++ Nat.toDigits 10 e.natAbs, by rw [if_pos hneg]; rfl, ?_⟩
    rw [exponent?_mark h rfl, if_pos rfl]
    congr 2
    omega
  · have he : (e.natAbs : Int) = e := by omega
    cases plusSign
    · refine ⟨[] ++ Nat.toDigits 10 e.natAbs, by rw [if_neg hneg]; rfl, ?_⟩
      have hplain := signed_digits Nat.toDigits_ne_nil (isDigit_toDigits (n := e.natAbs)) []
      rw [List.append_nil] at hplain
      rw [exponent?_mark h hplain, if_neg (by decide), he]
    · refine ⟨['+'] ++ Nat.toDigits 10 e.natAbs, by rw [if_neg hneg]; rfl, ?_⟩
      rw [exponent?_mark h rfl, if_neg (by decide), he]

theorem scientific_isReadFrom (hd : d.IsDecimal) (hl : d.lead.natAbs < 0x10000) (plusSign : Bool) :
    d.IsReadFrom (d.scientific plusSign) := by
  obtain ⟨rest, hmark, hexp⟩ := exponent?_lead hl plusSign
  have hend : NoDigit ('e' :: rest) := by simp [NoDigit]
  unfold scientific
  rw [List.append_assoc, hmark]
  cases hdigits : d.digits with
  | nil => exact absurd hdigits hd.ne_nil
  | cons first more =>
    have hfirst : ∀ c ∈ [first], c.isDigit := by
      intro c hc
      exact hd.digits c (hdigits ▸ List.mem_cons.mpr (.inl (List.mem_singleton.mp hc)))
    cases more with
    | nil =>
      refine ⟨_, _, unsigned?_whole (by simp) hfirst hexp, ?_⟩
      rw [value, lead, hdigits]
      simp
    | cons second more =>
      have hoptional : optionalExponent ('e' :: rest) = (d.lead, []) := by
        rw [optionalExponent, hexp]
        rfl
      have hread := isReadFrom_point (d := d) [first] (second :: more) (by simp)
         hfirst (fun c hc => hd.digits c (hdigits ▸ List.mem_cons_of_mem _ hc)) hend
        hoptional ?_
      · simpa using hread
      · rw [value, lead, hdigits, List.length_cons, List.length_cons]
        push_cast
        congr 2
        ring

end Digits

theorem Layout.digits_isReadFrom (l : Layout) {d : Digits} (hd : d.IsDecimal)
    (hl : d.lead.natAbs < 0x10000) : d.IsReadFrom (l.digits d) := by
  unfold Layout.digits
  split
  · exact Digits.positional_isReadFrom hd
  · exact Digits.scientific_isReadFrom hd hl _

/-- A finite double is read back from its text. -/
theorem Layout.double?_ofFloat (l : Layout) {x : Float} (hx : x.isFinite) :
    double? (l.ofFloat x) = some x := by
  unfold ofFloat text
  cases h : Double.ofFloat x with
  | notANumber | infinite negative => simp [← Double.isFinite_ofFloat, h, Double.isFinite] at hx
  | finite negative m q =>
    obtain ⟨hc, hq⟩ := Double.isCanonical_ofFloat h
    have hread : ∃ (k : Nat) (e : Int),
        unsigned? (if m = 0 then ['0', '.', '0'] else l.digits (shortest l.tie m q)) =
          some (k, e, []) ∧ IsNearest (k * 10 ^ e) m q := by
      rcases Nat.eq_zero_or_pos m with rfl | hm
      · refine ⟨0, -1, rfl, ?_⟩
        simpa using hc.isNearest
      · obtain ⟨k, e, hk, hvalue⟩ := l.digits_isReadFrom (shortest_isDecimal hc hm l.tie)
          (shortest_lead hc hq hm l.tie)
        rw [if_neg hm.ne']
        exact ⟨k, e, hk, hvalue ▸ shortest_isNearest hc hm l.tie⟩
    obtain ⟨k, e, hk, hnear⟩ := hread
    dsimp only
    rw [double?_unsigned hk,
      Double.ofFloat_injective ((ofFloat_scaled hnear hq negative).trans h.symm)]

end Saturation.Decimal
