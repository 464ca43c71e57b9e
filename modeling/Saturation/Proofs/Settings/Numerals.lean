import Saturation.Proofs.Decimal.Literal
import Saturation.Proofs.Settings.Tokens

/-!
Written numbers are read back with their type. An integer is no float, since neither a point nor an
exponent follows its digits, and no hexadecimal one; a float is read by the same digits as a number
on its own.
-/

set_option autoImplicit false

namespace Saturation.Settings.Reader

open Decimal (NoDigit span_digits span_parts isDigit_toDigits toLower_of_isDigit signed_digits
  signed_append exponent?_append)

/-! ## Digits -/

theorem digits?_append {ds s : List Char} (hne : ds ≠ []) (hd : ∀ c ∈ ds, c.isDigit)
    (hs : NoDigit s) : digits? (ds ++ s) = some (ds, s) := by
  unfold digits?
  rw [span_digits hd hs]
  cases ds with
  | nil => exact absurd rfl hne
  | cons c cs => rfl

/-- The first characters of numbers. -/
def IsNumeralStart (c : Char) : Prop := c = '-' ∨ c = '+' ∨ c = '.' ∨ c.isDigit

theorem boolean?_numeral {c : Char} (h : IsNumeralStart c) (s : List Char) :
    boolean? (c :: s) = none := by
  have hc : c.toLower ≠ 't' ∧ c.toLower ≠ 'f' := by
    rcases h with rfl | rfl | rfl | h
    · decide
    · decide
    · decide
    · rw [toLower_of_isDigit h]
      constructor <;> rintro rfl <;> exact absurd h (by decide)
  simp [boolean?, word?, hc]

theorem string?_numeral {c : Char} (h : IsNumeralStart c) (s : List Char) :
    string? (c :: s) = none := by
  have hc : c ≠ '"' := by
    rintro rfl
    rcases h with h | h | h | h <;> exact absurd h (by decide)
  simp [string?, quoted?, hc]

theorem scalar?_numeral {c : Char} (h : IsNumeralStart c) (s : List Char) : scalar? (c :: s) =
    ((float? (c :: s)).map fun x => (.float x.1, x.2)).or
      (((hex? (c :: s)).map fun x => (.int x.1, x.2)).or
        ((integer? (c :: s)).map fun x => (.int x.1, x.2))) := by
  unfold scalar?
  simp only [boolean?_numeral h, string?_numeral h]
  cases float? (c :: s) <;> cases hex? (c :: s) <;> cases integer? (c :: s) <;> rfl

/-! ## Integers -/

/-- The digits of an integer are followed by its suffix or by what follows the value. -/
structure AfterDigits (s : List Char) : Prop where
  noDigit : NoDigit s
  noFloat : ∀ c ∈ s.head?, c ≠ '.' ∧ c ≠ 'e' ∧ c ≠ 'E'
  noHex : ∀ c ∈ s.head?, c.toLower ≠ 'x'

theorem Ends.afterDigits {s : List Char} (h : Ends s) {t : List Char} (ht : t = [] ∨ t = ['L']) :
    AfterDigits (t ++ s) := by
  rcases ht with rfl | rfl <;> cases h <;> constructor <;> simp [NoDigit]

theorem floatParts?_digits {ds s : List Char} (hne : ds ≠ []) (hd : ∀ c ∈ ds, c.isDigit)
    (hs : NoDigit s) (hfloat : ∀ c ∈ s.head?, c ≠ '.' ∧ c ≠ 'e' ∧ c ≠ 'E') :
    floatParts? (ds ++ s) = none := by
  unfold floatParts?
  rw [digits?_append hne hd hs]
  cases s with
  | nil => simp [Decimal.exponent?]
  | cons c cs =>
    have hc := hfloat c (by simp)
    split
    · rename_i h
      simp only [Option.some.injEq, Prod.mk.injEq, List.cons.injEq] at h
      exact absurd h.2.1 hc.1
    · rename_i h
      simp only [Option.some.injEq, Prod.mk.injEq] at h
      obtain ⟨rfl, rfl⟩ := h
      simp [Decimal.exponent?, hc]
    · rename_i h
      cases h

theorem hex?_digits {ds s : List Char} (hne : ds ≠ []) (hd : ∀ c ∈ ds, c.isDigit)
    (hs : ∀ c ∈ s.head?, c.toLower ≠ 'x') : hex? (ds ++ s) = none := by
  have hx : ∀ c : Char, c.isDigit → c.toLower ≠ 'x' := by
    intro c h
    rw [toLower_of_isDigit h]
    rintro rfl
    exact absurd h (by decide)
  have hw : word? ['0', 'x'] (ds ++ s) = none := by
    cases ds with
    | nil => exact absurd rfl hne
    | cons c cs =>
      cases cs with
      | nil =>
        cases s with
        | nil => simp [word?]
        | cons d s => simp [word?, hs d (by simp)]
      | cons d cs => simp [word?, hx d (hd d (by simp))]
  simp [hex?, hw]

theorem dropSuffix_ends {s : List Char} (h : Ends s) {t : List Char} (ht : t = [] ∨ t = ['L']) :
    dropSuffix (t ++ s) = s := by
  rcases ht with rfl | rfl <;> cases h <;> simp [dropSuffix, word?]

/-- The parts of a written integer: sign, digits, suffix. -/
theorem integer_parts (n : Int) : ∃ t : List Char, (t = [] ∨ t = ['L']) ∧
    Writer.integer n = (if n < 0 then ['-'] else []) ++ (Nat.toDigits 10 n.natAbs ++ t) := by
  have hd := Decimal.toList_toString n
  by_cases hr : -0x80000000 ≤ n ∧ n < 0x80000000
  · exact ⟨[], .inl rfl, by simp only [Writer.integer, if_pos hr, hd, List.append_nil]⟩
  · exact ⟨['L'], .inr rfl, by simp only [Writer.integer, if_neg hr, hd, List.append_assoc]⟩

theorem signed_integer (n : Int) (s : List Char) :
    Decimal.signed ((if n < 0 then ['-'] else []) ++ (Nat.toDigits 10 n.natAbs ++ s)) =
      (decide (n < 0), Nat.toDigits 10 n.natAbs ++ s) := by
  by_cases h : n < 0
  · simp [h, Decimal.signed]
  · simp only [h, if_false, List.nil_append, decide_false]
    exact signed_digits Nat.toDigits_ne_nil isDigit_toDigits s

theorem integer?_integer {n : Int} (hn : Decimal.inInt64 n) {s : List Char} (hs : Ends s) :
    integer? (Writer.integer n ++ s) = some (n, s) := by
  obtain ⟨t, ht, h⟩ := integer_parts n
  have hv : (if decide (n < 0) = true then -(n.natAbs : Int) else n.natAbs) = n := by
    simp only [decide_eq_true_eq]
    split <;> omega
  rw [h, List.append_assoc, List.append_assoc]
  unfold integer?
  simp only [signed_integer, digits?_append Nat.toDigits_ne_nil isDigit_toDigits
    (hs.afterDigits ht).noDigit, Decimal.digitsValue, Nat.ofDigitChars_ten_toDigits, hv, hn,
    if_true, dropSuffix_ends hs ht]

theorem scalar?_integer {n : Int} (hn : Decimal.inInt64 n) {s : List Char} (hs : Ends s) :
    scalar? (Writer.integer n ++ s) = some (.int n, s) := by
  obtain ⟨t, ht, h⟩ := integer_parts n
  have hf : float? (Writer.integer n ++ s) = none := by
    rw [h, List.append_assoc, List.append_assoc]
    unfold float?
    have hafter := hs.afterDigits ht
    simp only [signed_integer, floatParts?_digits Nat.toDigits_ne_nil isDigit_toDigits
      hafter.noDigit hafter.noFloat]
  have hx : hex? (Writer.integer n ++ s) = none := by
    rw [h, List.append_assoc, List.append_assoc]
    by_cases hneg : n < 0
    · simp [hneg, hex?, word?]
    · simp only [hneg, if_false, List.nil_append]
      exact hex?_digits Nat.toDigits_ne_nil isDigit_toDigits (hs.afterDigits ht).noHex
  have hstart : ∃ c cs, Writer.integer n ++ s = c :: cs ∧ IsNumeralStart c := by
    rw [h]
    by_cases hneg : n < 0
    · exact ⟨'-', Nat.toDigits 10 n.natAbs ++ (t ++ s), by simp [hneg], .inl rfl⟩
    · obtain ⟨c, cs, hds⟩ :=
        List.exists_cons_of_ne_nil (Nat.toDigits_ne_nil (n := n.natAbs) (b := 10))
      have hdigit := isDigit_toDigits c (by rw [hds]; simp)
      exact ⟨c, cs ++ (t ++ s), by simp [hneg, hds], .inr (.inr (.inr hdigit))⟩
  obtain ⟨c, cs, hc, hstart⟩ := hstart
  have hi := integer?_integer hn hs
  rw [hc] at hf hx hi ⊢
  simp [scalar?_numeral hstart, hf, hx, hi]

/-! ## Floats -/

theorem optionalExponent_append {t : List Char} {e : Int}
    (h : Decimal.optionalExponent t = (e, [])) {s : List Char} (hs : AfterDigits s) :
    Decimal.optionalExponent (t ++ s) = (e, s) := by
  cases hx : Decimal.exponent? t with
  | some r =>
    obtain ⟨e', r⟩ := r
    simp only [Decimal.optionalExponent, hx, Option.getD_some, Prod.mk.injEq] at h
    obtain ⟨rfl, rfl⟩ := h
    simp [Decimal.optionalExponent, exponent?_append hx hs.noDigit]
  | none =>
    simp only [Decimal.optionalExponent, hx, Option.getD_none, Prod.mk.injEq] at h
    obtain ⟨rfl, rfl⟩ := h
    cases s with
    | nil => rfl
    | cons c cs =>
      have hc := hs.noFloat c (by simp)
      simp [Decimal.optionalExponent, Decimal.exponent?, hc]

/-- A point or an exponent, which tell a float from an integer. -/
def HasMark (t : List Char) : Prop := '.' ∈ t ∨ 'e' ∈ t

theorem not_hasMark_digits {ds : List Char} (hd : ∀ c ∈ ds, c.isDigit) : ¬ HasMark ds := by
  rintro (h | h) <;> exact absurd (hd _ h) (by decide)

theorem floatParts?_point {whole fraction rest s : List Char} {e : Int}
    (hne : ¬ (whole = [] ∧ fraction = [])) (hw : ∀ c ∈ whole, c.isDigit)
    (hf : ∀ c ∈ fraction, c.isDigit) (hr : NoDigit rest)
    (he : Decimal.optionalExponent rest = (e, [])) (hs : AfterDigits s) :
    floatParts? (whole ++ '.' :: (fraction ++ (rest ++ s))) =
      some (Decimal.digitsValue (whole ++ fraction), e - fraction.length, s) := by
  have hx := optionalExponent_append he hs
  have hnext : NoDigit (rest ++ s) := by
    cases rest with
    | nil => exact hs.noDigit
    | cons c cs => exact hr
  unfold floatParts?
  by_cases hnil : whole = []
  · subst hnil
    have hnone : digits? ('.' :: (fraction ++ (rest ++ s))) = none := by simp [digits?]
    have hfne : fraction ≠ [] := fun h => hne ⟨rfl, h⟩
    simp only [List.nil_append, hnone, digits?_append hfne hf hnext, hx]
  · have hpoint : NoDigit ('.' :: (fraction ++ (rest ++ s))) := by simp [NoDigit]
    simp only [digits?_append hnil hw hpoint, span_digits hf hnext, hx]

theorem floatParts?_exponent {whole rest s : List Char} {e : Int} (hne : whole ≠ [])
    (hw : ∀ c ∈ whole, c.isDigit) (he : Decimal.exponent? rest = some (e, [])) (hr : NoDigit rest)
    (hs : AfterDigits s) :
    floatParts? (whole ++ (rest ++ s)) = some (Decimal.digitsValue whole, e, s) := by
  have hx := exponent?_append he hs.noDigit
  cases rest with
  | nil => simp [Decimal.exponent?] at he
  | cons c cs =>
    have hdot : c ≠ '.' := by
      rintro rfl
      simp [Decimal.exponent?] at he
    unfold floatParts?
    rw [digits?_append hne hw (s := c :: cs ++ s) hr]
    split
    · rename_i h
      simp only [List.cons_append, Option.some.injEq, Prod.mk.injEq, List.cons.injEq] at h
      exact absurd h.2.1 hdot
    · rename_i h
      simp only [Option.some.injEq, Prod.mk.injEq] at h
      obtain ⟨rfl, rfl⟩ := h
      rw [hx]
      rfl
    · rename_i h
      cases h

/-- A decimal with a mark is read as it is read on its own. -/
theorem floatParts?_append {t : List Char} {m : Nat} {e : Int}
    (h : Decimal.unsigned? t = some (m, e, [])) (hm : HasMark t) {s : List Char}
    (hs : AfterDigits s) : floatParts? (t ++ s) = some (m, e, s) := by
  unfold Decimal.unsigned? at h
  cases hw : t.span Char.isDigit with
  | mk whole rest =>
    obtain ⟨rfl, hwhole, hrest⟩ := span_parts hw
    cases rest with
    | nil =>
      rw [List.append_nil] at hm
      exact absurd hm (not_hasMark_digits hwhole)
    | cons c cs =>
      by_cases hc : c = '.'
      · subst hc
        cases hf : cs.span Char.isDigit with
        | mk fraction rest =>
          obtain ⟨rfl, hfraction, hend⟩ := span_parts hf
          simp only [hw, hf] at h
          split at h
          · cases h
          · rename_i hne
            simp only [Option.some.injEq, Prod.mk.injEq] at h
            obtain ⟨rfl, rfl, hr⟩ := h
            have hx := floatParts?_point hne hwhole hfraction hend (Prod.ext rfl hr) hs
            simpa only [List.append_assoc, List.cons_append] using hx
      · simp only [hw] at h
        split at h
        · rename_i heq
          simp only [List.cons.injEq] at heq
          exact absurd heq.1 hc
        · simp only [and_true] at h
          split at h
          · cases h
          · rename_i hne
            cases hx : Decimal.exponent? (c :: cs) with
            | none => simp [Decimal.optionalExponent, hx] at h
            | some r =>
              obtain ⟨e', r⟩ := r
              simp only [Decimal.optionalExponent, hx, Option.getD_some, List.append_nil,
                List.length_nil, Int.natCast_zero, Int.sub_zero, Option.some.injEq,
                Prod.mk.injEq] at h
              obtain ⟨rfl, rfl, rfl⟩ := h
              rw [List.append_assoc]
              exact floatParts?_exponent hne hwhole hx hrest hs

theorem unsigned?_start {t : List Char} {r : Nat × Int × List Char}
    (h : Decimal.unsigned? t = some r) : ∃ c cs, t = c :: cs ∧ IsNumeralStart c := by
  obtain ⟨c, cs, ht, hc⟩ := Decimal.unsigned?_head h
  exact ⟨c, cs, ht, .inr (.inr hc)⟩

/-- A decimal with a mark is none of the names of values that are no numbers. -/
theorem double?_parts {t : List Char} {x : Float} (h : Decimal.double? t = some x)
    (hm : HasMark t) : HasMark (Decimal.signed t).2 ∧
      ∃ m e, Decimal.unsigned? (Decimal.signed t).2 = some (m, e, []) ∧
        Decimal.scaled (Decimal.signed t).1 m e = x := by
  have hbody : HasMark (Decimal.signed t).2 := by
    unfold Decimal.signed
    split <;> simpa [HasMark] using hm
  have hname : ∀ name : List Char, ¬ HasMark name → (Decimal.signed t).2.map Char.toLower ≠ name := by
    rintro _ hn rfl
    rcases hbody with hb | hb
    · exact hn (.inl (List.mem_map_of_mem hb (f := Char.toLower)))
    · exact hn (.inr (List.mem_map_of_mem hb (f := Char.toLower)))
  refine ⟨hbody, ?_⟩
  simp only [Decimal.double?, hname ['i', 'n', 'f'] (by simp [HasMark]),
    hname ['i', 'n', 'f', 'i', 'n', 'i', 't', 'y'] (by simp [HasMark]),
    hname ['n', 'a', 'n'] (by simp [HasMark]), or_false, if_false] at h
  split at h
  · rename_i m e hu
    exact ⟨m, e, hu, Option.some.inj h⟩
  · cases h

theorem float?_append {t : List Char} {x : Float} (h : Decimal.double? t = some x)
    (hm : HasMark t) (hx : x.isFinite) {s : List Char} (hs : AfterDigits s) :
    float? (t ++ s) = some (x, s) := by
  obtain ⟨hbody, m, e, hu, rfl⟩ := double?_parts h hm
  have hne : t ≠ [] := by
    rintro rfl
    simp [HasMark] at hm
  simp [float?, signed_append hne, floatParts?_append hu hbody hs, hx]

theorem scalar?_decimal {t : List Char} {x : Float} (h : Decimal.double? t = some x)
    (hm : HasMark t) (hx : x.isFinite) {s : List Char} (hs : AfterDigits s) :
    scalar? (t ++ s) = some (.float x, s) := by
  obtain ⟨-, m, e, hu, -⟩ := double?_parts h hm
  have hstart : ∃ c cs, t = c :: cs ∧ IsNumeralStart c := by
    unfold Decimal.signed at hu
    split at hu
    · exact ⟨'-', _, rfl, .inl rfl⟩
    · exact ⟨'+', _, rfl, .inr (.inl rfl)⟩
    · exact unsigned?_start hu
  obtain ⟨c, cs, hc, hstart⟩ := hstart
  have hf := float?_append h hm hx hs
  rw [hc, List.cons_append] at hf ⊢
  simp [scalar?_numeral hstart, hf]

/-! ## The texts of floats -/

theorem hasMark_positional (d : Decimal.Digits) : HasMark d.positional := by
  left
  unfold Decimal.Digits.positional
  split
  · simp
  · simp only []
    split <;> simp

theorem hasMark_scientific (b : Bool) (d : Decimal.Digits) : HasMark (d.scientific b) := by
  right
  unfold Decimal.Digits.scientific
  split <;> split <;> try split
  all_goals simp

theorem hasMark_ofFloat (l : Decimal.Layout) {x : Float} (hx : (Double.ofFloat x).isFinite) :
    HasMark (l.ofFloat x) := by
  unfold Decimal.Layout.ofFloat Decimal.Layout.text
  cases hd : Double.ofFloat x with
  | notANumber => simp [hd, Double.isFinite] at hx
  | infinite b => simp [hd, Double.isFinite] at hx
  | finite b m q =>
    have hdigits : ∀ t, HasMark t → HasMark ((if b then ['-'] else []) ++ t) := by
      rintro t (h | h)
      · exact .inl (List.mem_append_right _ h)
      · exact .inr (List.mem_append_right _ h)
    apply hdigits
    split
    · simp [HasMark]
    · unfold Decimal.Layout.digits
      split
      · exact hasMark_positional _
      · exact hasMark_scientific _ _

end Saturation.Settings.Reader
