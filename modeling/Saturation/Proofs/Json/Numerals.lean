import Saturation.Json.Reader
import Saturation.Json.Writer
import Saturation.Proofs.Decimal.Layout

/-!
Numbers in JSON as they stand: a whole number is an integer of any size, and any other number is the
double nearest to it. So understood, every number that is written is read back.
-/

set_option autoImplicit false

namespace Saturation.Json

open Settings (Value)
open Decimal (Digits NoDigit digitsValue span_digits)

/-! ## Numerals -/

namespace Numeral

/-- The power of ten that the exponent stands for. -/
def power (n : Numeral) : Int :=
  match n.exponent with
  | none => 0
  | some (negative, ds) => if negative then -(digitsValue ds : Int) else digitsValue ds

/-- The meaning that loses nothing. -/
def precise? (n : Numeral) (negative : Bool) : Option Value :=
  if n.fraction = [] ∧ n.exponent = none then
    some (.int (if negative then -(digitsValue n.whole : Int) else digitsValue n.whole))
  else some (.float (Decimal.scaled negative (digitsValue (n.whole ++ n.fraction))
    (n.power - n.fraction.length)))

/-- An exponent with its mark and its sign. -/
def exponentText : Option (Bool × List Char) → List Char
  | none => []
  | some (negative, ds) => 'e' :: (if negative then '-' else '+') :: ds

def text (n : Numeral) : List Char :=
  n.whole ++ ((if n.fraction = [] then [] else '.' :: n.fraction) ++ exponentText n.exponent)

/-- Its text is a number as JSON has them. -/
structure IsWritten (n : Numeral) : Prop where
  ne_nil : n.whole ≠ []
  head : n.whole.head? = some '0' → n.whole = ['0']
  whole : ∀ c ∈ n.whole, c.isDigit
  fraction : ∀ c ∈ n.fraction, c.isDigit
  exponent_ne_nil : ∀ e ∈ n.exponent, e.2 ≠ []
  exponent : ∀ e ∈ n.exponent, ∀ c ∈ e.2, c.isDigit
  exponent_lt : ∀ e ∈ n.exponent, digitsValue e.2 < 0x10000

end Numeral

/-- What may stand behind a value. -/
def Ends (rest : List Char) : Prop := ∀ c ∈ rest.head?, c = ',' ∨ c = '\n'

theorem ends_nil : Ends [] := by simp [Ends]

theorem Ends.noDigit {rest : List Char} (h : Ends rest) : NoDigit rest := by
  intro c hc
  rcases h c hc with rfl | rfl <;> decide

namespace Numeral

variable {n : Numeral} {rest : List Char}

theorem noDigit_exponentText (h : Ends rest) (o : Option (Bool × List Char)) :
    NoDigit (exponentText o ++ rest) := by
  cases o with
  | none => exact h.noDigit
  | some e => simp [exponentText, NoDigit]

theorem exponent?_text {o : Option (Bool × List Char)} (hne : ∀ e ∈ o, e.2 ≠ [])
    (hdigits : ∀ e ∈ o, ∀ c ∈ e.2, c.isDigit) (h : Ends rest) :
    exponent? (exponentText o ++ rest) = some (o, rest) := by
  cases o with
  | none =>
    cases rest with
    | nil => rfl
    | cons c cs =>
      rcases h c rfl with rfl | rfl <;> rfl
  | some e =>
    obtain ⟨negative, ds⟩ := e
    have hspan := span_digits (hdigits _ rfl) h.noDigit
    have hne := hne _ rfl
    dsimp only at hspan hne
    have hsigned : Decimal.signed ((if negative then '-' else '+') :: (ds ++ rest)) =
        (negative, ds ++ rest) := by cases negative <;> rfl
    simp only [exponentText, List.cons_append, exponent?, true_or, if_true, hsigned, hspan, hne,
      if_false]

/-- The text of a numeral without a point. -/
theorem text_whole (hf : n.fraction = []) (rest : List Char) :
    n.text ++ rest = n.whole ++ (exponentText n.exponent ++ rest) := by
  rw [text, if_pos hf, List.nil_append, List.append_assoc]

theorem text_point (hf : n.fraction ≠ []) (rest : List Char) :
    n.text ++ rest = n.whole ++ '.' :: (n.fraction ++ (exponentText n.exponent ++ rest)) := by
  simp [text, hf]

theorem exponentText_ne_point (h : Ends rest) {o : Option (Bool × List Char)} {cs : List Char} :
    exponentText o ++ rest ≠ '.' :: cs := by
  intro heq
  cases o with
  | none =>
    rw [exponentText, List.nil_append] at heq
    rcases h '.' (by simp [heq]) with hc | hc <;> cases hc
  | some e => cases heq

theorem IsWritten.text_head (hn : n.IsWritten) : ∃ c cs, n.text = c :: cs ∧ c.isDigit := by
  obtain ⟨c, cs, hwhole⟩ := List.exists_cons_of_ne_nil hn.ne_nil
  exact ⟨c, _, by rw [text, hwhole, List.cons_append], hn.whole c (by simp [hwhole])⟩

/-- A numeral is read from its text. -/
theorem numeral?_text (hn : n.IsWritten) (h : Ends rest) :
    numeral? (n.text ++ rest) = some (n, rest) := by
  have hexponent := exponent?_text hn.exponent_ne_nil hn.exponent h
  have hstop := noDigit_exponentText h n.exponent
  have hzero : ¬ (n.whole = [] ∨ n.whole.head? = some '0' ∧ n.whole ≠ ['0']) :=
    not_or.mpr ⟨hn.ne_nil, fun ⟨h0, hwhole⟩ => hwhole (hn.head h0)⟩
  unfold numeral?
  by_cases hf : n.fraction = []
  · rw [text_whole hf, span_digits hn.whole hstop]
    dsimp only
    rw [if_neg hzero]
    split
    · exact absurd ‹_› (exponentText_ne_point h)
    · rw [hexponent, Option.map_some, ← hf]
  · have hpoint : NoDigit ('.' :: (n.fraction ++ (exponentText n.exponent ++ rest))) := by
      simp [NoDigit]
    simp only [text_point hf, span_digits hn.whole hpoint, hzero, span_digits hn.fraction hstop, hf,
      if_false, hexponent, Option.map_some]

/-! ### Floats -/

theorem optionalExponent_text (hn : n.IsWritten) :
    Decimal.optionalExponent (exponentText n.exponent) = (n.power, []) := by
  have hlt := hn.exponent_lt
  have hdigits := hn.exponent
  have hne := hn.exponent_ne_nil
  unfold power
  generalize n.exponent = o at hlt hdigits hne ⊢
  cases o with
  | none => rfl
  | some e =>
    obtain ⟨negative, ds⟩ := e
    have hspan := span_digits (s := []) (hdigits _ rfl) ends_nil.noDigit
    have hsigned : Decimal.signed ((if negative then '-' else '+') :: ds) = (negative, ds) := by
      cases negative <;> rfl
    have hvalue := Decimal.exponentValue_eq (hlt _ rfl)
    have hne := hne _ rfl
    dsimp only at hvalue hne
    rw [List.append_nil] at hspan
    simp only [exponentText, Decimal.optionalExponent, Decimal.exponent?, true_or, if_true, hsigned,
      hspan, hne, if_false, hvalue, Option.getD_some]

/-- As a decimal, a numeral means the same. -/
theorem unsigned?_text (hn : n.IsWritten) : Decimal.unsigned? n.text =
    some (digitsValue (n.whole ++ n.fraction), n.power - n.fraction.length, []) := by
  have hexponent := optionalExponent_text hn
  have hstop : NoDigit (exponentText n.exponent) := by
    simpa using noDigit_exponentText ends_nil n.exponent
  rw [← List.append_nil n.text]
  by_cases hf : n.fraction = []
  · rw [text_whole hf, List.append_nil, Decimal.unsigned?, span_digits hn.whole hstop]
    dsimp only
    split
    · rename_i cs hpoint
      rw [← List.append_nil (exponentText _)] at hpoint
      exact absurd hpoint (exponentText_ne_point ends_nil)
    · simp [hn.ne_nil, hexponent, hf]
  · rw [text_point hf, List.append_nil]
    exact Decimal.unsigned?_point hn.ne_nil hn.whole hn.fraction hstop hexponent

/-- Whether a numeral stands for a float: there is a point or an exponent. -/
def IsFloat (n : Numeral) : Prop := ¬ (n.fraction = [] ∧ n.exponent = none)

/-- Digits on both sides of a point are the text of a numeral. -/
theorem exists_point {whole fraction : List Char} (hne : whole ≠ [])
    (hhead : whole.head? = some '0' → whole = ['0']) (hw : ∀ c ∈ whole, c.isDigit)
    (hfne : fraction ≠ []) (hf : ∀ c ∈ fraction, c.isDigit) :
    ∃ n : Numeral, n.IsWritten ∧ n.IsFloat ∧ whole ++ '.' :: fraction = n.text := by
  refine ⟨⟨whole, fraction, none⟩, ⟨hne, hhead, hw, hf, nofun, nofun, nofun⟩, ?_, ?_⟩
  · exact fun h => hfne h.1
  · simp [text, exponentText, hfne]

variable {d : Digits}

theorem exists_positional (hd : d.IsDecimal) :
    ∃ n : Numeral, n.IsWritten ∧ n.IsFloat ∧ d.positional = n.text := by
  have hzeros : ∀ k, ∀ c ∈ List.replicate k '0', c.isDigit := fun _ => Digits.isDigit_replicate
  unfold Digits.positional
  split
  · refine exists_point (by simp [hd.ne_nil]) ?_ ?_ (by simp) (hzeros 1)
    · rw [List.head?_append_of_ne_nil _ hd.ne_nil]
      exact fun h => absurd h hd.head
    · exact fun c hc => (List.mem_append.mp hc).elim (hd.digits c) (hzeros _ c)
  · dsimp only
    split
    · rename_i hlt
      refine exists_point ?_ ?_ (fun c hc => hd.digits c (List.mem_of_mem_take hc)) ?_
        fun c hc => hd.digits c (List.mem_of_mem_drop hc)
      · rw [← List.length_pos_iff, List.length_take]
        omega
      · rw [List.head?_take, if_neg (by omega)]
        exact fun h => absurd h hd.head
      · rw [← List.length_pos_iff, List.length_drop]
        omega
    · rw [List.cons_append, List.cons_append]
      refine exists_point (List.cons_ne_nil '0' []) (fun _ => rfl) (hzeros 1) (by simp [hd.ne_nil]) ?_
      exact fun c hc => (List.mem_append.mp hc).elim (hzeros _ c) (hd.digits c)

theorem exists_scientific (hd : d.IsDecimal) (hl : d.lead.natAbs < 0x10000) :
    ∃ n : Numeral, n.IsWritten ∧ n.IsFloat ∧ d.scientific true = n.text := by
  obtain ⟨first, more, hdigits⟩ := List.exists_cons_of_ne_nil hd.ne_nil
  have hfirst : ∀ c ∈ [first], c.isDigit := by
    intro c hc
    exact hd.digits c (hdigits ▸ List.mem_cons.mpr (.inl (List.mem_singleton.mp hc)))
  refine ⟨⟨[first], more, some (decide (d.lead < 0), Nat.toDigits 10 d.lead.natAbs)⟩,
    ⟨by simp, ?_, hfirst, ?_, ?_, ?_, ?_⟩, by simp [IsFloat], ?_⟩
  · rw [List.head?_cons, Option.some.injEq]
    rintro rfl
    exact absurd (by rw [hdigits]; rfl) hd.head
  · exact fun c hc => hd.digits c (hdigits ▸ List.mem_cons_of_mem _ hc)
  · rintro _ ⟨⟩
    exact Nat.toDigits_ne_nil
  · rintro _ ⟨⟩
    exact Decimal.isDigit_toDigits
  · rintro _ ⟨⟩
    rwa [digitsValue, Nat.ofDigitChars_ten_toDigits]
  · have hmark : (if d.lead < 0 then ['e', '-'] else if true then ['e', '+'] else ['e']) =
        ['e', if d.lead < 0 then '-' else '+'] := by split <;> rfl
    rw [Digits.scientific, hmark, hdigits]
    cases more with
    | nil => simp [text, exponentText]
    | cons second more => simp [text, exponentText]

/-- The digits of a float are the text of a numeral. -/
theorem exists_digits (hd : d.IsDecimal) (hl : d.lead.natAbs < 0x10000) :
    ∃ n : Numeral, n.IsWritten ∧ n.IsFloat ∧ floatLayout.digits d = n.text := by
  unfold Decimal.Layout.digits
  split
  · exact exists_positional hd
  · exact exists_scientific hd hl

/-- The sign in front of a number. -/
def sign (negative : Bool) : List Char := if negative then ['-'] else []

/-- What is written for a number, up to its sign: a numeral that means it. -/
def Writes (cs : List Char) (v : Value) : Prop :=
  ∃ (negative : Bool) (n : Numeral), n.IsWritten ∧ cs = sign negative ++ n.text ∧
    n.precise? negative = some v

theorem writes_float {x : Float} (hx : x.isFinite) : Writes (float x) (.float x) := by
  have hread := floatLayout.double?_ofFloat hx
  rw [float, if_pos hx]
  unfold Decimal.Layout.ofFloat Decimal.Layout.text at hread ⊢
  cases h : Double.ofFloat x with
  | notANumber | infinite negative => simp [← Double.isFinite_ofFloat, h, Double.isFinite] at hx
  | finite negative m q =>
    obtain ⟨hc, hq⟩ := Double.isCanonical_ofFloat h
    have htext : ∃ n : Numeral, n.IsWritten ∧ n.IsFloat ∧
        (if m = 0 then ['0', '.', '0']
          else floatLayout.digits (Decimal.shortest floatLayout.tie m q)) = n.text := by
      rcases Nat.eq_zero_or_pos m with rfl | hm
      · exact exists_point (List.cons_ne_nil '0' []) (fun _ => rfl)
          (Digits.isDigit_replicate (n := 1)) (by simp) (Digits.isDigit_replicate (n := 1))
      · rw [if_neg hm.ne']
        exact exists_digits (Decimal.shortest_isDecimal hc hm _) (Decimal.shortest_lead hc hq hm _)
    obtain ⟨n, hn, hfloat, htext⟩ := htext
    rw [h] at hread
    dsimp only at hread ⊢
    rw [htext] at hread ⊢
    rw [Decimal.double?_unsigned (unsigned?_text hn)] at hread
    exact ⟨negative, n, hn, rfl, by rw [precise?, if_neg hfloat, Option.some.inj hread]⟩

theorem writes_int (i : Int) : Writes (toString i).toList (.int i) := by
  have hvalue : digitsValue (Nat.toDigits 10 i.natAbs) = i.natAbs := Nat.ofDigitChars_ten_toDigits
  refine ⟨decide (i < 0), ⟨Nat.toDigits 10 i.natAbs, [], none⟩,
    ⟨Nat.toDigits_ne_nil, ?_, Decimal.isDigit_toDigits, by simp, nofun, nofun, nofun⟩, ?_, ?_⟩
  · intro h0
    rcases Nat.eq_zero_or_pos i.natAbs with hi | hi
    · rw [hi]
      rfl
    · exact absurd h0 (Digits.head_toDigits hi)
  · rw [Decimal.toList_toString]
    simp [sign, text, exponentText]
  · rw [precise?, if_pos ⟨rfl, rfl⟩, hvalue]
    congr 2
    simp only [decide_eq_true_eq]
    split <;> omega

end Numeral

end Saturation.Json
