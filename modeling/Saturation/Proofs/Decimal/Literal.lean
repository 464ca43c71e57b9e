import Mathlib.Data.List.TakeDrop
import Saturation.Decimal.Literal

/-!
Numbers are read digit by digit as far as the digits go.
-/

set_option autoImplicit false

namespace Saturation.Decimal

/-- What may stand behind a run of digits that is read as a whole. -/
def NoDigit (s : List Char) : Prop := ∀ c ∈ s.head?, c.isDigit = false

theorem takeWhile_stop {p : Char → Bool} {l s : List Char} (hl : ∀ c ∈ l, p c)
    (hs : ∀ c ∈ s.head?, p c = false) : (l ++ s).takeWhile p = l := by
  have htake : s.takeWhile p = [] := by
    cases s with
    | nil => rfl
    | cons c cs => simp [hs c (by simp)]
  rw [List.takeWhile_append_of_pos hl, htake, List.append_nil]

theorem dropWhile_stop {p : Char → Bool} {l s : List Char} (hl : ∀ c ∈ l, p c)
    (hs : ∀ c ∈ s.head?, p c = false) : (l ++ s).dropWhile p = s := by
  rw [List.dropWhile_append_of_pos hl]
  cases s with
  | nil => rfl
  | cons c cs => simp [hs c (by simp)]

theorem span_digits {ds s : List Char} (hd : ∀ c ∈ ds, c.isDigit) (hs : NoDigit s) :
    (ds ++ s).span Char.isDigit = (ds, s) := by
  rw [List.span_eq_takeWhile_dropWhile, takeWhile_stop hd hs, dropWhile_stop hd hs]

theorem span_parts {l ds s : List Char} (h : l.span Char.isDigit = (ds, s)) :
    l = ds ++ s ∧ (∀ c ∈ ds, c.isDigit) ∧ NoDigit s := by
  rw [List.span_eq_takeWhile_dropWhile, Prod.mk.injEq] at h
  obtain ⟨rfl, rfl⟩ := h
  refine ⟨List.takeWhile_append_dropWhile.symm, ?_, ?_⟩
  · exact List.all_eq_true.mp List.all_takeWhile
  · intro c hc
    have h := List.head?_dropWhile_not Char.isDigit l
    rw [Option.mem_def.mp hc] at h
    exact h

theorem toLower_of_isDigit {c : Char} (h : c.isDigit) : c.toLower = c := by
  simp only [Char.isDigit, Bool.and_eq_true, decide_eq_true_eq, ge_iff_le,
    UInt32.le_iff_toNat_le] at h
  unfold Char.toLower
  split
  · rename_i hu
    simp only [ge_iff_le, UInt32.le_iff_toNat_le] at hu
    simp at h hu
    omega
  · rfl

theorem isDigit_toDigits {n : Nat} : ∀ c ∈ Nat.toDigits 10 n, c.isDigit :=
  fun _ h => Nat.isDigit_of_mem_toDigits (by decide) (by decide) h

theorem toList_toString (n : Int) :
    (toString n).toList = (if n < 0 then ['-'] else []) ++ Nat.toDigits 10 n.natAbs := by
  by_cases h : n < 0
  · have hn : (-n).toNat = n.natAbs := by omega
    have h0 : ¬ 0 ≤ n := by omega
    simp [Int.repr_eq_if, h0, h, hn]
  · have hn : n.toNat = n.natAbs := by omega
    have h0 : 0 ≤ n := by omega
    simp [Int.repr_eq_if, h0, h, hn]

theorem signed_digits {ds : List Char} (hne : ds ≠ []) (hd : ∀ c ∈ ds, c.isDigit)
    (s : List Char) : signed (ds ++ s) = (false, ds ++ s) := by
  cases ds with
  | nil => exact absurd rfl hne
  | cons c cs =>
    have hc := hd c (by simp)
    unfold signed
    split
    · rename_i h
      simp only [List.cons_append, List.cons.injEq] at h
      simp [h.1] at hc
    · rename_i h
      simp only [List.cons_append, List.cons.injEq] at h
      simp [h.1] at hc
    · rfl

theorem signed_append {t : List Char} (h : t ≠ []) (s : List Char) :
    signed (t ++ s) = ((signed t).1, (signed t).2 ++ s) := by
  cases t with
  | nil => exact absurd rfl h
  | cons c cs =>
    by_cases hm : c = '-'
    · subst hm; rfl
    by_cases hp : c = '+'
    · subst hp; rfl
    simp [signed, hm, hp]

theorem exponent?_append {t : List Char} {e : Int} (h : exponent? t = some (e, []))
    {s : List Char} (hs : NoDigit s) : exponent? (t ++ s) = some (e, s) := by
  cases t with
  | nil => simp [exponent?] at h
  | cons c cs =>
    simp only [exponent?] at h
    split at h
    · rename_i hc
      cases hspan : (signed cs).2.span Char.isDigit with
      | mk ds rest =>
        simp only [hspan] at h
        split at h
        · cases h
        · rename_i hne
          simp only [Option.some.injEq, Prod.mk.injEq] at h
          obtain ⟨rfl, rfl⟩ := h
          obtain ⟨hbody, hd, -⟩ := span_parts hspan
          rw [List.append_nil] at hbody
          have hcs : cs ≠ [] := by
            rintro rfl
            exact hne hbody.symm
          simp only [exponent?, List.cons_append, hc, if_true, signed_append hcs, hbody,
            span_digits hd hs, hne, if_false]
    · cases h

/-! ### Whole texts -/

theorem le_ofDigitChars (ds : List Char) (n : Nat) : n ≤ Nat.ofDigitChars 10 ds n := by
  rw [Nat.ofDigitChars_eq_ofDigitChars_zero]
  exact Nat.le_trans (Nat.le_mul_of_pos_left n (Nat.pow_pos (by decide))) (Nat.le_add_right _ _)

/-- The exponents of doubles are far below the one from which further digits add nothing. -/
theorem exponentValue_eq {ds : List Char} (h : digitsValue ds < 0x10000) :
    exponentValue ds = digitsValue ds := by
  have hfold : ∀ (ds : List Char) (e : Nat), Nat.ofDigitChars 10 ds e < 0x10000 →
      ds.foldl (fun e d => if e < 0x10000 then 10 * e + (d.toNat - '0'.toNat) else e) e =
        Nat.ofDigitChars 10 ds e := by
    intro ds
    induction ds with
    | nil => exact fun e _ => Nat.ofDigitChars_nil.symm
    | cons d ds ih =>
      intro e he
      rw [Nat.ofDigitChars_cons] at he ⊢
      have hle := le_ofDigitChars ds (10 * e + (d.toNat - '0'.toNat))
      rw [List.foldl_cons, if_pos (by omega)]
      exact ih _ he
  exact hfold ds 0 h

theorem exponent?_mark {sign : List Char} {negative : Bool} {n : Nat} (h : n < 0x10000)
    (hs : signed (sign ++ Nat.toDigits 10 n) = (negative, Nat.toDigits 10 n)) :
    exponent? ('e' :: (sign ++ Nat.toDigits 10 n)) =
      some (if negative then -(n : Int) else n, []) := by
  have hn : digitsValue (Nat.toDigits 10 n) = n := Nat.ofDigitChars_ten_toDigits
  have hspan := span_digits (s := []) (isDigit_toDigits (n := n)) (by simp [NoDigit])
  rw [List.append_nil] at hspan
  simp only [exponent?, true_or, if_true, hs, hspan, Nat.toDigits_ne_nil, if_false,
    exponentValue_eq (hn.symm ▸ h), hn]

theorem unsigned?_point {whole fraction : List Char} (hne : whole ≠ [])
    (hw : ∀ c ∈ whole, c.isDigit) (hf : ∀ c ∈ fraction, c.isDigit) {rest : List Char} {e : Int}
    (hr : NoDigit rest) (he : optionalExponent rest = (e, [])) :
    unsigned? (whole ++ '.' :: (fraction ++ rest)) =
      some (digitsValue (whole ++ fraction), e - fraction.length, []) := by
  have hpoint : NoDigit ('.' :: (fraction ++ rest)) := by simp [NoDigit]
  simp only [unsigned?, span_digits hw hpoint, span_digits hf hr, he, hne, false_and, if_false]

theorem unsigned?_whole {whole : List Char} (hne : whole ≠ []) (hw : ∀ c ∈ whole, c.isDigit)
    {rest : List Char} {e : Int} (he : exponent? ('e' :: rest) = some (e, [])) :
    unsigned? (whole ++ 'e' :: rest) = some (digitsValue whole, e, []) := by
  have hmark : NoDigit ('e' :: rest) := by simp [NoDigit]
  unfold unsigned?
  rw [span_digits hw hmark]
  simp [optionalExponent, he, hne]

theorem unsigned?_head {t : List Char} {r : Nat × Int × List Char} (h : unsigned? t = some r) :
    ∃ c cs, t = c :: cs ∧ (c = '.' ∨ c.isDigit) := by
  cases t with
  | nil => simp [unsigned?] at h
  | cons c cs =>
    refine ⟨c, cs, rfl, ?_⟩
    by_cases hd : c.isDigit
    · exact .inr hd
    by_cases hp : c = '.'
    · exact .inl hp
    simp [unsigned?, hd, hp] at h

theorem double?_unsigned {t : List Char} {m : Nat} {e : Int} (h : unsigned? t = some (m, e, []))
    (negative : Bool) :
    double? ((if negative then ['-'] else []) ++ t) = some (scaled negative m e) := by
  obtain ⟨c, cs, rfl, hc⟩ := unsigned?_head h
  have hlower : c.toLower ≠ 'i' ∧ c.toLower ≠ 'n' := by
    rcases hc with rfl | hc
    · decide
    · rw [toLower_of_isDigit hc]
      constructor <;> rintro rfl <;> exact absurd hc (by decide)
  have hsigned : signed ((if negative then ['-'] else []) ++ c :: cs) = (negative, c :: cs) := by
    cases negative
    · have hsign : c ≠ '-' ∧ c ≠ '+' := by
        constructor <;> rintro rfl <;> exact absurd hc (by decide)
      simp [signed, hsign]
    · rfl
  simp [double?, hsigned, hlower, h]

end Saturation.Decimal
