import Saturation.Proofs.Settings.Sites
import Saturation.Proofs.Settings.StrayLine

/-!
Numbers that cannot be held: integers outside the signed 64-bit range and floats that round to
infinity. The reader may take the front of such a literal for a number. Then it stops in front of a
point, or of a word that is the name of no setting. Neither closes anything, and so a document with
such a literal in the place of a value is in error.
-/

set_option autoImplicit false

namespace Saturation.Settings

open Decimal (NoDigit)
open Reader (AfterDigits ValueAt isName isNameChar isNameStart skip name? scalar? float? hex? integer?
  dropSuffix IsNumeralStart skip_token scalar?_numeral)

/-! ## The literals -/

/-- A number as a literal may write it, which the value of the literal's type cannot hold. -/
inductive Unrepresentable where
  | integer (sign : Sign) (digits : Digits) (suffix : Suffix)
    (h : Decimal.inInt64 (sign.apply (Decimal.digitsValue digits.text)) = false)
  | hexadecimal (mark : AnyCase ['x']) (digits : List HexDigit) (suffix : Suffix)
    (h : Decimal.inInt64 (hexNumber digits) = false)
  | float (sign : Sign) (numeral : Numeral)
    (h : (Decimal.scaled sign.isMinus numeral.mantissa numeral.power).isFinite = false)

namespace Unrepresentable

def text : Unrepresentable → List Char
  | integer sign digits suffix _ => sign.text ++ (digits.text ++ suffix.text)
  | hexadecimal mark digits suffix _ =>
    '0' :: (mark.text ++ (digits.map HexDigit.char ++ suffix.text))
  | float sign numeral _ => sign.text ++ numeral.text

end Unrepresentable

/-- The text ends, or a terminator or a closing bracket comes next. -/
def Stops (s : List Char) : Prop := ∀ c ∈ s.head?, c ∈ [';', ',', ']', ')', '\x7d']

theorem Stops.closes {s : List Char} (hs : Stops s) : Closes s := by
  cases s with
  | nil => exact .nil
  | cons c s => exact .token (hs c rfl) s

/-! ## Stray texts -/

/-- What the reader leaves of a literal whose front it has taken for a number. -/
inductive Stray : List Char → Prop
  | point (s : List Char) : Stray ('.' :: s)
  | word {name s : List Char} (hname : isName name)
      (hs : ∀ c ∈ s.head?, c ∈ ['+', ';', ',', ']', ')', '\x7d']) : Stray (name ++ s)

namespace Stray

variable {s : List Char}

theorem head (h : Stray s) : ∃ c cs, s = c :: cs ∧ (c = '.' ∨ isNameStart c) := by
  cases h with
  | point s => exact ⟨'.', s, rfl, .inl rfl⟩
  | @word name s hname hs =>
    cases name with
    | nil => simp [isName] at hname
    | cons c cs =>
      simp only [isName, Bool.and_eq_true] at hname
      exact ⟨c, cs ++ s, rfl, .inr hname.1⟩

theorem skip_eq (h : Stray s) : skip s = s := by
  obtain ⟨c, cs, rfl, rfl | hc⟩ := h.head
  · exact skip_token (by decide) (by decide) (by decide) cs
  · obtain ⟨hlayout, hhash, hslash⟩ := Reader.isNameStart_cases hc
    exact skip_token hlayout hhash hslash cs

/-- A stray text begins with nothing that could come behind a value. -/
theorem skip_ne (h : Stray s) {c : Char} (hc : c ∈ [';', ',', ']', ')', '\x7d']) (t : List Char) :
    skip s ≠ c :: t := by
  rw [h.skip_eq]
  obtain ⟨d, cs, rfl, hd⟩ := h.head
  rintro ⟨⟩
  rcases hd with rfl | hd
  · simp at hc
  · simp only [List.mem_cons, List.not_mem_nil, or_false] at hc
    rcases hc with rfl | rfl | rfl | rfl | rfl <;> exact absurd hd (by decide)

theorem terminated_eq (h : Stray s) : Reader.terminated s = s := by
  unfold Reader.terminated
  split
  · rename_i hs
    exact absurd hs (h.skip_ne (by simp) _)
  · rename_i hs
    exact absurd hs (h.skip_ne (by simp) _)
  · rfl

end Stray

/-! ## What is read of such a literal -/

theorem isNameChar_of_isAlphanum {c : Char} (h : c.isAlphanum) : isNameChar c := by
  simp [isNameChar, h]

theorem Digits.isNameChar (x : Digits) : ∀ c ∈ x.text, isNameChar c := by
  intro c hc
  have hdigit := x.isDigit c hc
  exact isNameChar_of_isAlphanum (by simp [Char.isAlphanum, hdigit])

theorem Suffix.isNameChar (x : Suffix) : ∀ c ∈ x.text, isNameChar c := by
  intro c hc
  have hlower : c.toLower = 'l' := by
    cases x with
    | none => cases hc
    | long letters =>
      have h := List.mem_map_of_mem hc (f := Char.toLower)
      rw [text, letters.lower] at h
      simpa using h
    | wide letters =>
      have h := List.mem_map_of_mem hc (f := Char.toLower)
      rw [text, letters.lower] at h
      simpa using h
  rcases eq_of_toLower hlower with rfl | rfl <;> decide

theorem Exponent.stray (e : Exponent) {s : List Char} (hs : Stops s) : Stray (e.text ++ s) := by
  obtain ⟨c, hc, htext⟩ := e.text_cons
  have hstart : isNameStart c := by rcases hc with rfl | rfl <;> decide
  have hend : ∀ c ∈ s.head?, c ∈ ['+', ';', ',', ']', ')', '\x7d'] :=
    fun c hc => List.mem_cons_of_mem _ (hs c hc)
  rw [htext]
  cases e.sign with
  | none =>
    refine .word ?_ hend
    simpa [isName, hstart, Sign.text] using e.digits.isNameChar
  | minus =>
    refine .word ?_ hend
    simpa [isName, hstart, Sign.text] using ⟨by decide, e.digits.isNameChar⟩
  | plus =>
    -- this sign is part of no name
    have hname : isName [c] := by simp [isName, hstart]
    show Stray ([c] ++ '+' :: (e.digits.text ++ s))
    exact .word hname (by simp)

theorem stray_hexMark (mark : AnyCase ['x']) (digits : List HexDigit) (suffix : Suffix)
    {s : List Char} (hs : Stops s) :
    Stray (mark.text ++ (digits.map HexDigit.char ++ (suffix.text ++ s))) := by
  obtain ⟨c, cs, htext, hc, hcs⟩ := mark.text_cons
  obtain rfl : cs = [] := List.map_eq_nil_iff.mp hcs
  have hstart : isNameStart c := by rcases eq_of_toLower hc with rfl | rfl <;> decide
  have hdigits : ∀ d ∈ digits, isNameChar d.char :=
    fun d _ => isNameChar_of_isAlphanum (isAlphanum_of_isHexDigit d.isHexDigit_char)
  rw [htext, ← List.append_assoc, ← List.append_assoc]
  refine .word ?_ fun c hc => List.mem_cons_of_mem _ (hs c hc)
  simpa [isName, hstart] using ⟨hdigits, suffix.isNameChar⟩

theorem dropSuffix_stop {s : List Char} (hs : ∀ c ∈ s.head?, c.toLower ≠ 'l') : dropSuffix s = s := by
  cases s with
  | nil => rfl
  | cons c s =>
    have hc := hs c rfl
    simp [dropSuffix, Reader.word?, hc]

/-- No number begins with a bracket, layout or a comment. -/
theorem numeralStart_ne {c d : Char} (hc : IsNumeralStart c)
    (hd : d ∈ ['\x7b', '[', '(', ']', ')', ' ', '\t', '\r', '\n', '#', '/']) : c ≠ d := by
  rintro rfl
  revert hc
  simp only [List.mem_cons, List.not_mem_nil, or_false] at hd
  rcases hd with rfl | rfl | rfl | rfl | rfl | rfl | rfl | rfl | rfl | rfl | rfl <;>
    simp [IsNumeralStart]

/-- A text that begins like a number, of which at most a front is read that leaves a stray text. -/
structure Unheld (t : List Char) : Prop where
  start : ∃ c cs, t = c :: cs ∧ IsNumeralStart c
  stray {v : Value} {rest : List Char} (h : scalar? t = some (v, rest)) : Stray rest

namespace Unheld

variable {t : List Char}

theorem of_integer? {cs : List Char} {c : Char} (ht : t = c :: cs) (hc : IsNumeralStart c)
    (hfloat : float? t = none) (hhex : hex? t = none)
    (hinteger : ∀ {n : Int} {rest : List Char}, integer? t = some (n, rest) → Stray rest) :
    Unheld t := by
  subst ht
  refine ⟨⟨c, cs, rfl, hc⟩, fun h => ?_⟩
  rw [scalar?_numeral hc, hfloat, hhex] at h
  cases hi : integer? (c :: cs) with
  | none =>
    rw [hi] at h
    cases h
  | some x =>
    rw [hi] at h
    cases h
    exact hinteger hi

theorem head_ne (h : Unheld t) {c : Char} (hc : c ∈ ['\x7b', '[', '(', ']', ')']) (s : List Char) :
    t ≠ c :: s := by
  obtain ⟨d, cs, rfl, hd⟩ := h.start
  rintro ⟨⟩
  exact numeralStart_ne hd (List.mem_append_left [' ', '\t', '\r', '\n', '#', '/'] hc) rfl

theorem skip_eq (h : Unheld t) : skip t = t := by
  obtain ⟨c, cs, rfl, hc⟩ := h.start
  have hlayout : Reader.isLayout c = false := by
    simp only [Reader.isLayout, Bool.or_eq_false_iff, beq_eq_false_iff_ne]
    exact ⟨⟨⟨numeralStart_ne hc (by simp), numeralStart_ne hc (by simp)⟩,
      numeralStart_ne hc (by simp)⟩, numeralStart_ne hc (by simp)⟩
  exact skip_token hlayout (numeralStart_ne hc (by simp)) (numeralStart_ne hc (by simp)) cs

end Unheld

/-- The digits in front are read, if they are in range, and what comes behind them is left. -/
theorem integer?_rest (sign : Sign) (digits : Digits) {c : Char} {s rest : List Char} {n : Int}
    (hc : c ∈ ['.', 'e', 'E', 'x', 'X'])
    (h : integer? (sign.text ++ (digits.text ++ c :: s)) = some (n, rest)) : rest = c :: s := by
  have hnext : c.isDigit = false ∧ c.toLower ≠ 'l' := by
    revert hc
    simp only [List.mem_cons, List.not_mem_nil, or_false]
    rintro (rfl | rfl | rfl | rfl | rfl) <;> decide
  rw [sign.integer?_digits digits (by simpa [NoDigit] using hnext.1),
    dropSuffix_stop (by simpa using hnext.2)] at h
  split at h
  · cases h
    rfl
  · cases h

theorem integer?_point (sign : Sign) (s : List Char) : integer? (sign.text ++ '.' :: s) = none := by
  have hsigned := signed_text sign (s := '.' :: s) (by simp)
  simp [integer?, hsigned, Reader.digits?]

theorem hex?_point (sign : Sign) (s : List Char) : hex? (sign.text ++ '.' :: s) = none := by
  cases sign <;> simp [Sign.text, hex?, Reader.word?]

/-- A numeral is digits with a stray text behind them, or it begins with its point. -/
theorem Numeral.text_cases (x : Numeral) {s : List Char} (hs : Stops s) :
    (∃ (digits : Digits) (c : Char) (cs : List Char), x.text ++ s = digits.text ++ c :: cs ∧
      c ∈ ['.', 'e', 'E'] ∧ Stray (c :: cs)) ∨ ∃ cs, x.text ++ s = '.' :: cs := by
  cases x with
  | pointed whole fraction h e =>
    exact .inl ⟨whole, '.', fraction ++ (exponentText e ++ s), by simp [text], by simp, .point _⟩
  | pointFirst fraction e => exact .inr ⟨_, rfl⟩
  | scientific whole e =>
    obtain ⟨c, hc, htext⟩ := e.text_cons
    have hstray := e.stray hs
    rw [htext] at hstray
    refine .inl ⟨whole, c, _, ?_, ?_, hstray⟩
    · rw [text, htext, List.append_assoc]
      rfl
    · rcases hc with rfl | rfl <;> simp

/-- Of a number that cannot be held, at most a front is read. -/
theorem Unrepresentable.unheld (w : Unrepresentable) {s : List Char} (hs : Stops s) :
    Unheld (w.text ++ s) := by
  cases w with
  | integer sign digits suffix h =>
    have hafter := suffix.afterDigits hs.closes
    obtain ⟨d, ds, hdigits, hd⟩ := digits.head (suffix.text ++ s)
    obtain ⟨c, cs, htext, hc⟩ := sign.head hdigits (.inr hd)
    rw [text, List.append_assoc, List.append_assoc]
    refine .of_integer? htext hc (sign.float?_digits digits hafter)
      (sign.hex?_digits digits hafter.noHex) fun hinteger => ?_
    rw [sign.integer?_digits digits hafter.noDigit, h] at hinteger
    cases hinteger
  | hexadecimal mark digits suffix h =>
    have hzero : IsNumeralStart '0' := .inr (.inr (.inr (by decide)))
    have hstray := stray_hexMark mark digits suffix hs
    have hfloat := float?_hexMark mark (digits.map HexDigit.char ++ (suffix.text ++ s))
    have hhex := hex?_hexDigits mark digits suffix hs.closes
    simp only [h, Bool.false_eq_true, and_false, if_false] at hhex
    obtain ⟨c, cs, hmark, hc, -⟩ := mark.text_cons
    simp only [text, List.cons_append, List.append_assoc]
    refine .of_integer? rfl hzero hfloat hhex fun hinteger => ?_
    rw [hmark, List.cons_append] at hinteger hstray
    have hx : c ∈ ['.', 'e', 'E', 'x', 'X'] := by
      rcases eq_of_toLower hc with rfl | rfl <;> simp
    rw [integer?_rest .none ⟨['0'], by simp, by simp⟩ hx hinteger]
    exact hstray
  | float sign numeral h =>
    have hfloat := numeral.float?_text sign hs.closes.afterDigits
    rw [h] at hfloat
    obtain ⟨d, ds, hnumeral, hd⟩ := numeral.head s
    obtain ⟨c, cs, htext, hc⟩ := sign.head hnumeral hd
    rw [text, List.append_assoc]
    refine .of_integer? htext hc hfloat ?_ ?_
    · rcases numeral.text_cases hs with ⟨digits, c, cs, hdigits, hc, -⟩ | ⟨cs, hpoint⟩
      · rw [hdigits]
        refine sign.hex?_digits digits ?_
        simp only [List.mem_cons, List.not_mem_nil, or_false] at hc
        rcases hc with rfl | rfl | rfl <;> simp
      · rw [hpoint]
        exact hex?_point sign cs
    · intro n rest hinteger
      rcases numeral.text_cases hs with ⟨digits, c, cs, hdigits, hc, hstray⟩ | ⟨cs, hpoint⟩
      · rw [hdigits] at hinteger
        rw [integer?_rest sign digits (List.mem_append_left ['x', 'X'] hc) hinteger]
        exact hstray
      · rw [hpoint, integer?_point] at hinteger
        cases hinteger

/-! ## No part of the document closes -/

/-- What is left, if anything is found. -/
def Reading.Leaves {α : Type} (P : List Char → Prop) : Reading α → Prop
  | found _ rest => P rest
  | missed _ => True
  | broken _ => True

/-- A part is not read up to what closes it, given enough steps. Of settings, those in front of a point
may be found. -/
def Reader.Part.Fails (s : List Char) : Reader.Part → Prop
  | value => ∀ n, 2 * s.length + 1 ≤ n → (Reader.value n s).Leaves Stray
  | cells => ∀ n t, skip (Reader.scalars n s).2 ≠ ']' :: t
  | items => ∀ n, 2 * s.length + 2 ≤ n → (Reader.items n s).Leaves fun r => ∀ t, skip r ≠ ')' :: t
  | settings => ∀ n g, 2 * s.length + 2 ≤ n →
      (Reader.settings n s g).Leaves fun r => ∃ t, skip r = '.' :: t

namespace Stray

variable {s : List Char}

theorem moreScalars_eq (h : Stray s) (n : Nat) : Reader.moreScalars n s = ([], s) := by
  cases n with
  | zero => rfl
  | succ n =>
    rw [Reader.moreScalars]
    split
    · rename_i hs
      exact absurd hs (h.skip_ne (by simp) _)
    · rfl

theorem moreItems_eq (h : Stray s) (n : Nat) : Reader.moreItems (n + 1) s = .found [] s := by
  rw [Reader.moreItems]
  split
  · rename_i hs
    exact absurd hs (h.skip_ne (by simp) _)
  · rfl

/-- What ends a stray word is part of no name, and it is no sign between a name and a value. -/
theorem next {c : Char} (h : c ∈ ['+', ';', ',', ']', ')', '\x7d']) : isNameChar c = false ∧
    Reader.isLayout c = false ∧ c ≠ '#' ∧ c ≠ '/' ∧ c ≠ '=' ∧ c ≠ ':' := by
  simp only [List.mem_cons, List.not_mem_nil, or_false] at h
  rcases h with rfl | rfl | rfl | rfl | rfl | rfl <;> decide

theorem setting_word {name s : List Char} (hname : isName name)
    (hs : ∀ c ∈ s.head?, c ∈ ['+', ';', ',', ']', ')', '\x7d']) (n : Nat) :
    Reader.setting (n + 1) (name ++ s) = .broken s := by
  have hread := Reader.name?_stop hname fun c hc => (next (hs c hc)).1
  rw [Reader.setting, hread]
  cases s with
  | nil => simp only [Reader.skip_nil]
  | cons c cs =>
    obtain ⟨-, hlayout, hhash, hslash, hequals, hcolon⟩ := next (hs c rfl)
    simp only [skip_token hlayout hhash hslash cs, hequals, hcolon, or_self, if_false]

/-- Settings end in front of a point, and a stray word breaks them. -/
theorem settings_leaves (h : Stray s) (n : Nat) (g : Group) :
    (Reader.settings (n + 2) s g).Leaves fun r => ∃ t, skip r = '.' :: t := by
  have hskip := h.skip_eq
  cases h with
  | point s =>
    have hname : name? ('.' :: s) = none := by simp [name?]; decide
    rw [Reader.settings, Reader.setting, hskip, hname]
    exact ⟨s, hskip⟩
  | word hname hs =>
    rw [Reader.settings, setting_word hname hs]
    trivial

end Stray

/-- Behind a comma, an array goes on with the cells there, or it ends in front of the comma. -/
theorem moreScalars_comma {r cs : List Char} (h : skip r = ',' :: cs) (n : Nat) :
    (Reader.moreScalars n r).2 = r ∨ ∃ m, (Reader.moreScalars n r).2 = (Reader.scalars m cs).2 := by
  cases n with
  | zero => exact .inl rfl
  | succ n =>
    rw [Reader.moreScalars, h]
    simp only [Reader.scalars]
    cases hv : scalar? (skip cs) with
    | none => exact .inl rfl
    | some x => exact .inr ⟨n, rfl⟩

theorem moreItems_comma {r cs : List Char} (h : skip r = ',' :: cs) (n : Nat) :
    Reader.moreItems (n + 1) r = .found [] r ∨
      Reader.moreItems (n + 1) r = Reader.items (n + 1) cs := by
  rw [Reader.moreItems, h]
  simp only [Reader.items]
  cases hv : Reader.value n (skip cs) with
  | found v rest => exact .inr rfl
  | missed rest => exact .inl rfl
  | broken rest => exact .inr rfl

namespace Reader.Part.Fails

variable {s t cs rest : List Char}

theorem unheld (ht : Unheld t) : value.Fails t := by
  intro n hn
  obtain ⟨m, rfl⟩ : ∃ m, n = m + 1 := ⟨n - 1, by omega⟩
  have hhead : ∀ c ∈ t.head?, c ≠ '\x7b' ∧ c ≠ '[' ∧ c ≠ '(' := by
    intro c hc
    have hcons := List.eq_cons_of_mem_head? hc
    refine ⟨?_, ?_, ?_⟩ <;> rintro rfl <;> exact ht.head_ne (by simp) _ hcons
  rw [Reader.value_scalar hhead]
  cases hv : scalar? t with
  | none => trivial
  | some x => exact ht.stray hv

theorem array (h : cells.Fails s) : value.Fails ('[' :: s) := by
  intro n hn
  obtain ⟨m, rfl⟩ : ∃ m, n = m + 1 := ⟨n - 1, by omega⟩
  rw [Reader.value]
  simp only []
  split
  · rename_i hbracket
    exact absurd hbracket (h m _)
  · trivial

theorem list (h : items.Fails s) : value.Fails ('(' :: s) := by
  intro n hn
  rw [List.length_cons] at hn
  obtain ⟨m, rfl⟩ : ∃ m, n = m + 1 := ⟨n - 1, by omega⟩
  have hitems := h m (by omega)
  rw [Reader.value]
  cases hread : Reader.items m s with
  | found vs r =>
    rw [hread] at hitems
    simp only []
    split
    · rename_i hparen
      exact absurd hparen (hitems _)
    · trivial
  | missed r => trivial
  | broken r => trivial

theorem group (h : settings.Fails s) : value.Fails ('\x7b' :: s) := by
  intro n hn
  rw [List.length_cons] at hn
  obtain ⟨m, rfl⟩ : ∃ m, n = m + 1 := ⟨n - 1, by omega⟩
  have hsettings := h m [] (by omega)
  rw [Reader.value]
  cases hread : Reader.settings m s [] with
  | found g r =>
    rw [hread] at hsettings
    obtain ⟨t, ht⟩ := hsettings
    simp only [ht]
    trivial
  | missed r => trivial
  | broken r => trivial

theorem cell (ht : Unheld (skip s)) : cells.Fails s := by
  intro n t
  unfold Reader.scalars
  cases hv : scalar? (skip s) with
  | none => exact ht.head_ne (by simp) t
  | some x =>
    have hstray := ht.stray hv
    simp only [hstray.moreScalars_eq]
    exact hstray.skip_ne (by simp) t

theorem nextCell {v : Value} (hv : scalar? (skip s) = some (v, rest)) (hcomma : skip rest = ',' :: cs)
    (h : cells.Fails cs) : cells.Fails s := by
  intro n t
  simp only [Reader.scalars, hv]
  rcases moreScalars_comma hcomma n with heq | ⟨m, heq⟩
  · rw [heq, hcomma]
    rintro ⟨⟩
  · rw [heq]
    exact h m t

theorem item (h : value.Fails (skip s)) (hs : ∀ t, skip s ≠ ')' :: t) : items.Fails s := by
  intro n hn
  have hskip := (Reader.skip_suffix s).length_le
  obtain ⟨m, rfl⟩ : ∃ m, n = m + 2 := ⟨n - 2, by omega⟩
  have hvalue := h (m + 1) (by omega)
  rw [Reader.items]
  cases hread : Reader.value (m + 1) (skip s) with
  | found v r =>
    rw [hread] at hvalue
    simp only [Stray.moreItems_eq hvalue]
    exact hvalue.skip_ne (by simp)
  | missed r => exact hs
  | broken r => trivial

theorem nextItem {v : Value} (hv : Reader.value (2 * s.length + 1) (skip s) = .found v rest)
    (hcomma : skip rest = ',' :: cs) (h : items.Fails cs) : items.Fails s := by
  intro n hn
  have hskip := (Reader.skip_suffix s).length_le
  have hrest := (Reader.value_suffix hv).length_le
  have hcs := (Reader.skip_suffix rest).length_le
  rw [hcomma, List.length_cons] at hcs
  obtain ⟨m, rfl⟩ : ∃ m, n = m + 2 := ⟨n - 2, by omega⟩
  rw [Reader.items, Reader.value_steps (n := 2 * s.length + 1) (by omega) (by omega), hv]
  rcases moreItems_comma hcomma m with heq | heq
  · simp only [heq]
    intro t
    rw [hcomma]
    rintro ⟨⟩
  · have hitems := h (m + 1) (by omega)
    simp only [heq]
    cases hread : Reader.items (m + 1) cs with
    | found vs r =>
      rw [hread] at hitems
      exact hitems
    | missed r => trivial
    | broken r => trivial

theorem assigned {name : List Char} {c : Char} (hname : name? (skip s) = some (name, rest))
    (hsign : skip rest = c :: cs) (hc : c = '=' ∨ c = ':') (h : value.Fails (skip cs)) :
    settings.Fails s := by
  intro n g hn
  have hlt := (Reader.name?_suffix hname).2
  have hskip := (Reader.skip_suffix s).length_le
  have hrest := (Reader.skip_suffix rest).length_le
  have hcs := (Reader.skip_suffix cs).length_le
  rw [hsign, List.length_cons] at hrest
  obtain ⟨m, rfl⟩ : ∃ m, n = m + 3 := ⟨n - 3, by omega⟩
  have hvalue := h (m + 1) (by omega)
  rw [Reader.settings, Reader.setting, hname]
  simp only [hsign, hc, if_true]
  cases hread : Reader.value (m + 1) (skip cs) with
  | found v r =>
    rw [hread] at hvalue
    simp only [Stray.terminated_eq hvalue]
    exact hvalue.settings_leaves m _
  | missed r => trivial
  | broken r => trivial

theorem nextSetting {f : String × Value} (hf : Reader.setting (2 * s.length + 1) s = .found f rest)
    (h : settings.Fails rest) : settings.Fails s := by
  intro n g hn
  have hrest := Reader.setting_length hf
  obtain ⟨m, rfl⟩ : ∃ m, n = m + 1 := ⟨n - 1, by omega⟩
  rw [Reader.settings, Reader.setting_steps (Nat.le_refl _) (by omega), hf]
  exact h m _ (by omega)

end Reader.Part.Fails

/-- No part is read in which the reader comes to such a text. -/
theorem Reader.ValueAt.fails {s t : List Char} {part : Reader.Part} (h : ValueAt t part s)
    (ht : Unheld t) : part.Fails s := by
  induction h with
  | here => exact .unheld ht
  | array _ ih => exact ih.array
  | list _ ih => exact ih.list
  | group _ ih => exact ih.group
  | cell hs => exact .cell (hs ▸ ht)
  | nextCell hv hcomma _ ih => exact ih.nextCell hv hcomma
  | item h ih =>
    refine ih.item fun r hr => ?_
    rcases h.value_cases with heq | ⟨c, cs, heq, hc⟩
    · exact ht.head_ne (by simp) r (heq.symm.trans hr)
    · rw [heq] at hr
      cases hr
      revert hc
      decide
  | nextItem hv hcomma _ ih => exact ih.nextItem hv hcomma
  | assigned hname hsign hc _ ih => exact ih.assigned hname hsign hc
  | nextSetting hf _ ih => exact ih.nextSetting hf

/-! ## Documents -/

theorem read_unheld {s t : List Char} (h : ValueAt t .settings s) (ht : Unheld t) :
    ∃ e, read s = .error e := by
  have hleaves := h.fails ht (2 * s.length + 2) [] (Nat.le_refl _)
  unfold read Reader.document
  cases hread : Reader.settings (2 * s.length + 2) s [] with
  | found g rest =>
    rw [hread] at hleaves
    obtain ⟨r, hr⟩ := hleaves
    simp only [hr]
    exact ⟨_, rfl⟩
  | missed rest => exact ⟨_, rfl⟩
  | broken rest => exact ⟨_, rfl⟩

/-- A number that cannot be held, in front of a terminator, a closing bracket or the end of the text,
is an error wherever the reader comes to it as a value; no other number is read in its place. The reader
comes to it in the place of any literal of any document, at any depth and whatever comes behind. -/
theorem read_unrepresentable (w : Unrepresentable) {s : List Char} (hs : Stops s) :
    (∀ t, ValueAt (w.text ++ s) .settings t → ∃ e, read t = .error e) ∧
      ∀ (d : Document) (x : Site), x ∈ d.sites → x.text = d.text ∧ read d.text = .ok d.meaning ∧
        ∃ e, read (x.front ++ (w.text ++ s)) = .error e := by
  have hw := w.unheld hs
  refine ⟨fun t h => read_unheld h hw, fun d x hx => ?_⟩
  exact ⟨Document.text_of_site hx, (read_text d).1, read_unheld (Document.valueAt hw.skip_eq hx) hw⟩

/-! A scalar in an array in a group. -/

def Document.nested : Document :=
  ⟨.last (.plain ['c'] (by decide)) (.group (.last (.plain ['d'] (by decide)) (.array
    [⟨[], .boolean false ⟨['f', 'a', 'l', 's', 'e'], by decide⟩, []⟩] [])) []), [], none⟩

/-- A float beyond all doubles. -/
def Unrepresentable.power : Unrepresentable :=
  .float .none (.scientific ⟨['1'], by simp, by simp⟩ ⟨⟨['e'], by decide⟩, .none,
    ⟨['9', '9', '9'], by simp, by simp⟩⟩) (by decide +kernel)

theorem read_unrepresentable_nested : Stops [']', '\x7d'] ∧
    (∃ g, read "c = \x7bd = [false]\x7d".toList = .ok g) ∧
    ∃ e, read "c = \x7bd = [1e999]\x7d".toList = .error e := by
  have hs : Stops [']', '\x7d'] := by simp [Stops]
  obtain ⟨x, hsites, hfront⟩ : ∃ x, Document.nested.sites = [x] ∧ x.front = "c = \x7bd = [".toList :=
    ⟨_, rfl, by decide⟩
  have hx : x ∈ Document.nested.sites := by simp [hsites]
  obtain ⟨-, hread, herror⟩ := (read_unrepresentable .power hs).2 .nested x hx
  rw [hfront] at herror
  exact ⟨hs, ⟨_, hread⟩, herror⟩

end Saturation.Settings
