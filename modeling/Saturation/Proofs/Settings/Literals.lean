import Saturation.Proofs.Settings.Grammar
import Saturation.Proofs.Settings.Numerals

/-!
The reader takes layout and literals as they are printed. A literal is read as a whole in front of
anything that can follow it: an integer or a word of letters would go on with letters, digits or a
point, and a string with another string behind its layout.
-/

set_option autoImplicit false

namespace Saturation.Settings

open Decimal (NoDigit)

/-! ## Layout -/

namespace Reader

theorem lineEnd?_words {words : List Char} (h : ∀ c ∈ words, c ≠ '\r' ∧ c ≠ '\n')
    {s : List Char} (hs : s = [] ∨ ∃ t, s = '\n' :: t) : lineEnd? (words ++ s) = some s := by
  induction words with
  | nil => rcases hs with rfl | ⟨t, rfl⟩ <;> rfl
  | cons c words ih =>
    simp only [List.forall_mem_cons] at h
    rw [List.cons_append, lineEnd?]
    · exact ih h.2
    · exact h.1.2
    · exact fun _ hc => absurd hc h.1.1
    · exact h.1.1

theorem blockEnd?_words {words : List Char} (h : ¬ ['*', '/'] <:+: words) (s : List Char) :
    blockEnd? (words ++ '*' :: '/' :: s) = some s := by
  induction words with
  | nil => rfl
  | cons c words ih =>
    have hrest : ¬ ['*', '/'] <:+: words := fun hi => h (hi.trans (List.suffix_cons c words).isInfix)
    -- An end in front would be inside the words.
    have hstart : ∀ cs, c = '*' → words ++ '*' :: '/' :: s = '/' :: cs → False := by
      rintro cs rfl hcs
      cases words with
      | nil => simp at hcs
      | cons d words =>
        obtain rfl : d = '/' := (List.cons.inj hcs).1
        exact h ⟨[], words, rfl⟩
    rw [List.cons_append, blockEnd?]
    · exact ih hrest
    · exact hstart

theorem skip_of_comment {c : Char} {s rest : List Char} (hc : isLayout c = false)
    (h : comment? (c :: s) = some rest) : skip (c :: s) = skip rest := by
  rw [skip]
  simp only [hc, Bool.false_eq_true, if_false]
  split
  · rename_i r hr
    rw [h] at hr
    cases hr
    rfl
  · rename_i hr
    rw [h] at hr
    cases hr

theorem skip_line (slashes : Bool) {words : List Char} (h : ∀ c ∈ words, c ≠ '\r' ∧ c ≠ '\n')
    {s : List Char} (hs : s = [] ∨ ∃ t, s = '\n' :: t) :
    skip (lineMark slashes ++ (words ++ s)) = skip s := by
  cases slashes
  · exact skip_of_comment (by decide) (lineEnd?_words h hs)
  · exact skip_of_comment (by decide) (lineEnd?_words h hs)

theorem skip_piece (p : Piece) (s : List Char) : skip (p.text ++ s) = skip s := by
  cases p with
  | blank c h =>
    refine skip_layout ?_ s
    simp only [List.mem_cons, List.not_mem_nil, or_false] at h
    rcases h with rfl | rfl | rfl | rfl <;> decide
  | line slashes words h =>
    rw [Piece.text, List.append_assoc, List.append_assoc, List.singleton_append,
      skip_line slashes h (.inr ⟨s, rfl⟩)]
    exact skip_layout (by decide) s
  | block words h =>
    rw [Piece.text, List.cons_append, List.cons_append, List.append_assoc]
    exact skip_of_comment (by decide) (blockEnd?_words h s)

@[simp] theorem skip_text (l : Layout) (s : List Char) : skip (l.text ++ s) = skip s := by
  induction l with
  | nil => rfl
  | cons p l ih =>
    rw [Layout.text, List.flatMap_cons, List.append_assoc, skip_piece]
    exact ih

theorem skip_lastComment (x : Option LastComment) : skip (x.elim [] LastComment.text) = [] := by
  cases x with
  | none => exact skip_nil
  | some x =>
    have h := skip_line x.slashes x.h (.inl rfl)
    rw [List.append_nil, skip_nil] at h
    exact h

end Reader

theorem Layout.head {l : Layout} (hl : l ≠ []) (s : List Char) :
    ∃ c cs, l.text ++ s = c :: cs ∧ c ∈ [' ', '\t', '\r', '\n', '#', '/'] := by
  cases l with
  | nil => exact absurd rfl hl
  | cons p l =>
    rw [text, List.flatMap_cons, List.append_assoc]
    cases p with
    | blank c h => exact ⟨c, _, rfl, by simp at h ⊢; tauto⟩
    | line slashes words h => cases slashes <;> exact ⟨_, _, rfl, by simp⟩
    | block words h => exact ⟨_, _, rfl, by simp⟩

/-- Layout begins with a character that no token begins or goes on with. -/
theorem Layout.next {l : Layout} (hl : l ≠ []) (s : List Char) :
    ∀ c ∈ (l.text ++ s).head?, (c.isAlphanum = false ∧ c ≠ '.') ∧ Reader.isNameChar c = false := by
  obtain ⟨c, cs, h, hc⟩ := l.head hl s
  rw [h]
  simp only [List.head?_cons, Option.mem_def, Option.some.injEq, forall_eq']
  simp only [List.mem_cons, List.not_mem_nil, or_false] at hc
  rcases hc with rfl | rfl | rfl | rfl | rfl | rfl <;> decide

/-! ## What follows a value -/

/-- A literal ends here, and no further part of a string comes. -/
structure Closes (s : List Char) : Prop where
  next : ∀ c ∈ s.head?, c.isAlphanum = false ∧ c ≠ '.'
  noQuote : ∀ c ∈ (Reader.skip s).head?, c ≠ '"'

namespace Closes

theorem token {c : Char} (h : c ∈ [';', ',', ']', ')', '\x7d']) (s : List Char) :
    Closes (c :: s) := by
  have hc : c.isAlphanum = false ∧ c ≠ '.' ∧ c ≠ '"' ∧ Reader.isLayout c = false ∧ c ≠ '#' ∧
      c ≠ '/' := by
    simp only [List.mem_cons, List.not_mem_nil, or_false] at h
    rcases h with rfl | rfl | rfl | rfl | rfl <;> decide
  obtain ⟨halnum, hpoint, hquote, hlayout, hhash, hslash⟩ := hc
  constructor
  · simp [halnum, hpoint]
  · rw [Reader.skip_token hlayout hhash hslash]
    simp [hquote]

theorem nil : Closes [] := by
  constructor
  · simp
  · simp

theorem append {s : List Char} (hs : Closes s) (l : Layout) : Closes (l.text ++ s) := by
  refine ⟨?_, by simpa using hs.noQuote⟩
  by_cases hl : l = []
  · subst hl
    exact hs.next
  · exact fun c hc => (Layout.next hl s c hc).1

end Closes

/-! ## Words and digits -/

theorem toLower_of_not_alphanum {c : Char} (h : c.isAlphanum = false) : c.toLower = c := by
  have hupper : c.isUpper = false := by
    unfold Char.isAlphanum Char.isAlpha at h
    simp only [Bool.or_eq_false_iff] at h
    exact h.1.1
  unfold Char.toLower
  split
  · rename_i hc
    have : c.isUpper = true := decide_eq_true hc
    simp [this] at hupper
  · rfl

namespace AnyCase

variable {word : List Char}

theorem word?_append (x : AnyCase word) (s : List Char) : Reader.word? word (x.text ++ s) = some s := by
  obtain ⟨text, rfl⟩ := x
  induction text with
  | nil => rfl
  | cons c text ih =>
    simp only [List.map_cons, List.cons_append, Reader.word?, if_true]
    exact ih

theorem text_cons {w : Char} {ws : List Char} (x : AnyCase (w :: ws)) :
    ∃ c cs, x.text = c :: cs ∧ c.toLower = w ∧ cs.map Char.toLower = ws := by
  obtain ⟨text, h⟩ := x
  cases text with
  | nil => simp at h
  | cons c cs => exact ⟨c, cs, rfl, by simpa using h⟩

end AnyCase

theorem eq_of_toLower {c d : Char} (h : c.toLower = d) : c = d ∨ c = Char.ofNat (d.toNat - 32) := by
  unfold Char.toLower at h
  split at h
  · rename_i hc
    right
    have hlow : 65 ≤ c.toNat := UInt32.le_iff_toNat_le.mp hc.1
    have hhigh : c.toNat ≤ 90 := UInt32.le_iff_toNat_le.mp hc.2
    have hd : d.toNat = c.toNat + 32 := by
      rw [← h]
      show (c.val + ('a'.val - 'A'.val)).toNat = c.val.toNat + 32
      rw [UInt32.toNat_add]
      show (c.toNat + 32) % 4294967296 = c.toNat + 32
      omega
    rw [hd, Nat.add_sub_cancel, Char.ofNat_toNat]
  · exact .inl h

theorem not_isDigit_of_alphanum {c : Char} (h : c.isAlphanum = false) : c.isDigit = false := by
  simp only [Char.isAlphanum, Bool.or_eq_false_iff] at h
  exact h.2

theorem signed_text (x : Sign) {s : List Char} (h : ∀ c ∈ s.head?, c ≠ '-' ∧ c ≠ '+') :
    Decimal.signed (x.text ++ s) = (x.isMinus, s) := by
  cases x with
  | plus => rfl
  | minus => rfl
  | none =>
    cases s with
    | nil => rfl
    | cons c cs =>
      obtain ⟨hminus, hplus⟩ := h c rfl
      simp [Sign.text, Sign.isMinus, Decimal.signed, hminus, hplus]

namespace Digits

theorem head (x : Digits) (s : List Char) :
    ∃ c cs, x.text ++ s = c :: cs ∧ c.isDigit := by
  obtain ⟨text, hne, hd⟩ := x
  cases text with
  | nil => exact absurd rfl hne
  | cons c cs => exact ⟨c, cs ++ s, rfl, hd c (by simp)⟩

theorem not_signed (x : Digits) (s : List Char) :
    ∀ c ∈ (x.text ++ s).head?, c ≠ '-' ∧ c ≠ '+' := by
  obtain ⟨c, cs, h, hd⟩ := x.head s
  rw [h]
  simp only [List.head?_cons, Option.mem_def, Option.some.injEq, forall_eq']
  constructor <;> rintro rfl <;> exact absurd hd (by decide)

end Digits

open Reader (AfterDigits)

theorem Closes.afterDigits {s : List Char} (hs : Closes s) : AfterDigits s := by
  refine ⟨fun c hc => not_isDigit_of_alphanum (hs.next c hc).1, fun c hc => ?_, fun c hc => ?_⟩
  · obtain ⟨halnum, hpoint⟩ := hs.next c hc
    refine ⟨hpoint, ?_, ?_⟩ <;> rintro rfl <;> exact absurd halnum (by decide)
  · obtain ⟨halnum, -⟩ := hs.next c hc
    rw [toLower_of_not_alphanum halnum]
    rintro rfl
    exact absurd halnum (by decide)

theorem Suffix.text_cases (x : Suffix) : x.text = [] ∨ ∃ c cs, x.text = c :: cs ∧ c.toLower = 'l' := by
  cases x with
  | none => exact .inl rfl
  | long letters =>
    obtain ⟨c, cs, h, hc, -⟩ := letters.text_cons
    exact .inr ⟨c, cs, h, hc⟩
  | wide letters =>
    obtain ⟨c, cs, h, hc, -⟩ := letters.text_cons
    exact .inr ⟨c, cs, h, hc⟩

theorem Suffix.afterDigits (x : Suffix) {s : List Char} (hs : Closes s) : AfterDigits (x.text ++ s) := by
  rcases x.text_cases with h | ⟨c, cs, h, hc⟩
  · rw [h]
    exact hs.afterDigits
  · rw [h]
    rcases eq_of_toLower hc with rfl | rfl <;> constructor <;> simp [NoDigit]

theorem Closes.word?_suffix {s : List Char} (hs : Closes s) (ws : List Char) :
    Reader.word? ('l' :: ws) s = none := by
  cases s with
  | nil => rfl
  | cons c cs =>
    obtain ⟨halnum, -⟩ := hs.next c rfl
    have hc : c.toLower ≠ 'l' := by
      rw [toLower_of_not_alphanum halnum]
      rintro rfl
      exact absurd halnum (by decide)
    simp [Reader.word?, hc]

theorem dropSuffix_append (x : Suffix) {s : List Char} (hs : Closes s) :
    Reader.dropSuffix (x.text ++ s) = s := by
  cases x with
  | none => simp [Suffix.text, Reader.dropSuffix, hs.word?_suffix]
  | long letters =>
    have hwide : Reader.word? ['l', 'l'] (letters.text ++ s) = none := by
      obtain ⟨c, cs, h, hc, hcs⟩ := letters.text_cons
      obtain rfl : cs = [] := List.map_eq_nil_iff.mp hcs
      simp [h, Reader.word?, hc, hs.word?_suffix]
    simp [Suffix.text, Reader.dropSuffix, hwide, letters.word?_append]
  | wide letters => simp [Suffix.text, Reader.dropSuffix, letters.word?_append]

/-! ## Integers -/

open Reader (digits? floatParts? hex? integer? float? boolean? string? scalar? isHexDigit hexValue
  IsNumeralStart digits?_append floatParts?_digits boolean?_numeral string?_numeral)

namespace Sign

/-- Whatever has a sign in front starts like a number. -/
theorem head (x : Sign) {body : List Char} {c : Char} {cs : List Char} (hbody : body = c :: cs)
    (hc : c = '.' ∨ c.isDigit) : ∃ d ds, x.text ++ body = d :: ds ∧ IsNumeralStart d := by
  subst hbody
  cases x with
  | plus => exact ⟨'+', _, rfl, .inr (.inl rfl)⟩
  | minus => exact ⟨'-', _, rfl, .inl rfl⟩
  | none => exact ⟨c, cs, rfl, .inr (.inr hc)⟩

variable (x : Sign) (digits : Digits) {s : List Char}

theorem float?_digits (hs : AfterDigits s) :
    float? (x.text ++ (digits.text ++ s)) = Option.none := by
  simp only [float?, signed_text x (digits.not_signed _),
    floatParts?_digits digits.nonempty digits.isDigit hs.noDigit hs.noFloat]

theorem hex?_digits (hs : ∀ c ∈ s.head?, c.toLower ≠ 'x') :
    hex? (x.text ++ (digits.text ++ s)) = Option.none := by
  cases x with
  | plus => simp [text, hex?, Reader.word?]
  | minus => simp [text, hex?, Reader.word?]
  | none =>
    rw [text, List.nil_append]
    exact Reader.hex?_digits digits.nonempty digits.isDigit hs

theorem integer?_digits (hs : NoDigit s) : integer? (x.text ++ (digits.text ++ s)) =
    if Decimal.inInt64 (x.apply (Decimal.digitsValue digits.text)) then
      some (x.apply (Decimal.digitsValue digits.text), Reader.dropSuffix s)
    else Option.none := by
  simp only [integer?, signed_text x (digits.not_signed _),
    digits?_append digits.nonempty digits.isDigit hs, apply]
  rfl

end Sign

namespace Integer

variable (x : Integer) {s : List Char}

theorem text_append (s : List Char) :
    x.text ++ s = x.sign.text ++ (x.digits.text ++ (x.suffix.text ++ s)) := by
  simp [text]

theorem scalar?_text (hs : Closes s) : scalar? (x.text ++ s) = some (.int x.value, s) := by
  have hafter := x.suffix.afterDigits hs
  have hfloat := x.sign.float?_digits x.digits hafter
  have hhex := x.sign.hex?_digits x.digits hafter.noHex
  have hinteger := x.sign.integer?_digits x.digits hafter.noDigit
  rw [if_pos x.inRange, dropSuffix_append x.suffix hs] at hinteger
  obtain ⟨d, ds, hdigits, hd⟩ := x.digits.head (x.suffix.text ++ s)
  obtain ⟨c, cs, hc, hstart⟩ := x.sign.head hdigits (.inr hd)
  rw [text_append]
  rw [hc] at hfloat hhex hinteger ⊢
  simp only [Reader.scalar?_numeral hstart, hfloat, hhex, hinteger]
  rfl

end Integer

namespace HexDigit

theorem isHexDigit_char (d : HexDigit) : isHexDigit d.char := by
  obtain ⟨value, upper⟩ := d
  revert value upper
  decide

theorem hexValue_char (d : HexDigit) : hexValue d.char = d.value := by
  obtain ⟨value, upper⟩ := d
  revert value upper
  decide

end HexDigit

theorem foldl_hexValue (digits : List HexDigit) (n : Nat) :
    (digits.map HexDigit.char).foldl (fun n c => 16 * n + hexValue c) n =
      digits.foldl (fun n d => 16 * n + (d.value : Nat)) n := by
  induction digits generalizing n with
  | nil => rfl
  | cons d digits ih =>
    rw [List.map_cons, List.foldl_cons, List.foldl_cons, HexDigit.hexValue_char, ih]

theorem isAlphanum_of_isHexDigit {c : Char} (h : isHexDigit c) : c.isAlphanum := by
  simp only [isHexDigit, Bool.or_eq_true, Bool.and_eq_true, decide_eq_true_eq] at h
  unfold Char.isAlphanum Char.isAlpha Char.isUpper Char.isLower
  simp only [Bool.or_eq_true, Bool.and_eq_true, decide_eq_true_eq]
  rcases h with (h | h) | h
  · exact .inr h
  · exact .inl (.inr ⟨h.1, UInt32.le_trans h.2 (by decide)⟩)
  · exact .inl (.inl ⟨h.1, UInt32.le_trans h.2 (by decide)⟩)

theorem Suffix.not_isHexDigit (x : Suffix) {s : List Char} (hs : Closes s) :
    ∀ c ∈ (x.text ++ s).head?, isHexDigit c = false := by
  rcases x.text_cases with h | ⟨c, cs, h, hc⟩
  · intro c hc
    rw [h] at hc
    by_contra hx
    have halnum := (hs.next c hc).1
    rw [isAlphanum_of_isHexDigit (by simpa using hx)] at halnum
    cases halnum
  · rw [h]
    rcases eq_of_toLower hc with rfl | rfl <;> simp <;> decide

theorem float?_hexMark (mark : AnyCase ['x']) (s : List Char) :
    float? ('0' :: (mark.text ++ s)) = none := by
  obtain ⟨c, cs, hmark, hc, -⟩ := mark.text_cons
  have hx : c = 'x' ∨ c = 'X' := eq_of_toLower hc
  have hparts (t : List Char) : floatParts? (['0'] ++ c :: t) = none :=
    floatParts?_digits (by simp) (by simp) (by rcases hx with rfl | rfl <;> simp [NoDigit])
      (by rcases hx with rfl | rfl <;> simp)
  simp only [List.singleton_append] at hparts
  have hsigned : ∀ t, Decimal.signed ('0' :: t) = (false, '0' :: t) :=
    fun t => signed_text .none (s := '0' :: t) (by simp)
  rw [hmark, List.cons_append]
  simp only [float?, hsigned, hparts]

theorem hex?_hexDigits (mark : AnyCase ['x']) (digits : List HexDigit) (suffix : Suffix)
    {s : List Char} (hs : Closes s) :
    hex? ('0' :: (mark.text ++ (digits.map HexDigit.char ++ (suffix.text ++ s)))) =
      if digits.map HexDigit.char ≠ [] ∧ Decimal.inInt64 (hexNumber digits) then
        some ((hexNumber digits : Int), s)
      else none := by
  have hdigits : ∀ c ∈ digits.map HexDigit.char, isHexDigit c := by
    intro c hc
    obtain ⟨d, -, rfl⟩ := List.mem_map.mp hc
    exact d.isHexDigit_char
  have hstop := suffix.not_isHexDigit hs
  have hword : Reader.word? ['0', 'x']
      ('0' :: (mark.text ++ (digits.map HexDigit.char ++ (suffix.text ++ s)))) =
      some (digits.map HexDigit.char ++ (suffix.text ++ s)) := mark.word?_append _
  have hnumber : (digits.map HexDigit.char).foldl (fun n c => 16 * n + hexValue c) 0 =
      hexNumber digits := foldl_hexValue digits 0
  unfold hex?
  rw [hword]
  simp only [Decimal.takeWhile_stop hdigits hstop, Decimal.dropWhile_stop hdigits hstop, hnumber,
    dropSuffix_append suffix hs]

namespace Hexadecimal

variable (x : Hexadecimal) {s : List Char}

theorem text_append (s : List Char) : x.text ++ s =
    '0' :: (x.mark.text ++ (x.digits.map HexDigit.char ++ (x.suffix.text ++ s))) := by
  simp [text]

theorem scalar?_text (hs : Closes s) : scalar? (x.text ++ s) = some (.int x.value, s) := by
  have hstart : IsNumeralStart '0' := .inr (.inr (.inr (by decide)))
  have hhex := hex?_hexDigits x.mark x.digits x.suffix hs
  rw [if_pos ⟨by simpa using x.nonempty, x.inRange⟩] at hhex
  rw [text_append]
  simp only [Reader.scalar?_numeral hstart, float?_hexMark, hhex]
  rfl

end Hexadecimal

/-! ## Floats -/

theorem Exponent.text_cons (e : Exponent) : ∃ c, (c = 'e' ∨ c = 'E') ∧
    e.text = c :: (e.sign.text ++ e.digits.text) := by
  obtain ⟨c, cs, hmark, hc, hcs⟩ := e.mark.text_cons
  obtain rfl : cs = [] := List.map_eq_nil_iff.mp hcs
  refine ⟨c, eq_of_toLower hc, ?_⟩
  rw [text, hmark, List.singleton_append]

theorem Exponent.noDigit (e : Exponent) : NoDigit e.text := by
  obtain ⟨c, hc, h⟩ := e.text_cons
  rw [h]
  rcases hc with rfl | rfl <;> simp [NoDigit]

theorem Exponent.exponent?_text (e : Exponent) : Decimal.exponent? e.text = some (e.value, []) := by
  obtain ⟨c, hc, h⟩ := e.text_cons
  have hsigned := signed_text e.sign (s := e.digits.text) (by simpa using e.digits.not_signed [])
  have hspan := Decimal.span_digits (s := []) e.digits.isDigit (by simp [NoDigit])
  rw [List.append_nil] at hspan
  rw [h]
  simp only [Decimal.exponent?, hc, if_true, hsigned, hspan, e.digits.nonempty, if_false]
  rfl

namespace Numeral

theorem noDigit_exponentText (e : Option Exponent) : NoDigit (exponentText e) := by
  cases e with
  | none => simp [exponentText, NoDigit]
  | some e => exact e.noDigit

theorem optionalExponent_text (e : Option Exponent) :
    Decimal.optionalExponent (exponentText e) = (exponentOf e, []) := by
  cases e with
  | none => rfl
  | some e => simp [Decimal.optionalExponent, exponentText, exponentOf, e.exponent?_text]

theorem floatParts?_text (x : Numeral) {s : List Char} (hs : AfterDigits s) :
    floatParts? (x.text ++ s) = some (x.mantissa, x.power, s) := by
  cases x with
  | pointed whole fraction h e =>
    have hparts := Reader.floatParts?_point (fun hnil => whole.nonempty hnil.1) whole.isDigit h
      (noDigit_exponentText e) (optionalExponent_text e) hs
    simpa [text, mantissa, power] using hparts
  | pointFirst fraction e =>
    have hwhole : ∀ c ∈ ([] : List Char), c.isDigit := by simp
    have hparts := Reader.floatParts?_point (fun hnil => fraction.nonempty hnil.2) hwhole
      fraction.isDigit (noDigit_exponentText e) (optionalExponent_text e) hs
    simpa [text, mantissa, power] using hparts
  | scientific whole e =>
    have hparts := Reader.floatParts?_exponent whole.nonempty whole.isDigit e.exponent?_text
      e.noDigit hs
    simpa [text, mantissa, power] using hparts

theorem head (x : Numeral) (s : List Char) :
    ∃ c cs, x.text ++ s = c :: cs ∧ (c = '.' ∨ c.isDigit) := by
  cases x with
  | pointed whole fraction h e =>
    obtain ⟨c, cs, hc, hd⟩ := whole.head ('.' :: (fraction ++ exponentText e) ++ s)
    exact ⟨c, cs, by rw [text, List.append_assoc, hc], .inr hd⟩
  | pointFirst fraction e => exact ⟨'.', _, rfl, .inl rfl⟩
  | scientific whole e =>
    obtain ⟨c, cs, hc, hd⟩ := whole.head (e.text ++ s)
    exact ⟨c, cs, by rw [text, List.append_assoc, hc], .inr hd⟩

end Numeral

namespace Numeral

theorem not_signed (x : Numeral) (s : List Char) : ∀ c ∈ (x.text ++ s).head?, c ≠ '-' ∧ c ≠ '+' := by
  obtain ⟨c, cs, h, hc⟩ := x.head s
  rw [h]
  simp only [List.head?_cons, Option.mem_def, Option.some.injEq, forall_eq']
  constructor <;> rintro rfl <;> exact absurd hc (by decide)

theorem float?_text (x : Numeral) (sign : Sign) {s : List Char} (hs : AfterDigits s) :
    float? (sign.text ++ (x.text ++ s)) =
      if (Decimal.scaled sign.isMinus x.mantissa x.power).isFinite then
        some (Decimal.scaled sign.isMinus x.mantissa x.power, s)
      else none := by
  simp only [float?, signed_text sign (x.not_signed s), x.floatParts?_text hs]

end Numeral

theorem FloatLiteral.scalar?_text (x : FloatLiteral) {s : List Char} (hs : Closes s) :
    scalar? (x.text ++ s) = some (.float x.value, s) := by
  have hfloat := x.numeral.float?_text x.sign hs.afterDigits
  rw [if_pos x.finite] at hfloat
  obtain ⟨d, ds, hnumeral, hd⟩ := x.numeral.head s
  obtain ⟨c, cs, hc, hstart⟩ := x.sign.head hnumeral hd
  rw [text, List.append_assoc]
  rw [hc] at hfloat ⊢
  simp only [Reader.scalar?_numeral hstart, hfloat]
  rfl

/-! ## Strings -/

open Reader (fragments quoted? moreQuoted skip)

theorem fragments_fragment (x : Fragment) (s : List Char) :
    fragments (x.text ++ s) = (x.char :: (fragments s).1, (fragments s).2) := by
  cases x with
  | plain c h => exact Reader.fragments_plain h.1 h.2 s
  | escape e =>
    cases e with
    | code high low =>
      simp [Fragment.text, Escape.text, fragments, Fragment.char, Escape.char,
        high.isHexDigit_char, low.isHexDigit_char, high.hexValue_char, low.hexValue_char]
    | backslash | quote | lineFeed | carriageReturn | tab | formFeed =>
      simp [Fragment.text, Escape.text, fragments, Fragment.char, Escape.char, Reader.escape?]

theorem fragments_text (q : Quoted) (s : List Char) :
    fragments (q.flatMap Fragment.text ++ '"' :: s) = (q.chars, '"' :: s) := by
  induction q with
  | nil => simp [fragments, Quoted.chars]
  | cons x q ih =>
    rw [List.flatMap_cons, List.append_assoc, fragments_fragment, ih]
    rfl

theorem quoted?_text (q : Quoted) (s : List Char) : quoted? (q.text ++ s) = some (q.chars, s) := by
  simp [Quoted.text, quoted?, fragments_text]

theorem skip_quoted (q : Quoted) (s : List Char) : skip (q.text ++ s) = q.text ++ s :=
  Reader.skip_token (by decide) (by decide) (by decide) _

theorem moreQuoted_text (more : List (Layout × Quoted)) {s : List Char} (hs : Closes s) :
    moreQuoted (StringLiteral.moreText more ++ s) = (more.flatMap fun x => x.2.chars, s) := by
  induction more with
  | nil =>
    have hnone : quoted? (skip s) = none := by
      cases h : skip s with
      | nil => rfl
      | cons c cs =>
        have hc := hs.noQuote c (by rw [h]; rfl)
        simp [quoted?, hc]
    rw [StringLiteral.moreText, List.flatMap_nil, List.nil_append, moreQuoted]
    split
    · rename_i hq
      rw [hnone] at hq
      cases hq
    · rfl
  | cons x more ih =>
    have htext : StringLiteral.moreText (x :: more) ++ s =
        x.1.text ++ (x.2.text ++ (StringLiteral.moreText more ++ s)) := by
      simp [StringLiteral.moreText]
    have hquoted : quoted? (skip (StringLiteral.moreText (x :: more) ++ s)) =
        some (x.2.chars, StringLiteral.moreText more ++ s) := by
      rw [htext, Reader.skip_text, skip_quoted, quoted?_text]
    rw [moreQuoted]
    split
    · rename_i text rest hq
      rw [hquoted] at hq
      cases hq
      simp only [ih]
      rfl
    · rename_i hq
      rw [hquoted] at hq
      cases hq

theorem StringLiteral.scalar?_text (x : StringLiteral) {s : List Char} (hs : Closes s) :
    scalar? (x.text ++ s) = some (.str x.value, s) := by
  have hb : boolean? (x.text ++ s) = none := by
    simp [StringLiteral.text, Quoted.text, boolean?, Reader.word?]
  have ht : string? (x.text ++ s) =
      some (x.first.chars ++ x.more.flatMap fun x => x.2.chars, s) := by
    rw [StringLiteral.text, List.append_assoc]
    simp only [string?, quoted?_text, moreQuoted_text x.more hs]
  simp only [scalar?, hb, ht]
  rfl

/-! ## All literals -/

theorem boolean?_text (b : Bool) (x : AnyCase (booleanWord b)) (s : List Char) :
    boolean? (x.text ++ s) = some (b, s) := by
  cases b with
  | true =>
    have hword : Reader.word? ['t', 'r', 'u', 'e'] (x.text ++ s) = some s := x.word?_append s
    simp only [boolean?, hword]
  | false =>
    have hword : Reader.word? ['f', 'a', 'l', 's', 'e'] (x.text ++ s) = some s := x.word?_append s
    have hother : Reader.word? ['t', 'r', 'u', 'e'] (x.text ++ s) = none := by
      obtain ⟨c, cs, h, hc, -⟩ := (show AnyCase ('f' :: ['a', 'l', 's', 'e']) from x).text_cons
      rw [h]
      simp [Reader.word?, hc]
    simp only [boolean?, hother, hword]
    rfl

/-- A literal is read in front of whatever closes it. -/
theorem Literal.scalar?_text (x : Literal) {s : List Char} (hs : Closes s) :
    scalar? (x.text ++ s) = some (x.meaning, s) := by
  cases x with
  | boolean b letters => simp only [Literal.text, scalar?, boolean?_text b letters s, Literal.meaning]
  | integer x => exact x.scalar?_text hs
  | hexadecimal x => exact x.scalar?_text hs
  | float x => exact x.scalar?_text hs
  | string x => exact x.scalar?_text hs

end Saturation.Settings
