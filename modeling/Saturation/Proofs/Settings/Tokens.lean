import Saturation.Proofs.Decimal.Literal
import Saturation.Settings.Writer

/-!
What the reader makes of the writer's tokens: layout, strings, numbers and truth values, each with
whatever may follow a value in a written document.
-/

set_option autoImplicit false

namespace Saturation.Settings

namespace Reader

/-! ## Layout -/

theorem skip_layout {c : Char} (h : isLayout c) (s : List Char) : skip (c :: s) = skip s := by
  rw [skip]
  simp [h]

theorem skip_token {c : Char} (hl : isLayout c = false) (hh : c ≠ '#') (hs : c ≠ '/')
    (s : List Char) : skip (c :: s) = c :: s := by
  have hc : comment? (c :: s) = none := by
    unfold comment?
    split <;> simp_all
  rw [skip]
  simp only [hl, Bool.false_eq_true, if_false]
  split <;> simp_all

@[simp] theorem skip_nil : skip [] = [] := by rw [skip]

@[simp] theorem skip_indent (depth : Nat) (s : List Char) :
    skip (Writer.indent depth ++ s) = skip s := by
  unfold Writer.indent
  induction 4 * depth with
  | zero => rfl
  | succ n ih => rw [List.replicate_succ, List.cons_append, skip_layout (by decide), ih]

theorem isNameStart_cases {c : Char} (h : isNameStart c) :
    isLayout c = false ∧ c ≠ '#' ∧ c ≠ '/' := by
  refine ⟨?_, ?_, ?_⟩
  · simp only [isLayout, Bool.or_eq_false_iff, beq_eq_false_iff_ne]
    refine ⟨⟨⟨?_, ?_⟩, ?_⟩, ?_⟩ <;> rintro rfl <;> exact absurd h (by decide)
  · rintro rfl; exact absurd h (by decide)
  · rintro rfl; exact absurd h (by decide)

/-- A name ends in front of what no name goes on with. -/
theorem name?_stop {name : List Char} (h : isName name) {s : List Char}
    (hs : ∀ c ∈ s.head?, isNameChar c = false) : name? (skip (name ++ s)) = some (name, s) := by
  cases name with
  | nil => simp [isName] at h
  | cons c cs =>
    simp only [isName, Bool.and_eq_true, List.all_eq_true] at h
    obtain ⟨hl, hh, hs'⟩ := isNameStart_cases h.1
    rw [List.cons_append, skip_token hl hh hs']
    simp [name?, h.1, Decimal.takeWhile_stop h.2 hs, Decimal.dropWhile_stop h.2 hs]

theorem name?_append {name : List Char} (h : isName name) (s : List Char) :
    name? (skip (name ++ ' ' :: s)) = some (name, ' ' :: s) := name?_stop h (by simp [isNameChar])

/-! ## What follows a value -/

/-- The texts in front of which a written value ends. -/
inductive Ends : List Char → Prop
  | semicolon (s : List Char) : Ends (';' :: s)
  | comma (s : List Char) : Ends (',' :: s)
  | bracket (s : List Char) : Ends (' ' :: ']' :: s)
  | paren (s : List Char) : Ends (' ' :: ')' :: s)

/-! ## Strings -/

theorem hexValue_hexDigit : ∀ d < 16, hexValue (Writer.hexDigit d) = d := by decide

theorem isHexDigit_hexDigit : ∀ d < 16, isHexDigit (Writer.hexDigit d) = true := by decide

theorem fragments_plain {c : Char} (hquote : c ≠ '"') (hslash : c ≠ '\\') (s : List Char) :
    fragments (c :: s) = (c :: (fragments s).1, (fragments s).2) := by
  rw [fragments.eq_def]
  split <;> simp_all

theorem fragments_escaped (c : Char) (s : List Char) :
    fragments (Writer.escaped c ++ s) = (c :: (fragments s).1, (fragments s).2) := by
  unfold Writer.escaped
  split
  case h_7 h₁ h₂ _ _ _ _ =>
    split
    · rename_i h
      have hhigh : c.toNat / 16 < 16 := by omega
      have hlow : c.toNat % 16 < 16 := by omega
      have hc : Char.ofNat (16 * (c.toNat / 16) + c.toNat % 16) = c := by
        rw [Nat.div_add_mod, Char.ofNat_toNat]
      simp [fragments, isHexDigit_hexDigit _ hhigh, isHexDigit_hexDigit _ hlow,
        hexValue_hexDigit _ hhigh, hexValue_hexDigit _ hlow, hc]
    · exact fragments_plain h₂ h₁ s
  all_goals simp [fragments, escape?]

theorem fragments_quoted (cs rest : List Char) :
    fragments (cs.flatMap Writer.escaped ++ '"' :: rest) = (cs, '"' :: rest) := by
  induction cs with
  | nil => simp [fragments]
  | cons c cs ih => rw [List.flatMap_cons, List.append_assoc, fragments_escaped, ih]

theorem quoted?_quoted (s : String) (rest : List Char) :
    quoted? (Writer.quoted s ++ rest) = some (s.toList, rest) := by
  simp [Writer.quoted, quoted?, fragments_quoted]

/-- No literal follows a value, so a written string is not joined with another one. -/
theorem Ends.quoted?_skip {s : List Char} (h : Ends s) : quoted? (skip s) = none := by
  cases h with
  | semicolon s => rw [skip_token (by decide) (by decide) (by decide)]; simp [quoted?]
  | comma s => rw [skip_token (by decide) (by decide) (by decide)]; simp [quoted?]
  | bracket s =>
    rw [skip_layout (by decide), skip_token (by decide) (by decide) (by decide)]
    simp [quoted?]
  | paren s =>
    rw [skip_layout (by decide), skip_token (by decide) (by decide) (by decide)]
    simp [quoted?]

theorem string?_quoted (t : String) {s : List Char} (h : Ends s) :
    string? (Writer.quoted t ++ s) = some (t.toList, s) := by
  have hmore : moreQuoted s = ([], s) := by
    rw [moreQuoted]
    split
    · rename_i hq
      rw [h.quoted?_skip] at hq
      cases hq
    · rfl
  simp [string?, quoted?_quoted, hmore]

end Reader

end Saturation.Settings
