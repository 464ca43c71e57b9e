import Saturation.Proofs.Settings.Literals
import Saturation.Proofs.Settings.Remainder

/-!
Reading is local. What has been read in front of the end of a line is read in the same way when the
text goes on behind that line. The readers of names, words and numbers stop at the line feed at the
latest. A string, or a comment in front of the next token, might go on; it does not where the next
token is one.
-/

set_option autoImplicit false

namespace Saturation.Settings

/-- A text whose last line is ended. -/
def EndsLine (s : List Char) : Prop := s.getLast? = some '\n'

namespace EndsLine

variable {s r x : List Char} {c : Char} {p : Char → Bool}

theorem ne_nil (h : EndsLine s) : s ≠ [] := by
  rintro rfl
  cases h

theorem of_suffix (h : EndsLine s) (hr : r <:+ s) (hne : r ≠ []) : EndsLine r := by
  obtain ⟨front, rfl⟩ := hr
  rwa [EndsLine, List.getLast?_append_of_ne_nil _ hne] at h

theorem tail (h : EndsLine (c :: s)) (hc : c ≠ '\n') : EndsLine s := by
  refine h.of_suffix (List.suffix_cons c s) ?_
  rintro rfl
  cases h
  exact hc rfl

theorem takeWhile_append (h : EndsLine s) (hp : p '\n' = false) :
    (s ++ x).takeWhile p = s.takeWhile p := by
  induction s with
  | nil => cases h
  | cons c s ih =>
    cases hc : p c with
    | false => simp [hc]
    | true =>
      have hne : c ≠ '\n' := by
        rintro rfl
        simp [hp] at hc
      simp [hc, ih (h.tail hne)]

theorem dropWhile_append (h : EndsLine s) (hp : p '\n' = false) :
    (s ++ x).dropWhile p = s.dropWhile p ++ x := by
  induction s with
  | nil => cases h
  | cons c s ih =>
    cases hc : p c with
    | false => simp [hc]
    | true =>
      have hne : c ≠ '\n' := by
        rintro rfl
        simp [hp] at hc
      simp [hc, ih (h.tail hne)]

theorem dropWhile (h : EndsLine s) (hp : p '\n' = false) : EndsLine (s.dropWhile p) := by
  refine h.of_suffix (List.dropWhile_suffix p) fun hnil => ?_
  have hall := List.dropWhile_eq_nil_iff.mp hnil '\n' (List.mem_of_getLast? h)
  rw [hp] at hall
  cases hall

end EndsLine

theorem EndsLine.of_skip {s t : List Char} {c : Char} (h : EndsLine s) (hskip : Reader.skip s = c :: t)
    (hc : c ≠ '\n') : EndsLine t := by
  refine EndsLine.tail (h.of_suffix ?_ (List.cons_ne_nil c t)) hc
  rw [← hskip]
  exact Reader.skip_suffix s

namespace Reader

variable {s : List Char}

/-! ## Layout -/

theorem lineEnd?_local (hs : EndsLine s) {r : List Char} (h : lineEnd? s = some r)
    (x : List Char) : lineEnd? (s ++ x) = some (r ++ x) ∧ EndsLine r := by
  fun_induction lineEnd? s with
  | case1 => cases hs
  | case2 cs => cases h; exact ⟨rfl, hs⟩
  | case3 cs => cases h; exact ⟨rfl, hs⟩
  | case4 => cases h
  | case5 c cs hn hrn hr ih =>
    have hc : c ≠ '\n' := fun hc => hn hc
    obtain ⟨hread, hends⟩ := ih (hs.tail hc) h
    refine ⟨?_, hends⟩
    rw [← hread, List.cons_append, lineEnd?.eq_def]
    split <;> simp_all

theorem blockEnd?_local (hs : EndsLine s) {r : List Char} (h : blockEnd? s = some r)
    (x : List Char) : blockEnd? (s ++ x) = some (r ++ x) ∧ EndsLine r := by
  fun_induction blockEnd? s with
  | case1 cs => cases h; exact ⟨rfl, (hs.tail (by decide)).tail (by decide)⟩
  | case2 c cs hmark ih =>
    cases cs with
    | nil => cases h
    | cons d cs =>
      obtain ⟨hread, hends⟩ := ih (hs.of_suffix (List.suffix_cons c _) (by simp)) h
      refine ⟨?_, hends⟩
      rw [← hread, List.cons_append, blockEnd?.eq_def]
      split <;> simp_all
  | case3 => cases h

theorem comment?_local (hs : EndsLine s) {r : List Char} (h : comment? s = some r)
    (x : List Char) : comment? (s ++ x) = some (r ++ x) ∧ EndsLine r := by
  fun_cases comment? s with
  | case1 cs => exact lineEnd?_local (hs.tail (by decide)) h x
  | case2 cs => exact lineEnd?_local ((hs.tail (by decide)).tail (by decide)) h x
  | case3 cs => exact blockEnd?_local ((hs.tail (by decide)).tail (by decide)) h x
  | case4 => simp_all [comment?]

/-- Layout goes on behind the end of a line with the layout that stands there. -/
theorem skip_local_nil (hs : EndsLine s) (h : skip s = []) (x : List Char) :
    skip (s ++ x) = skip x := by
  fun_induction skip s with
  | case1 => cases hs
  | case2 c cs hc ih =>
    rw [List.cons_append, skip_layout hc]
    cases cs with
    | nil => rfl
    | cons d cs => exact ih (hs.of_suffix (List.suffix_cons c _) (by simp)) h
  | case3 c cs hc rest hcomment ih =>
    obtain ⟨hread, hends⟩ := comment?_local hs hcomment x
    rw [List.cons_append] at hread ⊢
    rw [skip_of_comment (by simpa using hc) hread]
    exact ih hends h
  | case4 => cases h

/-- The next token stays the next one. -/
theorem skip_local (hs : EndsLine s) {c : Char} {t : List Char} (h : skip s = c :: t)
    (hhash : c ≠ '#') (hslash : c ≠ '/') (x : List Char) : skip (s ++ x) = c :: (t ++ x) := by
  fun_induction skip s with
  | case1 => cases h
  | case2 d cs hd ih =>
    rw [List.cons_append, skip_layout hd]
    cases cs with
    | nil => simp at h
    | cons e cs => exact ih (hs.of_suffix (List.suffix_cons d _) (by simp)) h
  | case3 d cs hd rest hcomment ih =>
    obtain ⟨hread, hends⟩ := comment?_local hs hcomment x
    rw [List.cons_append] at hread ⊢
    rw [skip_of_comment (by simpa using hd) hread]
    exact ih hends h
  | case4 d cs hd =>
    cases h
    exact skip_token (by simpa using hd) hhash hslash _

/-! ## Names, words and truth values -/

theorem span_local (hs : EndsLine s) {p : Char → Bool} (hp : p '\n' = false) (x : List Char) :
    (s ++ x).span p = ((s.span p).1, (s.span p).2 ++ x) := by
  simp only [List.span_eq_takeWhile_dropWhile, hs.takeWhile_append hp, hs.dropWhile_append hp]

theorem name?_local (hs : EndsLine s) (x : List Char) :
    name? (s ++ x) = (name? s).map fun r => (r.1, r.2 ++ x) := by
  cases s with
  | nil => cases hs
  | cons c cs =>
    rw [List.cons_append, name?, name?]
    split
    · rename_i hc
      have hcs : EndsLine cs := hs.tail (by rintro rfl; exact absurd hc (by decide))
      rw [hcs.takeWhile_append (by decide), hcs.dropWhile_append (by decide)]
      rfl
    · rfl

theorem word?_tail {d c : Char} {w cs : List Char} (hw : '\n' ∉ d :: w) (hs : EndsLine (c :: cs))
    (h : c.toLower = d) : EndsLine cs := by
  refine hs.tail ?_
  rintro rfl
  exact hw (List.mem_cons.mpr (.inl h))

theorem word?_local {w : List Char} (hw : '\n' ∉ w) (hs : EndsLine s) (x : List Char) :
    word? w (s ++ x) = (word? w s).map (· ++ x) := by
  induction w generalizing s with
  | nil => rfl
  | cons d w ih =>
    cases s with
    | nil => cases hs
    | cons c cs =>
      rw [List.cons_append, word?, word?]
      split
      · rename_i h
        exact ih (List.not_mem_of_not_mem_cons hw) (word?_tail hw hs h)
      · rfl

theorem word?_endsLine {w r : List Char} (hw : '\n' ∉ w) (hs : EndsLine s)
    (h : word? w s = some r) : EndsLine r := by
  induction w generalizing s with
  | nil => cases h; exact hs
  | cons d w ih =>
    cases s with
    | nil => cases hs
    | cons c cs =>
      rw [word?] at h
      split at h
      · rename_i hc
        exact ih (List.not_mem_of_not_mem_cons hw) (word?_tail hw hs hc) h
      · cases h

theorem boolean?_local (hs : EndsLine s) (x : List Char) :
    boolean? (s ++ x) = (boolean? s).map fun r => (r.1, r.2 ++ x) := by
  unfold boolean?
  rw [word?_local (by decide) hs, word?_local (by decide) hs]
  cases word? ['t', 'r', 'u', 'e'] s with
  | some r => rfl
  | none => cases word? ['f', 'a', 'l', 's', 'e'] s <;> rfl

/-! ## Numbers -/

theorem signed_local (hs : EndsLine s) (x : List Char) :
    Decimal.signed (s ++ x) = ((Decimal.signed s).1, (Decimal.signed s).2 ++ x) ∧
      EndsLine (Decimal.signed s).2 := by
  cases s with
  | nil => cases hs
  | cons c cs =>
    by_cases hminus : c = '-'
    · subst hminus
      exact ⟨rfl, hs.tail (by decide)⟩
    by_cases hplus : c = '+'
    · subst hplus
      exact ⟨rfl, hs.tail (by decide)⟩
    have hnone (t : List Char) : Decimal.signed (c :: t) = (false, c :: t) := by
      unfold Decimal.signed
      split <;> simp_all
    rw [List.cons_append, hnone, hnone]
    exact ⟨rfl, hs⟩

theorem digits?_local (hs : EndsLine s) (x : List Char) :
    digits? (s ++ x) = (digits? s).map fun r => (r.1, r.2 ++ x) := by
  unfold digits?
  rw [span_local hs (by decide)]
  cases hspan : s.span Char.isDigit with
  | mk ds r => cases ds <;> rfl

theorem digits?_endsLine (hs : EndsLine s) {ds r : List Char} (h : digits? s = some (ds, r)) :
    EndsLine r := by
  unfold digits? at h
  rw [List.span_eq_takeWhile_dropWhile] at h
  split at h
  · cases h
  · rename_i heq
    cases h
    cases heq
    exact hs.dropWhile (by decide)

theorem exponent?_local (hs : EndsLine s) (x : List Char) :
    Decimal.exponent? (s ++ x) = (Decimal.exponent? s).map fun r => (r.1, r.2 ++ x) := by
  cases s with
  | nil => cases hs
  | cons c cs =>
    simp only [List.cons_append, Decimal.exponent?]
    split
    · rename_i hc
      have hcs : EndsLine cs := hs.tail (by rintro rfl; exact absurd hc (by decide))
      obtain ⟨hsigned, hends⟩ := signed_local hcs x
      rw [hsigned]
      simp only [span_local hends (p := Char.isDigit) (by decide)]
      split <;> rfl
    · rfl

theorem optionalExponent_local (hs : EndsLine s) (x : List Char) :
    Decimal.optionalExponent (s ++ x) =
      ((Decimal.optionalExponent s).1, (Decimal.optionalExponent s).2 ++ x) := by
  unfold Decimal.optionalExponent
  rw [exponent?_local hs]
  cases Decimal.exponent? s <;> rfl

/-- Without a point behind its first digits, a float has an exponent there. -/
theorem floatParts?_of_digits {whole rest : List Char} (h : digits? s = some (whole, rest))
    (hrest : ∀ cs, rest ≠ '.' :: cs) :
    floatParts? s =
      (Decimal.exponent? rest).map fun r => (Decimal.digitsValue whole, r.1, r.2) := by
  unfold floatParts?
  split
  · rename_i hd
    rw [h] at hd
    cases hd
    exact absurd rfl (hrest _)
  · rename_i hd
    rw [h] at hd
    cases hd
    rfl
  · rename_i hd
    rw [h] at hd
    cases hd

theorem floatParts?_local (hs : EndsLine s) (x : List Char) :
    floatParts? (s ++ x) = (floatParts? s).map fun r => (r.1, r.2.1, r.2.2 ++ x) := by
  have hlocal := digits?_local hs x
  cases hd : digits? s with
  | some r =>
    obtain ⟨whole, rest⟩ := r
    have hrest := digits?_endsLine hs hd
    rw [hd, Option.map_some] at hlocal
    cases rest with
    | nil => cases hrest
    | cons c cs =>
      by_cases hc : c = '.'
      · subst hc
        have hcs := hrest.tail (by decide)
        have hspan : EndsLine (cs.span Char.isDigit).2 := by
          rw [List.span_eq_takeWhile_dropWhile]
          exact hcs.dropWhile (by decide)
        simp only [floatParts?, hlocal, hd, List.cons_append, Option.map_some,
          span_local hcs (p := Char.isDigit) (by decide), optionalExponent_local hspan]
      · rw [floatParts?_of_digits hlocal (by simp [hc]), floatParts?_of_digits hd (by simp [hc]),
          exponent?_local hrest]
        cases Decimal.exponent? (c :: cs) <;> rfl
  | none =>
    rw [hd, Option.map_none] at hlocal
    cases s with
    | nil => cases hs
    | cons c cs =>
      rw [List.cons_append] at hlocal ⊢
      by_cases hc : c = '.'
      · subst hc
        have hcs := hs.tail (by decide)
        simp only [floatParts?, hlocal, hd, digits?_local hcs]
        cases hf : digits? cs with
        | none => rfl
        | some r =>
          obtain ⟨fraction, rest⟩ := r
          simp only [Option.map_some, optionalExponent_local (digits?_endsLine hcs hf)]
      · simp only [floatParts?, hlocal, hd]
        split <;> simp_all

theorem float?_local (hs : EndsLine s) (x : List Char) :
    float? (s ++ x) = (float? s).map fun r => (r.1, r.2 ++ x) := by
  obtain ⟨hsigned, hends⟩ := signed_local hs x
  simp only [float?, hsigned, floatParts?_local hends]
  cases floatParts? (Decimal.signed s).2 with
  | none => rfl
  | some r =>
    obtain ⟨m, e, rest⟩ := r
    simp only [Option.map_some]
    split <;> rfl

theorem dropSuffix_local (hs : EndsLine s) (x : List Char) :
    dropSuffix (s ++ x) = dropSuffix s ++ x := by
  unfold dropSuffix
  rw [word?_local (by decide) hs, word?_local (by decide) hs]
  cases word? ['l', 'l'] s with
  | some r => rfl
  | none => cases word? ['l'] s <;> rfl

theorem hex?_local (hs : EndsLine s) (x : List Char) :
    hex? (s ++ x) = (hex? s).map fun r => (r.1, r.2 ++ x) := by
  unfold hex?
  rw [word?_local (by decide) hs]
  cases hbody : word? ['0', 'x'] s with
  | none => rfl
  | some body =>
    have hends := word?_endsLine (by decide) hs hbody
    simp only [Option.map_some, hends.takeWhile_append (p := isHexDigit) (by decide),
      hends.dropWhile_append (p := isHexDigit) (by decide),
      dropSuffix_local (hends.dropWhile (p := isHexDigit) (by decide))]
    split <;> rfl

theorem integer?_local (hs : EndsLine s) (x : List Char) :
    integer? (s ++ x) = (integer? s).map fun r => (r.1, r.2 ++ x) := by
  obtain ⟨hsigned, hends⟩ := signed_local hs x
  simp only [integer?, hsigned, digits?_local hends]
  cases hd : digits? (Decimal.signed s).2 with
  | none => rfl
  | some r =>
    obtain ⟨ds, rest⟩ := r
    simp only [Option.map_some, dropSuffix_local (digits?_endsLine hends hd)]
    generalize (if (Decimal.signed s).1 then -(Decimal.digitsValue ds : Int)
      else Decimal.digitsValue ds) = n
    split <;> rfl

/-! ## Strings and scalars -/

/-- A token comes next, and it is no part of a string. -/
def Followed (s : List Char) : Prop := ∃ c t, skip s = c :: t ∧ c ≠ '#' ∧ c ≠ '/' ∧ c ≠ '"'

namespace Followed

variable {r : List Char}

theorem ne_nil (h : Followed s) : s ≠ [] := by
  rintro rfl
  obtain ⟨c, t, hskip, -⟩ := h
  simp at hskip

theorem endsLine (h : Followed r) (hs : EndsLine s) (hr : r <:+ s) : EndsLine r :=
  hs.of_suffix hr h.ne_nil

theorem of_skip {c : Char} {t : List Char} (h : skip s = c :: t)
    (hc : c ∈ [';', ',', ']', ')', '\x7d']) : Followed s := by
  refine ⟨c, t, h, ?_⟩
  simp only [List.mem_cons, List.not_mem_nil, or_false] at hc
  rcases hc with rfl | rfl | rfl | rfl | rfl <;> decide

theorem skip_append (h : Followed s) (hs : EndsLine s) (x : List Char) :
    skip (s ++ x) = skip s ++ x := by
  obtain ⟨c, t, hskip, hhash, hslash, -⟩ := h
  rw [skip_local hs hskip hhash hslash, hskip]
  rfl

theorem endsLine_skip (h : Followed s) (hs : EndsLine s) : EndsLine (skip s) := by
  obtain ⟨c, t, hskip, -⟩ := h
  exact hs.of_suffix (skip_suffix s) (by simp [hskip])

theorem of_terminated (h : Followed (terminated s)) : Followed s := by
  unfold terminated at h
  split at h
  · rename_i hskip
    exact .of_skip hskip (by simp)
  · rename_i hskip
    exact .of_skip hskip (by simp)
  · exact h

theorem skip_close {c : Char} {t : List Char} (h : skip r = c :: t)
    (hc : c ∈ [';', ',', ']', ')', '\x7d']) (hs : EndsLine s) (hr : r <:+ s) (x : List Char) :
    skip (r ++ x) = c :: (t ++ x) := by
  have hr' := of_skip h hc
  rw [hr'.skip_append (hr'.endsLine hs hr), h]
  rfl

theorem noQuote (h : Followed s) (x : List Char) : quoted? (skip s ++ x) = none := by
  obtain ⟨c, t, hskip, -, -, hquote⟩ := h
  rw [hskip, List.cons_append]
  unfold quoted?
  split
  · rename_i heq
    cases heq
    exact absurd rfl hquote
  · rfl

end Followed

theorem fragments_local {text r : List Char} (h : fragments s = (text, '"' :: r)) (x : List Char) :
    fragments (s ++ x) = (text, '"' :: (r ++ x)) := by
  fun_induction fragments s generalizing text with
  | case1 => cases h
  | case2 => cases h; simp [fragments]
  | case3 a b cs hhex more rest heq ih =>
    cases h
    simp [fragments, hhex, ih heq]
  | case4 => cases h
  | case5 c cs _ d hd more rest heq ih =>
    have hc : c ≠ 'x' := by
      rintro rfl
      cases hd
    cases h
    simp [fragments, hc, hd, ih heq]
  | case6 => cases h
  | case7 => cases h
  | case8 c cs hquote _ hslash hlast more rest heq ih =>
    have hc : c ≠ '\\' := by
      rintro rfl
      cases cs with
      | nil => exact hlast rfl rfl
      | cons d cs => exact hslash d cs rfl rfl
    cases h
    rw [List.cons_append, fragments_plain hquote hc, ih heq]

theorem quoted?_local {text r : List Char} (h : quoted? s = some (text, r)) (x : List Char) :
    quoted? (s ++ x) = some (text, r ++ x) := by
  unfold quoted? at h
  split at h
  · split at h
    · rename_i hf
      cases h
      simp [quoted?, fragments_local hf]
    · cases h
  · cases h

theorem quoted?_skip_local (hs : EndsLine s) {text r : List Char}
    (h : quoted? (skip s) = some (text, r)) (x : List Char) :
    quoted? (skip (s ++ x)) = some (text, r ++ x) := by
  cases hskip : skip s with
  | nil => rw [hskip] at h; cases h
  | cons c t =>
    have hc : c = '"' := by
      rw [hskip] at h
      unfold quoted? at h
      split at h
      · rename_i heq
        cases heq
        rfl
      · cases h
    subst hc
    rw [skip_local hs hskip (by decide) (by decide), ← List.cons_append, ← hskip]
    exact quoted?_local h x

theorem moreQuoted_some {text rest : List Char} (h : quoted? (skip s) = some (text, rest)) :
    moreQuoted s = (text ++ (moreQuoted rest).1, (moreQuoted rest).2) := by
  rw [moreQuoted]
  split <;> simp_all

theorem moreQuoted_none (h : quoted? (skip s) = none) : moreQuoted s = ([], s) := by
  rw [moreQuoted]
  split <;> simp_all

theorem moreQuoted_local {s : List Char} (hs : EndsLine s) (h : Followed (moreQuoted s).2) (x : List Char) :
    moreQuoted (s ++ x) = ((moreQuoted s).1, (moreQuoted s).2 ++ x) := by
  cases hq : quoted? (skip s) with
  | none =>
    rw [moreQuoted_none hq] at h ⊢
    rw [moreQuoted_none]
    rw [h.skip_append hs]
    exact h.noQuote x
  | some r =>
    obtain ⟨text, rest⟩ := r
    have hlt := quoted?_length hq
    have hle := skip_length s
    rw [moreQuoted_some hq] at h ⊢
    have hrest : EndsLine rest := by
      refine hs.of_suffix ((quoted?_suffix hq).trans (skip_suffix s)) ?_
      rintro rfl
      exact h.ne_nil (List.suffix_nil.mp (moreQuoted_suffix []))
    rw [moreQuoted_some (quoted?_skip_local hs hq x), moreQuoted_local hrest h]
termination_by s.length

theorem string?_local (hs : EndsLine s) {text r : List Char} (h : string? s = some (text, r))
    (hr : Followed r) (x : List Char) : string? (s ++ x) = some (text, r ++ x) := by
  unfold string? at h
  split at h
  · rename_i first rest hq
    cases h
    have hrest : EndsLine rest := by
      refine hs.of_suffix (quoted?_suffix hq) ?_
      rintro rfl
      exact hr.ne_nil (List.suffix_nil.mp (moreQuoted_suffix []))
    simp only [string?, quoted?_local hq, moreQuoted_local hrest hr]
  · cases h

theorem string?_none {c : Char} (hc : c ≠ '"') (s : List Char) : string? (c :: s) = none := by
  have hq : quoted? (c :: s) = none := by
    unfold quoted?
    split
    · rename_i heq
      cases heq
      exact absurd rfl hc
    · rfl
  rw [string?, hq]

/-- A quotation mark begins no other scalar than a string. -/
theorem scalar?_unquoted {cs : List Char} (h : string? ('"' :: cs) = none) :
    scalar? ('"' :: cs) = none := by
  simp [scalar?, h, boolean?, word?, float?, Decimal.signed, floatParts?, digits?, hex?, integer?]

theorem string?_local_none (hs : EndsLine s) (h : string? s = none) {y : Value × List Char}
    (hscalar : scalar? s = some y) (x : List Char) : string? (s ++ x) = none := by
  cases s with
  | nil => cases hs
  | cons c cs =>
    refine string?_none ?_ _
    rintro rfl
    rw [scalar?_unquoted h] at hscalar
    cases hscalar

theorem scalar?_local (hs : EndsLine s) {v : Value} {r : List Char} (h : scalar? s = some (v, r))
    (hr : Followed r) (x : List Char) : scalar? (s ++ x) = some (v, r ++ x) := by
  have hstring (ht : string? s = none) := string?_local_none hs ht h x
  unfold scalar? at h ⊢
  rw [boolean?_local hs, float?_local hs, hex?_local hs, integer?_local hs]
  cases hb : boolean? s with
  | some b =>
    rw [hb] at h
    cases h
    rfl
  | none =>
    rw [hb] at h
    cases ht : string? s with
    | some t =>
      rw [ht] at h
      cases h
      rw [string?_local hs ht hr]
      rfl
    | none =>
      rw [ht] at h
      rw [hstring ht]
      revert h
      cases float? s with
      | some y => rintro ⟨⟩; rfl
      | none =>
        cases hex? s with
        | some y => rintro ⟨⟩; rfl
        | none =>
          cases integer? s with
          | some y => rintro ⟨⟩; rfl
          | none => rintro ⟨⟩

/-! ## Values -/

theorem scalar?_head {y : Value × List Char} (h : scalar? s = some y) :
    ∃ c t, s = c :: t ∧ c ≠ '#' ∧ c ≠ '/' := by
  cases s with
  | nil => simp [scalar?, boolean?, word?, string?, quoted?, float?, Decimal.signed, floatParts?,
      digits?, hex?, integer?] at h
  | cons c t =>
    by_cases hc : c = '#' ∨ c = '/'
    · rw [scalar?_of_layout (.inr hc)] at h
      cases h
    · exact ⟨c, t, rfl, not_or.mp hc⟩

/-- A value begins with a token. -/
theorem value_head {n : Nat} {v : Value} {r : List Char} (h : value n s = .found v r) :
    ∃ c t, s = c :: t ∧ c ≠ '#' ∧ c ≠ '/' := by
  cases n with
  | zero => cases h
  | succ n =>
    by_cases hbracket : ∀ c ∈ s.head?, c ≠ '\x7b' ∧ c ≠ '[' ∧ c ≠ '('
    · rw [value_scalar hbracket] at h
      cases hv : scalar? s with
      | none =>
        rw [hv] at h
        cases h
      | some y => exact scalar?_head hv
    · cases s with
      | nil => simp at hbracket
      | cons c t =>
        refine ⟨c, t, rfl, ?_, ?_⟩ <;> rintro rfl <;> simp at hbracket

theorem skip_of_value_local {n : Nat} (hs : EndsLine s) {v : Value} {r : List Char}
    (h : value n (skip s) = .found v r) (x : List Char) :
    skip (s ++ x) = skip s ++ x ∧ EndsLine (skip s) := by
  obtain ⟨c, t, hskip, hhash, hslash⟩ := value_head h
  refine ⟨?_, hs.of_suffix (skip_suffix s) (by simp [hskip])⟩
  rw [skip_local hs hskip hhash hslash, hskip]
  rfl

theorem skip_of_scalar_local (hs : EndsLine s) {v : Value} {r : List Char}
    (h : scalar? (skip s) = some (v, r)) (x : List Char) :
    skip (s ++ x) = skip s ++ x ∧ EndsLine (skip s) :=
  skip_of_value_local hs (value_of_scalar? h 0) x

theorem moreScalars_followed {n : Nat} {vs : List Value} {r t : List Char}
    (h : moreScalars n s = (vs, r)) (hr : skip r = ']' :: t) : Followed s := by
  cases n with
  | zero =>
    cases h
    exact .of_skip hr (by simp)
  | succ n =>
    rw [moreScalars] at h
    split at h
    · rename_i hcomma
      exact .of_skip hcomma (by simp)
    · cases h
      exact .of_skip hr (by simp)

theorem moreScalars_local {n : Nat} (hs : EndsLine s) {vs : List Value} {r t : List Char}
    (h : moreScalars n s = (vs, r)) (hr : skip r = ']' :: t) (x : List Char) :
    moreScalars n (s ++ x) = (vs, r ++ x) := by
  induction n generalizing s vs with
  | zero =>
    cases h
    rfl
  | succ n ih =>
    rw [moreScalars] at h
    split at h
    · rename_i cs hcomma
      have hcs := hs.of_skip hcomma (by decide)
      split at h
      · rename_i v rest hv
        obtain ⟨hskip, hends⟩ := skip_of_scalar_local hcs hv x
        cases hmore : moreScalars n rest with
        | mk more r' =>
          rw [hmore] at h
          cases h
          have hrest := moreScalars_followed hmore hr
          have hsuffix := (scalar?_suffix hv).trans (skip_suffix cs)
          rw [moreScalars, skip_local hs hcomma (by decide) (by decide)]
          simp only [hskip, scalar?_local hends hv hrest x,
            ih (hrest.endsLine hcs hsuffix) hmore]
      · cases h
        rw [hr] at hcomma
        cases hcomma
    · cases h
      rw [moreScalars, skip_local hs hr (by decide) (by decide)]
      rfl

theorem scalars_local {n : Nat} (hs : EndsLine s) {vs : List Value} {r t : List Char}
    (h : scalars n s = (vs, r)) (hr : skip r = ']' :: t) (x : List Char) :
    scalars n (s ++ x) = (vs, r ++ x) := by
  rw [scalars] at h
  split at h
  · rename_i v rest hv
    obtain ⟨hskip, hends⟩ := skip_of_scalar_local hs hv x
    cases hmore : moreScalars n rest with
    | mk more r' =>
      rw [hmore] at h
      cases h
      have hrest := moreScalars_followed hmore hr
      have hsuffix := (scalar?_suffix hv).trans (skip_suffix s)
      simp only [scalars, hskip, scalar?_local hends hv hrest x,
        moreScalars_local (hrest.endsLine hs hsuffix) hmore hr]
  · cases h
    rw [scalars, skip_local hs hr (by decide) (by decide), Writer.scalar?_of_close (.inl rfl)]

theorem terminated_local (hs : EndsLine s) (h : Followed s) (x : List Char) :
    terminated (s ++ x) = terminated s ++ x := by
  unfold terminated
  rw [h.skip_append hs]
  obtain ⟨c, t, hskip, -⟩ := h
  rw [hskip, List.cons_append]
  split
  · rename_i heq
    cases heq
    rfl
  · rename_i heq
    cases heq
    rfl
  · rename_i hsemicolon hcomma
    split
    · rename_i heq
      cases heq
      exact absurd rfl (hsemicolon _)
    · rename_i heq
      cases heq
      exact absurd rfl (hcomma _)
    · rfl

theorem assignment_followed {n : Nat} {f : String × Value} {r : List Char}
    (h : assignment n s = .found f r) : Followed s := by
  obtain ⟨m, name, q, c, cs, -, hname, -⟩ := assignment_found h
  cases hskip : skip s with
  | nil =>
    rw [hskip] at hname
    cases hname
  | cons d t =>
    rw [hskip, name?] at hname
    split at hname
    · rename_i hd
      obtain ⟨-, hhash, hslash⟩ := isNameStart_cases hd
      refine ⟨d, t, hskip, hhash, hslash, ?_⟩
      rintro rfl
      exact absurd hd (by decide)
    · cases hname

theorem moreItems_followed {n : Nat} {vs : List Value} {r t : List Char}
    (h : moreItems n s = .found vs r) (hr : skip r = ')' :: t) : Followed s := by
  cases n with
  | zero => cases h
  | succ n =>
    rw [moreItems] at h
    split at h
    · rename_i hcomma
      exact .of_skip hcomma (by simp)
    · cases h
      exact .of_skip hr (by simp)

theorem settings_followed {n : Nat} {before g : Group} {r t : List Char}
    (h : settings n s before = .found g r) (hr : skip r = '\x7d' :: t) : Followed s := by
  cases n with
  | zero => cases h
  | succ n =>
    rw [settings] at h
    split at h
    · rename_i hread
      obtain ⟨r', ha, -⟩ := setting_found hread
      exact assignment_followed ha
    · cases h
      exact .of_skip hr (by simp)
    · cases h

/-- Within `n` steps, what has been read in front of a token is read in the same way if the text goes
on. A list and a group are read up to what closes them. -/
structure Local (n : Nat) (x : List Char) : Prop where
  value {s r : List Char} {v : Value} (hs : EndsLine s) (h : value n s = .found v r)
    (hr : Followed r) : value n (s ++ x) = .found v (r ++ x)
  items {s r t : List Char} {vs : List Value} (hs : EndsLine s) (h : items n s = .found vs r)
    (hr : skip r = ')' :: t) : items n (s ++ x) = .found vs (r ++ x)
  moreItems {s r t : List Char} {vs : List Value} (hs : EndsLine s)
    (h : moreItems n s = .found vs r) (hr : skip r = ')' :: t) :
    moreItems n (s ++ x) = .found vs (r ++ x)
  assignment {s r : List Char} {f : String × Value} (hs : EndsLine s)
    (h : assignment n s = .found f r) (hr : Followed r) :
    assignment n (s ++ x) = .found f (r ++ x)
  settings {s r t : List Char} {before g : Group} (hs : EndsLine s)
    (h : settings n s before = .found g r) (hr : skip r = '\x7d' :: t) :
    settings n (s ++ x) before = .found g (r ++ x)

namespace Local

variable {n : Nat} {x r t : List Char}

theorem value_succ (hn : Local n x) {v : Value} (hs : EndsLine s)
    (h : Reader.value (n + 1) s = .found v r) (hr : Followed r) :
    Reader.value (n + 1) (s ++ x) = .found v (r ++ x) := by
  cases s with
  | nil => cases hs
  | cons c cs =>
    by_cases hbrace : c = '\x7b'
    · subst hbrace
      have hcs := hs.tail (by decide)
      rw [Reader.value] at h
      split at h
      · rename_i fields rest hread
        split at h
        · rename_i hclose
          cases h
          exact value_group (hn.settings hcs hread hclose)
            (Followed.skip_close hclose (by simp) hcs (settings_suffix hread) x)
        · cases h
      · cases h
      · cases h
    by_cases hbracket : c = '['
    · subst hbracket
      have hcs := hs.tail (by decide)
      rw [Reader.value] at h
      cases hread : scalars n cs with
      | mk vs rest =>
        simp only [hread] at h
        split at h
        · rename_i hclose
          cases h
          have hsuffix := scalars_suffix n cs
          rw [hread] at hsuffix
          exact value_array (scalars_local hcs hread hclose x)
            (Followed.skip_close hclose (by simp) hcs hsuffix x)
        · cases h
    by_cases hparen : c = '('
    · subst hparen
      have hcs := hs.tail (by decide)
      rw [Reader.value] at h
      split at h
      · rename_i vs rest hread
        split at h
        · rename_i hclose
          cases h
          exact value_list (hn.items hcs hread hclose)
            (Followed.skip_close hclose (by simp) hcs (items_suffix hread) x)
        · cases h
      · cases h
      · cases h
    rw [value_scalar (by simp [*])] at h
    cases hv : scalar? (c :: cs) with
    | none =>
      rw [hv] at h
      cases h
    | some y =>
      rw [hv] at h
      cases h
      exact value_of_scalar? (scalar?_local hs hv hr x) n

/-- A closing parenthesis begins no value. -/
theorem value_paren (n : Nat) (t : List Char) : Reader.value n (')' :: t) = .missed (')' :: t) := by
  cases n with
  | zero => rfl
  | succ n => rw [value_scalar (by simp), Writer.scalar?_of_close (.inr rfl)]

theorem items_succ (hn : Local n x) {vs : List Value} (hs : EndsLine s)
    (h : Reader.items (n + 1) s = .found vs r) (hr : skip r = ')' :: t) :
    Reader.items (n + 1) (s ++ x) = .found vs (r ++ x) := by
  rw [Reader.items] at h
  split at h
  · rename_i v rest hv
    obtain ⟨hskip, hends⟩ := skip_of_value_local hs hv x
    split at h
    · rename_i more r' hmore
      cases h
      have hrest := moreItems_followed hmore hr
      have hsuffix := (value_suffix hv).trans (skip_suffix s)
      rw [Reader.items, hskip, hn.value hends hv hrest]
      simp only [hn.moreItems (hrest.endsLine hs hsuffix) hmore hr]
    · cases h
    · cases h
  · cases h
    rw [Reader.items, skip_local hs hr (by decide) (by decide), value_paren]
  · cases h

theorem moreItems_succ (hn : Local n x) {vs : List Value} (hs : EndsLine s)
    (h : Reader.moreItems (n + 1) s = .found vs r) (hr : skip r = ')' :: t) :
    Reader.moreItems (n + 1) (s ++ x) = .found vs (r ++ x) := by
  rw [Reader.moreItems] at h
  split at h
  · rename_i cs hcomma
    have hcs := hs.of_skip hcomma (by decide)
    split at h
    · rename_i v rest hv
      obtain ⟨hskip, hends⟩ := skip_of_value_local hcs hv x
      split at h
      · rename_i more r' hmore
        cases h
        have hrest := moreItems_followed hmore hr
        have hsuffix := (value_suffix hv).trans (skip_suffix cs)
        rw [Reader.moreItems, skip_local hs hcomma (by decide) (by decide)]
        simp only [hskip, hn.value hends hv hrest,
          hn.moreItems (hrest.endsLine hcs hsuffix) hmore hr]
      · cases h
      · cases h
    · cases h
      rw [hr] at hcomma
      cases hcomma
    · cases h
  · cases h
    rw [Reader.moreItems, skip_local hs hr (by decide) (by decide)]
    rfl

theorem assignment_succ (hn : Local n x) {f : String × Value} (hs : EndsLine s)
    (h : Reader.assignment (n + 1) s = .found f r) (hr : Followed r) :
    Reader.assignment (n + 1) (s ++ x) = .found f (r ++ x) := by
  have hskip := (assignment_followed h).skip_append hs x
  obtain ⟨m, name, q, c, cs, hm, hname, hsign, hc, hv, hkey⟩ := assignment_found h
  obtain rfl : n = m := Nat.succ.inj hm
  have hhead := (assignment_followed h).endsLine_skip hs
  have hq : EndsLine q := by
    refine hhead.of_suffix (name?_suffix hname).1 ?_
    rintro rfl
    simp at hsign
  have hsign' : skip (q ++ x) = c :: (cs ++ x) := by
    refine skip_local hq hsign ?_ ?_ x <;> rintro rfl <;> simp at hc
  have hcs : EndsLine cs := by
    refine hq.of_skip hsign ?_
    rintro rfl
    simp at hc
  obtain ⟨hvalue, hends⟩ := skip_of_value_local hcs hv x
  rw [Reader.assignment, hskip, name?_local hhead, hname]
  simp only [Option.map_some, hsign', hc, if_true, hvalue, hn.value hends hv hr, ← hkey]

theorem setting_brace (n : Nat) (h : skip s = '\x7d' :: t) :
    ∃ rest, Reader.setting n s = .missed rest := by
  cases n with
  | zero => exact ⟨s, rfl⟩
  | succ n =>
    refine ⟨'\x7d' :: t, ?_⟩
    rw [Reader.setting, h]
    rfl

theorem settings_succ (hn : Local n x) {before g : Group} (hs : EndsLine s)
    (h : Reader.settings (n + 1) s before = .found g r) (hr : skip r = '\x7d' :: t) :
    Reader.settings (n + 1) (s ++ x) before = .found g (r ++ x) := by
  rw [Reader.settings] at h ⊢
  split at h
  · rename_i name v rest hread
    obtain ⟨behind, ha, rfl⟩ := setting_found hread
    have hnext := settings_followed h hr
    have hfollowed := hnext.of_terminated
    have hbehind := hfollowed.endsLine hs (assignment_suffix ha).1
    rw [setting_eq, hn.assignment hs ha hfollowed]
    simp only [terminated_local hbehind hfollowed]
    exact hn.settings (hnext.endsLine hbehind (terminated_suffix behind)) h hr
  · cases h
    obtain ⟨rest, hmissed⟩ := setting_brace n (skip_local hs hr (by decide) (by decide) x)
    rw [hmissed]
  · cases h

end Local

/-- What has been read in front of the end of a line does not depend on what stands behind it. -/
theorem isLocal (n : Nat) (x : List Char) : Local n x := by
  induction n with
  | zero =>
    constructor
    · exact fun hs h hr => by cases h
    · exact fun hs h hr => by cases h
    · exact fun hs h hr => by cases h
    · exact fun hs h hr => by cases h
    · exact fun hs h hr => by cases h
  | succ n hn =>
    exact ⟨hn.value_succ, hn.items_succ, hn.moreItems_succ, hn.assignment_succ, hn.settings_succ⟩

end Reader

end Saturation.Settings
