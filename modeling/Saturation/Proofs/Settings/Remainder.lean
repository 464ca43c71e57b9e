import Saturation.Proofs.Settings.RoundTrip

/-!
What is left. Each reader leaves an end of its text, and so an error is located within the text. The
readers that count their steps give the same result with any number of steps from twice the length of
the text on.
-/

set_option autoImplicit false

namespace Saturation.Settings

/-- Where the reading of a piece stopped. -/
def Reading.rest {α : Type} : Reading α → List Char
  | found _ rest => rest
  | missed rest => rest
  | broken rest => rest

namespace Reader

/-! ## Layout and words -/

theorem lineEnd?_suffix {s r : List Char} (h : lineEnd? s = some r) : r <:+ s := by
  fun_induction lineEnd? s with
  | case1 => cases h; exact List.suffix_refl _
  | case2 => cases h; exact List.suffix_refl _
  | case3 => cases h; exact List.suffix_refl _
  | case4 => cases h
  | case5 c cs _ _ _ ih => exact (ih h).trans (List.suffix_cons c cs)

theorem blockEnd?_suffix {s r : List Char} (h : blockEnd? s = some r) : r <:+ s := by
  fun_induction blockEnd? s with
  | case1 cs => cases h; exact (List.suffix_cons _ _).trans (List.suffix_cons _ _)
  | case2 c cs _ ih => exact (ih h).trans (List.suffix_cons c cs)
  | case3 => cases h

theorem comment?_suffix {s r : List Char} (h : comment? s = some r) : r <:+ s := by
  fun_cases comment? s with
  | case1 cs => exact (lineEnd?_suffix h).trans (List.suffix_cons _ _)
  | case2 cs =>
    exact (lineEnd?_suffix h).trans ((List.suffix_cons _ _).trans (List.suffix_cons _ _))
  | case3 cs =>
    exact (blockEnd?_suffix h).trans ((List.suffix_cons _ _).trans (List.suffix_cons _ _))
  | case4 => simp_all [comment?]

theorem skip_suffix (s : List Char) : skip s <:+ s := by
  fun_induction skip s with
  | case1 => exact List.suffix_refl _
  | case2 c cs _ ih => exact ih.trans (List.suffix_cons c cs)
  | case3 c cs _ rest h ih => exact ih.trans (comment?_suffix h)
  | case4 => exact List.suffix_refl _

theorem suffix_of_skip {s r : List Char} {c : Char} (h : skip s = c :: r) : r <:+ s :=
  (List.suffix_cons c r).trans (h ▸ skip_suffix s)

/-- Behind the token that closes a part, what is left is an end of the text around the part. -/
theorem suffix_behind {cs r t : List Char} {c d : Char} (hr : r <:+ cs) (h : skip r = c :: t) :
    t <:+ d :: cs := (suffix_of_skip h).trans (hr.trans (List.suffix_cons d cs))

theorem name?_suffix {s name r : List Char} (h : name? s = some (name, r)) :
    r <:+ s ∧ r.length < s.length := by
  cases s with
  | nil => cases h
  | cons c cs =>
    rw [name?] at h
    split at h
    · cases h
      have hsuffix := List.dropWhile_suffix (l := cs) isNameChar
      exact ⟨hsuffix.trans (List.suffix_cons c cs), Nat.lt_succ_of_le hsuffix.length_le⟩
    · cases h

theorem word?_suffix {w s r : List Char} (h : word? w s = some r) : r <:+ s := by
  induction w generalizing s with
  | nil => cases h; exact List.suffix_refl _
  | cons d w ih =>
    cases s with
    | nil => cases h
    | cons c cs =>
      rw [word?] at h
      split at h
      · exact (ih h).trans (List.suffix_cons c cs)
      · cases h

/-! ## Strings -/

theorem fragments_suffix (s : List Char) : (fragments s).2 <:+ s := by
  fun_induction fragments s with
  | case1 => exact List.suffix_refl _
  | case2 => exact List.suffix_refl _
  | case3 a b cs _ text rest h ih =>
    rw [h] at ih
    exact ih.trans ⟨['\\', 'x', a, b], rfl⟩
  | case4 => exact List.suffix_refl _
  | case5 c cs _ d hd text rest h ih =>
    rw [h] at ih
    exact ih.trans ⟨['\\', c], rfl⟩
  | case6 => exact List.suffix_refl _
  | case7 => exact List.suffix_refl _
  | case8 c cs _ _ _ _ text rest h ih =>
    rw [h] at ih
    exact ih.trans (List.suffix_cons c cs)

theorem quoted?_suffix {s text r : List Char} (h : quoted? s = some (text, r)) : r <:+ s := by
  unfold quoted? at h
  split at h
  · rename_i cs
    have hsuffix := fragments_suffix cs
    split at h
    · rename_i hf
      cases h
      rw [hf] at hsuffix
      exact (List.suffix_cons _ _).trans (hsuffix.trans (List.suffix_cons _ _))
    · cases h
  · cases h

theorem moreQuoted_suffix (s : List Char) : (moreQuoted s).2 <:+ s := by
  fun_induction moreQuoted s with
  | case1 s text rest h more rest' hmore ih =>
    rw [hmore] at ih
    exact ih.trans ((quoted?_suffix h).trans (skip_suffix s))
  | case2 => exact List.suffix_refl _

theorem string?_suffix {s text r : List Char} (h : string? s = some (text, r)) : r <:+ s := by
  unfold string? at h
  split at h
  · rename_i rest hq
    cases h
    exact (moreQuoted_suffix rest).trans (quoted?_suffix hq)
  · cases h

/-! ## Numbers and truth values -/

theorem boolean?_suffix {s r : List Char} {b : Bool} (h : boolean? s = some (b, r)) : r <:+ s := by
  unfold boolean? at h
  split at h
  · rename_i hw
    cases h
    exact word?_suffix hw
  · obtain ⟨rest, hw, heq⟩ := Option.map_eq_some_iff.mp h
    cases heq
    exact word?_suffix hw

theorem signed_suffix (s : List Char) : (Decimal.signed s).2 <:+ s := by
  unfold Decimal.signed
  split
  · exact List.suffix_cons _ _
  · exact List.suffix_cons _ _
  · exact List.suffix_refl _

theorem span_suffix (p : Char → Bool) (s : List Char) : (s.span p).2 <:+ s := by
  rw [List.span_eq_takeWhile_dropWhile]
  exact List.dropWhile_suffix p

theorem digits?_suffix {s ds r : List Char} (h : digits? s = some (ds, r)) : r <:+ s := by
  have hspan := span_suffix Char.isDigit s
  unfold digits? at h
  split at h
  · cases h
  · rename_i hs
    cases h
    rwa [hs] at hspan

theorem exponent?_suffix {s r : List Char} {e : Int} (h : Decimal.exponent? s = some (e, r)) :
    r <:+ s := by
  cases s with
  | nil => cases h
  | cons c cs =>
    simp only [Decimal.exponent?] at h
    split at h
    · split at h
      · cases h
      · cases h
        exact (span_suffix _ _).trans ((signed_suffix cs).trans (List.suffix_cons c cs))
    · cases h

theorem optionalExponent_suffix (s : List Char) : (Decimal.optionalExponent s).2 <:+ s := by
  unfold Decimal.optionalExponent
  cases h : Decimal.exponent? s with
  | none => exact List.suffix_refl _
  | some r => exact exponent?_suffix h

theorem floatParts?_suffix {s r : List Char} {m : Nat} {e : Int}
    (h : floatParts? s = some (m, e, r)) : r <:+ s := by
  unfold floatParts? at h
  split at h
  · rename_i whole rest hd
    cases h
    exact (optionalExponent_suffix _).trans ((span_suffix _ _).trans
      ((List.suffix_cons _ _).trans (digits?_suffix hd)))
  · rename_i hd
    obtain ⟨x, hx, heq⟩ := Option.map_eq_some_iff.mp h
    cases heq
    exact (exponent?_suffix hx).trans (digits?_suffix hd)
  · split at h
    · split at h
      · rename_i hd
        cases h
        exact (optionalExponent_suffix _).trans ((digits?_suffix hd).trans (List.suffix_cons _ _))
      · cases h
    · cases h

theorem float?_suffix {s r : List Char} {x : Float} (h : float? s = some (x, r)) : r <:+ s := by
  simp only [float?] at h
  split at h
  · rename_i hp
    split at h
    · cases h
      exact (floatParts?_suffix hp).trans (signed_suffix s)
    · cases h
  · cases h

theorem dropSuffix_suffix (s : List Char) : dropSuffix s <:+ s := by
  unfold dropSuffix
  cases hll : word? ['l', 'l'] s with
  | some r => exact word?_suffix hll
  | none =>
    cases hl : word? ['l'] s with
    | some r => exact word?_suffix hl
    | none => exact List.suffix_refl _

theorem hex?_suffix {s r : List Char} {n : Int} (h : hex? s = some (n, r)) : r <:+ s := by
  unfold hex? at h
  split at h
  · rename_i body hbody
    simp only [] at h
    split at h
    · cases h
      exact (dropSuffix_suffix _).trans ((List.dropWhile_suffix _).trans (word?_suffix hbody))
    · cases h
  · cases h

theorem integer?_suffix {s r : List Char} {n : Int} (h : integer? s = some (n, r)) : r <:+ s := by
  simp only [integer?] at h
  split at h
  · rename_i hd
    obtain ⟨-, heq⟩ := Option.ite_none_right_eq_some.mp h
    cases heq
    exact (dropSuffix_suffix _).trans ((digits?_suffix hd).trans (signed_suffix s))
  · cases h

theorem scalar?_suffix {s r : List Char} {v : Value} (h : scalar? s = some (v, r)) : r <:+ s := by
  unfold scalar? at h
  split at h
  · rename_i hb
    cases h
    exact boolean?_suffix hb
  split at h
  · rename_i hs
    cases h
    exact string?_suffix hs
  split at h
  · rename_i hx
    cases h
    exact float?_suffix hx
  split at h
  · rename_i hn
    cases h
    exact hex?_suffix hn
  split at h
  · rename_i hn
    cases h
    exact integer?_suffix hn
  · cases h

/-! ## Values and settings -/

theorem moreScalars_suffix (n : Nat) : ∀ s : List Char, (moreScalars n s).2 <:+ s := by
  induction n with
  | zero => exact fun s => List.suffix_refl _
  | succ n ih =>
    intro s
    unfold moreScalars
    split
    · rename_i cs hcs
      split
      · rename_i v rest hv
        exact (ih rest).trans ((scalar?_suffix hv).trans ((skip_suffix cs).trans (suffix_of_skip hcs)))
      · exact List.suffix_refl _
    · exact List.suffix_refl _

theorem scalars_suffix (n : Nat) (s : List Char) : (scalars n s).2 <:+ s := by
  unfold scalars
  split
  · rename_i v rest hv
    exact (moreScalars_suffix n rest).trans ((scalar?_suffix hv).trans (skip_suffix s))
  · exact List.suffix_refl _

theorem terminated_suffix (s : List Char) : terminated s <:+ s := by
  unfold terminated
  split
  · rename_i h
    exact suffix_of_skip h
  · rename_i h
    exact suffix_of_skip h
  · exact List.suffix_refl _

/-- A setting without its terminator. -/
def assignment (n : Nat) (s : List Char) : Reading (String × Value) :=
  match n with
  | 0 => .missed s
  | n + 1 =>
    match name? (skip s) with
    | some (name, rest) =>
      match skip rest with
      | c :: cs =>
        if c = '=' ∨ c = ':' then
          match value n (skip cs) with
          | .found v rest => .found (String.ofList name, v) rest
          | .missed at' => .broken at'
          | .broken at' => .broken at'
        else .broken (c :: cs)
      | [] => .broken []
    | none => .missed (skip s)

theorem setting_eq (n : Nat) (s : List Char) : setting n s = match assignment n s with
    | .found f rest => .found f (terminated rest)
    | .missed rest => .missed rest
    | .broken rest => .broken rest := by
  cases n with
  | zero => rfl
  | succ n =>
    rw [setting, assignment]
    cases name? (skip s) with
    | none => rfl
    | some x =>
      obtain ⟨name, rest⟩ := x
      simp only []
      cases skip rest with
      | nil => rfl
      | cons c cs =>
        simp only []
        split
        · cases value n (skip cs) <;> rfl
        · rfl

/-- What an assignment takes: a name, a sign and a value. -/
theorem assignment_found {n : Nat} {s rest : List Char} {f : String × Value}
    (h : assignment n s = .found f rest) : ∃ m name r c cs, n = m + 1 ∧
      name? (skip s) = some (name, r) ∧ skip r = c :: cs ∧ (c = '=' ∨ c = ':') ∧
      value m (skip cs) = .found f.2 rest ∧ f.1 = String.ofList name := by
  cases n with
  | zero => cases h
  | succ n =>
    rw [assignment] at h
    split at h
    · rename_i name r hname
      split at h
      · rename_i c cs hsign
        split at h
        · rename_i hc
          split at h
          · rename_i hv
            cases h
            exact ⟨n, name, r, c, cs, rfl, hname, hsign, hc, hv, rfl⟩
          · cases h
          · cases h
        · cases h
      · cases h
    · cases h

theorem setting_found {n : Nat} {s t : List Char} {f : String × Value}
    (h : setting n s = .found f t) : ∃ rest, assignment n s = .found f rest ∧ t = terminated rest := by
  rw [setting_eq] at h
  cases ha : assignment n s with
  | found g rest =>
    rw [ha] at h
    cases h
    exact ⟨rest, rfl, rfl⟩
  | missed rest =>
    rw [ha] at h
    cases h
  | broken rest =>
    rw [ha] at h
    cases h

/-- Within `n` steps, the reading stops within the text. -/
structure Inside (n : Nat) : Prop where
  value (s : List Char) : (value n s).rest <:+ s
  items (s : List Char) : (items n s).rest <:+ s
  moreItems (s : List Char) : (moreItems n s).rest <:+ s
  setting (s : List Char) : (setting n s).rest <:+ s
  settings (s : List Char) (before : Group) : (settings n s before).rest <:+ s

namespace Inside

variable {n : Nat}

theorem value_succ (hn : Inside n) (s : List Char) : (Reader.value (n + 1) s).rest <:+ s := by
  unfold Reader.value
  split
  case h_1 h0 => cases h0
  case h_2 m cs h0 =>
    cases h0
    have hin := hn.settings cs []
    split
    · rename_i hread
      rw [hread] at hin
      split
      · rename_i hbrace
        exact suffix_behind hin hbrace
      · exact List.suffix_refl _
    · exact List.suffix_refl _
    · rename_i hread
      rw [hread] at hin
      exact hin.trans (List.suffix_cons _ _)
  case h_3 m cs h0 =>
    cases h0
    have hin := scalars_suffix n cs
    simp only []
    split
    · rename_i hbracket
      exact suffix_behind hin hbracket
    · exact List.suffix_refl _
  case h_4 m cs h0 =>
    cases h0
    have hin := hn.items cs
    split
    · rename_i hread
      rw [hread] at hin
      split
      · rename_i hparen
        exact suffix_behind hin hparen
      · exact List.suffix_refl _
    · exact List.suffix_refl _
    · rename_i hread
      rw [hread] at hin
      exact hin.trans (List.suffix_cons _ _)
  case h_5 =>
    split
    · rename_i hv
      exact scalar?_suffix hv
    · exact List.suffix_refl _

theorem items_succ (hn : Inside n) (s : List Char) : (Reader.items (n + 1) s).rest <:+ s := by
  unfold Reader.items
  have hvalue := (hn.value (skip s)).trans (skip_suffix s)
  split
  · rename_i v rest hv
    rw [hv] at hvalue
    have hmore := (hn.moreItems rest).trans hvalue
    split <;> rename_i hread <;> rw [hread] at hmore <;> exact hmore
  · exact List.suffix_refl _
  · rename_i hv
    rw [hv] at hvalue
    exact hvalue

theorem moreItems_succ (hn : Inside n) (s : List Char) : (Reader.moreItems (n + 1) s).rest <:+ s := by
  unfold Reader.moreItems
  split
  · rename_i cs hcs
    have hvalue := (hn.value (skip cs)).trans ((skip_suffix cs).trans (suffix_of_skip hcs))
    split
    · rename_i v rest hv
      rw [hv] at hvalue
      have hmore := (hn.moreItems rest).trans hvalue
      split <;> rename_i hread <;> rw [hread] at hmore <;> exact hmore
    · exact List.suffix_refl _
    · rename_i hv
      rw [hv] at hvalue
      exact hvalue
  · exact List.suffix_refl _

theorem setting_succ (hn : Inside n) (s : List Char) : (Reader.setting (n + 1) s).rest <:+ s := by
  unfold Reader.setting
  split
  · rename_i name rest hname
    have hrest := (name?_suffix hname).1.trans (skip_suffix s)
    split
    · rename_i c cs hsign
      have hvalue := (hn.value (skip cs)).trans ((skip_suffix cs).trans
        ((suffix_of_skip hsign).trans hrest))
      split
      · split <;> rename_i hv <;> rw [hv] at hvalue
        · exact (terminated_suffix _).trans hvalue
        · exact hvalue
        · exact hvalue
      · exact hsign ▸ (skip_suffix rest).trans hrest
    · exact List.nil_suffix
  · exact skip_suffix s

theorem settings_succ (hn : Inside n) (s : List Char) (before : Group) :
    (Reader.settings (n + 1) s before).rest <:+ s := by
  unfold Reader.settings
  have hsetting := hn.setting s
  split
  · rename_i name v rest hread
    rw [hread] at hsetting
    exact (hn.settings rest _).trans hsetting
  · exact List.suffix_refl _
  · rename_i hread
    rw [hread] at hsetting
    exact hsetting

end Inside

theorem inside (n : Nat) : Inside n := by
  induction n with
  | zero =>
    constructor
    · exact fun s => List.suffix_refl _
    · exact fun s => List.suffix_refl _
    · exact fun s => List.suffix_refl _
    · exact fun s => List.suffix_refl _
    · exact fun s before => List.suffix_refl _
  | succ n hn =>
    exact ⟨hn.value_succ, hn.items_succ, hn.moreItems_succ, hn.setting_succ, hn.settings_succ⟩

theorem value_suffix {n : Nat} {s rest : List Char} {v : Value} (h : value n s = .found v rest) :
    rest <:+ s := by
  have hs := (inside n).value s
  rwa [h] at hs

theorem items_suffix {n : Nat} {s rest : List Char} {vs : List Value}
    (h : items n s = .found vs rest) : rest <:+ s := by
  have hs := (inside n).items s
  rwa [h] at hs

theorem settings_suffix {n : Nat} {s rest : List Char} {before g : Group}
    (h : settings n s before = .found g rest) : rest <:+ s := by
  have hs := (inside n).settings s before
  rwa [h] at hs

theorem assignment_suffix {n : Nat} {s rest : List Char} {f : String × Value}
    (h : assignment n s = .found f rest) : rest <:+ s ∧ rest.length < s.length := by
  obtain ⟨m, name, r, c, cs, -, hname, hsign, -, hv, -⟩ := assignment_found h
  obtain ⟨hr, hlt⟩ := name?_suffix hname
  have hrest := (value_suffix hv).trans ((skip_suffix cs).trans (suffix_of_skip hsign))
  exact ⟨hrest.trans (hr.trans (skip_suffix s)),
    Nat.lt_of_le_of_lt hrest.length_le (Nat.lt_of_lt_of_le hlt (skip_suffix s).length_le)⟩

theorem setting_length {n : Nat} {s rest : List Char} {f : String × Value}
    (h : setting n s = .found f rest) : rest.length < s.length := by
  obtain ⟨r, ha, rfl⟩ := setting_found h
  exact Nat.lt_of_le_of_lt (terminated_suffix r).length_le (assignment_suffix ha).2

/-- The first error in a document is within the document. -/
theorem document_suffix {s rest : List Char} (h : document s = .error rest) : rest <:+ s := by
  have hsettings := (inside (2 * s.length + 2)).settings s []
  unfold document at h
  split at h <;> rename_i hread <;> rw [hread] at hsettings
  · split at h
    · cases h
    · cases h
      exact (skip_suffix _).trans hsettings
  · cases h
    exact hsettings
  · cases h
    exact hsettings

/-! ## Steps -/

theorem moreScalars_steady (n : Nat) : ∀ {s : List Char}, s.length ≤ n →
    moreScalars (n + 1) s = moreScalars n s := by
  induction n with
  | zero =>
    intro s hs
    rw [List.length_eq_zero_iff.mp (Nat.le_zero.mp hs)]
    simp [moreScalars]
  | succ n ih =>
    intro s hs
    rw [moreScalars, moreScalars]
    split
    · rename_i cs hcs
      have hlength := (suffix_of_skip hcs).length_le
      cases hv : scalar? (skip cs) with
      | none => rfl
      | some x =>
        obtain ⟨v, rest⟩ := x
        have hrest := ((scalar?_suffix hv).trans (skip_suffix cs)).length_le
        have hskip := (skip_suffix s).length_le
        rw [hcs, List.length_cons] at hskip
        simp only [ih (show rest.length ≤ n by omega)]
    · rfl

theorem scalars_steady {n : Nat} {s : List Char} (hs : s.length ≤ n) :
    scalars (n + 1) s = scalars n s := by
  unfold scalars
  cases hv : scalar? (skip s) with
  | none => rfl
  | some x =>
    obtain ⟨v, rest⟩ := x
    have hrest := ((scalar?_suffix hv).trans (skip_suffix s)).length_le
    simp only [moreScalars_steady n (hrest.trans hs)]

/-- One step more than `n` changes nothing, if `n` is enough for the text. -/
structure Steady (n : Nat) : Prop where
  value {s : List Char} (h : 2 * s.length + 1 ≤ n) : value (n + 1) s = value n s
  items {s : List Char} (h : 2 * s.length + 2 ≤ n) : items (n + 1) s = items n s
  moreItems {s : List Char} (h : 2 * s.length + 1 ≤ n) : moreItems (n + 1) s = moreItems n s
  assignment {s : List Char} (h : 2 * s.length + 1 ≤ n) : assignment (n + 1) s = assignment n s
  settings {s : List Char} (before : Group) (h : 2 * s.length + 2 ≤ n) :
    settings (n + 1) s before = settings n s before

namespace Steady

variable {n : Nat} {s : List Char}

theorem value_succ (hn : Steady n) (h : 2 * s.length + 1 ≤ n + 1) :
    Reader.value (n + 2) s = Reader.value (n + 1) s := by
  cases s with
  | nil => rfl
  | cons c cs =>
    rw [List.length_cons] at h
    by_cases hbrace : c = '\x7b'
    · subst hbrace
      rw [Reader.value, Reader.value, hn.settings [] (by omega)]
    by_cases hbracket : c = '['
    · subst hbracket
      rw [Reader.value, Reader.value, scalars_steady (by omega)]
    by_cases hparen : c = '('
    · subst hparen
      rw [Reader.value, Reader.value, hn.items (by omega)]
    rw [value_scalar (by simp [*]), value_scalar (by simp [*])]

theorem items_succ (hn : Steady n) (h : 2 * s.length + 2 ≤ n + 1) :
    Reader.items (n + 2) s = Reader.items (n + 1) s := by
  have hskip := (skip_suffix s).length_le
  rw [Reader.items, Reader.items, hn.value (by omega)]
  cases hv : Reader.value n (skip s) with
  | missed r => rfl
  | broken r => rfl
  | found v rest =>
    have hrest := (value_suffix hv).length_le
    simp only [hn.moreItems (show 2 * rest.length + 1 ≤ n by omega)]

theorem moreItems_succ (hn : Steady n) (h : 2 * s.length + 1 ≤ n + 1) :
    Reader.moreItems (n + 2) s = Reader.moreItems (n + 1) s := by
  rw [Reader.moreItems, Reader.moreItems]
  split
  · rename_i cs hcs
    have hcomma := (skip_suffix s).length_le
    have hskip := (skip_suffix cs).length_le
    rw [hcs, List.length_cons] at hcomma
    rw [hn.value (by omega)]
    cases hv : Reader.value n (skip cs) with
    | missed r => rfl
    | broken r => rfl
    | found v rest =>
      have hrest := (value_suffix hv).length_le
      simp only [hn.moreItems (show 2 * rest.length + 1 ≤ n by omega)]
  · rfl

theorem assignment_succ (hn : Steady n) (h : 2 * s.length + 1 ≤ n + 1) :
    Reader.assignment (n + 2) s = Reader.assignment (n + 1) s := by
  rw [Reader.assignment, Reader.assignment]
  cases hname : name? (skip s) with
  | none => rfl
  | some x =>
    obtain ⟨name, rest⟩ := x
    simp only []
    cases hsign : skip rest with
    | nil => rfl
    | cons c cs =>
      have hlt := (name?_suffix hname).2
      have hskip := (skip_suffix s).length_le
      have hrest := (skip_suffix rest).length_le
      have hcs := (skip_suffix cs).length_le
      rw [hsign, List.length_cons] at hrest
      simp only [hn.value (show 2 * (skip cs).length + 1 ≤ n by omega)]

theorem setting (hn : Steady n) (h : 2 * s.length + 1 ≤ n) :
    Reader.setting (n + 1) s = Reader.setting n s := by
  rw [setting_eq, setting_eq, hn.assignment h]

theorem settings_succ (hn : Steady n) (before : Group) (h : 2 * s.length + 2 ≤ n + 1) :
    Reader.settings (n + 2) s before = Reader.settings (n + 1) s before := by
  rw [Reader.settings, Reader.settings, hn.setting (by omega)]
  cases hf : Reader.setting n s with
  | missed r => rfl
  | broken r => rfl
  | found f rest =>
    have hrest := setting_length hf
    exact hn.settings _ (by omega)

end Steady

theorem steady (n : Nat) : Steady n := by
  induction n with
  | zero =>
    constructor
    · exact fun h => by omega
    · exact fun h => by omega
    · exact fun h => by omega
    · exact fun h => by omega
    · exact fun before h => by omega
  | succ n hn =>
    exact ⟨hn.value_succ, hn.items_succ, hn.moreItems_succ, hn.assignment_succ, hn.settings_succ⟩

theorem value_steps {n m : Nat} {s : List Char} (hn : 2 * s.length + 1 ≤ n) (h : n ≤ m) :
    value m s = value n s := by
  induction m, h using Nat.le_induction with
  | base => rfl
  | succ m hm ih => rw [(steady m).value (hn.trans hm), ih]

theorem assignment_steps {n m : Nat} {s : List Char} (hn : 2 * s.length + 1 ≤ n) (h : n ≤ m) :
    assignment m s = assignment n s := by
  induction m, h using Nat.le_induction with
  | base => rfl
  | succ m hm ih => rw [(steady m).assignment (hn.trans hm), ih]

theorem setting_steps {n m : Nat} {s : List Char} (hn : 2 * s.length + 1 ≤ n) (h : n ≤ m) :
    setting m s = setting n s := by
  rw [setting_eq, setting_eq, assignment_steps hn h]

theorem settings_steps {n m : Nat} {s : List Char} (before : Group) (hn : 2 * s.length + 2 ≤ n)
    (h : n ≤ m) : settings m s before = settings n s before := by
  induction m, h using Nat.le_induction with
  | base => rfl
  | succ m hm ih => rw [(steady m).settings before (hn.trans hm), ih]

end Reader

end Saturation.Settings
