import Saturation.Proofs.Json.Numerals
import Saturation.Proofs.Json.Reader

/-!
JSON that was written over several lines is read back. What is read is what JSON holds of a value:
the fields of its objects in order, and nothing in place of a number that is not finite.
-/

set_option autoImplicit false

namespace Saturation.Json

open Settings (Value Group)

/-! ## Strings -/

theorem hexValue?_digitChar {n : Nat} (h : n < 16) : hexValue? (Nat.digitChar n) = some n := by
  revert n
  decide

/-- The code of a control character, in four digits. -/
theorem unitChar?_control {c : Char} (h : c.toNat < 0x20) (rest : List Char) :
    unitChar? ('0' :: '0' :: Nat.digitChar (c.toNat / 16) :: Nat.digitChar (c.toNat % 16) :: rest) =
      some (c, rest) := by
  have hunit : unit? ('0' :: '0' :: Nat.digitChar (c.toNat / 16) ::
      Nat.digitChar (c.toNat % 16) :: rest) = some (c.toNat, rest) := by
    have hzero : hexValue? '0' = some 0 := rfl
    simp only [unit?, hzero, hexValue?_digitChar (show c.toNat / 16 < 16 by omega),
      hexValue?_digitChar (Nat.mod_lt _ (by decide)), Option.pure_def, Option.bind_eq_bind,
      Option.bind_some]
    congr 2
    omega
  rw [unitChar?, hunit]
  dsimp only
  rw [if_pos (.inl (by omega)), Char.ofNat_toNat]

theorem characters?_escape {c : Char} {s rest : List Char} (h : escape? s = some (c, rest))
    (before : List Char) : characters? before ('\\' :: s) = characters? (c :: before) rest := by
  rw [characters?]
  split
  · rename_i heq
    rw [h] at heq
    cases heq
    rfl
  · rename_i heq
    rw [h] at heq
    cases heq

theorem characters?_escaped (c : Char) (before rest : List Char) :
    characters? before (escaped c ++ rest) = characters? (c :: before) rest := by
  unfold escaped
  split
  case h_8 hquote hbackslash _ _ _ _ _ =>
    split
    · rename_i hcontrol
      exact characters?_escape (by rw [← unitChar?_control hcontrol]; rfl) before
    · rename_i hplain
      rw [List.singleton_append, characters?, if_neg hplain]
      · exact hquote
      · exact hbackslash
  all_goals exact characters?_escape rfl before

/-- A string is read back, whatever is in it. -/
theorem string?_quoted (s : String) (rest : List Char) :
    string? (quoted s ++ rest) = some (s, rest) := by
  have hcharacters : ∀ cs before : List Char,
      characters? before (cs.flatMap escaped ++ '"' :: rest) = some (before.reverse ++ cs, rest) := by
    intro cs
    induction cs with
    | nil =>
      intro before
      rw [List.append_nil]
      exact characters?.eq_2 before rest
    | cons c cs ih =>
      intro before
      rw [List.flatMap_cons, List.append_assoc, characters?_escaped, ih, List.reverse_cons,
        List.append_assoc, List.singleton_append]
  rw [quoted, List.append_assoc, List.cons_append, string?, List.singleton_append, hcharacters,
    List.reverse_nil, List.nil_append, Option.map_some, String.ofList_toList]

/-! ## Parts -/

section

variable {α β : Type} {part? : List Char → Option (β × List Char)} {t : List Char} {x : β}

/-- A text that is read as a part, whatever may stand behind one. It starts with neither a blank nor
a closing bracket. -/
structure IsPart (part? : List Char → Option (β × List Char)) (t : List Char) (x : β) : Prop where
  head : ∃ c cs, t = c :: cs ∧ isSpace c = false ∧ c ≠ ']' ∧ c ≠ '\x7d'
  read : ∀ {rest}, Ends rest → part? (t ++ rest) = some (x, rest)

theorem skip_newline (level : Nat) {s : List Char} (hs : ∀ c ∈ s.head?, isSpace c = false) :
    skip (newline level ++ s) = s := by
  refine Decimal.dropWhile_stop (fun c hc => ?_) hs
  rcases List.mem_cons.mp hc with rfl | hc
  · rfl
  · rw [List.eq_of_mem_replicate hc]
    rfl

theorem IsPart.skip (h : IsPart part? t x) (level : Nat) (rest : List Char) :
    skip (newline level ++ (t ++ rest)) = t ++ rest := by
  obtain ⟨c, cs, rfl, hc, -⟩ := h.head
  exact skip_newline level fun d hd => by cases hd; exact hc

variable {close : Char} {write : α → List Char} {meaning : α → β} {rest : List Char} {xs : List α}

/-- Parts behind other parts, each behind a comma on a line of its own. -/
def further (level : Nat) (write : α → List Char) (xs : List α) : List Char :=
  xs.flatMap fun x => ',' :: (newline level ++ write x)

theorem ends_further (level inner : Nat) : Ends (further inner write xs ++ (newline level ++ rest)) := by
  cases xs <;> simp [Ends, further, newline]

theorem more?_further (hclose : close = ']' ∨ close = '\x7d') (level inner : Nat) (n : Nat)
    (hn : xs.length < n) (hparts : ∀ x ∈ xs, IsPart part? (write x) (meaning x)) (before : List β) :
    more? close part? n before (further inner write xs ++ (newline level ++ close :: rest)) =
      some (before.reverse ++ xs.map meaning, rest) := by
  induction xs generalizing n before with
  | nil =>
    obtain ⟨n, rfl⟩ := Nat.exists_eq_succ_of_ne_zero (Nat.ne_of_gt hn)
    have hskip : skip (newline level ++ close :: rest) = close :: rest := by
      refine skip_newline level fun c hc => ?_
      cases hc
      rcases hclose with rfl | rfl <;> rfl
    rw [further, List.flatMap_nil, List.nil_append, more?, hskip]
    rcases hclose with rfl | rfl <;> simp
  | cons y ys ih =>
    obtain ⟨n, rfl⟩ := Nat.exists_eq_succ_of_ne_zero (Nat.ne_of_gt (Nat.zero_lt_of_lt hn))
    obtain ⟨hy, hys⟩ := List.forall_mem_cons.mp hparts
    have htext : further inner write (y :: ys) ++ (newline level ++ close :: rest) =
        ',' :: (newline inner ++ (write y ++
          (further inner write ys ++ (newline level ++ close :: rest)))) := by
      simp [further]
    have hcomma : ∀ s, skip (',' :: s) = ',' :: s := fun _ => rfl
    simp only [htext, more?, hcomma, hy.skip, hy.read (ends_further level inner)]
    rw [ih n (by simpa using hn) hys]
    simp

/-- Some parts, each on a line of its own, in front of the bracket that closes them. -/
theorem parts?_lines (hclose : close = ']' ∨ close = '\x7d') (level inner : Nat) {n : Nat} {y : α}
    (hn : xs.length < n) (hy : IsPart part? (write y) (meaning y))
    (hparts : ∀ x ∈ xs, IsPart part? (write x) (meaning x)) :
    parts? close part? n (newline inner ++ (write y ++
      (further inner write xs ++ (newline level ++ close :: rest)))) =
        some ((y :: xs).map meaning, rest) := by
  have hends : Ends (further inner write xs ++ (newline level ++ close :: rest)) :=
    ends_further level inner
  have hread := hy.read hends
  have hskip := hy.skip inner (further inner write xs ++ (newline level ++ close :: rest))
  obtain ⟨c, cs, hc, -, hclosed⟩ := hy.head
  rw [hc, List.cons_append] at hread hskip
  have hne : c ≠ close := by rcases hclose with rfl | rfl; exacts [hclosed.1, hclosed.2]
  rw [hc, List.cons_append, parts?, hskip]
  dsimp only
  rw [if_neg hne, hread]
  dsimp only
  rw [more?_further hclose level inner n hn hparts]
  rfl

end

/-! ## Values -/

theorem prettyItems_eq (level : Nat) (vs : List Value) : ∀ v, prettyItems level (v :: vs) =
    newline level ++ (pretty level v ++ further level (pretty level) vs) := by
  induction vs with
  | nil => simp [prettyItems, further]
  | cons u vs ih =>
    intro v
    rw [prettyItems, ih]
    simp [further]

/-- A field with its name. -/
def prettyField (level : Nat) (f : String × Value) : List Char :=
  quoted f.1 ++ ':' :: ' ' :: pretty level f.2

theorem prettyFields_eq (level : Nat) (fs : List (String × Value)) : ∀ f,
    prettyFields level (f :: fs) =
      newline level ++ (prettyField level f ++ further level (prettyField level) fs) := by
  induction fs with
  | nil =>
    intro f
    simp [prettyFields, prettyField, further]
  | cons g fs ih =>
    intro f
    rw [prettyFields, ih]
    simp [prettyField, further]

/-- Values whose arrays and objects are at most so deep in one another. -/
def Nests : Nat → Value → Prop
  | 0, .arr _ | 0, .obj _ => False
  | depth + 1, .arr items => ∀ v ∈ items, Nests depth v
  | depth + 1, .obj fields => ∀ f ∈ fields, Nests depth f.2
  | _, _ => True

section

variable {n depth : Nat}

theorem value?_number {c : Char} (hc : c = '-' ∨ c.isDigit) (cs : List Char) :
    value? Numeral.precise? n depth (c :: cs) = number? Numeral.precise? (c :: cs) := by
  unfold value?
  split
  case h_9 => rfl
  all_goals
    rename_i heq
    cases heq
    rcases hc with hc | hc <;> exact absurd hc (by decide)

theorem number?_text {negative : Bool} {d : Numeral} {v : Value} {rest : List Char}
    (hd : d.IsWritten) (hmeaning : d.precise? negative = some v) (h : Ends rest) :
    number? Numeral.precise? (Numeral.sign negative ++ d.text ++ rest) = some (v, rest) := by
  have hread := Numeral.numeral?_text hd h
  have hsigned : number? Numeral.precise? (Numeral.sign negative ++ d.text ++ rest) =
      (d.precise? negative).map fun v => (v, rest) := by
    cases negative with
    | true =>
      have hsign : Numeral.sign true ++ d.text ++ rest = '-' :: (d.text ++ rest) := rfl
      simp only [hsign, number?, hread]
    | false =>
      obtain ⟨c, cs, htext, hdigit⟩ := hd.text_head
      have hc : c ≠ '-' := by
        rintro rfl
        exact absurd hdigit (by decide)
      rw [htext, List.cons_append] at hread
      rw [Numeral.sign, if_neg (by decide), List.nil_append, htext, List.cons_append, number?]
      · rw [hread]
      · exact fun body heq => hc (List.cons.inj heq).1
  rw [hsigned, hmeaning, Option.map_some]

theorem isSpace_of_isDigit {c : Char} (h : c.isDigit) : isSpace c = false := by
  refine Bool.eq_false_iff.mpr fun hspace => ?_
  simp only [isSpace, Bool.or_eq_true, beq_iff_eq] at hspace
  rcases hspace with ((rfl | rfl) | rfl) | rfl <;> exact absurd h (by decide)

theorem number_isPart {t : List Char} {v : Value} (h : Numeral.Writes t v) :
    IsPart (value? Numeral.precise? n depth) t v := by
  obtain ⟨negative, d, hd, rfl, hmeaning⟩ := h
  have hhead : ∃ c cs, Numeral.sign negative ++ d.text = c :: cs ∧ (c = '-' ∨ c.isDigit) := by
    cases negative with
    | true => exact ⟨'-', d.text, rfl, .inl rfl⟩
    | false =>
      obtain ⟨c, cs, htext, hdigit⟩ := hd.text_head
      exact ⟨c, cs, htext, .inr hdigit⟩
  obtain ⟨c, cs, heq, hc⟩ := hhead
  constructor
  · refine ⟨c, cs, heq, ?_, ?_, ?_⟩
    · rcases hc with rfl | hc
      · rfl
      · exact isSpace_of_isDigit hc
    all_goals
      rintro rfl
      exact absurd hc (by decide)
  · intro rest hrest
    rw [← number?_text hd hmeaning hrest, heq, List.cons_append, value?_number hc]

theorem quoted_isPart (s : String) : IsPart (value? Numeral.precise? n depth) (quoted s) (.str s) := by
  refine ⟨⟨'"', _, rfl, rfl, by decide, by decide⟩, fun {rest} _ => ?_⟩
  have hread := string?_quoted s rest
  rw [quoted, List.append_assoc, List.cons_append] at hread ⊢
  rw [value?, hread]
  rfl

theorem atom_isPart {v : Value} {level : Nat} (harr : ∀ items, v ≠ .arr items)
    (hobj : ∀ fields, v ≠ .obj fields) :
    IsPart (value? Numeral.precise? n depth) (pretty level v) v.held := by
  have hatom : pretty level v = atom v := by
    unfold pretty
    split
    case h_5 => rfl
    all_goals first | exact absurd rfl (harr _) | exact absurd rfl (hobj _)
  rw [hatom]
  have hnull : IsPart (value? Numeral.precise? n depth) ['n', 'u', 'l', 'l'] .null :=
    ⟨⟨'n', _, rfl, rfl, by decide, by decide⟩, fun _ => by simp [value?, word?]⟩
  cases v with
  | null => exact hnull
  | bool b =>
    cases b
    · exact ⟨⟨'f', _, rfl, rfl, by decide, by decide⟩,
        fun _ => by simp [value?, word?, atom, Value.held]⟩
    · exact ⟨⟨'t', _, rfl, rfl, by decide, by decide⟩,
        fun _ => by simp [value?, word?, atom, Value.held]⟩
  | int i => exact number_isPart (Numeral.writes_int i)
  | float x =>
    by_cases hx : x.isFinite
    · rw [Value.held, if_pos hx]
      exact number_isPart (Numeral.writes_float hx)
    · rw [Value.held, if_neg hx, atom, float, if_neg hx]
      exact hnull
  | str s => exact quoted_isPart s
  | arr items => exact absurd rfl (harr items)
  | obj fields => exact absurd rfl (hobj fields)

theorem field_isPart {level : Nat} {f : String × Value} {w : Value}
    (h : IsPart (value? Numeral.precise? n depth) (pretty level f.2) w) :
    IsPart (field? (value? Numeral.precise? n depth)) (prettyField level f) (f.1, w) := by
  refine ⟨⟨'"', _, rfl, rfl, by decide, by decide⟩, fun {rest} hrest => ?_⟩
  have hskip : skip (' ' :: (pretty level f.2 ++ rest)) = pretty level f.2 ++ rest := by
    obtain ⟨c, cs, heq, hc, -⟩ := h.head
    simp [skip, heq, hc, List.dropWhile_cons]
    decide
  have hcolon : ∀ s, skip (':' :: s) = ':' :: s := fun _ => rfl
  simp only [field?, prettyField, List.append_assoc, List.cons_append, string?_quoted, hcolon, hskip,
    h.read hrest, Option.map_some]

theorem arr_isPart {items : List Value} {level : Nat} (hn : items.length ≤ n)
    (h : ∀ v ∈ items, IsPart (value? Numeral.precise? n depth) (pretty (level + 1) v) v.held) :
    IsPart (value? Numeral.precise? n (depth + 1)) (pretty level (.arr items)) (Value.arr items).held := by
  rw [Value.held, Value.heldItems_eq]
  cases items with
  | nil => exact ⟨⟨'[', _, by rw [pretty], rfl, by decide, by decide⟩,
      fun _ => by simp [pretty, value?, parts?, skip, isSpace]⟩
  | cons v vs =>
    obtain ⟨hv, hvs⟩ := List.forall_mem_cons.mp h
    have htext : ∀ rest, pretty level (.arr (v :: vs)) ++ rest = '[' :: (newline (level + 1) ++
        (pretty (level + 1) v ++ (further (level + 1) (pretty (level + 1)) vs ++
          (newline level ++ ']' :: rest)))) := by
      intro rest
      simp [pretty, prettyItems_eq]
    refine ⟨⟨'[', _, by rw [← List.append_nil (pretty _ _), htext], rfl, by decide, by decide⟩, ?_⟩
    intro rest _
    rw [htext, value?, parts?_lines (.inl rfl) level (level + 1) hn hv hvs, Option.map_some]

theorem obj_isPart {fields : List (String × Value)} {level : Nat} (hn : fields.length ≤ n)
    (h : ∀ f ∈ fields, IsPart (value? Numeral.precise? n depth) (pretty (level + 1) f.2) f.2.held) :
    IsPart (value? Numeral.precise? n (depth + 1)) (pretty level (.obj fields))
      (Value.obj fields).held := by
  rw [Value.held, Value.heldFields_eq]
  replace h := fun f hf => field_isPart (h f hf)
  cases fields with
  | nil => exact ⟨⟨'\x7b', _, by rw [pretty], rfl, by decide, by decide⟩,
      fun _ => by simp [pretty, value?, parts?, skip, isSpace]⟩
  | cons f fs =>
    obtain ⟨hf, hfs⟩ := List.forall_mem_cons.mp h
    have htext : ∀ rest, pretty level (.obj (f :: fs)) ++ rest = '\x7b' :: (newline (level + 1) ++
        (prettyField (level + 1) f ++ (further (level + 1) (prettyField (level + 1)) fs ++
          (newline level ++ '\x7d' :: rest)))) := by
      intro rest
      simp [pretty, prettyFields_eq]
    refine ⟨⟨'\x7b', _, by rw [← List.append_nil (pretty _ _), htext], rfl, by decide, by decide⟩, ?_⟩
    intro rest _
    rw [htext, value?, parts?_lines (.inr rfl) level (level + 1) hn hf hfs, Option.map_some]

end

theorem length_further {α : Type} (level : Nat) (write : α → List Char) (xs : List α) :
    xs.length ≤ (further level write xs).length ∧
      ∀ x ∈ xs, (write x).length ≤ (further level write xs).length := by
  induction xs with
  | nil => simp
  | cons y ys ih =>
    obtain ⟨hlength, hmem⟩ := ih
    have htext : further level write (y :: ys) =
        ',' :: (newline level ++ (write y ++ further level write ys)) := by simp [further]
    simp only [htext, List.length_cons, List.length_append]
    refine ⟨by omega, List.forall_mem_cons.mpr ⟨by omega, fun x hx => ?_⟩⟩
    have := hmem x hx
    omega

theorem length_arr (level : Nat) (items : List Value) :
    items.length < (pretty level (.arr items)).length ∧
      ∀ v ∈ items, (pretty (level + 1) v).length ≤ (pretty level (.arr items)).length := by
  cases items with
  | nil => simp [pretty]
  | cons v vs =>
    obtain ⟨hlength, hmem⟩ := length_further (level + 1) (pretty (level + 1)) vs
    simp only [pretty, prettyItems_eq, List.length_cons, List.length_append]
    refine ⟨by omega, List.forall_mem_cons.mpr ⟨by omega, fun u hu => ?_⟩⟩
    have := hmem u hu
    omega

theorem length_obj (level : Nat) (fields : List (String × Value)) :
    fields.length < (pretty level (.obj fields)).length ∧
      ∀ f ∈ fields, (pretty (level + 1) f.2).length ≤ (pretty level (.obj fields)).length := by
  have hfield : ∀ f : String × Value,
      (pretty (level + 1) f.2).length ≤ (prettyField (level + 1) f).length := by
    intro f
    simp only [prettyField, List.length_append, List.length_cons]
    omega
  cases fields with
  | nil => simp [pretty]
  | cons f fs =>
    obtain ⟨hlength, hmem⟩ := length_further (level + 1) (prettyField (level + 1)) fs
    have hf := hfield f
    simp only [pretty, prettyFields_eq, List.length_cons, List.length_append]
    refine ⟨by omega, List.forall_mem_cons.mpr ⟨by omega, fun g hg => ?_⟩⟩
    have hg := (hfield g).trans (hmem g hg)
    omega

/-- A value that is written over several lines is read back. -/
theorem pretty_isPart {n : Nat} (depth : Nat) : ∀ {v : Value} {level : Nat}, Nests depth v →
    (pretty level v).length ≤ n →
      IsPart (value? Numeral.precise? n depth) (pretty level v) v.held := by
  induction depth with
  | zero =>
    intro v level hv hn
    cases v with
    | arr | obj => exact hv.elim
    | _ => exact atom_isPart (by simp) (by simp)
  | succ depth ih =>
    intro v level hv hn
    cases v with
    | arr items =>
      obtain ⟨hlength, hmem⟩ := length_arr level items
      exact arr_isPart (by omega) fun v hitem => ih (hv v hitem) ((hmem v hitem).trans hn)
    | obj fields =>
      obtain ⟨hlength, hmem⟩ := length_obj level fields
      exact obj_isPart (by omega) fun f hf => ih (hv f hf) ((hmem f hf).trans hn)
    | _ => exact atom_isPart (by simp) (by simp)

/-- The value in a text, with every number as it stands. -/
def readPrecisely? (text : List Char) : Option Value := readBy? Numeral.precise? text

/-- Reading what was written gives what JSON holds of the value. -/
theorem readPrecisely?_pretty {v : Value} (hv : Nests depthLimit v) :
    readPrecisely? (pretty 0 v) = some v.held := by
  have hpart : IsPart (value? Numeral.precise? ((pretty 0 v).length + 1) depthLimit) (pretty 0 v) v.held :=
    pretty_isPart depthLimit hv (Nat.le_succ _)
  have hskip : skip (pretty 0 v) = pretty 0 v := by
    obtain ⟨c, cs, htext, hc, -⟩ := hpart.head
    rw [htext, skip, List.dropWhile_cons, hc]
    rfl
  have hread := hpart.read ends_nil
  rw [List.append_nil] at hread
  rw [readPrecisely?, readBy?, hskip, hread]
  rfl

end Saturation.Json
