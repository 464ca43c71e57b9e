import Saturation.Proofs.Settings.Literals
import Saturation.Proofs.Settings.RoundTrip

/-!
The reader gives each printed document its meaning. The steps of the reader are bounded by twice the
length of the text; behind a value stands what closes it, and behind the settings of a group what is
neither a name nor a terminator.
-/

set_option autoImplicit false

namespace Saturation.Settings

open Reader (skip name? scalar? skip_text skip_token)

/-! ## Numbers -/

/-- The exponent is that of the text, as far as exponents of doubles go. -/
theorem Exponent.value_eq (e : Exponent) (h : Decimal.digitsValue e.digits.text < 0x10000) :
    e.value = e.sign.apply (Decimal.digitsValue e.digits.text) := by
  rw [value, Decimal.exponentValue_eq h]

/-- A float means the double that is nearest to the number in the text. -/
theorem FloatLiteral.value_isNearest (x : FloatLiteral) : ∃ (k : Nat) (r : Int),
    Double.IsNearest (x.numeral.mantissa * 10 ^ x.numeral.power) k r ∧
      Double.ofFloat x.value = .finite x.sign.isMinus k r := by
  obtain ⟨k, r, hnear, hread⟩ :=
    Decimal.ofFloat_scaled_held x.sign.isMinus x.numeral.mantissa x.numeral.power
  have hfinite : (Double.held x.sign.isMinus k r).isFinite := by
    rw [← hread, Double.isFinite_ofFloat]
    exact x.finite
  refine ⟨k, r, hnear, hread.trans ?_⟩
  unfold Double.held at hfinite ⊢
  split at hfinite
  · cases hfinite
  · rename_i hr
    exact if_neg hr

/-! ## Groups -/

theorem Group.get?_foldl_insert (name : String) (fields : List (String × Value)) :
    ∀ g : Group, get? name (fields.foldl (fun g f => insert f.1 f.2 g) g) =
      (fields.reverse.lookup name).or (get? name g) := by
  induction fields with
  | nil => intro g; rfl
  | cons f fields ih =>
    obtain ⟨k, v⟩ := f
    intro g
    rw [List.foldl_cons, ih, get?_insert, List.reverse_cons, List.lookup_append]
    cases fields.reverse.lookup name with
    | some w => rfl
    | none =>
      by_cases hk : name = k
      · subst hk
        simp
      · have hbeq : (name == k) = false := beq_false_of_ne hk
        simp [List.lookup, hbeq, hk]

/-- The last of several settings of one name is the one that counts. -/
theorem Group.get?_ofList (name : String) (fields : List (String × Value)) :
    get? name (ofList fields) = fields.reverse.lookup name := by
  rw [ofList, get?_foldl_insert]
  simp [get?]

/-! ## Arrays -/

theorem skip_literal (x : Literal) {s : List Char} (hs : Closes s) :
    skip (x.text ++ s) = x.text ++ s := Writer.skip_scalar (x.scalar?_text hs)

theorem literal_length (x : Literal) : 0 < x.text.length := by
  have h := x.scalar?_text Closes.nil
  rw [List.append_nil] at h
  refine List.length_pos_iff.mpr fun hnil => ?_
  rw [hnil] at h
  simp [scalar?, Reader.boolean?, Reader.word?, Reader.string?, Reader.quoted?, Reader.float?,
    Decimal.signed, Reader.floatParts?, Reader.digits?, Reader.hex?, Reader.integer?] at h

theorem cellsText_cons (x : Cell) (cells : List Cell) :
    cellsText (x :: cells) =
      ',' :: (x.before.text ++ (x.literal.text ++ (x.after.text ++ cellsText cells))) := by
  simp [cellsText, Cell.text]

/-- Behind an item comes the next one or the end of the sequence. -/
theorem closes_cells (cells : List Cell) (close : Layout) (t : List Char) :
    Closes (cellsText cells ++ (close.text ++ ']' :: t)) := by
  cases cells with
  | nil => exact (Closes.token (by simp) t).append close
  | cons x cells =>
    rw [cellsText_cons]
    exact .token (by simp) _

theorem moreScalars_text (cells : List Cell) (close : Layout) (t : List Char) :
    ∀ (gap : Layout) {n : Nat}, cells.length ≤ n → ∃ rest,
      Reader.moreScalars n (gap.text ++ (cellsText cells ++ (close.text ++ ']' :: t))) =
        (cells.map fun x => x.literal.meaning, rest) ∧ skip rest = ']' :: t := by
  have hbracket : skip (']' :: t) = ']' :: t :=
    skip_token (by decide) (by decide) (by decide) t
  induction cells with
  | nil =>
    intro gap n _
    have hskip : skip (gap.text ++ (cellsText [] ++ (close.text ++ ']' :: t))) = ']' :: t := by
      rw [skip_text, cellsText, List.flatMap_nil, List.nil_append, skip_text, hbracket]
    refine ⟨_, ?_, hskip⟩
    cases n with
    | zero => rfl
    | succ n =>
      rw [Reader.moreScalars, hskip]
      rfl
  | cons x cells ih =>
    intro gap n hn
    obtain ⟨m, rfl⟩ : ∃ m, n = m + 1 := ⟨n - 1, by simp at hn; omega⟩
    have hcloses := (closes_cells cells close t).append x.after
    have hscalar := x.literal.scalar?_text hcloses
    obtain ⟨rest, hmore, hrest⟩ := ih x.after (n := m) (by simpa using hn)
    refine ⟨rest, ?_, hrest⟩
    rw [Reader.moreScalars, skip_text, cellsText_cons]
    simp only [List.cons_append, List.append_assoc]
    rw [skip_token (by decide) (by decide) (by decide)]
    simp only [skip_text, skip_literal x.literal hcloses, hscalar, hmore, List.map_cons]

theorem scalars_text (cells : List Cell) (close : Layout) (t : List Char) {n : Nat}
    (hn : cells.length ≤ n + 1) : ∃ rest,
      Reader.scalars n ((cellsText cells).tail ++ (close.text ++ ']' :: t)) =
        (cells.map fun x => x.literal.meaning, rest) ∧ skip rest = ']' :: t := by
  cases cells with
  | nil =>
    have hskip : skip ((cellsText []).tail ++ (close.text ++ ']' :: t)) = ']' :: t := by
      rw [cellsText, List.flatMap_nil, List.tail_nil, List.nil_append, skip_text,
        skip_token (by decide) (by decide) (by decide)]
    refine ⟨_, ?_, hskip⟩
    rw [Reader.scalars, hskip, Writer.scalar?_of_close (.inl rfl)]
    rfl
  | cons x cells =>
    have hcloses := (closes_cells cells close t).append x.after
    have hscalar := x.literal.scalar?_text hcloses
    obtain ⟨rest, hmore, hrest⟩ := moreScalars_text cells close t x.after (n := n)
      (by simpa using hn)
    refine ⟨rest, ?_, hrest⟩
    rw [Reader.scalars, cellsText_cons, List.tail_cons]
    simp only [List.append_assoc, skip_text, skip_literal x.literal hcloses, hscalar, hmore,
      List.map_cons]

theorem length_le_cellsText (cells : List Cell) : cells.length ≤ (cellsText cells).length := by
  induction cells with
  | nil => exact Nat.le_refl _
  | cons x cells ih =>
    rw [cellsText_cons]
    simp only [List.length_cons, List.length_append]
    omega

/-! ## Settings -/

/-- What stands behind some settings continues none of them: no part of a string, no terminator. -/
def Continues (s : List Char) : Prop := ∀ c ∈ (skip s).head?, c ≠ '"' ∧ c ≠ ';' ∧ c ≠ ','

theorem Continues.brace (s : List Char) : Continues ('\x7d' :: s) := by
  rw [Continues, skip_token (by decide) (by decide) (by decide)]
  simp

theorem Continues.append {s : List Char} (h : Continues s) (l : Layout) : Continues (l.text ++ s) := by
  rw [Continues, skip_text]
  exact h

theorem terminated_of_continues {s : List Char} (h : Continues s) : Reader.terminated s = s := by
  unfold Reader.terminated
  split
  · rename_i hs
    exact absurd rfl (h ';' (by rw [hs]; rfl)).2.1
  · rename_i hs
    exact absurd rfl (h ',' (by rw [hs]; rfl)).2.2
  · rfl

namespace Label

theorem name_cons (l : Label) : ∃ c cs, l.name = c :: cs ∧ Reader.isNameStart c := by
  have h := l.isName
  cases hname : l.name with
  | nil => simp [hname, Reader.isName] at h
  | cons c cs =>
    rw [hname] at h
    simp only [Reader.isName, Bool.and_eq_true] at h
    exact ⟨c, cs, rfl, h.1⟩

theorem text_append (l : Label) (s : List Char) : l.text ++ s =
    l.before.text ++ (l.name ++ (l.between.text ++ l.sign :: (l.behind.text ++ s))) := by
  simp [text]

theorem sign_cases (l : Label) : l.sign = '=' ∨ l.sign = ':' := by
  unfold sign
  split <;> simp

theorem skip_sign (l : Label) (s : List Char) : skip (l.sign :: s) = l.sign :: s := by
  rcases l.sign_cases with h | h <;> rw [h] <;>
    exact skip_token (by decide) (by decide) (by decide) s

theorem continues (l : Label) (s : List Char) : Continues (l.text ++ s) := by
  obtain ⟨c, cs, hname, hc⟩ := l.name_cons
  obtain ⟨hlayout, hhash, hslash⟩ := Reader.isNameStart_cases hc
  rw [text_append, Continues, skip_text, hname, List.cons_append,
    skip_token hlayout hhash hslash]
  simp only [List.head?_cons, Option.mem_def, Option.some.injEq, forall_eq']
  refine ⟨?_, ?_, ?_⟩ <;> rintro rfl <;> exact absurd hc (by decide)

/-- The name ends in front of the layout or of the sign that follows it. -/
theorem name?_text (l : Label) (s : List Char) : name? (skip (l.text ++ s)) =
    some (l.name, l.between.text ++ l.sign :: (l.behind.text ++ s)) := by
  rw [text_append, skip_text]
  refine Reader.name?_stop l.isName ?_
  by_cases hl : l.between = []
  · rcases l.sign_cases with h | h <;> simp [hl, h, Layout.text] <;> decide
  · exact fun c hc => (Layout.next hl _ c hc).2

theorem setting_text (l : Label) {t text s : List Char} {v : Value} {n : Nat}
    (ht : skip t = skip (l.text ++ (text ++ s)))
    (hv : Reader.value n (text ++ s) = .found v s) :
    Reader.setting (n + 1) t = .found (String.ofList l.name, v) (Reader.terminated s) := by
  rw [Reader.setting, ht, l.name?_text]
  simp only [skip_text, l.skip_sign, l.sign_cases, if_true, Reader.skip_of_value hv, hv]

theorem length (l : Label) : 2 ≤ l.text.length := by
  obtain ⟨c, cs, hname, -⟩ := l.name_cons
  rw [text, hname]
  simp only [List.length_append, List.length_cons]
  omega

end Label

theorem Body.continues (body : Body) {s : List Char} (hs : Continues s) :
    Continues (body.text ++ s) := by
  cases body with
  | nil => exact hs
  | last label node =>
    rw [text, List.append_assoc]
    exact label.continues _
  | cons label node ending rest =>
    rw [text, List.append_assoc]
    exact label.continues _

namespace Ending

theorem closes (e : Ending) {s : List Char} (hs : Continues s) : Closes (e.text ++ s) := by
  cases e with
  | closed gap comma =>
    rw [text, List.append_assoc]
    refine Closes.append ?_ gap
    cases comma <;> exact .token (by simp) s
  | bare gap h =>
    refine ⟨fun c hc => (Layout.next h s c hc).1, fun c hc => ?_⟩
    rw [text, skip_text] at hc
    exact (hs c hc).1

theorem terminated_text (e : Ending) {s : List Char} (hs : Continues s) :
    ∃ gap : Layout, Reader.terminated (e.text ++ s) = gap.text ++ s := by
  cases e with
  | closed gap comma =>
    have hskip : skip (gap.text ++ (if comma then ',' else ';') :: s) =
        (if comma then ',' else ';') :: s := by
      rw [skip_text]
      cases comma <;> exact skip_token (by decide) (by decide) (by decide) s
    refine ⟨[], ?_⟩
    rw [text, List.append_assoc, List.singleton_append, Reader.terminated, hskip]
    cases comma <;> rfl
  | bare gap h => exact ⟨gap, terminated_of_continues (hs.append gap)⟩

theorem skip_terminated (e : Ending) {s : List Char} (hs : Continues s) :
    skip (Reader.terminated (e.text ++ s)) = skip s := by
  obtain ⟨gap, h⟩ := e.terminated_text hs
  rw [h, skip_text]

end Ending

/-- What ends the settings of a group. -/
structure EndsGroup (s : List Char) : Prop where
  closes : Closes s
  continues : Continues s
  noName : name? (skip s) = none

theorem EndsGroup.brace (close : Layout) (s : List Char) : EndsGroup (close.text ++ '\x7d' :: s) := by
  refine ⟨(Closes.token (by simp) s).append close, (Continues.brace s).append close, ?_⟩
  rw [skip_text, skip_token (by decide) (by decide) (by decide)]
  simp [name?]
  decide

theorem EndsGroup.document (close : Layout) (x : Option LastComment) :
    EndsGroup (close.text ++ x.elim [] LastComment.text) := by
  have hskip := Reader.skip_lastComment x
  have hnext : ∀ c ∈ (x.elim [] LastComment.text).head?, c.isAlphanum = false ∧ c ≠ '.' := by
    cases x with
    | none => simp
    | some x =>
      rw [Option.elim_some, LastComment.text]
      cases x.slashes <;> simp [lineMark]
  refine ⟨Closes.append ⟨hnext, ?_⟩ close, Continues.append ?_ close, ?_⟩
  · simp [hskip]
  · simp [Continues, hskip]
  · simp [hskip, name?]

/-! ## Values -/

theorem closes_items (items : Items) (close : Layout) (t : List Char) :
    Closes (items.text ++ (close.text ++ ')' :: t)) := by
  cases items with
  | nil => exact (Closes.token (by simp) t).append close
  | cons before item after rest =>
    rw [Items.text, List.cons_append]
    exact .token (by simp) _

theorem skip_paren (t : List Char) : skip (')' :: t) = ')' :: t :=
  skip_token (by decide) (by decide) (by decide) t

/-- A closing parenthesis begins no value. -/
theorem items_nil (close : Layout) (t : List Char) (n : Nat) :
    Reader.items (n + 1) (close.text ++ ')' :: t) = .found [] (close.text ++ ')' :: t) := by
  have hnone : scalar? (')' :: t) = none := Writer.scalar?_of_close (.inr rfl) t
  have hvalue : Reader.value n (')' :: t) = .missed (')' :: t) := by
    cases n with
    | zero => rfl
    | succ n => rw [Reader.value_scalar (by simp), hnone]
  rw [Reader.items, skip_text, skip_paren, hvalue]

-- By recursion on the tree. Names, commas and brackets pay for the steps that take no character.
mutual

theorem Node.value_text (v : Node) {s : List Char} (hs : Closes s) {n : Nat}
    (hn : 2 * v.text.length ≤ n) : Reader.value n (v.text ++ s) = .found v.meaning s := by
  cases v with
  | scalar x =>
    have hlen := literal_length x
    rw [Node.text] at hn ⊢
    obtain ⟨m, rfl⟩ : ∃ m, n = m + 1 := ⟨n - 1, by omega⟩
    exact Reader.value_of_scalar? (x.scalar?_text hs) m
  | array cells close =>
    have hcells := length_le_cellsText cells
    simp only [Node.text, List.length_cons, List.length_append, List.length_tail] at hn
    obtain ⟨m, rfl⟩ : ∃ m, n = m + 1 := ⟨n - 1, by omega⟩
    obtain ⟨rest, hread, hrest⟩ := scalars_text cells close s (n := m) (by omega)
    rw [Node.text, List.cons_append, List.append_assoc, List.append_assoc]
    exact Reader.value_array hread hrest
  | list items close =>
    simp only [Node.text, List.length_cons, List.length_append, List.length_tail] at hn
    obtain ⟨m, rfl⟩ : ∃ m, n = m + 2 := ⟨n - 2, by omega⟩
    rw [Node.text, List.cons_append, List.append_assoc, List.append_assoc]
    cases items with
    | nil =>
      refine Reader.value_list (items_nil close s m) ?_
      rw [skip_text, skip_paren]
    | cons before item after rest =>
      simp only [Items.text, List.length_cons, List.length_append] at hn
      have hv := Node.value_text item ((closes_items rest close s).append after) (n := m) (by omega)
      obtain ⟨r, hmore, hr⟩ := Items.moreItems_text rest close s after (n := m) (by omega)
      refine Reader.value_list ?_ hr
      rw [Reader.items, Items.text, List.tail_cons]
      simp only [List.append_assoc, List.singleton_append, skip_text, Reader.skip_of_value hv, hv,
        hmore, Items.meaning]
  | group body close =>
    simp only [Node.text, List.length_cons, List.length_append] at hn
    obtain ⟨m, rfl⟩ : ∃ m, n = m + 1 := ⟨n - 1, by omega⟩
    have hend := EndsGroup.brace close s
    obtain ⟨rest, hread, hrest⟩ := Body.settings_text body (g := []) rfl hend (n := m) (by omega)
    rw [Node.text, List.cons_append, List.append_assoc, List.append_assoc]
    refine Reader.value_group hread ?_
    rw [hrest, skip_text, skip_token (by decide) (by decide) (by decide)]

theorem Items.moreItems_text (items : Items) (close : Layout) (t : List Char) (gap : Layout)
    {n : Nat} (hn : 2 * items.text.length + 1 ≤ n) : ∃ rest,
      Reader.moreItems n (gap.text ++ (items.text ++ (close.text ++ ')' :: t))) =
        .found items.meaning rest ∧ skip rest = ')' :: t := by
  obtain ⟨m, rfl⟩ : ∃ m, n = m + 1 := ⟨n - 1, by omega⟩
  cases items with
  | nil =>
    have hskip : skip (gap.text ++ (Items.nil.text ++ (close.text ++ ')' :: t))) = ')' :: t := by
      rw [skip_text, Items.text, List.nil_append, skip_text, skip_paren]
    refine ⟨_, ?_, hskip⟩
    rw [Reader.moreItems, hskip]
    rfl
  | cons before item after rest =>
    simp only [Items.text, List.length_cons, List.length_append] at hn
    have hv := Node.value_text item ((closes_items rest close t).append after) (n := m) (by omega)
    obtain ⟨r, hread, hr⟩ := Items.moreItems_text rest close t after (n := m) (by omega)
    refine ⟨r, ?_, hr⟩
    rw [Reader.moreItems, skip_text, Items.text]
    simp only [List.cons_append, List.append_assoc]
    rw [skip_token (by decide) (by decide) (by decide)]
    simp only [skip_text, Reader.skip_of_value hv, hv, hread, Items.meaning]

theorem Body.settings_text (body : Body) {t s : List Char} {g : Group}
    (ht : skip t = skip (body.text ++ s)) (hs : EndsGroup s) {n : Nat}
    (hn : 2 * body.text.length + 2 ≤ n) : ∃ rest, Reader.settings n t g =
      .found (body.fields.foldl (fun g f => g.insert f.1 f.2) g) rest ∧ skip rest = skip s := by
  obtain ⟨m, rfl⟩ : ∃ m, n = m + 2 := ⟨n - 2, by omega⟩
  cases body with
  | nil =>
    refine ⟨t, ?_, ht⟩
    rw [Reader.settings, Reader.setting, ht, Body.text, List.nil_append, hs.noName]
    rfl
  | last label node =>
    have hlabel := label.length
    simp only [Body.text, List.length_append] at hn
    rw [Body.text, List.append_assoc] at ht
    have hv := Node.value_text node hs.closes (n := m) (by omega)
    have hset := label.setting_text ht hv
    rw [terminated_of_continues hs.continues] at hset
    obtain ⟨k, rfl⟩ : ∃ k, m = k + 1 := ⟨m - 1, by omega⟩
    refine ⟨s, ?_, rfl⟩
    rw [Reader.settings, hset]
    simp only [Reader.settings, Reader.setting, hs.noName]
    rfl
  | cons label node ending rest =>
    have hlabel := label.length
    simp only [Body.text, List.length_append] at hn
    simp only [Body.text, List.append_assoc] at ht
    have hnext := rest.continues hs.continues
    have hv := Node.value_text node (ending.closes hnext) (n := m) (by omega)
    have hset := label.setting_text ht hv
    obtain ⟨r, hread, hr⟩ := Body.settings_text rest (ending.skip_terminated hnext) hs
      (g := g.insert (String.ofList label.name) node.meaning) (n := m + 1) (by omega)
    refine ⟨r, ?_, hr⟩
    rw [Reader.settings, hset]
    exact hread

end

/-! ## Documents -/

/-- However a document is printed, it is read as what it means; of several settings of one name, the
last one counts. -/
theorem read_text (d : Document) : read d.text = .ok d.meaning ∧
    ∀ name, d.meaning.get? name = d.body.fields.reverse.lookup name := by
  refine ⟨?_, fun name => Group.get?_ofList name d.body.fields⟩
  obtain ⟨rest, hread, hrest⟩ := Body.settings_text d.body (t := d.text) (g := []) rfl
    (EndsGroup.document d.close d.comment) (n := 2 * d.text.length + 2)
    (by simp only [Document.text, List.length_append]; omega)
  rw [skip_text, Reader.skip_lastComment] at hrest
  unfold read Reader.document
  rw [hread]
  simp only [hrest]
  rfl

end Saturation.Settings
