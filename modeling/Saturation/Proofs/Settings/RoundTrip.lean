import Saturation.Proofs.Decimal.Layout
import Saturation.Proofs.Settings.Numerals

/-!
A written document reads back as the document: every value has its type again, and arrays and lists
have their items in order.

The steps of the reader are bounded by twice the length of what is written. What follows a value in
a document is fixed by `Ends`; a group may be followed by whatever is no name.
-/

set_option autoImplicit false

namespace Saturation.Settings

theorem Group.insert_append {name : String} {v : Value} {g : Group}
    (h : ∀ f ∈ g, f.1 < name) : Group.insert name v g = g ++ [(name, v)] := by
  induction g with
  | nil => rfl
  | cons f g ih =>
    obtain ⟨k, w⟩ := f
    have hk : k < name := h (k, w) (by simp)
    have hne : ¬ name = k := by
      rintro rfl
      exact String.lt_irrefl _ hk
    simp only [Group.insert, if_neg (String.lt_asymm hk), if_neg hne, List.cons_append]
    rw [ih (fun f hf => h f (by simp [hf]))]

mutual

/-- The values of documents: floats are finite, and a group has each name once, in order. -/
def Value.IsDocument : Value → Prop
  | .float x => x.isFinite
  | .arr items => AreDocuments items
  | .obj fields => fields.Pairwise (fun f g => f.1 < g.1) ∧ AreFields fields
  | .null | .bool _ | .int _ | .str _ => True

def Value.AreDocuments : List Value → Prop
  | [] => True
  | v :: vs => v.IsDocument ∧ AreDocuments vs

def Value.AreFields : List (String × Value) → Prop
  | [] => True
  | (_, v) :: fields => v.IsDocument ∧ AreFields fields

end

namespace Reader

theorem scalar?_of_layout {c : Char} (h : isLayout c ∨ c = '#' ∨ c = '/') (s : List Char) :
    scalar? (c :: s) = none := by
  have hc : c ∈ [' ', '\t', '\r', '\n', '#', '/'] := by
    simp only [isLayout, Bool.or_eq_true, beq_iff_eq] at h
    simp
    tauto
  simp only [List.mem_cons, List.not_mem_nil, or_false] at hc
  rcases hc with rfl | rfl | rfl | rfl | rfl | rfl <;>
    simp [scalar?, boolean?, word?, string?, quoted?, float?, Decimal.signed, floatParts?, digits?,
      hex?, integer?]

/-- Behind an opening bracket there is no scalar; everything else is read as one. -/
theorem value_scalar {s : List Char} (h : ∀ c ∈ s.head?, c ≠ '\x7b' ∧ c ≠ '[' ∧ c ≠ '(') (n : Nat) :
    value (n + 1) s = match scalar? s with
      | some (v, rest) => .found v rest
      | none => .missed s := by
  unfold value
  split
  case h_1 h0 => cases h0
  case h_2 => exact absurd rfl (h '\x7b' rfl).1
  case h_3 => exact absurd rfl (h '[' rfl).2.1
  case h_4 => exact absurd rfl (h '(' rfl).2.2
  case h_5 => rfl

theorem value_of_scalar? {s rest : List Char} {v : Value} (h : scalar? s = some (v, rest))
    (n : Nat) : value (n + 1) s = .found v rest := by
  rw [value_scalar, h]
  intro c hc
  cases s with
  | nil => simp at hc
  | cons d cs =>
    simp only [List.head?_cons, Option.mem_def, Option.some.injEq] at hc
    subst hc
    refine ⟨?_, ?_, ?_⟩ <;> rintro rfl <;>
      simp [scalar?, boolean?, word?, string?, quoted?, float?, Decimal.signed, floatParts?,
        digits?, hex?, integer?] at h

/-- A value is read only where no layout stands in front of it. -/
theorem skip_of_value {n : Nat} {s rest : List Char} {v : Value}
    (h : value n s = .found v rest) : skip s = s := by
  cases n with
  | zero => simp [value] at h
  | succ n =>
    cases s with
    | nil => exact skip_nil
    | cons c cs =>
      by_cases hc : isLayout c ∨ c = '#' ∨ c = '/'
      · rw [value_scalar, scalar?_of_layout hc] at h
        · cases h
        · intro d hd
          simp only [List.head?_cons, Option.mem_def, Option.some.injEq] at hd
          subst hd
          refine ⟨?_, ?_, ?_⟩ <;> (rintro rfl; revert hc; decide)
      · simp only [not_or, Bool.not_eq_true] at hc
        exact skip_token hc.1 hc.2.1 hc.2.2 cs

theorem value_group {n : Nat} {cs rest s : List Char} {fields : Group}
    (h : settings n cs [] = .found fields rest) (hr : skip rest = '\x7d' :: s) :
    value (n + 1) ('\x7b' :: cs) = .found (.obj fields) s := by
  rw [value, h]
  simp only [hr]

theorem value_array {n : Nat} {cs rest s : List Char} {vs : List Value}
    (h : scalars n cs = (vs, rest)) (hr : skip rest = ']' :: s) :
    value (n + 1) ('[' :: cs) = .found (.arr vs) s := by
  rw [value]
  simp only [h, hr]

theorem value_list {n : Nat} {cs rest s : List Char} {vs : List Value}
    (h : items n cs = .found vs rest) (hr : skip rest = ')' :: s) :
    value (n + 1) ('(' :: cs) = .found (.arr vs) s := by
  rw [value, h]
  simp only [hr]

end Reader

namespace Writer

open Reader

/-! ## Scalars -/

theorem scalar_cases {v : Value} (h : (scalarKind? v).isSome) :
    (∃ b, v = .bool b) ∨ (∃ n, v = .int n) ∨ (∃ x, v = .float x) ∨ ∃ t, v = .str t := by
  cases v <;> simp [scalarKind?] at h ⊢

theorem scalar?_value {v : Value} {depth : Nat} {path : List Step} {text s : List Char}
    (hk : (scalarKind? v).isSome) (hd : v.IsDocument) (hw : value depth path v = .ok text)
    (hs : Ends s) : scalar? (text ++ s) = some (v, s) := by
  obtain ⟨b, rfl⟩ | ⟨n, rfl⟩ | ⟨x, rfl⟩ | ⟨t, rfl⟩ := scalar_cases hk
  · simp only [value, Except.ok.injEq] at hw
    subst hw
    cases b <;> simp [scalar?, boolean?, word?]
  · simp only [value] at hw
    split at hw
    · rename_i hn
      cases hw
      exact scalar?_integer hn hs
    · cases hw
  · simp only [value, Except.ok.injEq] at hw
    subst hw
    simp only [Value.IsDocument] at hd
    have hm := hasMark_ofFloat floatLayout ((Double.isFinite_ofFloat x).trans hd)
    exact scalar?_decimal (floatLayout.double?_ofFloat hd) hm hd (hs.afterDigits (.inl rfl))
  · simp only [value, Except.ok.injEq] at hw
    subst hw
    have hb : boolean? (quoted t ++ s) = none := by simp [quoted, boolean?, word?]
    simp [scalar?, hb, string?_quoted t hs]

theorem scalar?_ends {s : List Char} (h : Ends s) : scalar? s = none := by
  cases h <;>
    simp [scalar?, boolean?, word?, string?, quoted?, float?, Decimal.signed, floatParts?, digits?,
      hex?, integer?]

theorem scalar?_of_close {c : Char} (h : c = ']' ∨ c = ')') (s : List Char) :
    scalar? (c :: s) = none := by
  rcases h with rfl | rfl <;>
    simp [scalar?, boolean?, word?, string?, quoted?, float?, Decimal.signed, floatParts?, digits?,
      hex?, integer?]

theorem value_of_scalar {v : Value} {depth : Nat} {path : List Step} {text s : List Char}
    (hk : (scalarKind? v).isSome) (hd : v.IsDocument) (hw : value depth path v = .ok text)
    (hs : Ends s) {n : Nat} (hn : 2 * text.length ≤ n) :
    Reader.value n (text ++ s) = .found v s := by
  have h := scalar?_value hk hd hw hs
  have hne : text ≠ [] := by
    rintro rfl
    rw [List.nil_append, scalar?_ends hs] at h
    cases h
  have hlen := List.length_pos_iff.mpr hne
  obtain ⟨m, rfl⟩ : ∃ m, n = m + 1 := ⟨n - 1, by omega⟩
  exact value_of_scalar? h m

/-! ## Sequences -/

/-- The items behind the first one of a sequence, with the comma in front of them. -/
def furtherText (vs : List Value) (text : List Char) : List Char :=
  if vs.isEmpty then [] else ',' :: ' ' :: text

theorem furtherText_nil (text : List Char) : furtherText [] text = [] := rfl

theorem furtherText_cons (v : Value) (vs : List Value) (text : List Char) :
    furtherText (v :: vs) text = ',' :: ' ' :: text := rfl

theorem items_cons {depth i : Nat} {path : List Step} {v : Value} {vs : List Value}
    {text : List Char} (h : items depth path i (v :: vs) = .ok text) :
    ∃ first more, value depth (path ++ [.item i]) v = .ok first ∧
      items depth path (i + 1) vs = .ok more ∧ text = first ++ furtherText vs more := by
  simp only [items] at h
  split at h
  · cases h
  · rename_i first hv
    split at h
    · cases h
    · rename_i more hvs
      refine ⟨first, more, hv, hvs, ?_⟩
      cases h
      unfold furtherText
      split <;> simp

theorem ends_further (vs : List Value) (more : List Char) {s : List Char} (hs : Ends s) :
    Ends (furtherText vs more ++ s) := by
  unfold furtherText
  split
  · exact hs
  · exact .comma _

theorem skip_scalar {s rest : List Char} {v : Value} (h : scalar? s = some (v, rest)) :
    skip s = s := skip_of_value (value_of_scalar? h 0)

theorem moreScalars_further {vs : List Value} {depth i : Nat} {path : List Step}
    {text : List Char} (hk : ∀ v ∈ vs, (scalarKind? v).isSome) (hd : Value.AreDocuments vs)
    (hw : items depth path i vs = .ok text) (s : List Char) {n : Nat} (hn : vs.length ≤ n) :
    moreScalars n (furtherText vs text ++ ' ' :: ']' :: s) = (vs, ' ' :: ']' :: s) := by
  induction vs generalizing i text n with
  | nil =>
    cases n with
    | zero => rfl
    | succ n =>
      rw [furtherText_nil, List.nil_append, moreScalars, skip_layout (by decide),
        skip_token (by decide) (by decide) (by decide)]
      rfl
  | cons v vs ih =>
    obtain ⟨m, rfl⟩ : ∃ m, n = m + 1 := ⟨n - 1, by simp at hn; omega⟩
    obtain ⟨first, more, hfirst, hmore, rfl⟩ := items_cons hw
    obtain ⟨hv, hvs⟩ := hd
    have hend := ends_further vs more (.bracket s)
    have hscalar := scalar?_value (hk v (by simp)) hv hfirst hend
    have hrest := ih (fun w hw => hk w (by simp [hw])) hvs hmore (n := m) (by simpa using hn)
    rw [furtherText_cons]
    simp only [List.cons_append, List.append_assoc]
    rw [moreScalars, skip_token (by decide) (by decide) (by decide)]
    simp only [skip_layout (c := ' ') (by decide), skip_scalar hscalar, hscalar, hrest]

theorem length_le_furtherText {vs : List Value} {depth i : Nat} {path : List Step}
    {text : List Char} (hw : items depth path i vs = .ok text) :
    vs.length ≤ (furtherText vs text).length := by
  induction vs generalizing i text with
  | nil => simp
  | cons v vs ih =>
    obtain ⟨first, more, hfirst, hmore, rfl⟩ := items_cons hw
    have hrest := ih hmore
    simp [furtherText] at hrest ⊢
    omega

/-- Scalars of one kind are written in brackets, and are read as scalars. -/
theorem value_of_array {v : Value} {vs : List Value} (ha : isArray (v :: vs))
    (hd : Value.AreDocuments (v :: vs)) {depth : Nat} {path : List Step} {text : List Char}
    (hw : items depth path 0 (v :: vs) = .ok text) (s : List Char) {n : Nat}
    (hn : text.length ≤ n) :
    Reader.value (n + 1) ('[' :: ' ' :: (text ++ ' ' :: ']' :: s)) = .found (.arr (v :: vs)) s := by
  simp only [isArray, Bool.and_eq_true, List.all_eq_true, beq_iff_eq] at ha
  obtain ⟨first, more, hfirst, hmore, rfl⟩ := items_cons hw
  obtain ⟨hv, hvs⟩ := hd
  have hlen := length_le_furtherText hmore
  have hscalar := scalar?_value ha.1 hv hfirst (ends_further vs more (.bracket s))
  have hrest := moreScalars_further (fun w hw => ha.2 w hw ▸ ha.1) hvs hmore s (n := n)
    (by simp at hn; omega)
  have hread : scalars n (' ' :: (first ++ furtherText vs more ++ ' ' :: ']' :: s)) =
      (v :: vs, ' ' :: ']' :: s) := by
    unfold scalars
    rw [skip_layout (by decide), List.append_assoc, skip_scalar hscalar, hscalar]
    simp only [hrest]
  refine value_array hread ?_
  rw [skip_layout (by decide), skip_token (by decide) (by decide) (by decide)]

/-! ## Groups -/

theorem settings_cons {depth : Nat} {path : List Step} {name : String} {v : Value}
    {fields : Group} {text : List Char}
    (h : settings depth path ((name, v) :: fields) = .ok text) :
    ∃ first more, isName name.toList ∧ value depth (path ++ [.field name]) v = .ok first ∧
      settings depth path fields = .ok more ∧
      text = indent depth ++ (name.toList ++ ' ' :: '=' :: ' ' :: (first ++ ';' :: '\n' :: more)) := by
  simp only [settings] at h
  split at h
  · rename_i hname
    split at h
    · cases h
    · rename_i first hv
      split at h
      · cases h
      · rename_i more hmore
        refine ⟨first, more, hname, hv, hmore, ?_⟩
        cases h
        simp
  · cases h

/-- One written setting, wherever its layout begins. -/
theorem setting_written {name : String} {v : Value} {first t s : List Char} {n : Nat}
    (hname : isName name.toList)
    (ht : skip t = skip (name.toList ++ ' ' :: '=' :: ' ' :: (first ++ ';' :: s)))
    (hv : Reader.value n (first ++ ';' :: s) = .found v (';' :: s)) :
    setting (n + 1) t = .found (name, v) s := by
  rw [setting, ht, name?_append hname]
  simp only [skip_layout (c := ' ') (by decide),
    skip_token (c := '=') (by decide) (by decide) (by decide), true_or, if_true,
    skip_of_value hv, hv, terminated, skip_token (c := ';') (by decide) (by decide) (by decide),
    String.ofList_toList]

mutual

theorem value_written (v : Value) {depth : Nat} {path : List Step} {text : List Char}
    (hw : value depth path v = .ok text) (hd : v.IsDocument) {s : List Char} (hs : Ends s)
    {n : Nat} (hn : 2 * text.length ≤ n) : Reader.value n (text ++ s) = .found v s := by
  cases v with
  | null => simp [value] at hw
  | bool b => exact value_of_scalar rfl hd hw hs hn
  | int m => exact value_of_scalar rfl hd hw hs hn
  | float x => exact value_of_scalar rfl hd hw hs hn
  | str t => exact value_of_scalar rfl hd hw hs hn
  | arr vs =>
    cases vs with
    | nil =>
      simp only [value, Except.ok.injEq] at hw
      subst hw
      obtain ⟨m, rfl⟩ : ∃ m, n = m + 1 := ⟨n - 1, by simp at hn; omega⟩
      have hread : scalars m (' ' :: ']' :: s) = ([], ' ' :: ']' :: s) := by
        unfold scalars
        rw [skip_layout (by decide), skip_token (by decide) (by decide) (by decide),
          scalar?_of_close (.inl rfl)]
      exact value_array hread
        (by rw [skip_layout (by decide), skip_token (by decide) (by decide) (by decide)])
    | cons v vs =>
      simp only [value] at hw
      split at hw
      · rename_i text hitems
        split at hw
        · rename_i ha
          cases hw
          obtain ⟨m, rfl⟩ : ∃ m, n = m + 1 := ⟨n - 1, by simp at hn; omega⟩
          have h := value_of_array ha hd hitems s (n := m) (by simp at hn; omega)
          simpa using h
        · cases hw
          obtain ⟨first, more, hfirst, hmore, rfl⟩ := items_cons hitems
          obtain ⟨m, rfl⟩ : ∃ m, n = m + 2 := ⟨n - 2, by simp at hn; omega⟩
          have hv := value_written v hfirst hd.1 (ends_further vs more (.paren s)) (n := m)
            (by simp at hn; omega)
          have hvs := items_written vs hmore hd.2 s (n := m) (by simp at hn; omega)
          have hread : Reader.items (m + 1)
              (' ' :: (first ++ (furtherText vs more ++ ' ' :: ')' :: s))) =
              .found (v :: vs) (' ' :: ')' :: s) := by
            rw [Reader.items, skip_layout (by decide), skip_of_value hv, hv]
            simp only [hvs]
          have h := value_list hread
            (by rw [skip_layout (by decide), skip_token (by decide) (by decide) (by decide)])
          simpa using h
      · cases hw
  | obj fields =>
    simp only [value] at hw
    split at hw
    · rename_i text hfields
      cases hw
      obtain ⟨m, rfl⟩ : ∃ m, n = m + 1 := ⟨n - 1, by simp at hn; omega⟩
      obtain ⟨rest, hread, hrest⟩ := settings_written fields hfields hd.2 hd.1 (g := [])
        (by simp) (t := '\n' :: (text ++ (indent depth ++ '\x7d' :: s)))
        (s := indent depth ++ '\x7d' :: s) (skip_layout (by decide) _)
        (by rw [skip_indent, skip_token (by decide) (by decide) (by decide)]; simp [name?]; decide)
        (n := m) (by simp at hn; omega)
      have h := value_group hread
        (by rw [hrest, skip_indent, skip_token (by decide) (by decide) (by decide)])
      simpa using h
    · cases hw

theorem items_written (vs : List Value) {depth i : Nat} {path : List Step} {text : List Char}
    (hw : items depth path i vs = .ok text) (hd : Value.AreDocuments vs) (s : List Char)
    {n : Nat} (hn : 2 * (furtherText vs text).length + 1 ≤ n) :
    moreItems n (furtherText vs text ++ ' ' :: ')' :: s) = .found vs (' ' :: ')' :: s) := by
  obtain ⟨m, rfl⟩ : ∃ m, n = m + 1 := ⟨n - 1, by omega⟩
  cases vs with
  | nil =>
    rw [furtherText_nil, List.nil_append, moreItems, skip_layout (by decide),
      skip_token (by decide) (by decide) (by decide)]
    rfl
  | cons v vs =>
    obtain ⟨first, more, hfirst, hmore, rfl⟩ := items_cons hw
    rw [furtherText_cons] at hn ⊢
    have hv := value_written v hfirst hd.1 (ends_further vs more (.paren s)) (n := m)
      (by simp at hn; omega)
    have hvs := items_written vs hmore hd.2 s (n := m) (by simp at hn; omega)
    simp only [List.cons_append, List.append_assoc]
    rw [moreItems, skip_token (by decide) (by decide) (by decide)]
    simp only [skip_layout (c := ' ') (by decide), skip_of_value hv, hv, hvs]

theorem settings_written (fields : Group) {depth : Nat} {path : List Step} {text : List Char}
    (hw : settings depth path fields = .ok text) (hd : Value.AreFields fields)
    (hsorted : fields.Pairwise fun f g => f.1 < g.1) {g : Group}
    (hg : ∀ f ∈ g, ∀ k ∈ fields, f.1 < k.1) {t s : List Char}
    (ht : skip t = skip (text ++ s)) (hs : name? (skip s) = none) {n : Nat}
    (hn : 2 * text.length + 2 ≤ n) :
    ∃ rest, Reader.settings n t g = .found (g ++ fields) rest ∧ skip rest = skip s := by
  obtain ⟨m, rfl⟩ : ∃ m, n = m + 2 := ⟨n - 2, by omega⟩
  cases fields with
  | nil =>
    simp only [settings, Except.ok.injEq] at hw
    subst hw
    refine ⟨t, ?_, ht⟩
    rw [Reader.settings, setting, ht, List.nil_append, hs]
    simp
  | cons f fields =>
    obtain ⟨name, v⟩ := f
    obtain ⟨first, more, hname, hfirst, hmore, rfl⟩ := settings_cons hw
    have hv := value_written v hfirst hd.1 (.semicolon ('\n' :: (more ++ s))) (n := m)
      (by simp at hn; omega)
    have hset := setting_written (t := t) hname (by rw [ht]; simp) hv
    have hkeys := List.pairwise_cons.mp hsorted
    have hinsert := Group.insert_append (v := v) fun f hf => hg f hf (name, v) (by simp)
    obtain ⟨rest, hread, hrest⟩ := settings_written fields hmore hd.2 hkeys.2
      (g := g ++ [(name, v)])
      (by
        intro f hf k hk
        rcases List.mem_append.mp hf with hf | hf
        · exact hg f hf k (by simp [hk])
        · rw [List.mem_singleton.mp hf]
          exact hkeys.1 k hk)
      (t := '\n' :: (more ++ s)) (skip_layout (by decide) _) hs (n := m + 1)
      (by simp at hn; omega)
    refine ⟨rest, ?_, hrest⟩
    rw [Reader.settings, hset]
    simp only [hinsert, hread, List.append_assoc, List.singleton_append]

end

end Writer

theorem exists_of_isOk {ε α : Type} {r : Except ε α} (h : r.isOk = true) : ∃ a, r = .ok a := by
  cases r with
  | ok a => exact ⟨a, rfl⟩
  | error e => cases h

theorem read_write {root : Group} {text : List Char} (hd : (Value.obj root).IsDocument)
    (hw : write root = .ok text) : read text = .ok root := by
  obtain ⟨rest, hread, hrest⟩ := Writer.settings_written root hw hd.2 hd.1 (g := [])
    (by simp) (t := text) (s := []) (by simp) (by simp [Reader.name?])
    (n := 2 * text.length + 2) (Nat.le_refl _)
  unfold read Reader.document
  simp [hread, hrest]

/-- Settings with values of every kind: both forms of sequences, a long integer, a negative zero, an
exponent and escapes. -/
def mixed : Group :=
  [("a", .obj [("x", .float 1.5), ("y", .float (-0.0))]),
    ("b", .arr [.int 3000000000, .float 1e300, .str "q\"\n\x01"]),
    ("c", .arr [.int 1, .int (-2)]), ("d", .arr [])]

def mixedText : String :=
  "a = \x7b\n    x = 1.5;\n    y = -0.0;\n\x7d;\n" ++
    "b = ( 3000000000L, 1e300, \"q\\\"\\n\\x01\" );\nc = [ 1, -2 ];\nd = [ ];\n"

theorem read_write_mixed :
    write mixed = .ok mixedText.toList ∧ read mixedText.toList = .ok mixed := by
  have hx : Float.isFinite 1.5 := by decide +kernel
  have hy : Float.isFinite (-0.0) := by decide +kernel
  have hz : Float.isFinite 1e300 := by decide +kernel
  have ha : (Value.obj [("x", .float 1.5), ("y", .float (-0.0))]).IsDocument :=
    ⟨by decide +kernel, hx, hy, trivial⟩
  have hd : (Value.obj mixed).IsDocument :=
    ⟨by decide +kernel, ha, ⟨trivial, hz, trivial, trivial⟩, ⟨trivial, trivial, trivial⟩, trivial,
      trivial⟩
  have hw : write mixed = .ok mixedText.toList := by decide +kernel
  exact ⟨hw, read_write hd hw⟩

end Saturation.Settings
