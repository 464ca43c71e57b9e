import Saturation.Proofs.Settings.RoundTrip

/-!
Rewriting is a normal form. What the reader gives can be written: it has no null, its integers fit
64 bits, its floats are finite, and its groups have names that can be read, each once and in order.
So every document that can be read is rewritten, and the text it is rewritten to depends on the
document alone.
-/

set_option autoImplicit false

namespace Saturation.Settings

/-! ## What can be written -/

namespace Value

mutual

/-- The values that a document can hold. -/
def IsWritable : Value → Prop
  | .null => False
  | .int n => Decimal.inInt64 n
  | .arr items => AreWritable items
  | .obj fields => AreWritableFields fields
  | .bool _ | .float _ | .str _ => True

def AreWritable : List Value → Prop
  | [] => True
  | v :: vs => v.IsWritable ∧ AreWritable vs

def AreWritableFields : List (String × Value) → Prop
  | [] => True
  | (name, v) :: fields => Reader.isName name.toList ∧ v.IsWritable ∧ AreWritableFields fields

end

theorem areWritable_iff (vs : List Value) : AreWritable vs ↔ ∀ v ∈ vs, v.IsWritable := by
  induction vs with
  | nil => simp [AreWritable]
  | cons v vs ih => simp [AreWritable, ih]

theorem areWritableFields_iff (fields : List (String × Value)) :
    AreWritableFields fields ↔ ∀ f ∈ fields, Reader.isName f.1.toList ∧ f.2.IsWritable := by
  induction fields with
  | nil => simp [AreWritableFields]
  | cons f fields ih => simp [AreWritableFields, ih, and_assoc]

theorem areDocuments_iff (vs : List Value) : AreDocuments vs ↔ ∀ v ∈ vs, v.IsDocument := by
  induction vs with
  | nil => simp [AreDocuments]
  | cons v vs ih => simp [AreDocuments, ih]

theorem areFields_iff (fields : List (String × Value)) :
    AreFields fields ↔ ∀ f ∈ fields, f.2.IsDocument := by
  induction fields with
  | nil => simp [AreFields]
  | cons f fields ih => simp [AreFields, ih]

end Value

namespace Writer

open Value (IsWritable AreWritable AreWritableFields)

mutual

/-- A value is written, wherever it is, exactly if a document can hold it. -/
theorem value_isOk (v : Value) (depth : Nat) (path : List Step) :
    (∃ text, value depth path v = .ok text) ↔ v.IsWritable := by
  cases v with
  | null => simp [value, IsWritable]
  | bool b => simp [value, IsWritable]
  | int n =>
    unfold value IsWritable
    split <;> simp_all
  | float x => simp [value, IsWritable]
  | str s => simp [value, IsWritable]
  | arr vs =>
    rw [IsWritable, ← items_isOk vs depth path 0]
    cases vs with
    | nil => simp [value, items]
    | cons v vs =>
      rw [value]
      cases items depth path 0 (v :: vs) <;> simp
  | obj fields =>
    rw [IsWritable, ← settings_isOk fields (depth + 1) path, value]
    cases settings (depth + 1) path fields <;> simp

theorem items_isOk (vs : List Value) (depth : Nat) (path : List Step) (i : Nat) :
    (∃ text, items depth path i vs = .ok text) ↔ AreWritable vs := by
  cases vs with
  | nil => simp [items, AreWritable]
  | cons v vs =>
    rw [AreWritable, ← value_isOk v depth (path ++ [.item i]), ← items_isOk vs depth path (i + 1),
      items]
    cases value depth (path ++ [.item i]) v with
    | error e => simp
    | ok first => cases items depth path (i + 1) vs <;> simp

theorem settings_isOk (fields : Group) (depth : Nat) (path : List Step) :
    (∃ text, settings depth path fields = .ok text) ↔ AreWritableFields fields := by
  cases fields with
  | nil => simp [settings, AreWritableFields]
  | cons f fields =>
    obtain ⟨name, v⟩ := f
    rw [AreWritableFields, ← value_isOk v depth (path ++ [.field name]),
      ← settings_isOk fields depth path, settings]
    cases hname : Reader.isName name.toList with
    | false => simp
    | true =>
      cases value depth (path ++ [.field name]) v with
      | error e => simp
      | ok first => cases settings depth path fields <;> simp

end

end Writer

/-! ## What is read -/

namespace Value

/-- The values that the reader gives. -/
def IsReadable (v : Value) : Prop := v.IsDocument ∧ v.IsWritable

theorem isReadable_arr {vs : List Value} (h : ∀ v ∈ vs, v.IsReadable) : (arr vs).IsReadable :=
  ⟨(areDocuments_iff vs).mpr fun v hv => (h v hv).1, (areWritable_iff vs).mpr fun v hv => (h v hv).2⟩

end Value

namespace Group

/-- Names that can be read, each once and in order, with values that can be read. -/
structure IsReadable (g : Group) : Prop where
  sorted : g.Pairwise fun f h => f.1 < h.1
  fields : ∀ f ∈ g, Reader.isName f.1.toList ∧ f.2.IsReadable

theorem IsReadable.obj {g : Group} (h : g.IsReadable) : (Value.obj g).IsReadable :=
  ⟨⟨h.sorted, (Value.areFields_iff g).mpr fun f hf => (h.fields f hf).2.1⟩,
    (Value.areWritableFields_iff g).mpr fun f hf => ⟨(h.fields f hf).1, (h.fields f hf).2.2⟩⟩

theorem isReadable_nil : IsReadable [] := ⟨.nil, by simp⟩

theorem mem_of_get? {g : Group} {name : String} {v : Value} (hv : g.get? name = some v) :
    (name, v) ∈ g := by
  induction g with
  | nil => cases hv
  | cons f g ih =>
    obtain ⟨k, w⟩ := f
    rw [get?] at hv
    split at hv
    · rename_i hk
      cases hv
      exact hk ▸ List.mem_cons_self
    · exact List.mem_cons_of_mem _ (ih hv)

/-- In a group in order, a field is found by its name. -/
theorem get?_eq_some_iff {g : Group} (h : g.Pairwise fun f h => f.1 < h.1) {name : String}
    {v : Value} : g.get? name = some v ↔ (name, v) ∈ g := by
  refine ⟨mem_of_get?, fun hv => ?_⟩
  induction g with
  | nil => cases hv
  | cons f g ih =>
    obtain ⟨k, w⟩ := f
    obtain ⟨hfirst, hrest⟩ := List.pairwise_cons.mp h
    rcases List.mem_cons.mp hv with hv | hv
    · cases hv
      exact if_pos rfl
    · have hne : name ≠ k := (hfirst _ hv).ne'
      rw [get?, if_neg hne, ih hrest hv]

theorem mem_insert {key : String} {v : Value} {g : Group} {f : String × Value}
    (h : f ∈ insert key v g) : f = (key, v) ∨ f ∈ g := by
  induction g with
  | nil => simpa [insert] using h
  | cons f' g ih =>
    obtain ⟨k, w⟩ := f'
    unfold insert at h
    split at h
    · simpa using h
    · split at h
      · simp only [List.mem_cons] at h ⊢
        tauto
      · simp only [List.mem_cons] at h ⊢
        tauto

theorem insert_sorted (key : String) (v : Value) {g : Group}
    (h : g.Pairwise fun f h => f.1 < h.1) : (insert key v g).Pairwise fun f h => f.1 < h.1 := by
  induction g with
  | nil => exact List.pairwise_singleton _ _
  | cons f g ih =>
    obtain ⟨k, w⟩ := f
    obtain ⟨hfirst, hrest⟩ := List.pairwise_cons.mp h
    unfold insert
    split
    · rename_i hk
      refine List.pairwise_cons.mpr ⟨?_, h⟩
      intro f hf
      rcases List.mem_cons.mp hf with rfl | hf
      · exact hk
      · exact hk.trans (hfirst f hf)
    · split
      · rename_i hk
        subst hk
        exact List.pairwise_cons.mpr ⟨hfirst, hrest⟩
      · rename_i hlt hne
        refine List.pairwise_cons.mpr ⟨?_, ih hrest⟩
        intro f hf
        rcases mem_insert hf with rfl | hf
        · exact lt_of_le_of_ne (not_lt.mp hlt) (Ne.symm hne)
        · exact hfirst f hf

theorem insert_insert (key : String) (u v : Value) (g : Group) :
    (g.insert key u).insert key v = g.insert key v := by
  induction g with
  | nil => simp [insert]
  | cons f g ih =>
    obtain ⟨k, w⟩ := f
    simp only [insert]
    split
    · simp [insert]
    · split
      · simp [insert]
      · rename_i hlt hne
        simp [insert, hlt, hne, ih]

theorem insert_comm {k l : String} (h : k ≠ l) (u v : Value) (g : Group) :
    (g.insert l u).insert k v = (g.insert k v).insert l u := by
  induction g with
  | nil =>
    rcases lt_or_gt_of_ne h with hkl | hlk
    · simp [insert, hkl, not_lt_of_gt hkl, h.symm]
    · simp [insert, hlk, not_lt_of_gt hlk, h]
  | cons f g ih =>
    obtain ⟨m, w⟩ := f
    simp only [insert]
    grind [insert]

theorem IsReadable.insert {g : Group} (h : g.IsReadable) {key : String} {v : Value}
    (hkey : Reader.isName key.toList) (hv : v.IsReadable) : (g.insert key v).IsReadable := by
  refine ⟨insert_sorted key v h.sorted, fun f hf => ?_⟩
  rcases mem_insert hf with rfl | hf
  · exact ⟨hkey, hv⟩
  · exact h.fields f hf

end Group

namespace Reader

theorem isName_of_name? {s name rest : List Char} (h : name? s = some (name, rest)) :
    isName name := by
  cases s with
  | nil => simp [name?] at h
  | cons c cs =>
    simp only [name?] at h
    split at h
    · rename_i hc
      simp only [Option.some.injEq, Prod.mk.injEq] at h
      rw [← h.1]
      simp only [isName, hc, Bool.true_and]
      exact List.all_takeWhile
    · cases h

theorem float?_isFinite {s rest : List Char} {x : Float} (h : float? s = some (x, rest)) :
    x.isFinite := by
  unfold float? at h
  simp only [] at h
  split at h
  · split at h
    · rename_i hx
      simp only [Option.some.injEq, Prod.mk.injEq] at h
      exact h.1 ▸ hx
    · cases h
  · cases h

theorem hex?_inInt64 {s rest : List Char} {n : Int} (h : hex? s = some (n, rest)) :
    Decimal.inInt64 n := by
  unfold hex? at h
  split at h
  · simp only [] at h
    split at h
    · rename_i hn
      simp only [Option.some.injEq, Prod.mk.injEq] at h
      exact h.1 ▸ hn.2
    · cases h
  · cases h

theorem integer?_inInt64 {s rest : List Char} {n : Int} (h : integer? s = some (n, rest)) :
    Decimal.inInt64 n := by
  unfold integer? at h
  cases hd : digits? (Decimal.signed s).2 with
  | none => simp [hd] at h
  | some r =>
    simp only [hd, Option.ite_none_right_eq_some, Option.some.injEq, Prod.mk.injEq] at h
    obtain ⟨hn, rfl, -⟩ := h
    exact hn

theorem scalar?_isReadable {s rest : List Char} {v : Value} (h : scalar? s = some (v, rest)) :
    v.IsReadable := by
  unfold scalar? at h
  split at h
  · cases h
    exact ⟨trivial, trivial⟩
  split at h
  · cases h
    exact ⟨trivial, trivial⟩
  split at h
  · rename_i hx
    cases h
    exact ⟨float?_isFinite hx, trivial⟩
  split at h
  · rename_i hn
    cases h
    exact ⟨trivial, hex?_inInt64 hn⟩
  split at h
  · rename_i hn
    cases h
    exact ⟨trivial, integer?_inInt64 hn⟩
  · cases h

theorem moreScalars_isReadable (n : Nat) :
    ∀ s : List Char, ∀ v ∈ (moreScalars n s).1, v.IsReadable := by
  induction n with
  | zero => simp [moreScalars]
  | succ n ih =>
    intro s
    unfold moreScalars
    split
    · split
      · rename_i hv
        exact List.forall_mem_cons.mpr ⟨scalar?_isReadable hv, ih _⟩
      · exact fun v hv => absurd hv List.not_mem_nil
    · exact fun v hv => absurd hv List.not_mem_nil

theorem scalars_isReadable (n : Nat) (s : List Char) : ∀ v ∈ (scalars n s).1, v.IsReadable := by
  unfold scalars
  split
  · rename_i hv
    exact List.forall_mem_cons.mpr ⟨scalar?_isReadable hv, moreScalars_isReadable n _⟩
  · exact fun v hv => absurd hv List.not_mem_nil

/-- Whatever is read within `n` steps can be written. -/
structure Sound (n : Nat) : Prop where
  value {s rest : List Char} {v : Value} (h : value n s = .found v rest) : v.IsReadable
  items {s rest : List Char} {vs : List Value} (h : items n s = .found vs rest) :
    ∀ v ∈ vs, v.IsReadable
  moreItems {s rest : List Char} {vs : List Value} (h : moreItems n s = .found vs rest) :
    ∀ v ∈ vs, v.IsReadable
  setting {s rest : List Char} {f : String × Value} (h : setting n s = .found f rest) :
    isName f.1.toList ∧ f.2.IsReadable
  settings {s rest : List Char} {before g : Group} (hb : before.IsReadable)
    (h : settings n s before = .found g rest) : g.IsReadable

namespace Sound

variable {n : Nat} {s rest : List Char}

theorem value_succ (hn : Sound n) {v : Value} (h : Reader.value (n + 1) s = .found v rest) :
    v.IsReadable := by
  unfold Reader.value at h
  split at h
  case h_1 h0 => cases h0
  case h_2 m cs h0 =>
    cases h0
    split at h
    · rename_i fields _ hfields
      split at h
      · cases h
        exact (hn.settings Group.isReadable_nil hfields).obj
      · cases h
    · cases h
    · cases h
  case h_3 m cs h0 =>
    cases h0
    have hitems := scalars_isReadable n cs
    cases hs : scalars n cs with
    | mk vs rest' =>
      rw [hs] at h hitems
      simp only [] at h
      split at h
      · cases h
        exact Value.isReadable_arr hitems
      · cases h
  case h_4 m cs h0 =>
    cases h0
    split at h
    · rename_i vs _ hitems
      split at h
      · cases h
        exact Value.isReadable_arr (hn.items hitems)
      · cases h
    · cases h
    · cases h
  case h_5 =>
    split at h
    · rename_i hv
      cases h
      exact scalar?_isReadable hv
    · cases h

theorem items_succ (hn : Sound n) {vs : List Value}
    (h : Reader.items (n + 1) s = .found vs rest) : ∀ v ∈ vs, v.IsReadable := by
  unfold Reader.items at h
  split at h
  · rename_i hv
    split at h
    · rename_i hvs
      cases h
      exact List.forall_mem_cons.mpr ⟨hn.value hv, hn.moreItems hvs⟩
    · cases h
    · cases h
  · cases h
    simp
  · cases h

theorem moreItems_succ (hn : Sound n) {vs : List Value}
    (h : Reader.moreItems (n + 1) s = .found vs rest) : ∀ v ∈ vs, v.IsReadable := by
  unfold Reader.moreItems at h
  split at h
  · split at h
    · rename_i hv
      split at h
      · rename_i hvs
        cases h
        exact List.forall_mem_cons.mpr ⟨hn.value hv, hn.moreItems hvs⟩
      · cases h
      · cases h
    · cases h
      simp
    · cases h
  · cases h
    simp

theorem setting_succ (hn : Sound n) {f : String × Value}
    (h : Reader.setting (n + 1) s = .found f rest) : isName f.1.toList ∧ f.2.IsReadable := by
  unfold Reader.setting at h
  split at h
  · rename_i name _ hname
    split at h
    · split at h
      · split at h
        · rename_i v _ hv
          cases h
          exact ⟨by simpa using isName_of_name? hname, hn.value hv⟩
        · cases h
        · cases h
      · cases h
    · cases h
  · cases h

theorem settings_succ (hn : Sound n) {before g : Group} (hb : before.IsReadable)
    (h : Reader.settings (n + 1) s before = .found g rest) : g.IsReadable := by
  unfold Reader.settings at h
  split at h
  · rename_i name v _ hset
    obtain ⟨hname, hv⟩ := hn.setting hset
    exact hn.settings (hb.insert hname hv) h
  · cases h
    exact hb
  · cases h

end Sound

theorem sound (n : Nat) : Sound n := by
  induction n with
  | zero =>
    constructor
    · intro s rest v h
      simp [value] at h
    · intro s rest vs h
      simp [items] at h
    · intro s rest vs h
      simp [moreItems] at h
    · intro s rest f h
      simp [setting] at h
    · intro s rest before g hb h
      simp [settings] at h
  | succ n hn =>
    exact ⟨hn.value_succ, hn.items_succ, hn.moreItems_succ, hn.setting_succ, hn.settings_succ⟩

end Reader

theorem read_isReadable {text : List Char} {d : Group} (h : read text = .ok d) :
    Group.IsReadable d := by
  unfold read at h
  split at h
  · rename_i fields hdoc
    cases h
    unfold Reader.document at hdoc
    split at hdoc
    · rename_i g rest hset
      split at hdoc
      · cases hdoc
        exact (Reader.sound _).settings Group.isReadable_nil hset
      · cases hdoc
    · cases hdoc
    · cases hdoc
  · cases h

/-! ## Rewriting -/

namespace Value

mutual

/-- Documents with equal values at the same places; floats are compared by their bits. -/
def Identical : Value → Value → Prop
  | .null, .null => True
  | .bool a, .bool b => a = b
  | .int a, .int b => a = b
  | .float x, .float y => x.toBits = y.toBits
  | .str a, .str b => a = b
  | .arr vs, .arr ws => IdenticalItems vs ws
  | .obj f, .obj g => IdenticalFields f g
  | _, _ => False

def IdenticalItems : List Value → List Value → Prop
  | [], [] => True
  | v :: vs, w :: ws => Identical v w ∧ IdenticalItems vs ws
  | _, _ => False

def IdenticalFields : List (String × Value) → List (String × Value) → Prop
  | [], [] => True
  | (k, v) :: f, (l, w) :: g => k = l ∧ Identical v w ∧ IdenticalFields f g
  | _, _ => False

end

mutual

theorem identical_iff (v w : Value) : Identical v w ↔ v = w := by
  cases v <;> cases w <;> simp only [Identical, reduceCtorEq]
  case float.float x y => rw [Float.toBits_inj, float.injEq]
  case bool.bool a b => rw [bool.injEq]
  case int.int a b => rw [int.injEq]
  case str.str a b => rw [str.injEq]
  case arr.arr vs ws => rw [identicalItems_iff vs ws, arr.injEq]
  case obj.obj f g => rw [identicalFields_iff f g, obj.injEq]

theorem identicalItems_iff (vs ws : List Value) : IdenticalItems vs ws ↔ vs = ws := by
  cases vs with
  | nil => cases ws <;> simp [IdenticalItems]
  | cons v vs =>
    cases ws with
    | nil => simp [IdenticalItems]
    | cons w ws =>
      rw [IdenticalItems, identical_iff v w, identicalItems_iff vs ws, List.cons.injEq]

theorem identicalFields_iff (f g : List (String × Value)) : IdenticalFields f g ↔ f = g := by
  cases f with
  | nil => cases g <;> simp [IdenticalFields]
  | cons x f =>
    cases g with
    | nil => simp [IdenticalFields]
    | cons y g =>
      obtain ⟨k, v⟩ := x
      obtain ⟨l, w⟩ := y
      rw [IdenticalFields, identical_iff v w, identicalFields_iff f g, List.cons.injEq,
        Prod.mk.injEq, and_assoc]

end

end Value

theorem document_written {d : Group} (hd : d.IsReadable) {text : List Char}
    (hw : write d = .ok text) : Reader.document text = .ok d := by
  obtain ⟨rest, hread, hrest⟩ := Writer.settings_written d hw hd.obj.1.2 hd.sorted (g := [])
    (by simp) (t := text) (s := []) (by simp) (by simp [Reader.name?])
    (n := 2 * text.length + 2) (Nat.le_refl _)
  unfold Reader.document
  simp [hread, hrest]

/-- Every document that can be read is rewritten to a text that reads as the same document and is
rewritten to itself, and another document is rewritten to this text exactly if it is identical. -/
theorem rewrite_isNormal {text : List Char} {d : Group} (h : read text = .ok d) :
    ∃ t, write d = .ok t ∧ read t = .ok d ∧ (∀ e, read t = .ok e → write e = .ok t) ∧
      ∀ other e, read other = .ok e →
        (write e = .ok t ↔ Value.IdenticalFields d e) := by
  have hd := read_isReadable h
  obtain ⟨t, ht⟩ := (Writer.settings_isOk d 0 []).mpr hd.obj.2
  have hread : read t = .ok d := by
    rw [read, document_written hd ht]
  refine ⟨t, ht, hread, ?_, ?_⟩
  · intro e he
    rw [hread] at he
    cases he
    exact ht
  · intro other e he
    rw [Value.identicalFields_iff]
    constructor
    · intro hw
      have := document_written (read_isReadable he) hw
      rw [read, this] at hread
      cases hread
      rfl
    · rintro rfl
      exact ht

/-- A document with comments, a repeated name, and settings with and without a terminator. -/
def loose : String :=
  "b=1;a:\x7bx=0x1F,\x7d # end\nb=2.50 /* again */ c=(\"u\"\n\"v\",[tRuE])"

theorem rewrite_isNormal_loose : ∃ d, read loose.toList = .ok d ∧
    ∃ t, write d = .ok t ∧ read t = .ok d ∧ (∀ e, read t = .ok e → write e = .ok t) ∧
      ∀ other e, read other = .ok e → (write e = .ok t ↔ Value.IdenticalFields d e) := by
  have hok : (read loose.toList).isOk = true := by decide +kernel
  cases h : read loose.toList with
  | error e => simp [h, Except.isOk, Except.toBool] at hok
  | ok d => exact ⟨d, rfl, rewrite_isNormal h⟩

example : ((read loose.toList).toOption.bind fun d => (write d).toOption) =
    some "a = \x7b\n    x = 31;\n\x7d;\nb = 2.5;\nc = ( \"uv\", [ true ] );\n".toList := by
  decide +kernel

end Saturation.Settings
