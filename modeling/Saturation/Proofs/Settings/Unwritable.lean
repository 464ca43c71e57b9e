import Mathlib.Data.List.Lex
import Mathlib.Data.Set.Image
import Saturation.Proofs.Settings.Normal

/-!
What cannot be written. A group is refused exactly if it has a fault somewhere: a name that could not
be read back, a null, or an integer outside the signed 64-bit range. The one that is reported comes
before all others when the group is gone through in the order of names and of items, a name in front
of the value that it has.
-/

set_option autoImplicit false

namespace Saturation.Settings

/-! ## Faults and their places -/

namespace Value

def step? : Step → Value → Option Value
  | .item i, .arr items => items[i]?
  | .field name, .obj fields => Group.get? name fields
  | _, _ => none

/-- The part of a value at a path. -/
def part? : List Step → Value → Option Value
  | [], v => some v
  | s :: path, v => (v.step? s).bind (part? path)

/-- What no document can hold, in a value apart from its parts. -/
inductive HasFault : Value → WriteError → Prop
  | name {g : Group} {key : String} {v : Value} (h : Group.get? key g = some v)
      (hkey : Reader.isName key.toList = false) : HasFault (.obj g) ⟨[.field key], .settingName⟩
  | null : HasFault .null ⟨[], .null⟩
  | integer {n : Int} (h : n < -2 ^ 63 ∨ 2 ^ 63 - 1 < n) : HasFault (.int n) ⟨[], .wideInteger⟩

end Value

namespace WriteError

/-- A fault of the part at a path, as one of the whole. -/
def under (path : List Step) (e : WriteError) : WriteError := ⟨path ++ e.path, e.kind⟩

end WriteError

/-- All faults at any depth. -/
def Value.faults (v : Value) : Set WriteError :=
  {e | ∃ path w f, v.part? path = some w ∧ w.HasFault f ∧ e = f.under path}

/-! ## The order of places -/

/-- Names in their order, items by their index. -/
def Step.Before : Step → Step → Prop
  | .field k, .field l => k < l
  | .item i, .item j => i < j
  | _, _ => False

instance : Std.Asymm Step.Before where
  asymm s t h := by
    cases s <;> cases t
    · exact fun h' => String.lt_asymm h h'
    · exact h.elim
    · exact h.elim
    · exact Nat.lt_asymm h

/-- The steps of a path as a text: a point in front of a name, brackets around an index. -/
def Step.text : Step → String
  | .field name => "." ++ name
  | .item i => s!"[{i}]"

namespace WriteError

/-- The order in which a group is gone through. What contains a place comes in front of it, and the
name of a setting in front of the value. -/
def Before (e f : WriteError) : Prop :=
  List.Lex Step.Before e.path f.path ∨
    e.path = f.path ∧ e.kind = .settingName ∧ f.kind ≠ .settingName

structure IsFirst (S : Set WriteError) (e : WriteError) : Prop where
  mem : e ∈ S
  first : ∀ f ∈ S, f = e ∨ e.Before f

variable {S T : Set WriteError} {e f : WriteError} {path : List Step} {s t : Step}

@[simp] theorem under_nil (e : WriteError) : e.under [] = e := rfl

theorem under_under (p q : List Step) (e : WriteError) : (e.under p).under q = e.under (q ++ p) := by
  simp [under]

theorem Before.under (h : e.Before f) (path : List Step) : (e.under path).Before (f.under path) := by
  rcases h with h | ⟨h, hkind⟩
  · exact .inl (h.append_left _ path)
  · exact .inr ⟨congrArg (path ++ ·) h, hkind⟩

theorem before_of_step (h : s.Before t) (e f : WriteError) :
    (e.under [s]).Before (f.under [t]) := .inl (.rel h)

theorem Before.asymm (h : e.Before f) : ¬ f.Before e := by
  rintro (h' | ⟨hpath', hkind', -⟩)
  · rcases h with h | ⟨hpath, -⟩
    · exact asymm_of (List.Lex Step.Before) h h'
    · rw [hpath] at h'
      exact irrefl_of (List.Lex Step.Before) _ h'
  · rcases h with h | ⟨-, -, hkind⟩
    · rw [hpath'] at h
      exact irrefl_of (List.Lex Step.Before) _ h
    · exact hkind hkind'

namespace IsFirst

theorem unique (he : IsFirst S e) (hf : IsFirst S f) : e = f := by
  rcases he.first f hf.mem with h | h
  · exact h.symm
  · rcases hf.first e he.mem with h' | h'
    · exact h'
    · exact absurd h' h.asymm

theorem image (h : IsFirst S e) (path : List Step) :
    IsFirst (WriteError.under path '' S) (e.under path) := by
  refine ⟨⟨e, h.mem, rfl⟩, ?_⟩
  rintro _ ⟨f, hf, rfl⟩
  rcases h.first f hf with rfl | hbefore
  · exact .inl rfl
  · exact .inr (hbefore.under path)

theorem union (h : IsFirst S e) (hT : ∀ f ∈ T, e.Before f) : IsFirst (S ∪ T) e :=
  ⟨.inl h.mem, fun f hf => hf.elim (h.first f) fun hf => .inr (hT f hf)⟩

end IsFirst

end WriteError

open WriteError (IsFirst under)

/-! ## The faults of the parts -/

namespace Value

theorem mem_faults {v : Value} {e : WriteError} : e ∈ v.faults ↔
    v.HasFault e ∨ ∃ s w, v.step? s = some w ∧ e ∈ under [s] '' w.faults := by
  constructor
  · rintro ⟨path, w, f, hpart, hf, rfl⟩
    cases path with
    | nil =>
      cases hpart
      exact .inl hf
    | cons s path =>
      obtain ⟨u, hu, hpart⟩ := Option.bind_eq_some_iff.mp hpart
      exact .inr ⟨s, u, hu, f.under path, ⟨path, w, f, hpart, hf, rfl⟩, WriteError.under_under _ _ _⟩
  · rintro (h | ⟨s, u, hu, _, ⟨path, w, f, hpart, hf, rfl⟩, rfl⟩)
    · exact ⟨[], v, e, rfl, h, rfl⟩
    · exact ⟨s :: path, w, f, Option.bind_eq_some_iff.mpr ⟨u, hu, hpart⟩, hf,
        WriteError.under_under _ _ _⟩

/-- The faults of some items, the first of which has the index `i`. -/
def itemFaults (i : Nat) (vs : List Value) : Set WriteError :=
  {e | ∃ j w, vs[j]? = some w ∧ e ∈ under [.item (i + j)] '' w.faults}

/-- The faults of some fields: those of their names and those of their values. -/
def fieldFaults (fields : Group) : Set WriteError :=
  {e | ∃ key w, (key, w) ∈ fields ∧
    (Reader.isName key.toList = false ∧ e = ⟨[.field key], .settingName⟩ ∨
      e ∈ under [.field key] '' w.faults)}

theorem itemFaults_cons (i : Nat) (v : Value) (vs : List Value) :
    itemFaults i (v :: vs) = under [.item i] '' v.faults ∪ itemFaults (i + 1) vs := by
  have hindex (j : Nat) : i + (j + 1) = i + 1 + j := by omega
  ext e
  constructor
  · rintro ⟨j, w, hw, he⟩
    cases j with
    | zero =>
      cases hw
      exact .inl he
    | succ j =>
      rw [hindex] at he
      exact .inr ⟨j, w, hw, he⟩
  · rintro (he | ⟨j, w, hw, he⟩)
    · exact ⟨0, v, rfl, he⟩
    · rw [← hindex] at he
      exact ⟨j + 1, w, hw, he⟩

theorem faults_arr (vs : List Value) : (arr vs).faults = itemFaults 0 vs := by
  ext e
  rw [mem_faults]
  constructor
  · rintro (h | ⟨s, w, hw, he⟩)
    · cases h
    · cases s with
      | field name => cases hw
      | item i => exact ⟨i, w, hw, by rwa [Nat.zero_add]⟩
  · rintro ⟨i, w, hw, he⟩
    rw [Nat.zero_add] at he
    exact .inr ⟨.item i, w, hw, he⟩

theorem faults_obj {g : Group} (h : g.Pairwise fun f h => f.1 < h.1) :
    (obj g).faults = fieldFaults g := by
  ext e
  rw [mem_faults]
  constructor
  · rintro (h | ⟨s, w, hw, he⟩)
    · cases h with
      | name hv hkey => exact ⟨_, _, Group.mem_of_get? hv, .inl ⟨hkey, rfl⟩⟩
    · cases s with
      | field name => exact ⟨name, w, Group.mem_of_get? hw, .inr he⟩
      | item i => cases hw
  · rintro ⟨key, w, hmem, hkey⟩
    have hw := (Group.get?_eq_some_iff h).mpr hmem
    rcases hkey with ⟨hkey, rfl⟩ | he
    · exact .inl (.name hw hkey)
    · exact .inr ⟨.field key, w, hw, he⟩

theorem faults_of_leaf {v : Value} (h : ∀ s, v.step? s = none) :
    v.faults = {e | v.HasFault e} := by
  ext e
  rw [mem_faults]
  refine ⟨fun he => he.resolve_right ?_, .inl⟩
  rintro ⟨s, w, hw, -⟩
  rw [h s] at hw
  cases hw

theorem faults_null : null.faults = {⟨[], .null⟩} := by
  rw [faults_of_leaf fun s => by cases s <;> rfl]
  ext e
  exact ⟨fun h => by cases h; rfl, fun h => h ▸ .null⟩

theorem faults_int (n : Int) :
    (int n).faults = if Decimal.inInt64 n then ∅ else {⟨[], .wideInteger⟩} := by
  have hrange : Decimal.inInt64 n = true ↔ ¬ (n < -2 ^ 63 ∨ 2 ^ 63 - 1 < n) := by
    simp only [Decimal.inInt64, decide_eq_true_eq]
    omega
  rw [faults_of_leaf fun s => by cases s <;> rfl]
  ext e
  split
  · rename_i h
    exact ⟨fun he => by cases he with | integer hn => exact hrange.mp h hn, False.elim⟩
  · rename_i h
    rw [hrange, not_not] at h
    exact ⟨fun he => by cases he; rfl, fun he => he ▸ .integer h⟩

theorem faults_eq_empty {v : Value} (h : ∀ s, v.step? s = none) (hv : ∀ e, ¬ v.HasFault e) :
    v.faults = ∅ := by
  rw [faults_of_leaf h, Set.eq_empty_iff_forall_notMem]
  exact hv

theorem fieldFaults_cons (key : String) (v : Value) (fields : Group) :
    fieldFaults ((key, v) :: fields) =
      ({e | Reader.isName key.toList = false ∧ e = ⟨[.field key], .settingName⟩} ∪
        under [.field key] '' v.faults) ∪ fieldFaults fields := by
  ext e
  simp only [fieldFaults, List.mem_cons, Prod.mk.injEq, Set.mem_ofPred_eq, Set.mem_union]
  constructor
  · rintro ⟨k, w, ⟨rfl, rfl⟩ | hmem, he⟩
    · exact .inl he
    · exact .inr ⟨k, w, hmem, he⟩
  · rintro (he | ⟨k, w, hmem, he⟩)
    · exact ⟨key, v, .inl ⟨rfl, rfl⟩, he⟩
    · exact ⟨k, w, .inr hmem, he⟩

/-- A value itself has no name. -/
theorem kind_of_path_nil {v : Value} {e : WriteError} (h : e ∈ v.faults) (hpath : e.path = []) :
    e.kind ≠ .settingName := by
  obtain ⟨path, w, f, -, hf, rfl⟩ := h
  cases hf with
  | name => simp [under] at hpath
  | null => simp [under]
  | integer => simp [under]

end Value

/-! ## What the writer reports -/

namespace Writer

open Value (itemFaults fieldFaults)

/-- What becomes of a text with some faults at a path: it is written if there are none, and else the
first one is reported. -/
def Reports (path : List Step) (S : Set WriteError) : Except WriteError (List Char) → Prop
  | .ok _ => S = ∅
  | .error e => ∃ f, IsFirst S f ∧ e = f.under path

variable {path : List Step} {S T : Set WriteError} {r : Except WriteError (List Char)}

theorem Reports.cons {s : Step} {r' : Except WriteError (List Char)} (h : Reports (path ++ [s]) S r)
    (h' : Reports path T r') (hT : ∀ e ∈ S, ∀ f ∈ T, (e.under [s]).Before f)
    (join : List Char → List Char → List Char) :
    Reports path (under [s] '' S ∪ T) (r.bind fun text => r'.map (join text)) := by
  cases r with
  | error e =>
    obtain ⟨f, hf, rfl⟩ := h
    exact ⟨f.under [s], (hf.image [s]).union (hT f hf.mem), (WriteError.under_under _ _ _).symm⟩
  | ok text =>
    obtain rfl : S = ∅ := h
    rw [Set.image_empty, Set.empty_union]
    cases r' with
    | error e => exact h'
    | ok more => exact h'

theorem Reports.map (h : Reports path S r) (f : List Char → List Char) :
    Reports path S (r.map f) := by
  cases r with
  | error e => exact h
  | ok text => exact h

theorem Reports.exists_error_iff (h : Reports path S r) :
    (∃ e, r = .error e) ↔ ∃ e, e ∈ S := by
  cases r with
  | ok text =>
    obtain rfl : S = ∅ := h
    exact ⟨nofun, nofun⟩
  | error e =>
    obtain ⟨f, hf, -⟩ := h
    exact ⟨fun _ => ⟨f, hf.mem⟩, fun _ => ⟨e, rfl⟩⟩

theorem Reports.eq_error_iff (h : Reports [] S r) (e : WriteError) :
    r = .error e ↔ IsFirst S e := by
  cases r with
  | ok text =>
    obtain rfl : S = ∅ := h
    exact ⟨nofun, fun he => he.mem.elim⟩
  | error f =>
    obtain ⟨f, hf, rfl⟩ := h
    exact ⟨fun he => by cases he; exact hf, fun he => by rw [he.unique hf]; rfl⟩

theorem value_arr_eq (depth : Nat) (path : List Step) (v : Value) (vs : List Value) :
    value depth path (.arr (v :: vs)) = (items depth path 0 (v :: vs)).map fun text =>
      if isArray (v :: vs) then '[' :: ' ' :: text ++ [' ', ']'] else '(' :: ' ' :: text ++ [' ', ')'] := by
  rw [value]
  cases items depth path 0 (v :: vs) <;> rfl

theorem value_obj_eq (depth : Nat) (path : List Step) (fields : Group) :
    value depth path (.obj fields) = (settings (depth + 1) path fields).map fun text =>
      '\x7b' :: '\n' :: text ++ indent depth ++ ['\x7d'] := by
  rw [value]
  cases settings (depth + 1) path fields <;> rfl

theorem items_eq_bind (depth : Nat) (path : List Step) (i : Nat) (v : Value) (vs : List Value) :
    items depth path i (v :: vs) = (value depth (path ++ [.item i]) v).bind fun text =>
      (items depth path (i + 1) vs).map fun more =>
        if vs.isEmpty then text else text ++ ',' :: ' ' :: more := by
  rw [items]
  cases value depth (path ++ [.item i]) v with
  | error e => rfl
  | ok text => cases items depth path (i + 1) vs <;> rfl

theorem settings_eq_bind {key : String} (hkey : Reader.isName key.toList = true) (depth : Nat)
    (path : List Step) (v : Value) (fields : Group) :
    settings depth path ((key, v) :: fields) = (value depth (path ++ [.field key]) v).bind fun text =>
      (settings depth path fields).map fun more =>
        indent depth ++ key.toList ++ [' ', '=', ' '] ++ text ++ ';' :: '\n' :: more := by
  rw [settings, if_pos hkey]
  cases value depth (path ++ [.field key]) v with
  | error e => rfl
  | ok text => cases settings depth path fields <;> rfl

mutual

theorem value_reports (v : Value) (hv : v.IsDocument) (depth : Nat) (path : List Step) :
    Reports path v.faults (value depth path v) := by
  cases v with
  | null =>
    rw [Value.faults_null]
    exact ⟨⟨[], .null⟩, ⟨rfl, fun f hf => .inl hf⟩, by simp [under]⟩
  | int n =>
    rw [Value.faults_int, value]
    split
    · rfl
    · exact ⟨⟨[], .wideInteger⟩, ⟨rfl, fun f hf => .inl hf⟩, by simp [under]⟩
  | bool b => exact Value.faults_eq_empty (fun s => by cases s <;> rfl) nofun
  | float x => exact Value.faults_eq_empty (fun s => by cases s <;> rfl) nofun
  | str s => exact Value.faults_eq_empty (fun s => by cases s <;> rfl) nofun
  | arr vs =>
    rw [Value.faults_arr]
    have hitems := items_reports vs hv depth path 0
    cases vs with
    | nil =>
      rw [value]
      exact hitems
    | cons v vs =>
      rw [value_arr_eq]
      exact hitems.map _
  | obj fields =>
    rw [Value.faults_obj hv.1, value_obj_eq]
    exact (settings_reports fields hv.2 hv.1 (depth + 1) path).map _

theorem items_reports (vs : List Value) (hvs : Value.AreDocuments vs) (depth : Nat)
    (path : List Step) (i : Nat) : Reports path (itemFaults i vs) (items depth path i vs) := by
  cases vs with
  | nil =>
    refine Set.eq_empty_iff_forall_notMem.mpr ?_
    rintro e ⟨j, w, hw, -⟩
    simp at hw
  | cons v vs =>
    rw [Value.itemFaults_cons, items_eq_bind]
    refine Reports.cons (value_reports v hvs.1 depth _) (items_reports vs hvs.2 depth path (i + 1))
      ?_ _
    rintro e - _ ⟨j, w, -, f, -, rfl⟩
    exact WriteError.before_of_step (show Step.Before (.item i) (.item (i + 1 + j)) by simp only [Step.Before]; omega) e f

theorem settings_reports (fields : Group) (hf : Value.AreFields fields)
    (hsorted : fields.Pairwise fun f h => f.1 < h.1) (depth : Nat) (path : List Step) :
    Reports path (fieldFaults fields) (settings depth path fields) := by
  cases fields with
  | nil =>
    refine Set.eq_empty_iff_forall_notMem.mpr ?_
    rintro e ⟨key, w, hmem, -⟩
    cases hmem
  | cons field fields =>
    obtain ⟨key, v⟩ := field
    obtain ⟨hfirst, hsorted⟩ := List.pairwise_cons.mp hsorted
    -- the faults of a later field are under a name that comes behind
    have hlater (e f : WriteError) (hmem : f ∈ fieldFaults fields) :
        (e.under [.field key]).Before f := by
      obtain ⟨k, w, hkw, ⟨-, rfl⟩ | ⟨f, -, rfl⟩⟩ := hmem
      · exact WriteError.before_of_step (show Step.Before (.field key) (.field k) from hfirst _ hkw) e ⟨[], .settingName⟩
      · exact WriteError.before_of_step (show Step.Before (.field key) (.field k) from hfirst _ hkw) e f
    rw [Value.fieldFaults_cons]
    cases hkey : Reader.isName key.toList with
    | true =>
      have hname : {e | true = false ∧ e = (⟨[.field key], .settingName⟩ : WriteError)} = ∅ := by
        simp
      rw [hname, Set.empty_union, settings_eq_bind hkey]
      exact Reports.cons (value_reports v hf.1 depth _)
        (settings_reports fields hf.2 hsorted depth path) (fun e _ => hlater e) _
    | false =>
      rw [settings, if_neg (by rw [hkey]; exact Bool.false_ne_true)]
      -- the name is refused before its value is looked at
      refine ⟨⟨[.field key], .settingName⟩, ⟨.inl (.inl ⟨rfl, rfl⟩), ?_⟩, rfl⟩
      rintro f ((⟨-, rfl⟩ | ⟨e, hmem, rfl⟩) | hmem)
      · exact .inl rfl
      · cases hpath : e.path with
        | nil =>
          have hkind : e.kind ≠ .settingName := Value.kind_of_path_nil hmem hpath
          exact .inr (.inr ⟨by simp [under, hpath], rfl, hkind⟩)
        | cons s rest =>
          refine .inr (.inl ?_)
          simp only [under, hpath]
          exact List.Lex.cons .nil
      · exact .inr (hlater ⟨[], .settingName⟩ f hmem)

end

end Writer

/-! ## The text of a path -/

namespace Step

theorem pathText_concat {path : List Step} (h : pathText path ≠ "") (s : Step) :
    pathText (path ++ [s]) = pathText path ++ s.text := by
  have hne : (pathText path).isEmpty = false := by simpa using h
  cases s with
  | field name =>
    calc pathText (path ++ [.field name])
        = if (pathText path).isEmpty then name else pathText path ++ "." ++ name := by
          simp only [pathText, List.foldl_append, List.foldl_cons, List.foldl_nil]
          rfl
      _ = pathText path ++ ("." ++ name) := by
          rw [hne, if_neg Bool.false_ne_true, String.append_assoc]
  | item i =>
    calc pathText (path ++ [.item i])
        = pathText path ++ "[" ++ toString i ++ "]" := by
          simp only [pathText, List.foldl_append, List.foldl_cons, List.foldl_nil]
          rfl
      _ = pathText path ++ ("[" ++ toString i ++ "]") := by
          simp only [String.append_assoc]

theorem pathText_cons {name : String} (h : name ≠ "") (rest : List Step) :
    pathText (.field name :: rest) = name ++ String.join (rest.map text) := by
  induction rest using List.reverseRecOn with
  | nil => simp [pathText]
  | append_singleton rest s ih =>
    have hne : pathText (.field name :: rest) ≠ "" := by
      rw [ih]
      simp [h]
    rw [← List.cons_append, pathText_concat hne, ih]
    simp [String.append_assoc]

end Step

/-- Nothing is reported below a name that is empty. -/
theorem WriteError.IsFirst.path_eq {g : Group} (h : g.Pairwise fun f h => f.1 < h.1) {e : WriteError}
    (he : IsFirst (Value.obj g).faults e) :
    ∃ name rest, e.path = .field name :: rest ∧ (name = "" → rest = []) := by
  obtain ⟨hmem, hfirst⟩ := he
  rw [Value.faults_obj h] at hmem hfirst
  obtain ⟨name, v, hv, ⟨-, rfl⟩ | ⟨f, hf, rfl⟩⟩ := hmem
  · exact ⟨name, [], rfl, fun _ => rfl⟩
  · obtain ⟨rest, kind⟩ := f
    refine ⟨name, rest, rfl, ?_⟩
    rintro rfl
    rcases hfirst ⟨[.field ""], .settingName⟩ ⟨"", v, hv, .inl ⟨rfl, rfl⟩⟩ with heq | hlex | ⟨hpath, -⟩
    · simpa [under] using congrArg WriteError.path heq
    · cases hlex with
      | cons hlex => cases hlex
      | rel hlt => exact absurd hlt (String.lt_irrefl "")
    · simpa [under] using hpath

/-- A group is refused exactly if it has a fault. The error is the one that comes before all others,
and its text joins the names and the indices on the way to it. -/
theorem write_error_iff {g : Group} (h : (Value.obj g).IsDocument) :
    ((∃ e, write g = .error e) ↔ ∃ e, e ∈ (Value.obj g).faults) ∧
      (∀ e, write g = .error e ↔ IsFirst (Value.obj g).faults e) ∧
      ∀ e, write g = .error e → ∃ name rest, e.path = .field name :: rest ∧
        e.pathText = name ++ String.join (rest.map Step.text) := by
  have hreports : Writer.Reports [] (Value.obj g).faults (write g) := by
    rw [Value.faults_obj h.1]
    exact Writer.settings_reports g h.2 h.1 0 []
  refine ⟨hreports.exists_error_iff, hreports.eq_error_iff, fun e he => ?_⟩
  obtain ⟨name, rest, hpath, hempty⟩ := ((hreports.eq_error_iff e).mp he).path_eq h.1
  refine ⟨name, rest, hpath, ?_⟩
  rw [WriteError.pathText, hpath]
  by_cases hname : name = ""
  · rw [hempty hname]
    simp [Step.pathText]
  · exact Step.pathText_cons hname rest

/-- A null inside a list comes before a bad name next to it and before a wide integer behind it. -/
theorem write_error_iff_nested :
    let g : Group := [("a", .arr [.int 1, .obj [("b", .null), ("c d", .bool true)]]),
      ("n", .int (2 ^ 63))]
    (Value.obj g).IsDocument ∧ write g = .error ⟨[.field "a", .item 1, .field "b"], .null⟩ ∧
      IsFirst (Value.obj g).faults ⟨[.field "a", .item 1, .field "b"], .null⟩ ∧
      WriteError.pathText ⟨[.field "a", .item 1, .field "b"], .null⟩ = "a[1].b" := by
  intro g
  have hdocument : (Value.obj g).IsDocument := by
    simp only [g, Value.IsDocument, Value.AreFields, Value.AreDocuments]
    decide
  have herror : write g = .error ⟨[.field "a", .item 1, .field "b"], .null⟩ := by rfl
  exact ⟨hdocument, herror, ((write_error_iff hdocument).2.1 _).mp herror, by decide⟩

end Saturation.Settings
