import Mathlib.Data.List.Basic
import Saturation.Files.Path

/-!
Paths with a name below them: their parts are those of the path and then the name, and different
names make different paths. The ancestors of a path start where it does and have its first names.
-/

set_option autoImplicit false

namespace Saturation.Path

/-- A text between two slashes of a path. -/
structure IsPart (s : String) : Prop where
  noSlash : '/' ∉ s.toList
  ne_empty : s ≠ ""

theorem isAbsolute_append {s : String} (h : s ≠ "") (t : String) :
    isAbsolute (s ++ t) = isAbsolute s := by
  rw [isAbsolute, isAbsolute, String.toList_append, List.head?_append_of_ne_nil]
  simpa using h

theorem IsPart.not_isAbsolute {s : String} (h : IsPart s) : isAbsolute s = false := by
  unfold isAbsolute
  cases hs : s.toList with
  | nil => rfl
  | cons c cs =>
    have hc : c ≠ '/' := fun hc => h.noSlash (by simp [hs, hc])
    simpa using hc

/-- A text that is one name of a path and leads downwards. -/
structure IsName (s : String) : Prop where
  noSlash : '/' ∉ s.toList
  ne_empty : s ≠ ""
  ne_here : s ≠ "."
  ne_above : s ≠ ".."

instance (s : String) : Decidable (IsName s) :=
  decidable_of_iff ('/' ∉ s.toList ∧ s ≠ "" ∧ s ≠ "." ∧ s ≠ "..")
    ⟨fun ⟨a, b, c, d⟩ => ⟨a, b, c, d⟩, fun ⟨a, b, c, d⟩ => ⟨a, b, c, d⟩⟩

theorem IsName.isPart {s : String} (h : IsName s) : IsPart s := ⟨h.noSlash, h.ne_empty⟩

theorem IsName.toList_ne_nil {s : String} (h : IsName s) : s.toList ≠ [] := by
  simpa using h.ne_empty

theorem IsName.not_isAbsolute {s : String} (h : IsName s) : isAbsolute s = false :=
  h.isPart.not_isAbsolute

theorem splitOn_of_not_mem {c : Char} {s : List Char} (h : c ∉ s) : s.splitOn c = [s] :=
  List.splitOnP_eq_singleton fun d hd => by
    rw [beq_eq_false_iff_ne]
    exact fun hdc => h (hdc ▸ hd)

theorem splitOn_append (c : Char) (s t : List Char) :
    (s ++ c :: t).splitOn c = s.splitOn c ++ t.splitOn c :=
  List.splitOnP_append_cons s t (by simp)

theorem not_mem_splitOn {c : Char} {s cs : List Char} (h : cs ∈ s.splitOn c) : c ∉ cs := by
  by_cases hc : c ∈ s
  · obtain ⟨front, rest, rfl, hfront⟩ := List.eq_append_cons_of_mem hc
    rw [splitOn_append, splitOn_of_not_mem hfront, List.mem_append, List.mem_singleton] at h
    rcases h with rfl | h
    · exact hfront
    · exact not_mem_splitOn h
  · rw [splitOn_of_not_mem hc, List.mem_singleton] at h
    rwa [h]
termination_by s.length
decreasing_by
  subst s
  simp only [List.length_append, List.length_cons]
  omega

theorem parts_empty : parts "" = [] := rfl

theorem parts_eq_nil {path : String} (h : parts path = []) : path = "" ∨ isAbsolute path = true := by
  have hall : ∀ cs ∈ path.toList.splitOn '/', cs = [] := by
    intro cs hcs
    by_contra hne
    have hmem : String.ofList cs ∈ parts path :=
      List.mem_map_of_mem (List.mem_filter.mpr ⟨hcs, by simpa using hne⟩)
    rw [h] at hmem
    cases hmem
  by_cases hslash : '/' ∈ path.toList
  · obtain ⟨front, rest, hpath, hfront⟩ := List.eq_append_cons_of_mem hslash
    rw [hpath, splitOn_append, splitOn_of_not_mem hfront] at hall
    obtain rfl := hall front (by simp)
    exact .inr (by simp [isAbsolute, hpath])
  · rw [splitOn_of_not_mem hslash] at hall
    exact .inl (by simpa using hall _ (List.mem_singleton_self _))

theorem IsPart.parts {s : String} (h : IsPart s) : Path.parts s = [s] := by
  simp [Path.parts, splitOn_of_not_mem h.noSlash, h.ne_empty]

theorem parts_of_isName {s : String} (h : IsName s) : parts s = [s] := h.isPart.parts

theorem parts_slash (s t : String) : parts (s ++ "/" ++ t) = parts s ++ parts t := by
  have hlist : (s ++ "/" ++ t).toList = s.toList ++ '/' :: t.toList := by simp
  simp only [parts, hlist, splitOn_append, List.filter_append, List.map_append]

/-- A path up to the name that is joined to it. -/
def front (path : String) : String :=
  if path.isEmpty then "" else if path.toList.getLast? = some '/' then path else path ++ "/"

theorem join_eq {name : String} (h : IsName name) (path : String) :
    join path name = front path ++ name := by
  unfold join front
  rw [h.not_isAbsolute, Bool.false_or]
  split
  · rw [String.empty_append]
  · split <;> rfl

theorem front_cases (path : String) :
    path = "" ∧ front path = "" ∨ ∃ lead, front path = lead ++ "/" ∧
      (path ≠ "" ∧ path = lead ∨ path = lead ++ "/") := by
  unfold front
  by_cases hempty : path = ""
  · exact .inl ⟨hempty, by simp [hempty]⟩
  · rw [if_neg (by simpa using hempty)]
    split
    · rename_i hlast
      obtain ⟨cs, hcs⟩ := List.getLast?_eq_some_iff.mp hlast
      have hpath : path = String.ofList cs ++ "/" := by
        rw [← String.toList_inj, hcs]
        simp
      exact .inr ⟨String.ofList cs, hpath, .inr hpath⟩
    · exact .inr ⟨path, rfl, .inl ⟨hempty, rfl⟩⟩

theorem front_join {name : String} (h : IsName name) (path : String) :
    front (join path name) = join path name ++ "/" := by
  have hlist : (join path name).toList = (front path).toList ++ name.toList := by
    rw [join_eq h, String.toList_append]
  have hlast : (join path name).toList.getLast? = name.toList.getLast? := by
    rw [hlist, List.getLast?_append_of_ne_nil _ h.toList_ne_nil]
  have hempty : (join path name).isEmpty = false := by
    rw [Bool.eq_false_iff, ne_eq, String.isEmpty_iff, ← String.toList_eq_nil_iff, hlist]
    simp [h.toList_ne_nil]
  unfold front
  rw [hempty, hlast, if_neg Bool.false_ne_true, if_neg]
  exact fun hslash => h.noSlash (List.mem_of_getLast? hslash)

theorem parts_join {name : String} (h : IsName name) (path : String) :
    parts (join path name) = parts path ++ [name] := by
  rw [join_eq h]
  rcases front_cases path with ⟨rfl, hfront⟩ | ⟨lead, hfront, ⟨-, rfl⟩ | rfl⟩
  · rw [hfront, String.empty_append, parts_of_isName h, parts_empty, List.nil_append]
  · rw [hfront, parts_slash, parts_of_isName h]
  · have hlead : parts (lead ++ "/") = parts lead := by
      have := parts_slash lead ""
      rwa [String.append_empty, parts_empty, List.append_nil] at this
    rw [hfront, parts_slash, parts_of_isName h, hlead]

theorem isAbsolute_join {name : String} (h : IsName name) (path : String) :
    isAbsolute (join path name) = isAbsolute path := by
  rw [join_eq h]
  rcases front_cases path with ⟨rfl, hfront⟩ | ⟨lead, hfront, ⟨hne, rfl⟩ | rfl⟩
  · rw [hfront, String.empty_append, h.not_isAbsolute]
    rfl
  · rw [hfront, String.append_assoc, isAbsolute_append hne]
  · have hne : lead ++ "/" ≠ "" := fun h => by simpa using congrArg String.toList h
    rw [hfront, isAbsolute_append hne]

theorem mem_parts {path part : String} (h : part ∈ parts path) : '/' ∉ part.toList := by
  obtain ⟨cs, hcs, rfl⟩ := List.mem_map.mp h
  rw [String.toList_ofList]
  exact not_mem_splitOn (List.mem_of_mem_filter hcs)

theorem mem_front {c : Char} {path : String} (h : c ∈ (front path).toList) :
    c = '/' ∨ c ∈ path.toList := by
  rcases front_cases path with ⟨rfl, hfront⟩ | ⟨lead, hfront, ⟨-, rfl⟩ | rfl⟩
  · rw [hfront] at h
    exact .inr h
  · rw [hfront, String.toList_append] at h
    rcases List.mem_append.mp h with h | h
    · exact .inr h
    · exact .inl (by simpa using h)
  · rw [hfront] at h
    exact .inr h

theorem mem_join {c : Char} {path name : String} (hname : IsName name)
    (h : c ∈ (join path name).toList) : c = '/' ∨ c ∈ path.toList ∨ c ∈ name.toList := by
  rw [join_eq hname, String.toList_append] at h
  rcases List.mem_append.mp h with h | h
  · exact (mem_front h).imp_right .inl
  · exact .inr (.inr h)

/-- The extension of a path has no slash. -/
theorem extension?_noSlash {path e : String} (h : extension? path = some e) : '/' ∉ e.toList := by
  unfold extension? at h
  obtain ⟨name, hname, he⟩ := Option.bind_eq_some_iff.mp h
  obtain ⟨cs, hcs, rfl⟩ := Option.map_eq_some_iff.mp he
  unfold fileName? at hname
  have hpart : name ∈ parts path :=
    List.mem_of_mem_filter (List.mem_of_getLast? (Option.eq_some_of_filter_eq_some hname))
  unfold splitName at hcs
  dsimp only at hcs
  split at hcs
  · cases hcs
  · cases hcs
    rw [String.toList_ofList, List.mem_reverse]
    intro hslash
    refine mem_parts hpart (List.mem_reverse.mp ?_)
    exact (List.takeWhile_sublist _).subset hslash

/-! ### Ancestors -/

theorem isPart_of_mem {path part : String} (h : part ∈ parts path) : IsPart part := by
  refine ⟨mem_parts h, ?_⟩
  obtain ⟨cs, hcs, rfl⟩ := List.mem_map.mp h
  have hne := List.of_mem_filter hcs
  simpa [← String.toList_inj] using hne

theorem parts_intercalate {ps : List String} (h : ∀ p ∈ ps, IsPart p) :
    parts ("/".intercalate ps) = ps := by
  induction ps with
  | nil => rfl
  | cons p ps ih =>
    obtain ⟨hp, hps⟩ := List.forall_mem_cons.mp h
    cases ps with
    | nil => rw [String.intercalate_singleton, hp.parts]
    | cons q ps =>
      rw [String.intercalate_cons_cons, parts_slash, hp.parts, ih hps, List.singleton_append]

theorem isAbsolute_intercalate {ps : List String} (h : ∀ p ∈ ps, IsPart p) :
    isAbsolute ("/".intercalate ps) = false := by
  cases ps with
  | nil => rfl
  | cons p ps =>
    have hp := h p List.mem_cons_self
    cases ps with
    | nil => rw [String.intercalate_singleton, hp.not_isAbsolute]
    | cons q ps =>
      rw [String.intercalate_cons_cons, String.append_assoc, isAbsolute_append hp.ne_empty,
        hp.not_isAbsolute]

/-- What a path and its ancestors are made of. -/
theorem ancestors_kept {path p : String} (h : p ∈ ancestors path) : ∃ kept : List String,
    (∀ part ∈ kept, part ∈ parts path) ∧ kept.filter (· ≠ ".") <+: names path ∧
      p = (if isAbsolute path then "/" else "") ++ "/".intercalate kept := by
  have hnames : (∀ part ∈ names path, part ∈ parts path) ∧
      (names path).filter (· ≠ ".") = names path :=
    ⟨fun part => List.mem_of_mem_filter, by simp [names]⟩
  unfold ancestors at h
  extract_lets kept lead at h
  obtain ⟨n, -, rfl⟩ := List.mem_map.mp h
  suffices hkept : (∀ part ∈ kept, part ∈ parts path) ∧ kept.filter (· ≠ ".") = names path from
    ⟨kept.take n, fun part hpart => hkept.1 part (List.mem_of_mem_take hpart),
      hkept.2 ▸ (List.take_prefix n kept).filter _, rfl⟩
  show (∀ part ∈ kept, part ∈ parts path) ∧ kept.filter (· ≠ ".") = names path
  unfold kept
  split
  · rename_i rest hparts
    split
    · exact hnames
    · rw [names, hparts]
      refine ⟨fun part hpart => ?_, by simp⟩
      rcases List.mem_cons.mp hpart with rfl | hpart
      · exact List.mem_cons_self
      · exact List.mem_cons_of_mem _ (List.mem_of_mem_filter hpart)
  · exact hnames

/-- An ancestor of a path starts where the path does, and has some of its first names. -/
theorem ancestors_spec {path p : String} (h : p ∈ ancestors path) :
    isAbsolute p = isAbsolute path ∧ (∀ part ∈ parts p, part ∈ parts path) ∧
      names p <+: names path := by
  obtain ⟨kept, hmem, hprefix, rfl⟩ := ancestors_kept h
  have hkept : ∀ part ∈ kept, IsPart part := fun part hpart => isPart_of_mem (hmem part hpart)
  split
  · rename_i habsolute
    have hparts : parts ("/" ++ "/".intercalate kept) = kept := by
      have := parts_slash "" ("/".intercalate kept)
      rwa [String.empty_append, parts_empty, List.nil_append, parts_intercalate hkept] at this
    rw [names, hparts]
    refine ⟨?_, hmem, hprefix⟩
    rw [habsolute]
    simp [isAbsolute]
  · rename_i habsolute
    rw [String.empty_append, names, parts_intercalate hkept, isAbsolute_intercalate hkept]
    exact ⟨(Bool.not_eq_true _ ▸ habsolute).symm, hmem, hprefix⟩

end Saturation.Path
