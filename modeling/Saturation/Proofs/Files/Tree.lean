import Mathlib.Data.List.Induction
import Saturation.Files.Tree
import Saturation.Proofs.Files.Path

/-!
What paths do to a tree of files. There are no links, so where a path leads is told by its names
alone. Making files and directories lets a tree grow: every node stays of its kind, so a path that
led somewhere still leads there, and only the files at the locations written to are others.
-/

set_option autoImplicit false

namespace Saturation.FileTree

/-! ### Where paths lead -/

/-- The location behind a name, whatever there is. -/
def next (here : Location) (name : String) : Location :=
  if name = "." then here else if name = ".." then here.dropLast else here ++ [name]

/-- The location that a path stands for, whatever there is. -/
def location (home : Location) (path : String) : Location :=
  (Path.parts path).foldl next (origin home path)

theorem next_name {here : Location} {name : String} (h : Path.IsName name) :
    next here name = here ++ [name] := by
  simp [next, h.ne_here, h.ne_above]

theorem location_join {name : String} (h : Path.IsName name) (home : Location) (path : String) :
    location home (Path.join path name) = location home path ++ [name] := by
  simp [location, origin, Path.isAbsolute_join h, Path.parts_join h, next_name h]

variable {t t' : FileTree} {home here l : Location} {path : String}

/-- A name can be followed in a directory. -/
def Passes (t : FileTree) (here : Location) (name : String) : Prop :=
  t.get? here = some .directory ∧ (name = "." ∨ name = ".." ∨
    ¬ nameLimit < name.utf8ByteSize ∧ ∃ n, t.get? (here ++ [name]) = some n)

theorem follow_cons_ok {name : String} {rest : List String} :
    t.follow here (name :: rest) = .ok l ↔
      t.Passes here name ∧ t.follow (next here name) rest = .ok l := by
  rw [follow, Passes, next]
  cases hn : t.get? here with
  | none => simp
  | some n =>
    cases n with
    | file | device => simp
    | directory =>
      by_cases hhere : name = "."
      · simp [hhere]
      · by_cases habove : name = ".."
        · simp [habove]
        · by_cases hlong : nameLimit < name.utf8ByteSize
          · simp [hhere, habove, hlong]
          · cases t.get? (here ++ [name]) <;> simp [hhere, habove, hlong]

theorem follow_foldl {names : List String} (h : t.follow here names = .ok l) :
    l = names.foldl next here := by
  induction names generalizing here with
  | nil => cases h; rfl
  | cons name rest ih => exact ih (follow_cons_ok.mp h).2

theorem follow_append_ok {xs ys : List String} :
    t.follow here (xs ++ ys) = .ok l ↔
      ∃ m, t.follow here xs = .ok m ∧ t.follow m ys = .ok l := by
  induction xs generalizing here with
  | nil => exact ⟨fun h => ⟨here, rfl, h⟩, fun ⟨_, hm, h⟩ => (by cases hm; exact h)⟩
  | cons x xs ih =>
    simp only [List.cons_append, follow_cons_ok, ih]
    constructor
    · rintro ⟨hx, m, hm, h⟩
      exact ⟨m, ⟨hx, hm⟩, h⟩
    · rintro ⟨m, ⟨hx, hm⟩, h⟩
      exact ⟨hx, m, hm, h⟩

/-- A path whose last name is looked up in a directory. -/
structure Enters (t : FileTree) (home : Location) (path : String) (directory : Location)
    (name : String) : Prop where
  accepted : refusal? path = none
  parts_eq : ∃ names, Path.parts path = names ++ [name] ∧
    t.follow (origin home path) names = .ok directory
  isDirectory : t.get? directory = some .directory
  ne_here : name ≠ "."
  ne_above : name ≠ ".."
  length_le : ¬ nameLimit < name.utf8ByteSize

theorem Enters.location_eq {directory : Location} {name : String}
    (h : Enters t home path directory name) : location home path = directory ++ [name] := by
  obtain ⟨names, hparts, hfollow⟩ := h.parts_eq
  rw [location, hparts, List.foldl_concat, ← follow_foldl hfollow]
  simp [next, h.ne_here, h.ne_above]

theorem target_entry_iff :
    t.target home path = .ok (.entry l) ↔
      ∃ directory name, l = directory ++ [name] ∧ Enters t home path directory name := by
  constructor
  · intro h
    unfold target at h
    split at h
    · cases h
    · rename_i hrefusal
      dsimp only at h
      split at h
      · cases h
      · rename_i directory hfollow
        split at h
        · cases h
        · cases h
        · rename_i name hdir hlast
          obtain ⟨names, hparts⟩ := List.getLast?_eq_some_iff.mp hlast
          rw [hparts, List.dropLast_concat] at hfollow
          split at h
          · cases h
          · split at h
            · cases h
            · split at h
              · cases h
              · cases h
                exact ⟨directory, name, rfl, hrefusal, ⟨names, hparts, hfollow⟩, hdir, ‹_›, ‹_›, ‹_›⟩
        · cases h
  · rintro ⟨directory, name, rfl, h⟩
    obtain ⟨names, hparts, hfollow⟩ := h.parts_eq
    simp only [target, h.accepted, hparts, List.dropLast_concat, hfollow, h.isDirectory,
      List.getLast?_concat, h.ne_here, h.ne_above, h.length_le, if_false]

theorem target_location (h : t.target home path = .ok (.entry l)) : l = location home path := by
  obtain ⟨directory, name, rfl, he⟩ := target_entry_iff.mp h
  exact he.location_eq.symm

theorem target_ne_nil (h : t.target home path = .ok (.entry l)) : l ≠ [] := by
  obtain ⟨directory, name, rfl, -⟩ := target_entry_iff.mp h
  simp

/-- What a path is the entry of is what it leads to, if there is anything. -/
theorem locate_of_target {n : Node} (h : t.target home path = .ok (.entry l))
    (hpath : endsInside path = false) (hn : t.get? l = some n) : t.locate home path = .ok (l, n) := by
  obtain ⟨directory, name, rfl, he⟩ := target_entry_iff.mp h
  obtain ⟨names, hparts, hfollow⟩ := he.parts_eq
  have hlast : t.follow directory [name] = .ok (directory ++ [name]) := by
    simp [follow, he.isDirectory, he.ne_here, he.ne_above, he.length_le, hn]
  have hall := follow_append_ok.mpr ⟨directory, hfollow, hlast⟩
  simp [locate, he.accepted, hparts, hall, hn, hpath]

theorem locate_ok {n : Node} (h : t.locate home path = .ok (l, n)) :
    refusal? path = none ∧ t.follow (origin home path) (Path.parts path) = .ok l ∧
      t.get? l = some n ∧ (endsInside path = true → n.kind = .directory) := by
  unfold locate at h
  split at h
  · cases h
  · rename_i hrefusal
    split at h
    · cases h
    · rename_i hfollow
      split at h
      · cases h
      · rename_i hnode
        split at h
        · cases h
        · rename_i hinside
          cases h
          refine ⟨hrefusal, hfollow, hnode, fun hends => ?_⟩
          simpa [hends] using hinside

theorem locate_location {n : Node} (h : t.locate home path = .ok (l, n)) :
    l = location home path :=
  follow_foldl (locate_ok h).2.1

/-- Where there is a file, nothing else is read. -/
theorem read_file {b bytes : Bytes} {x : Bool} (h : t.get? (location home path) = some (.file b x))
    (hread : t.read home path = .ok bytes) : bytes = b := by
  unfold read at hread
  cases hlocate : t.locate home path with
  | error e =>
    rw [hlocate] at hread
    cases hread
  | ok found =>
    obtain ⟨l, n⟩ := found
    have hnode := (locate_ok hlocate).2.2.1
    rw [locate_location hlocate, h] at hnode
    obtain rfl := Option.some.inj hnode
    rw [hlocate] at hread
    exact (Except.ok.inj hread).symm

/-! ### Growth -/

/-- A tree that has grown out of another one. At most the files at some locations are others. -/
structure Grows (written : Location → Prop) (t t' : FileTree) : Prop where
  kind : ∀ {l n}, t.get? l = some n → ∃ n', t'.get? l = some n' ∧ n'.kind = n.kind
  file : ∀ {l b x}, t'.get? l = some (.file b x) → written l ∨ t.get? l = some (.file b x)
  device : ∀ {l}, t'.get? l = some .device → t.get? l = some .device

theorem Grows.refl (written : Location → Prop) (t : FileTree) : Grows written t t :=
  ⟨fun h => ⟨_, h, rfl⟩, fun h => .inr h, fun h => h⟩

namespace Grows

variable {written written' : Location → Prop} {t'' : FileTree}

theorem trans (h : Grows written t t') (h' : Grows written' t' t'') :
    Grows (fun l => written l ∨ written' l) t t'' where
  kind hn := by
    obtain ⟨n', hn', hk⟩ := h.kind hn
    obtain ⟨n'', hn'', hk'⟩ := h'.kind hn'
    exact ⟨n'', hn'', hk'.trans hk⟩
  file hf := by
    rcases h'.file hf with hw | hf
    · exact .inl (.inr hw)
    · rcases h.file hf with hw | hf
      · exact .inl (.inl hw)
      · exact .inr hf
  device hd := h.device (h'.device hd)

theorem mono (h : Grows written t t') (hw : ∀ l, written l → written' l) : Grows written' t t' :=
  ⟨h.kind, fun hf => (h.file hf).imp_left (hw _), h.device⟩

theorem directory (h : Grows written t t') (hd : t.get? l = some .directory) :
    t'.get? l = some .directory := by
  obtain ⟨n, hn, hk⟩ := h.kind hd
  cases n with
  | directory => exact hn
  | file | device => cases hk

/-- A file stays a file, and the same one if it is not written to. -/
theorem exists_file (h : Grows written t t') {b : Bytes} {x : Bool}
    (hf : t.get? l = some (.file b x)) : ∃ b' x', t'.get? l = some (.file b' x') := by
  obtain ⟨n, hn, hk⟩ := h.kind hf
  cases n with
  | file b' x' => exact ⟨b', x', hn⟩
  | directory | device => cases hk

theorem same_file (h : Grows written t t') {b : Bytes} {x : Bool}
    (hf : t.get? l = some (.file b x)) (hl : ¬ written l) : t'.get? l = some (.file b x) := by
  obtain ⟨b', x', hf'⟩ := h.exists_file hf
  rw [hf', ← hf]
  exact ((h.file hf').resolve_left hl).symm ▸ rfl

theorem device_kept (h : Grows written t t') (hd : t.get? l = some .device) :
    t'.get? l = some .device := by
  obtain ⟨n, hn, hk⟩ := h.kind hd
  cases n with
  | device => exact hn
  | file | directory => cases hk

theorem follow (h : Grows written t t') {names : List String}
    (hf : t.follow here names = .ok l) : t'.follow here names = .ok l := by
  induction names generalizing here with
  | nil => exact hf
  | cons name rest ih =>
    obtain ⟨⟨hdir, hname⟩, hrest⟩ := follow_cons_ok.mp hf
    refine follow_cons_ok.mpr ⟨⟨h.directory hdir, hname.imp_right (Or.imp_right ?_)⟩, ih hrest⟩
    rintro ⟨hlong, n, hn⟩
    obtain ⟨n', hn', -⟩ := h.kind hn
    exact ⟨hlong, n', hn'⟩

theorem target (h : Grows written t t') (ht : t.target home path = .ok (.entry l)) :
    t'.target home path = .ok (.entry l) := by
  obtain ⟨directory, name, rfl, he⟩ := target_entry_iff.mp ht
  obtain ⟨names, hparts, hfollow⟩ := he.parts_eq
  exact target_entry_iff.mpr ⟨directory, name, rfl, he.accepted, ⟨names, hparts, h.follow hfollow⟩,
    h.directory he.isDirectory, he.ne_here, he.ne_above, he.length_le⟩

/-- A path that leads to a file still leads to it, and to the same one if it is not written to. -/
theorem locate_file (h : Grows written t t') {b : Bytes} {x : Bool}
    (hf : t.locate home path = .ok (l, .file b x)) (hl : ¬ written l) :
    t'.locate home path = .ok (l, .file b x) := by
  obtain ⟨hrefusal, hfollow, hnode, hinside⟩ := locate_ok hf
  have hends : endsInside path = false := by
    cases hpath : endsInside path with
    | false => rfl
    | true => exact absurd (hinside hpath) (by simp [Node.kind])
  simp [FileTree.locate, hrefusal, h.follow hfollow, h.same_file hnode hl, hends]

end Grows

theorem grows_set_file {b : Bytes} {x : Bool} (hl : l ≠ [])
    (h : t.get? l = none ∨ ∃ b x, t.get? l = some (.file b x)) :
    Grows (· = l) t (t.set l (.file b x)) := by
  refine ⟨fun {k n} hn => ?_, fun {k b x} hf => ?_, fun {k} hd => ?_⟩
  · rw [get?_set hl]
    by_cases hk : k = l
    · subst hk
      rcases h with h | ⟨b', x', h⟩
      · rw [h] at hn
        cases hn
      · rw [h] at hn
        cases hn
        exact ⟨_, if_pos rfl, rfl⟩
    · exact ⟨n, by rw [if_neg hk, hn], rfl⟩
  · rw [get?_set hl] at hf
    by_cases hk : k = l
    · exact .inl hk
    · rw [if_neg hk] at hf
      exact .inr hf
  · rw [get?_set hl] at hd
    by_cases hk : k = l
    · rw [if_pos hk] at hd
      cases hd
    · rwa [if_neg hk] at hd

theorem grows_set_directory (hl : l ≠ []) (h : t.get? l = none) :
    Grows (fun _ => False) t (t.set l .directory) := by
  refine ⟨fun {k n} hn => ?_, fun {k b x} hf => ?_, fun {k} hd => ?_⟩
  · rw [get?_set hl]
    by_cases hk : k = l
    · rw [hk, h] at hn
      cases hn
    · exact ⟨n, by rw [if_neg hk, hn], rfl⟩
  · rw [get?_set hl] at hf
    by_cases hk : k = l
    · rw [if_pos hk] at hf
      cases hf
    · rw [if_neg hk] at hf
      exact .inr hf
  · rw [get?_set hl] at hd
    by_cases hk : k = l
    · rw [if_pos hk] at hd
      cases hd
    · rwa [if_neg hk] at hd

/-! ### Writing -/

/-- What is put where a path leads, unless a device is there, is found there afterwards. -/
theorem put_ok {make : Option Bool → Bytes × Bool} (h : t.put home path make = .ok t') :
    Grows (· = location home path) t t' ∧ (t.get? (location home path) ≠ some .device →
      ∃ old, t'.locate home path =
        .ok (location home path, .file (make old).1 (make old).2)) := by
  unfold put at h
  split at h
  · cases h
  · cases h
  · cases h
  · rename_i l htarget
    obtain rfl := target_location htarget
    have hne := target_ne_nil htarget
    split at h
    · cases h
    · rename_i hends
      rw [Bool.not_eq_true] at hends
      have hplaced : ∀ {b x}, (t.get? (location home path) = none ∨
          ∃ b x, t.get? (location home path) = some (.file b x)) →
          Grows (· = location home path) t (t.set (location home path) (.file b x)) ∧
            (t.set (location home path) (.file b x)).locate home path =
              .ok (location home path, .file b x) := by
        intro b x hold
        have hgrows : Grows _ t (t.set (location home path) (.file b x)) := grows_set_file hne hold
        refine ⟨hgrows, locate_of_target (hgrows.target htarget) hends ?_⟩
        rw [get?_set hne, if_pos rfl]
      split at h
      · cases h
      · rename_i hdevice
        cases h
        exact ⟨.refl _ t, fun hd => absurd hdevice hd⟩
      · rename_i b x hfile
        cases h
        obtain ⟨hgrows, hlocate⟩ := hplaced (.inr ⟨_, _, hfile⟩)
        exact ⟨hgrows, fun _ => ⟨some x, hlocate⟩⟩
      · rename_i hnone
        cases h
        obtain ⟨hgrows, hlocate⟩ := hplaced (.inl hnone)
        exact ⟨hgrows, fun _ => ⟨none, hlocate⟩⟩

theorem write_ok {bytes : Bytes} (h : t.write home path bytes = .ok t') :
    Grows (· = location home path) t t' ∧ (t.get? (location home path) ≠ some .device →
      ∃ x, t'.locate home path = .ok (location home path, .file bytes x)) := by
  obtain ⟨hgrows, hlocate⟩ := put_ok h
  refine ⟨hgrows, fun hd => ?_⟩
  obtain ⟨old, hold⟩ := hlocate hd
  exact ⟨_, hold⟩

theorem copy_ok {copied : String} (h : t.copy home path copied = .ok t') :
    Grows (· = location home copied) t t' := by
  unfold copy at h
  split at h
  · cases h
  · exact (put_ok h).1
  · cases h

theorem makeDirectory_ok (h : t.makeDirectory home path = .ok t') :
    Grows (fun _ => False) t t' := by
  unfold makeDirectory at h
  split at h
  · cases h
  · cases h
  · cases h
  · rename_i l htarget
    split at h
    · cases h
    · rename_i hnone
      cases h
      exact grows_set_directory (target_ne_nil htarget) hnone

theorem markExecutable_ok (h : t.markExecutable home path = .ok t') :
    Grows (· = location home path) t t' ∧
      ∀ {b x}, t.locate home path = .ok (location home path, .file b x) →
        t'.locate home path = .ok (location home path, .file b true) := by
  unfold markExecutable at h
  split at h
  · cases h
  · rename_i l b x hlocate
    cases h
    obtain rfl := locate_location hlocate
    obtain ⟨hrefusal, hfollow, hnode, hinside⟩ := locate_ok hlocate
    have hne : location home path ≠ [] := by
      intro hnil
      rw [hnil] at hnode
      cases hnode
    have hgrows : Grows (· = location home path) t (t.set (location home path) (.file b true)) :=
      grows_set_file hne (.inr ⟨b, x, hnode⟩)
    refine ⟨hgrows, fun {b' x'} hfile => ?_⟩
    rw [hlocate] at hfile
    cases hfile
    have hends : endsInside path = false := by
      cases hpath : endsInside path with
      | false => rfl
      | true => exact absurd (hinside hpath) (by simp [Node.kind])
    simp [locate, hrefusal, hgrows.follow hfollow, get?_set hne, hends]
  · rename_i l n hfile hlocate
    cases h
    refine ⟨.refl _ t, fun {b x} hf => ?_⟩
    rw [hlocate] at hf
    cases hf
    exact absurd rfl (hfile _ _ _)

/-! ### Clearing -/

/-- Every node is in a directory. -/
def IsClosed (t : FileTree) : Prop :=
  ∀ l n, t.get? l = some n → l ≠ [] → t.get? l.dropLast = some .directory

/-- There are at most directories from a location on. -/
def IsBare (t : FileTree) (top : Location) : Prop :=
  ∀ l n, top <+: l → t.get? l = some n → n = .directory

theorem mem_of_find? {n : Node} : ∀ {ns : List (Location × Node)}, find? l ns = some n → (l, n) ∈ ns := by
  intro ns h
  induction ns with
  | nil => cases h
  | cons e ns ih =>
    obtain ⟨k, m⟩ := e
    rw [find?] at h
    split at h
    · rename_i hk
      cases h
      subst hk
      exact List.mem_cons_self
    · exact List.mem_cons_of_mem _ (ih h)

theorem isClosed_of_nodes (h : ∀ e ∈ t.nodes, t.get? e.1.dropLast = some .directory) : t.IsClosed := by
  intro l n hn hl
  rw [get?, if_neg hl] at hn
  exact h _ (mem_of_find? hn)

/-- Whatever else there is after growth from directories alone has been written. -/
theorem IsBare.written {written : Location → Prop} {top : Location} {n : Node} (hb : t.IsBare top)
    (h : Grows written t t') (hl : top <+: l) (hn : t'.get? l = some n) (hd : n ≠ .directory) :
    written l := by
  cases n with
  | directory => exact absurd rfl hd
  | device => exact absurd (hb l _ hl (h.device hn)) (by simp)
  | file b x =>
    rcases h.file hn with hw | hf
    · exact hw
    · exact absurd (hb l _ hl hf) (by simp)

theorem IsBare.not_device {written : Location → Prop} {top : Location} (hb : t.IsBare top)
    (h : Grows written t t') (hl : top <+: l) : t'.get? l ≠ some .device :=
  fun hd => absurd (hb l _ hl (h.device hd)) (by simp)

/-- Whatever is above a node is a directory. -/
theorem IsClosed.above (h : t.IsClosed) (rest : List String) : ∀ {top : Location} {n : Node},
    t.get? (top ++ rest) = some n → rest ≠ [] → t.get? top = some .directory := by
  induction rest using List.reverseRecOn with
  | nil => exact fun _ hne => absurd rfl hne
  | append_singleton rest name ih =>
    intro top n hn _
    have hparent := h _ n hn (by simp)
    rw [← List.append_assoc, List.dropLast_concat] at hparent
    by_cases hrest : rest = []
    · rwa [hrest, List.append_nil] at hparent
    · exact ih hparent hrest

theorem IsClosed.directory_dropLast (h : t.IsClosed) (hd : t.get? l = some .directory) :
    t.get? l.dropLast = some .directory := by
  by_cases hl : l = []
  · rwa [hl] at hd ⊢
  · exact h l _ hd hl

/-- What a path leads to, if it is no directory, is what it is the entry of. -/
theorem target_of_locate {n : Node} (hclosed : t.IsClosed) (h : t.locate home path = .ok (l, n))
    (hn : n ≠ .directory) : t.target home path = .ok (.entry l) := by
  obtain ⟨hrefusal, hfollow, hnode, -⟩ := locate_ok h
  rcases List.eq_nil_or_concat (Path.parts path) with hparts | ⟨names, name, hparts⟩
  · -- Such a path is that of the root.
    rw [hparts] at hfollow
    cases hfollow
    rcases Path.parts_eq_nil hparts with hempty | habsolute
    · simp [refusal?, hempty] at hrefusal
    · rw [origin, if_pos habsolute] at hnode
      cases hnode
      exact absurd rfl hn
  · rw [List.concat_eq_append] at hparts
    rw [hparts] at hfollow
    obtain ⟨m, hnames, hlast⟩ := follow_append_ok.mp hfollow
    obtain ⟨⟨hdirectory, hname⟩, hl⟩ := follow_cons_ok.mp hlast
    cases hl
    by_cases hhere : name = "."
    · rw [next, if_pos hhere, hdirectory] at hnode
      exact absurd (Option.some.inj hnode).symm hn
    · by_cases habove : name = ".."
      · rw [next, if_neg hhere, if_pos habove, hclosed.directory_dropLast hdirectory] at hnode
        exact absurd (Option.some.inj hnode).symm hn
      · obtain ⟨hlong, -⟩ := (hname.resolve_left hhere).resolve_left habove
        rw [next, if_neg hhere, if_neg habove]
        exact target_entry_iff.mpr ⟨m, name, rfl, hrefusal, ⟨names, hparts, hnames⟩, hdirectory, hhere,
          habove, hlong⟩

theorem get?_erase (hl : l ≠ []) (k : Location) :
    (t.erase l).get? k = if k = l then none else t.get? k := by
  unfold get? erase
  by_cases hk : k = []
  · subst hk
    rw [if_pos rfl, if_neg hl.symm, if_pos rfl]
  · rw [if_neg hk, if_neg hk]
    have := find?_filter (fun k => decide (k ≠ l)) k t.nodes
    rw [this]
    by_cases hkl : k = l <;> simp [hkl]

theorem get?_clear (top k : Location) :
    (t.clear top).get? k = if k ≠ [] ∧ top <+: k ∧ k ≠ top then none else t.get? k := by
  unfold get? clear
  by_cases hk : k = []
  · simp [hk]
  · rw [if_neg hk, if_neg hk]
    have := find?_filter (fun k => !(top.isPrefixOf k && k != top)) k t.nodes
    rw [this]
    by_cases hp : top <+: k
    · by_cases hkt : k = top
      · simp [hkt]
      · simp [hp, hkt, hk, List.isPrefixOf_iff_prefix.mpr hp]
    · have hb : top.isPrefixOf k = false := by
        rw [Bool.eq_false_iff, ne_eq, List.isPrefixOf_iff_prefix]
        exact hp
      simp [hp, hb]

theorem isBare_clear (hd : t.get? l = some .directory) : (t.clear l).IsBare l := by
  intro k n hk hn
  rw [get?_clear] at hn
  by_cases hkl : k = l
  · rw [if_neg (by simp [hkl]), hkl, hd] at hn
    exact (Option.some.inj hn).symm
  · have hne : k ≠ [] := by
      rintro rfl
      exact hkl (List.prefix_nil.mp hk).symm
    rw [if_pos ⟨hne, hk, hkl⟩] at hn
    cases hn

theorem isBare_erase {top : Location} (hl : l ≠ []) (h : t.IsBare top) : (t.erase l).IsBare top := by
  intro k n hk hn
  rw [get?_erase hl] at hn
  split at hn
  · cases hn
  · exact h k n hk hn

theorem removeFile_of_locate {n : Node} (hclosed : t.IsClosed)
    (h : t.locate home path = .ok (l, n)) (hn : n ≠ .directory) :
    t.removeFile home path = .ok (t.erase l) := by
  obtain ⟨-, -, hnode, hinside⟩ := locate_ok h
  have hends : ¬ endsInside path = true := by
    intro hends
    cases n with
    | directory => exact hn rfl
    | file | device => cases hinside hends
  rw [removeFile, target_of_locate hclosed h hn]
  cases n with
  | directory => exact absurd rfl hn
  | file | device => simp [hnode, hends]

theorem removeFile_ok (hclosed : t.IsClosed) (h : t.removeFile home path = .ok t') :
    t'.IsBare (location home path) := by
  unfold removeFile at h
  split at h
  · cases h
  · cases h
  · cases h
  · rename_i l htarget
    obtain rfl := target_location htarget
    have hne := target_ne_nil htarget
    split at h
    · cases h
    · cases h
    · rename_i node hdir hnode
      split at h
      · cases h
      · cases h
        intro k n ⟨rest, hk⟩ hn
        rw [get?_erase hne] at hn
        split at hn
        · cases hn
        · rename_i hkl
          subst hk
          have hrest : rest ≠ [] := fun h0 => hkl (by rw [h0, List.append_nil])
          have habove := hclosed.above rest hn hrest
          rw [hnode] at habove
          exact absurd (Option.some.inj habove) hdir

/-- Removing a directory leaves at most directories, even if it is refused halfway. -/
theorem removeTree_isBare (h : t.locate home path = .ok (l, .directory)) :
    (t.removeTree home path).1.IsBare l := by
  have hbare := isBare_clear (locate_ok h).2.2.1
  rw [removeTree, h]
  dsimp only
  split
  · rename_i u hempty
    unfold removeEmpty at hempty
    split at hempty
    · cases hempty
    · cases hempty
    · cases hempty
    · rename_i htarget
      split at hempty
      · cases hempty
      · cases hempty
        exact isBare_erase (target_ne_nil htarget) hbare
      · cases hempty
  · exact hbare
  · exact hbare

theorem removeTree_ok (h : t.removeTree home path = (t', .ok ())) :
    t'.IsBare (location home path) := by
  have hdirectory : ∃ l, t.locate home path = .ok (l, .directory) := by
    unfold removeTree at h
    split at h
    · cases h
    · exact ⟨_, ‹_›⟩
    · cases h
  obtain ⟨l, hl⟩ := hdirectory
  have hbare := removeTree_isBare hl
  rwa [h, locate_location hl] at hbare

end Saturation.FileTree
