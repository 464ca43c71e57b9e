import Saturation.Configuration.Bounds
import Saturation.Machine
import Saturation.Program.Strategies
import Saturation.Proofs.Encoding
import Saturation.Proofs.Files.Tree
import Saturation.Proofs.Template

/-!
What the steps of a command do to a machine. A step is taken apart at its binds; most steps only
read, print and log, and the others let the tree of files grow.
-/

set_option autoImplicit false

namespace Saturation

open Settings (Value Group)

namespace Machine

variable {β γ : Type} {w w' v : Machine}

/-! ## Steps -/

abbrev Step (β : Type) : Type := ExceptT Failure (StateM Machine) β

theorem bind_ok {x : Step β} {f : β → Step γ} {c : γ} (h : (x >>= f).run w = (.ok c, w')) :
    ∃ b v, x.run w = (.ok b, v) ∧ (f b).run v = (.ok c, w') := by
  have hbind : (x >>= f).run w =
      (match x.run w with | (r, v) => (ExceptT.bindCont f r).run v : Except Failure γ × Machine) := rfl
  rw [hbind] at h
  cases hx : x.run w with
  | mk r v =>
    rw [hx] at h
    cases r with
    | error e => cases h
    | ok b => exact ⟨b, v, rfl, h⟩

theorem bind_run {x : StateM Machine β} {f : β → StateM Machine γ} {b : β} (h : x w = (b, v)) :
    (x >>= f) w = f b v := by
  show f (x w).1 (x w).2 = _
  rw [h]

theorem bind_out {x : StateM Machine β} {f : β → StateM Machine γ} {c : γ}
    (h : (x >>= f) w = (c, w')) : ∃ b v, x w = (b, v) ∧ f b v = (c, w') :=
  ⟨(x w).1, (x w).2, rfl, h⟩

theorem pure_ok {b c : β} (h : (pure b : Step β).run w = (.ok c, w')) : c = b ∧ w' = w := by
  cases h
  exact ⟨rfl, rfl⟩

theorem lift_ok {x : StateM Machine β} {b : β} (h : (liftM x : Step β).run w = (.ok b, w')) :
    x w = (b, w') := by
  have hlift : (liftM x : Step β).run w =
      (match x w with | (b, v) => (.ok b, v) : Except Failure β × Machine) := rfl
  rw [hlift] at h
  cases hx : x w with
  | mk b' v =>
    rw [hx] at h
    cases h
    rfl

/-- An attempt that succeeds changes no outcome. -/
theorem attempt_ok {ε : Type} {f : ε → Failure} {x : StateM Machine (Except ε β)} {b : β}
    (h : (ExceptT.mk do return (← x).mapError f : Step β).run w = (.ok b, w')) :
    x w = (.ok b, w') := by
  have hrun : (ExceptT.mk do return (← x).mapError f : Step β).run w =
      (match x w with | (r, v) => (r.mapError f, v) : Except Failure β × Machine) := rfl
  rw [hrun] at h
  cases hx : x w with
  | mk r v =>
    rw [hx] at h
    cases r with
    | error e => cases h
    | ok b' =>
      cases h
      rfl

theorem attempt_error {ε : Type} {f : ε → Failure} {x : StateM Machine (Except ε β)} {e : Failure}
    (h : (ExceptT.mk do return (← x).mapError f : Step β).run w = (.error e, w')) :
    ∃ s, x w = (.error s, w') := by
  have hrun : (ExceptT.mk do return (← x).mapError f : Step β).run w =
      (match x w with | (r, v) => (r.mapError f, v) : Except Failure β × Machine) := rfl
  rw [hrun] at h
  cases hx : x w with
  | mk r v =>
    rw [hx] at h
    cases r with
    | error s =>
      cases h
      exact ⟨s, rfl⟩
    | ok b => cases h

theorem lift_bind {x : StateM Machine β} {f : β → Step γ} :
    ((liftM x : Step β) >>= f).run w = (f (x w).1).run (x w).2 := rfl

/-- A sequence comes out as its first step if that fails, and else as the rest of it. -/
theorem bind_cases {x : Step β} {f : β → Step γ} {P : Except Failure γ × Machine → Prop}
    (herror : ∀ e v, x.run w = (.error e, v) → P (.error e, v))
    (hok : ∀ b v, x.run w = (.ok b, v) → P ((f b).run v)) : P ((x >>= f).run w) := by
  have hbind : (x >>= f).run w =
      (match x.run w with | (r, v) => (ExceptT.bindCont f r).run v : Except Failure γ × Machine) := rfl
  rw [hbind]
  cases hx : x.run w with
  | mk r v =>
    cases r with
    | error e => exact herror e v hx
    | ok b => exact hok b v hx

/-- Whatever the outcome, a sequence ends where its first step fails or where the rest of it ends. -/
theorem bind_final {P : Machine → Prop} {x : Step β} {f : β → Step γ}
    (herror : ∀ e v, x.run w = (.error e, v) → P v)
    (hok : ∀ b v, x.run w = (.ok b, v) → P ((f b).run v).2) : P ((x >>= f).run w).2 :=
  bind_cases (P := fun r => P r.2) herror hok

/-- What the first step of a sequence leaves to be true, and the rest of it keeps. -/
theorem bind_through {P : Machine → Prop} {x : Step β} {f : β → Step γ} (hx : P (x.run w).2)
    (hf : ∀ b v, x.run w = (.ok b, v) → P v → P ((f b).run v).2) : P ((x >>= f).run w).2 := by
  refine bind_final (fun e v h => ?_) fun b v h => hf b v h ?_
  all_goals
    rw [h] at hx
    exact hx

theorem run_of_isOk {x : Step Unit} (h : (x.run w).1.isOk = true) :
    x.run w = (.ok (), (x.run w).2) := by
  cases hx : x.run w with
  | mk r v =>
    rw [hx] at h
    cases r with
    | error e => cases h
    | ok u => rfl

/-! ## Relations that steps keep -/

/-- A step relates every machine to what it leaves. -/
def Keeps (R : Machine → Machine → Prop) (x : StateM Machine β) : Prop := ∀ w, R w (x w).2

namespace Keeps

variable {α : Type} {R : Machine → Machine → Prop} {x : StateM Machine β}

theorem of_eq (h : Keeps R x) {b : β} (hx : x w = (b, w')) : R w w' := by
  have := h w
  rwa [hx] at this

theorem mono {S : Machine → Machine → Prop} (h : Keeps R x) (hRS : ∀ w w', R w w' → S w w') :
    Keeps S x := fun w => hRS _ _ (h w)

theorem pure [Std.Refl R] (b : β) : Keeps R (Pure.pure b : StateM Machine β) := fun w => refl_of R w

theorem bind [IsTrans Machine R] {f : β → StateM Machine γ} (hx : Keeps R x) (hf : ∀ b, Keeps R (f b)) :
    Keeps R (x >>= f) :=
  fun w => trans_of R (hx w) (hf (x w).1 (x w).2)

theorem step [IsTrans Machine R] {x : Step β} {f : β → Step γ} (hx : Keeps R x.run)
    (hf : ∀ b, Keeps R (f b).run) : Keeps R (x >>= f).run :=
  fun _ => bind_final (fun _ _ h => hx.of_eq h) fun b _ h => trans_of R (hx.of_eq h) (hf b _)

theorem lift {x : StateM Machine β} (h : Keeps R x) : Keeps R (liftM x : Step β).run := h

theorem attempt {ε : Type} {g : ε → Failure} {x : StateM Machine (Except ε β)} (h : Keeps R x) :
    Keeps R (ExceptT.mk do return (← x).mapError g : Step β).run := h

theorem of_same [Std.Refl R] (h : Keeps Eq x) : Keeps R x := by
  intro w
  rw [← h w]
  exact refl_of R w

variable [Std.Refl R] [IsTrans Machine R]

theorem forM {f : α → StateM Machine PUnit} (hf : ∀ a, Keeps R (f a)) (xs : List α) :
    Keeps R (xs.forM f) := by
  induction xs with
  | nil => exact Keeps.pure _
  | cons a xs ih => exact (hf a).bind fun _ => ih

theorem forIn {f : α → β → StateM Machine (ForInStep β)} (hf : ∀ a b, Keeps R (f a b)) :
    ∀ (xs : List α) (b : β), Keeps R (ForIn.forIn xs b f) := by
  intro xs
  induction xs with
  | nil => exact fun b => Keeps.pure b
  | cons a xs ih =>
    intro b
    rw [List.forIn_cons]
    refine (hf a b).bind fun r => ?_
    cases r with
    | done b => exact Keeps.pure b
    | yield b => exact ih b

theorem steps {f : α → Step PUnit} {xs : List α} (hf : ∀ a ∈ xs, Keeps R (f a).run) :
    Keeps R (xs.forM f).run := by
  induction xs with
  | nil => exact fun w => refl_of R w
  | cons a xs ih =>
    exact (hf a List.mem_cons_self).step fun _ => ih fun b hb => hf b (List.mem_cons_of_mem a hb)

end Keeps

/-- Only what has been logged may differ. -/
def Silent (w w' : Machine) : Prop := ∃ events, w' = { w with logged := events }

instance : Std.Refl Silent := ⟨fun w => ⟨w.logged, rfl⟩⟩

instance : IsTrans Machine Silent := ⟨fun _ _ _ ⟨_, h⟩ ⟨events, h'⟩ => ⟨events, by rw [h', h]⟩⟩

/-- Only what has been printed and logged may differ. -/
structure Quiet (w w' : Machine) : Prop where
  tree : w'.tree = w.tree
  home : w'.home = w.home
  programs : w'.programs = w.programs

instance : Std.Refl Quiet := ⟨fun _ => ⟨rfl, rfl, rfl⟩⟩

instance : IsTrans Machine Quiet := ⟨fun _ _ _ h h' =>
  ⟨h'.tree.trans h.tree, h'.home.trans h.home, h'.programs.trans h.programs⟩⟩

theorem Silent.quiet (h : Silent w w') : Quiet w w' := by
  obtain ⟨events, rfl⟩ := h
  exact ⟨rfl, rfl, rfl⟩

theorem Silent.printed (h : Silent w w') : w'.printed = w.printed := by
  obtain ⟨events, rfl⟩ := h
  rfl

/-- The files grow, and at most those at some locations are written. -/
structure Grows (written : Location → Prop) (w w' : Machine) : Prop where
  tree : w.tree.Grows written w'.tree
  home : w'.home = w.home
  programs : w'.programs = w.programs

instance (written : Location → Prop) : Std.Refl (Grows written) :=
  ⟨fun w => ⟨.refl written w.tree, rfl, rfl⟩⟩

instance (written : Location → Prop) : IsTrans Machine (Grows written) := ⟨fun _ _ _ h h' =>
  ⟨(h.tree.trans h'.tree).mono fun _ hl => hl.elim id id, h'.home.trans h.home,
    h'.programs.trans h.programs⟩⟩

theorem Grows.mono {written written' : Location → Prop} (h : Grows written w w')
    (hw : ∀ l, written l → written' l) : Grows written' w w' :=
  ⟨h.tree.mono hw, h.home, h.programs⟩

theorem Quiet.grows (h : Quiet w w') (written : Location → Prop) : Grows written w w' :=
  ⟨h.tree ▸ .refl written w.tree, h.home, h.programs⟩

theorem Keeps.quiet {x : StateM Machine β} (h : Keeps Eq x) : Keeps Quiet x := h.of_same

/-! ## Reading -/

theorem kind?_same (path : String) : Keeps Eq (Host.kind? path) := fun _ => rfl

theorem read_same (path : String) : Keeps Eq (Host.read path) := fun _ => rfl

theorem readText_same (path : String) : Keeps Eq (Host.readText path) := by
  refine (read_same path).bind fun r => ?_
  cases r with
  | error e => exact .pure _
  | ok bytes =>
    dsimp only
    cases Trace.decode bytes <;> exact .pure _

theorem isFile_same (path : String) : Keeps Eq (Configuration.isFile path) :=
  (kind?_same path).bind fun _ => .pure _

theorem findExtended_same (path : String) : ∀ extended : List (String × SourceFormat),
    Keeps Eq (Configuration.findExtended path extended)
  | [] => .pure _
  | (e, f) :: rest => by
    unfold Configuration.findExtended
    cases Path.extended path ("." ++ e) with
    | none => exact findExtended_same path rest
    | some longer =>
      refine (isFile_same longer).bind fun here => ?_
      cases here with
      | true => exact .pure _
      | false => exact findExtended_same path rest

theorem findSource_same (path : String) : Keeps Eq (Configuration.findSource path) := by
  have hformats : Keeps Eq Host.sourceFormats := fun _ => rfl
  refine hformats.bind fun formats => (isFile_same path).bind fun here => ?_
  cases here with
  | true => exact .pure _
  | false => exact findExtended_same path _

theorem readSource_same (path : String) : Keeps Eq (Configuration.readSource path) := by
  refine (findSource_same path).bind fun found => ?_
  cases found with
  | none => exact .pure _
  | some found =>
    refine (readText_same found.1).bind fun r => ?_
    cases r <;> exact .pure _

theorem readSettings_same (path : String) : Keeps Eq (Configuration.readSettings path) := by
  unfold Configuration.readSettings
  split
  · refine (readText_same path).bind fun r => ?_
    cases r with
    | error e => exact .pure _
    | ok text =>
      dsimp only
      cases Settings.read text.toList <;> exact .pure _
  · exact (readSource_same path).bind fun _ => .pure _

theorem loadTemplate_same (path : String) : Keeps Eq (Template.load path) := by
  unfold Template.load
  split
  · refine (readText_same path).bind fun r => ?_
    cases r with
    | error e => exact .pure _
    | ok text =>
      dsimp only
      cases Settings.read text.toList <;> exact .pure _
  · refine (readSource_same path).bind fun r => ?_
    cases r <;> exact .pure _

theorem analyzeFile_same (path : String) (policies : List Policy) (bounds : AttackBounds Float) :
    Keeps Eq (Program.analyzeFile path policies bounds) := by
  refine (read_same path).bind fun r => ?_
  cases r <;> exact .pure _

/-! ## Printing and logging -/

theorem say_quiet (text : String) : Keeps Quiet (Host.say text) := fun _ => ⟨rfl, rfl, rfl⟩

theorem log_quiet (event : Event) : Keeps Quiet (Host.log event) := fun _ => ⟨rfl, rfl, rfl⟩

theorem sayAll_quiet (lines : List String) : Keeps Quiet (Program.sayAll lines) :=
  .forM say_quiet lines

theorem log_silent (event : Event) : Keeps Silent (Host.log event) :=
  fun w => ⟨w.logged ++ [event], rfl⟩

theorem loadBounds_silent (path : String) : Keeps Silent (Configuration.load path) := by
  refine (readSettings_same path).of_same.bind fun r => ?_
  cases r with
  | error e => exact .pure _
  | ok source =>
    have henvironment : Keeps Eq Host.environment := fun _ => rfl
    refine henvironment.of_same.bind fun environment => ?_
    split
    · exact .pure _
    · exact (Keeps.forIn (fun event _ => (log_silent event).bind fun _ => .pure _) _ _).bind
        fun _ => .pure _

theorem loadBounds_quiet (path : String) : Keeps Quiet (Configuration.load path) :=
  (loadBounds_silent path).mono fun _ _ => Silent.quiet

theorem reportOf_silent (path : String) (a : Analysis) (s : Selection) :
    Keeps Silent (Program.reportOf path a s) := by
  have hnow : Keeps Eq Host.now := fun _ => rfl
  exact hnow.of_same.bind fun _ => (Keeps.forM (fun _ => log_silent _) _).bind fun _ => .pure _

theorem reportOf_quiet (path : String) (a : Analysis) (s : Selection) :
    Keeps Quiet (Program.reportOf path a s) :=
  (reportOf_silent path a s).mono fun _ _ => Silent.quiet

theorem kind?_eq (path : String) (w : Machine) : (Host.kind? (m := StateM Machine) path w).1 =
    (w.tree.locate w.home path).toOption.map fun found => found.2.kind := by
  unfold Host.kind? instHostStateM
  dsimp only
  cases w.tree.locate w.home path <;> rfl

/-- A quiet step does not change what a path leads to. -/
theorem Quiet.kind?_eq {path : String} (h : Quiet w w') :
    (Host.kind? (m := StateM Machine) path w').1 = (Host.kind? (m := StateM Machine) path w).1 := by
  rw [Machine.kind?_eq, Machine.kind?_eq, h.tree, h.home]

theorem kind?_some {path : String} {kind : FileKind}
    (h : (Host.kind? (m := StateM Machine) path w).1 = some kind) :
    ∃ n, w.tree.locate w.home path = .ok (FileTree.location w.home path, n) ∧ n.kind = kind := by
  rw [kind?_eq] at h
  cases hlocate : w.tree.locate w.home path with
  | error e =>
    rw [hlocate] at h
    cases h
  | ok found =>
    obtain ⟨l, n⟩ := found
    rw [hlocate] at h
    obtain rfl := FileTree.locate_location hlocate
    exact ⟨n, rfl, Option.some.inj h⟩

/-! ## What is found in a file -/

/-- A path leads to a file with a text. -/
def Holds (w : Machine) (path text : String) : Prop :=
  ∃ x, w.tree.locate w.home path =
    .ok (FileTree.location w.home path, .file text.toUTF8.toList x)

theorem Holds.readText {path text : String} (h : Holds w path text) :
    Host.readText (m := StateM Machine) path w = (.ok text, w) := by
  obtain ⟨x, hx⟩ := h
  have hread : Host.read (m := StateM Machine) path w = (.ok text.toUTF8.toList, w) := by
    show (w.tree.read w.home path, w) = _
    rw [FileTree.read, hx]
  unfold Host.readText
  rw [bind_run hread]
  dsimp only
  rw [decode_toUTF8]
  rfl

theorem Holds.get? {path text : String} (h : Holds w path text) :
    ∃ x, w.tree.get? (FileTree.location w.home path) = some (.file text.toUTF8.toList x) := by
  obtain ⟨x, hx⟩ := h
  exact ⟨x, (FileTree.locate_ok hx).2.2.1⟩

/-- What is found in a file stays there as long as the file is not written. -/
theorem Holds.grows {path text : String} {written : Location → Prop} (h : Holds w path text)
    (hw : Grows written w w') (hl : ¬ written (FileTree.location w.home path)) :
    Holds w' path text := by
  obtain ⟨x, hx⟩ := h
  refine ⟨x, ?_⟩
  rw [hw.home]
  exact hw.tree.locate_file hx hl

theorem Holds.quiet {path text : String} (h : Holds w path text) (hq : Quiet w w') :
    Holds w' path text := h.grows (hq.grows fun _ => False) id

/-- The settings of a template are a document. -/
theorem loadTemplate_isDocument {path : String} {t : Template}
    (h : Template.load (m := StateM Machine) path w = (.ok t, w')) :
    (Value.obj t.settings).IsDocument := by
  unfold Template.load at h
  split at h
  · obtain ⟨r, v, -, h⟩ := bind_out h
    cases r with
    | error e => cases h
    | ok text =>
      dsimp only at h
      cases hread : Settings.read text.toList with
      | error e =>
        rw [hread] at h
        cases h
      | ok settings =>
        rw [hread] at h
        cases h
        exact (Settings.read_isReadable hread).obj.1
  · obtain ⟨r, v, hsource, h⟩ := bind_out h
    cases r with
    | error e => cases h
    | ok source =>
      cases h
      exact Value.held_isDocument (.obj (Configuration.layers [source]))

/-- A file of another format whose settings are a document, as those of JSON are, gives them to the
template as they are. -/
theorem loadTemplate_source {path : String} {t : Template}
    (hpath : Configuration.isDocumentPath path = false)
    (h : Template.load (m := StateM Machine) path w = (.ok t, w')) :
    ∃ source, Configuration.readSource (m := StateM Machine) path w = (.ok source, w') ∧
      ((Value.obj source).IsDocument → t.settings = Configuration.layers [source]) := by
  unfold Template.load at h
  rw [if_neg (by simp [hpath])] at h
  obtain ⟨r, v, hsource, h⟩ := bind_out h
  cases r with
  | error e => cases h
  | ok source =>
    cases h
    refine ⟨source, hsource, fun hdocument => ?_⟩
    have hlayers : (Value.obj (Configuration.layers [source])).IsDocument :=
      Configuration.layers_isDocument (by simpa using hdocument)
    exact Value.obj.inj (Value.held_of_isDocument _ hlayers)

/-! ## Changing files -/

theorem change_cases (f : FileTree → Location → Except SystemError FileTree) (w : Machine) :
    (∃ e, change f w = (.error e, w)) ∨
      ∃ t, f w.tree w.home = .ok t ∧ change f w = (.ok (), { w with tree := t }) := by
  unfold change
  cases f w.tree w.home with
  | error e => exact .inl ⟨e, rfl⟩
  | ok t => exact .inr ⟨t, rfl, rfl⟩

theorem change_ok {f : FileTree → Location → Except SystemError FileTree}
    (h : change f w = (.ok (), w')) : ∃ t, f w.tree w.home = .ok t ∧ w' = { w with tree := t } := by
  rcases change_cases f w with ⟨e, he⟩ | ⟨t, ht, hok⟩
  · rw [he] at h
    cases h
  · rw [hok] at h
    cases h
    exact ⟨t, ht, rfl⟩

theorem writeText_ok {path text : String}
    (h : Host.writeText (m := StateM Machine) path text w = (.ok (), w')) :
    Grows (· = FileTree.location w.home path) w w' ∧
      (w.tree.get? (FileTree.location w.home path) ≠ some .device → Holds w' path text) := by
  obtain ⟨t, ht, rfl⟩ := change_ok (f := fun t home => t.write home path text.toUTF8.toList) h
  obtain ⟨hgrows, hlocate⟩ := FileTree.write_ok ht
  exact ⟨⟨hgrows, rfl, rfl⟩, hlocate⟩

theorem copy_ok {path copied : String}
    (h : Host.copy (m := StateM Machine) path copied w = (.ok (), w')) :
    Grows (· = FileTree.location w.home copied) w w' := by
  obtain ⟨t, ht, rfl⟩ := change_ok (f := fun t home => t.copy home path copied) h
  exact ⟨FileTree.copy_ok ht, rfl, rfl⟩

theorem copy_error {path copied : String} {e : SystemError}
    (h : Host.copy (m := StateM Machine) path copied w = (.error e, w')) : w' = w := by
  rcases change_cases (fun t home => t.copy home path copied) w with ⟨e', he⟩ | ⟨t, -, hok⟩
  · exact (Prod.ext_iff.mp (h.symm.trans he)).2
  · cases h.symm.trans hok

/-- Only files are copied. -/
theorem copy_source {path copied : String}
    (h : Host.copy (m := StateM Machine) path copied w = (.ok (), w')) :
    ∃ b x, w.tree.get? (FileTree.location w.home path) = some (.file b x) := by
  obtain ⟨t, ht, -⟩ := change_ok (f := fun t home => t.copy home path copied) h
  unfold FileTree.copy at ht
  split at ht
  · cases ht
  · rename_i hlocate
    exact ⟨_, _, FileTree.locate_location hlocate ▸ (FileTree.locate_ok hlocate).2.2.1⟩
  · cases ht

theorem makeDirectory_grows (path : String) :
    Keeps (Grows fun _ => False) (Host.makeDirectory path) := by
  intro w
  rcases change_cases (fun t home => t.makeDirectory home path) w with ⟨e, he⟩ | ⟨t, ht, hok⟩
  · show Grows _ w (change (fun t home => t.makeDirectory home path) w).2
    rw [he]
    exact refl_of (Grows fun _ => False) w
  · show Grows _ w (change (fun t home => t.makeDirectory home path) w).2
    rw [hok]
    exact ⟨FileTree.makeDirectory_ok ht, rfl, rfl⟩

/-- Making a chain of directories only makes directories, and looks at what is there. -/
theorem Keeps.makeChain {R : Machine → Machine → Prop} [Std.Refl R] [IsTrans Machine R]
    {paths : List String} (h : ∀ path ∈ paths, Keeps R (Host.makeDirectory path)) :
    Keeps R (Host.makeChain paths) := by
  induction paths with
  | nil => exact .pure _
  | cons path parents ih =>
    obtain ⟨hpath, hparents⟩ := List.forall_mem_cons.mp h
    unfold Host.makeChain
    split
    · exact .pure _
    · refine hpath.bind fun r => ?_
      split
      · exact .pure _
      · refine (ih hparents).bind fun r => ?_
        split
        · exact .pure _
        · refine hpath.bind fun r => ?_
          split
          · exact .pure _
          · exact (kind?_same path).of_same.bind fun _ => .pure _
      · exact (kind?_same path).of_same.bind fun _ => .pure _

theorem makeChain_grows (paths : List String) :
    Keeps (Grows fun _ => False) (Host.makeChain paths) :=
  .makeChain fun path _ => makeDirectory_grows path

theorem markExecutable_ok {path : String}
    (h : Host.markExecutable (m := StateM Machine) path w = (.ok (), w')) :
    Grows (· = FileTree.location w.home path) w w' ∧
      ∀ {text}, Holds w path text → Holds w' path text := by
  obtain ⟨t, ht, rfl⟩ := change_ok (f := fun t home => t.markExecutable home path) h
  obtain ⟨hgrows, hmark⟩ := FileTree.markExecutable_ok ht
  exact ⟨⟨hgrows, rfl, rfl⟩, fun ⟨_, hx⟩ => ⟨true, hmark hx⟩⟩

theorem removeFile_run {path : String} {l : Location} {n : Node} (hclosed : w.tree.IsClosed)
    (h : w.tree.locate w.home path = .ok (l, n)) (hn : n ≠ .directory) :
    Host.removeFile (m := StateM Machine) path w = (.ok (), { w with tree := w.tree.erase l }) := by
  show change (fun t home => t.removeFile home path) w = _
  rw [change, FileTree.removeFile_of_locate hclosed h hn]

theorem removeFile_ok {path : String} (hclosed : w.tree.IsClosed)
    (h : Host.removeFile (m := StateM Machine) path w = (.ok (), w')) :
    w'.tree.IsBare (FileTree.location w.home path) ∧ w'.home = w.home ∧
      w'.programs = w.programs := by
  obtain ⟨t, ht, rfl⟩ := change_ok (f := fun t home => t.removeFile home path) h
  exact ⟨FileTree.removeFile_ok hclosed ht, rfl, rfl⟩

theorem removeTree_ok {path : String}
    (h : Host.removeTree (m := StateM Machine) path w = (.ok (), w')) :
    w'.tree.IsBare (FileTree.location w.home path) ∧ w'.home = w.home ∧
      w'.programs = w.programs := by
  have hrun : Host.removeTree (m := StateM Machine) path w =
      ((w.tree.removeTree w.home path).2,
        { w with tree := (w.tree.removeTree w.home path).1 }) := rfl
  rw [hrun] at h
  obtain ⟨hok, rfl⟩ := Prod.ext_iff.mp h
  exact ⟨FileTree.removeTree_ok (Prod.ext rfl hok), rfl, rfl⟩

/-! ## Programs -/

/-- A program changes at most the files to which its arguments direct its packets. -/
def WritesPackets (home : Location) (p : Saturation.Program) : Prop :=
  ∀ arguments t, (p arguments t).1 = t ∨ ∃ path bytes, "--packets=" ++ path ∈ arguments ∧
    t.write home path bytes = .ok (p arguments t).1

/-- The locations to which some arguments direct packets. -/
def DirectsTo (home : Location) (arguments : List String) (l : Location) : Prop :=
  ∃ path, "--packets=" ++ path ∈ arguments ∧ l = FileTree.location home path

theorem WritesPackets.grows {home : Location} {p : Saturation.Program} (h : WritesPackets home p)
    (arguments : List String) (t : FileTree) :
    t.Grows (DirectsTo home arguments) (p arguments t).1 := by
  rcases h arguments t with hsame | ⟨path, bytes, hpath, hwrite⟩
  · rw [hsame]
    exact .refl _ t
  · exact (FileTree.write_ok hwrite).1.mono fun l hl => ⟨path, hpath, hl⟩

theorem mem_of_program? {l : Location} {p : Saturation.Program} :
    ∀ {programs : List (Location × Saturation.Program)}, program? l programs = some p →
      (l, p) ∈ programs := by
  intro programs h
  induction programs with
  | nil => cases h
  | cons e rest ih =>
    obtain ⟨at', q⟩ := e
    rw [program?] at h
    split at h
    · rename_i hat
      cases h
      subst hat
      exact List.mem_cons_self
    · exact List.mem_cons_of_mem _ (ih h)

section Launch

variable {arguments : List String}

/-- The machine behind a program that was started. -/
def Started (arguments : List String) (w : Machine) (r : Except SystemError UInt8 × Machine) : Prop :=
  ∃ l p, (l, p) ∈ w.programs ∧
    r = (.ok (p arguments w.tree).2, { w with tree := (p arguments w.tree).1 })

theorem start_cases (path : String) (arguments : List String) (w : Machine) :
    (∃ e, start path arguments w = (.error e, w)) ∨ Started arguments w (start path arguments w) := by
  unfold start
  split
  · exact .inl ⟨_, rfl⟩
  · split
    · rename_i hp
      exact .inr ⟨_, _, mem_of_program? hp, rfl⟩
    · exact .inl ⟨_, rfl⟩
  · exact .inl ⟨_, rfl⟩

theorem search_cases (name : String) (arguments : List String) (w : Machine)
    (directories : List String) (refusal : SystemError) :
    (∃ e, search name arguments w refusal directories = (.error e, w)) ∨
      Started arguments w (search name arguments w refusal directories) := by
  induction directories generalizing refusal with
  | nil => exact .inl ⟨_, rfl⟩
  | cons directory rest ih =>
    unfold search
    rcases start_cases (Path.join directory name) arguments w with ⟨e, he⟩ | ⟨l, p, hp, hok⟩
    · rw [he]
      cases e with
      | notFound | notDirectory | permissionDenied => exact ih _
      | _ => exact .inl ⟨_, rfl⟩
    · rw [hok]
      exact .inr ⟨l, p, hp, rfl⟩

/-- Nothing changes unless a program is started. -/
theorem launch_cases (path : String) (arguments : List String) (w : Machine) :
    (∃ e, launch path arguments w = (.error e, w)) ∨ Started arguments w (launch path arguments w) := by
  unfold launch
  split
  · exact .inl ⟨_, rfl⟩
  · split
    · exact start_cases path arguments w
    · split
      · exact .inl ⟨_, rfl⟩
      · exact search_cases path arguments w w.searched _

theorem launch_grows (hprograms : ∀ e ∈ w.programs, WritesPackets w.home e.2) {path : String}
    {r : Except SystemError UInt8}
    (h : Host.launch (m := StateM Machine) path arguments w = (r, w')) :
    Grows (DirectsTo w.home arguments) w w' := by
  replace h : launch path arguments w = (r, w') := h
  rcases launch_cases path arguments w with ⟨e, he⟩ | ⟨l, p, hp, hok⟩
  · rw [he] at h
    cases h
    exact refl_of (Grows _) w
  · rw [hok] at h
    cases h
    exact ⟨(hprograms _ hp).grows arguments w.tree, rfl, rfl⟩

end Launch

end Machine

end Saturation
