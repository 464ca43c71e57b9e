import Saturation.Proofs.Confinement

/-!
What becomes of the inputs of a run. The template is copied and the trace is read after the output
has been cleared, so that a run that gets that far loses those of them that are in the output. It
keeps all others.
-/

set_option autoImplicit false

namespace Saturation

open FileTree (location)

namespace Machine

variable {w w' : Machine} {home l : Location} {path : String} {written : Location → Prop}

/-! ## Emptied places -/

/-- There were at most directories where a path had led, and since then some files may have been
written. -/
structure Emptied (home : Location) (path : String) (written : Location → Prop) (w : Machine) :
    Prop where
  tree : ∃ t : FileTree, t.IsBare (location home path) ∧ t.Grows written w.tree
  home : w.home = home

namespace Emptied

theorem of_isBare (hhome : w.home = home) (h : w.tree.IsBare (location home path)) :
    Emptied home path written w := ⟨⟨w.tree, h, .refl written w.tree⟩, hhome⟩

theorem grows (h : Emptied home path written w) (hw : Grows written w w') :
    Emptied home path written w' := by
  obtain ⟨t, hbare, hgrows⟩ := h.tree
  exact ⟨⟨t, hbare, (hgrows.trans hw.tree).mono fun _ => Or.rec id id⟩, hw.home.trans h.home⟩

theorem quiet (h : Emptied home path written w) (hw : Quiet w w') : Emptied home path written w' :=
  h.grows (hw.grows written)

theorem mono {written' : Location → Prop} (h : Emptied home path written w)
    (hl : ∀ l, written l → written' l) : Emptied home path written' w := by
  obtain ⟨t, hbare, hgrows⟩ := h.tree
  exact ⟨⟨t, hbare, hgrows.mono hl⟩, h.home⟩

theorem directory {n : Node} (h : Emptied home path written w) (hl : location home path <+: l)
    (hw : ¬ written l) (hn : w.tree.get? l = some n) : n = .directory := by
  obtain ⟨t, hbare, hgrows⟩ := h.tree
  by_contra hne
  exact hw (hbare.written hgrows hl hn hne)

end Emptied

end Machine

namespace Program

open Machine (Step Keeps Quiet Grows WritesPackets Emptied)

variable {j : JobRequest} {w w' : Machine} {path : String} {l : Location} {b : Bytes} {x : Bool}

/-! ## Preparing the output -/

/-- Whether it succeeds or not, clearing an output with a file in it leaves no file there. -/
theorem clearOutput_emptied (hclosed : w.tree.IsClosed)
    (hkind : (Host.kind? (m := StateM Machine) path w).1 ≠ none)
    (hl : location w.home path <+: l) (hfile : w.tree.get? l = some (.file b x)) :
    Emptied w.home path (fun _ => False) ((clearOutput path : Step _).run w).2 := by
  refine clearOutput_final (fun hnone => absurd hnone hkind) (fun hfound v hv => ?_)
    (fun hfound v hv => ?_) fun hfound => ?_
  all_goals
    obtain ⟨n, hlocate, hn⟩ := Machine.kind?_some hfound
  · rw [← hv.tree, ← hv.home] at hlocate
    rw [← hv.tree] at hclosed
    cases n with
    | directory | device => cases hn
    | file =>
      have hrun := Machine.removeFile_run hclosed hlocate nofun
      have hbare := (Machine.removeFile_ok hclosed hrun).1
      rw [hrun]
      exact .of_isBare hv.home (hv.home ▸ hbare)
  · rw [← hv.tree, ← hv.home] at hlocate
    cases n with
    | file | device => cases hn
    | directory => exact .of_isBare hv.home (hv.home ▸ FileTree.removeTree_isBare hlocate)
  · -- In place of the device there would be the file itself, or a directory above it.
    have hnode := (FileTree.locate_ok hlocate).2.2.1
    obtain ⟨rest, rfl⟩ := hl
    cases n with
    | file | directory => cases hn
    | device =>
      by_cases hrest : rest = []
      · rw [hrest, List.append_nil, hnode] at hfile
        cases hfile
      · cases hnode.symm.trans (hclosed.above rest hfile hrest)

/-- Where the template is copied, unless it has been where the output goes. -/
def Copies (j : JobRequest) (home l : Location) : Prop :=
  l = location home j.templateCopy ∧
    ¬ location home j.outputDirectory <+: location home j.template

/-- What an attempt to prepare the output leaves. -/
structure IsPrepared (j : JobRequest) (home : Location)
    (r : Except Failure (List String) × Machine) : Prop where
  emptied : Emptied home j.outputDirectory (Copies j home) r.2
  outside : r.1.isOk → ¬ location home j.outputDirectory <+: location home j.template

theorem prepareOutput_isPrepared (hclosed : w.tree.IsClosed)
    (hkind : (Host.kind? (m := StateM Machine) j.outputDirectory w).1 ≠ none)
    (hl : location w.home j.outputDirectory <+: l) (hfile : w.tree.get? l = some (.file b x)) :
    IsPrepared j w.home ((prepareOutput j : Step _).run w) := by
  have hnothing : ∀ {v}, Emptied w.home j.outputDirectory (fun _ => False) v →
      Emptied w.home j.outputDirectory (Copies j w.home) v := fun h => h.mono fun _ => False.elim
  have hcleared := clearOutput_emptied hclosed hkind hl hfile
  unfold prepareOutput
  refine Machine.bind_cases (fun e v he => ?_) fun _ v hv => ?_
  · rw [he] at hcleared
    exact ⟨hnothing hcleared, nofun⟩
  rw [hv] at hcleared
  have hmade := hcleared.grows (makeDirectories_grows j.outputDirectory v)
  refine Machine.bind_cases (fun e u he => ?_) fun _ u hu => ?_
  · rw [he] at hmade
    exact ⟨hnothing hmade, nofun⟩
  rw [hu] at hmade
  refine Machine.bind_cases (fun e u' he => ?_) fun _ u' hu' => ?_
  · obtain ⟨_, hs⟩ := Machine.attempt_error he
    rw [Machine.copy_error hs]
    exact ⟨hnothing hmade, nofun⟩
  · have hcopied := Machine.attempt_ok hu'
    obtain ⟨_, _, hsource⟩ := Machine.copy_source hcopied
    have hgrows := Machine.copy_ok hcopied
    rw [hmade.home] at hsource hgrows
    have houtside : ¬ location w.home j.outputDirectory <+: location w.home j.template :=
      fun h => by cases hmade.directory h id hsource
    exact ⟨(hnothing hmade).grows (hgrows.mono fun _ h => ⟨h, houtside⟩), fun _ => houtside⟩

/-! ## Runs -/

/-- A trace is not analyzed if there is at most a directory in its place. -/
theorem analyzeFile_directory {policies : List Policy} {bounds : AttackBounds Float} {a : Analysis}
    (h : ∀ n, w.tree.get? (location w.home path) = some n → n = .directory) :
    analyzeFile (m := StateM Machine) path policies bounds w ≠ (.ok a, w') := by
  have hread : ∃ e, Host.read (m := StateM Machine) path w = (.error e, w) := by
    have hnode : ∀ {l n}, w.tree.locate w.home path = .ok (l, n) → n = .directory :=
      fun hl => h _ (FileTree.locate_location hl ▸ (FileTree.locate_ok hl).2.2.1)
    show ∃ e, (w.tree.read w.home path, w) = _
    unfold FileTree.read
    split
    · exact ⟨_, rfl⟩
    · cases hnode ‹_›
    · exact ⟨_, rfl⟩
    · cases hnode ‹_›
  obtain ⟨e, he⟩ := hread
  intro hanalyze
  cases (Machine.bind_run he).symm.trans hanalyze

/-- A run keeps a file that is not in the output, and every file if it stops early. -/
theorem layOutJobs_keepsFile (hprograms : ∀ e ∈ w.programs, WritesPackets w.home e.2)
    (hfile : w.tree.get? l = some (.file b x))
    (h : Begins j w → ¬ location w.home j.outputDirectory <+: l) :
    ((layOutJobs j : Step _).run w).2.tree.get? l = some (.file b x) := by
  by_cases hbegins : Begins j w
  · exact (layOutJobs_contained j w hprograms).tree.same hfile (h hbegins)
  · rw [layOutJobs_idle hbegins, hfile]

/-- A run that gets to its output with an input in it does not get further than to the analysis. -/
theorem layOutJobs_emptied (hbegins : Begins j w) (hclosed : w.tree.IsClosed)
    (hkind : (Host.kind? (m := StateM Machine) j.outputDirectory w).1 ≠ none)
    (hinput : path = j.template ∨ j.trace = some path)
    (hl : location w.home j.outputDirectory <+: location w.home path)
    (hcopy : location w.home path = location w.home j.templateCopy → path = j.template)
    (hfile : w.tree.get? (location w.home path) = some (.file b x)) :
    Emptied w.home j.outputDirectory (Copies j w.home) ((layOutJobs j : Step _).run w).2 := by
  obtain ⟨t, ht⟩ := hbegins.template
  obtain ⟨bounds, hbounds⟩ := hbegins.bounds
  unfold layOutJobs
  rw [if_neg (by simp [hbegins.notEmpty])]
  refine Machine.bind_final (fun e v he => ?_) fun t v hload => ?_
  · cases (congrArg Prod.fst he).symm.trans ht
  obtain rfl := (Machine.loadTemplate_same _).of_eq hload
  refine Machine.bind_final (fun e v he => ?_) fun bounds v hload => ?_
  · obtain ⟨_, hs⟩ := Machine.attempt_error he
    cases (congrArg Prod.fst hs).symm.trans hbounds
  have hquiet := (Machine.loadBounds_quiet _).of_eq (Machine.attempt_ok hload)
  have hprepared : IsPrepared j v.home ((prepareOutput j : Step _).run v) := by
    rw [← hquiet.tree, ← hquiet.home] at hfile
    rw [← hquiet.tree] at hclosed
    rw [← hquiet.kind?_eq] at hkind
    exact prepareOutput_isPrepared hclosed hkind (hquiet.home ▸ hl) hfile
  rw [hquiet.home] at hprepared
  refine Machine.bind_final (fun e u he => ?_) fun warnings u hu => ?_
  · rw [he] at hprepared
    exact hprepared.emptied
  rw [hu] at hprepared
  have houtside := hprepared.outside rfl
  have htrace : j.trace = some path := hinput.resolve_left fun h => houtside (h ▸ hl)
  rw [obtainTrace_given htrace, pure_bind]
  have hmade := hprepared.emptied.grows ((makeJobDirectories_grows j u).mono fun _ => False.elim)
  refine Machine.bind_through hmade fun _ u' _ hmade => ?_
  have hsaid := fun lines => hmade.quiet (Machine.sayAll_quiet lines u')
  rw [Machine.lift_bind]
  refine Machine.bind_final (fun e v he => ?_) fun a v ha => ?_
  · obtain ⟨_, hs⟩ := Machine.attempt_error he
    rw [← (Machine.analyzeFile_same _ _ _).of_eq hs]
    exact hsaid _
  · refine absurd (Machine.attempt_ok ha) (analyzeFile_directory fun n hn => ?_)
    rw [(hsaid _).home] at hn
    exact (hsaid _).directory hl (fun ⟨h, _⟩ => houtside (hcopy h ▸ hl)) hn

/-- An input is lost if it is in the output of a run that does not stop early, and else it is kept.
That is so wherever the paths are, except that an output path that leads nowhere yet is not to
stand for a place above the input, and that the trace is not to be where the template is copied. -/
theorem layOutJobs_keepsInput_iff (hclosed : w.tree.IsClosed)
    (hprograms : ∀ e ∈ w.programs, WritesPackets w.home e.2)
    (hinput : path = j.template ∨ j.trace = some path)
    (hfile : w.tree.locate w.home path = .ok (l, .file b x))
    (hleads : (Host.kind? (m := StateM Machine) j.outputDirectory w).1 = none →
      ¬ location w.home j.outputDirectory <+: l)
    (hcopy : l = location w.home j.templateCopy → path = j.template) :
    ((layOutJobs j : Step _).run w).2.tree.get? l = some (.file b x) ↔
      (Begins j w → ¬ location w.home j.outputDirectory <+: l) := by
  obtain rfl := FileTree.locate_location hfile
  have hnode := (FileTree.locate_ok hfile).2.2.1
  refine ⟨fun hkept hbegins hl => ?_, layOutJobs_keepsFile hprograms hnode⟩
  have hemptied := layOutJobs_emptied hbegins hclosed (fun hnone => hleads hnone hl) hinput hl hcopy
    hnode
  cases hemptied.directory hl (fun ⟨h, houtside⟩ => houtside (hcopy h ▸ hl)) hkept

/-- The templates and the trace that earlier runs have left in their output. -/
def finishedMachine : Machine where
  tree := ⟨[(["jobs"], .directory), (["jobs", "template.cfg"], .file settingsFile false),
    (["jobs", "template.toml"], .file tomlFile false),
    (["jobs", "log.packets"], .file packetLog false)]⟩
  home := []
  programs := []
  searched := []
  environment := []
  formats := [tomlFormat, Configuration.jsonFormat]
  time := 0
  printed := ""
  logged := []

theorem finishedMachine_isClosed : finishedMachine.tree.IsClosed :=
  FileTree.isClosed_of_nodes (by decide)

/-- The same once more, from what has been left. -/
def rerun : JobRequest where
  simulator := "./sim"
  template := "jobs/template.cfg"
  outputDirectory := "jobs"
  keepPackets := false
  trace := some "jobs/log.packets"
  selection := ⟨[.fcfs], [⟨1000000000⟩], [⟨1000000000⟩]⟩
  colour := false

/-- The same from the template in another format. -/
def rerunOfToml : JobRequest := { rerun with template := "jobs/template.toml" }

/-- The template is loaded and lost. -/
theorem layOutJobs_keepsInput_iff_rerun : finishedMachine.tree.IsClosed ∧
    (∀ e ∈ finishedMachine.programs, WritesPackets finishedMachine.home e.2) ∧
    finishedMachine.tree.locate finishedMachine.home rerunOfToml.template =
      .ok (["jobs", "template.toml"], .file tomlFile false) ∧
    (Host.kind? (m := StateM Machine) rerunOfToml.outputDirectory finishedMachine).1 =
      some .directory ∧
    ((layOutJobs rerunOfToml : Step _).run finishedMachine).2.tree.get? ["jobs", "template.toml"] =
      none ∧
    (((layOutJobs rerunOfToml : Step _).run finishedMachine).2.tree.get? ["jobs", "template.toml"] =
        some (.file tomlFile false) ↔
      (Begins rerunOfToml finishedMachine →
        ¬ location finishedMachine.home rerunOfToml.outputDirectory <+: ["jobs", "template.toml"])) := by
  have hprograms : ∀ e ∈ finishedMachine.programs, WritesPackets finishedMachine.home e.2 :=
    fun e he => absurd he List.not_mem_nil
  have hfile : finishedMachine.tree.locate finishedMachine.home rerunOfToml.template =
      .ok (["jobs", "template.toml"], .file tomlFile false) := by decide +kernel
  have hkind : (Host.kind? (m := StateM Machine) rerunOfToml.outputDirectory finishedMachine).1 =
      some .directory := by decide +kernel
  have hlost : ((layOutJobs rerunOfToml : Step _).run finishedMachine).2.tree.get?
      ["jobs", "template.toml"] = none := by decide +kernel
  exact ⟨finishedMachine_isClosed, hprograms, hfile, hkind, hlost,
    layOutJobs_keepsInput_iff finishedMachine_isClosed hprograms (.inl rfl) hfile
      (fun hnone => by rw [hkind] at hnone; cases hnone) fun _ => rfl⟩

/-- The inputs of a run may be lost. -/
theorem not_layOutJobs_keepsInput : ¬ ∀ (j : JobRequest) (w : Machine) (path : String) (l : Location)
    (b : Bytes) (x : Bool), w.tree.IsClosed → (∀ e ∈ w.programs, WritesPackets w.home e.2) →
    path = j.template ∨ j.trace = some path → w.tree.locate w.home path = .ok (l, .file b x) →
    ((layOutJobs j : Step _).run w).2.tree.get? l = some (.file b x) := by
  intro h
  have hkept := h rerun finishedMachine "jobs/log.packets" ["jobs", "log.packets"] packetLog false
    finishedMachine_isClosed (fun e he => absurd he List.not_mem_nil) (.inr rfl) (by decide +kernel)
  have hlost : ((layOutJobs rerun : Step _).run finishedMachine).2.tree.get? ["jobs", "log.packets"] =
      none := by decide +kernel
  rw [hlost] at hkept
  cases hkept

end Program

end Saturation
