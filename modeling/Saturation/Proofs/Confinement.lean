import Saturation.Proofs.Files.Confined
import Saturation.Proofs.Jobs

/-!
Laying out jobs changes nothing but the output directory and what is below it, whatever its outcome;
all it may do elsewhere is to make the directories that the output is in. A run that stops before it
has its template and its bounds changes nothing at all.
-/

set_option autoImplicit false

namespace Saturation

open FileTree (location)

namespace Machine

variable {β : Type} {w w' : Machine} {out path : String}

/-! ## Steps of a machine -/

/-- Files change only where a path leads, or below it. Directories may be made on the way there; it
is the way down to the path, unless one of its names leads upwards. -/
structure Confined (out : String) (w w' : Machine) : Prop where
  tree : w.tree.Confined (location w.home out)
    (fun l => ".." ∉ Path.parts out → l <+: location w.home out) w'.tree
  home : w'.home = w.home
  programs : w'.programs = w.programs

instance (out : String) : Std.Refl (Confined out) := ⟨fun w => ⟨.refl _ _ w.tree, rfl, rfl⟩⟩

instance (out : String) : IsTrans Machine (Confined out) := ⟨fun w v w' h h' => by
  refine ⟨h.tree.trans ?_, h'.home.trans h.home, h'.programs.trans h.programs⟩
  have htree := h'.tree
  rwa [h.home] at htree⟩

theorem Quiet.confined (h : Quiet w w') (out : String) : Confined out w w' := by
  refine ⟨?_, h.home, h.programs⟩
  rw [h.tree]
  exact .refl _ _ w.tree

theorem Keeps.confined {x : StateM Machine β} (h : Keeps Quiet x) (out : String) :
    Keeps (Confined out) x := fun w => (h w).confined out

/-- A path stands for a location that is the one of another path or below it, from any directory,
and leads upwards only where the other one does. -/
structure Below (out path : String) : Prop where
  prefix_location : ∀ home, location home out <+: location home path
  descends : ".." ∉ Path.parts out → ".." ∉ Path.parts path

theorem Below.refl (path : String) : Below path path := ⟨fun _ => List.prefix_rfl, id⟩

theorem Below.join {name : String} (h : Below out path) (hname : Path.IsName name) :
    Below out (Path.join path name) := by
  constructor
  · intro home
    rw [FileTree.location_join hname]
    exact (h.prefix_location home).trans (List.prefix_append _ _)
  · intro hout
    rw [Path.parts_join hname, List.mem_append, List.mem_singleton]
    exact not_or.mpr ⟨h.descends hout, hname.ne_above.symm⟩

theorem change_confined {f : FileTree → Location → Except SystemError FileTree}
    (hf : ∀ {home t t'}, f t home = .ok t' → t.Confined (location home out)
      (fun l => ".." ∉ Path.parts out → l <+: location home out) t') :
    Keeps (Confined out) (change f) := by
  intro w
  rcases change_cases f w with ⟨e, he⟩ | ⟨t, ht, hok⟩
  · rw [he]
    exact refl_of (Confined out) w
  · rw [hok]
    exact ⟨hf ht, rfl, rfl⟩

theorem writeText_confined (h : Below out path) (text : String) :
    Keeps (Confined out) (Host.writeText path text) :=
  change_confined fun ht => FileTree.put_confined (h.prefix_location _) ht

theorem copy_confined (h : Below out path) (source : String) :
    Keeps (Confined out) (Host.copy source path) :=
  change_confined fun ht => FileTree.copy_confined (h.prefix_location _) ht

theorem markExecutable_confined (h : Below out path) :
    Keeps (Confined out) (Host.markExecutable path) :=
  change_confined fun ht => FileTree.markExecutable_confined (h.prefix_location _) ht

theorem removeFile_confined (path : String) : Keeps (Confined path) (Host.removeFile path) :=
  change_confined fun ht => FileTree.removeFile_confined List.prefix_rfl ht

theorem removeTree_confined (path : String) : Keeps (Confined path) (Host.removeTree path) :=
  fun _ => ⟨FileTree.removeTree_confined List.prefix_rfl, rfl, rfl⟩

/-- A directory below the output, and those it is in, are below the output or on the way there. -/
theorem makeChain_confined (h : Below out path) :
    Keeps (Confined out) (Host.makeChain (path :: Path.ancestors path)) := by
  refine .makeChain fun p hp => change_confined fun {home _ _} ht =>
    FileTree.makeDirectory_confined ?_ ht
  by_cases hout : ".." ∈ Path.parts out
  · exact .inr fun hnot => absurd hout hnot
  · rcases List.mem_cons.mp hp with rfl | hp
    · exact .inl (h.prefix_location home)
    · exact (List.prefix_or_prefix_of_prefix (h.prefix_location home)
        (FileTree.location_ancestor (h.descends hout) hp)).imp_right fun hdown _ => hdown

/-- The relation of `Confined`, if the programs write nothing but their packets. -/
def Contained (out : String) (w w' : Machine) : Prop :=
  (∀ e ∈ w.programs, WritesPackets w.home e.2) → Confined out w w'

instance (out : String) : Std.Refl (Contained out) := ⟨fun w _ => refl_of (Confined out) w⟩

instance (out : String) : IsTrans Machine (Contained out) := ⟨fun w v w' h h' hprograms => by
  have hfirst := h hprograms
  rw [← hfirst.home, ← hfirst.programs] at hprograms
  exact trans_of (Confined out) hfirst (h' hprograms)⟩

theorem Keeps.contained {x : StateM Machine β} (h : Keeps (Confined out) x) :
    Keeps (Contained out) x := fun w _ => h w

theorem launch_contained {arguments : List String}
    (h : ∀ path, "--packets=" ++ path ∈ arguments → Below out path) (simulator : String) :
    Keeps (Contained out) (Host.launch simulator arguments) := by
  intro w hprograms
  have hrun : Host.launch (m := StateM Machine) simulator arguments w =
      launch simulator arguments w := rfl
  rw [hrun]
  rcases launch_cases simulator arguments w with ⟨e, he⟩ | ⟨l, p, hp, hok⟩
  · rw [he]
    exact refl_of (Confined out) w
  · rw [hok]
    refine ⟨?_, rfl, rfl⟩
    rcases hprograms _ hp arguments w.tree with hsame | ⟨path, bytes, hpath, hwrite⟩
    · show FileTree.Confined _ _ w.tree (p arguments w.tree).1
      rw [hsame]
      exact .refl _ _ w.tree
    · exact FileTree.put_confined ((h path hpath).prefix_location w.home) hwrite

end Machine

namespace Program

open Machine (Step Keeps Confined Contained Below Quiet WritesPackets)

variable {j : JobRequest} {w : Machine}

/-! ## Steps of a command -/

theorem clearOutput_confined (path : String) :
    Keeps (Confined path) (clearOutput path : Step _).run :=
  clearOutput_keeps (fun event => (Machine.log_quiet event).confined path)
    (Machine.removeFile_confined path) (Machine.removeTree_confined path)

theorem makeDirectories_confined {out path : String} (h : Below out path) :
    Keeps (Confined out) (makeDirectories path : Step _).run :=
  .attempt (Machine.makeChain_confined h)

theorem templateCopy_below (j : JobRequest) : Below j.outputDirectory j.templateCopy :=
  (Below.refl _).join (templateName_isName j)

theorem prepareOutput_confined (j : JobRequest) :
    Keeps (Confined j.outputDirectory) (prepareOutput j : Step _).run :=
  prepareOutput_keeps (clearOutput_confined _) (makeDirectories_confined (.refl _))
    (Machine.copy_confined (templateCopy_below j) _)

theorem makeJobDirectories_confined (j : JobRequest) :
    Keeps (Confined j.outputDirectory) (makeJobDirectories j : Step _).run := by
  have hnames : ∀ subdirectory ∈ ["configs", "packets", "outputs"], Path.IsName subdirectory := by
    decide
  exact .steps fun subdirectory hsub => .steps fun policy _ => makeDirectories_confined
    (((Below.refl _).join (hnames subdirectory hsub)).join policy.isName)

theorem filePath_below {subdirectory extension : String} (hsub : Path.IsName subdirectory)
    (hext : '/' ∉ extension.toList) (r : Run) :
    Below j.outputDirectory (j.filePath subdirectory extension r) :=
  (((Below.refl _).join hsub).join r.policy.isName).join (fileName_isName _ _ hext)

/-- The dry run is told to write its packets below the output. -/
theorem obtainTrace_contained (j : JobRequest) :
    Keeps (Contained j.outputDirectory) (obtainTrace j : Step _).run := by
  have hpackets : Below j.outputDirectory (dryTrace j) := (Below.refl _).join (by decide)
  exact obtainTrace_keeps (fun event => ((Machine.log_quiet event).confined _).contained)
    (Machine.launch_contained (fun path hpath => packets_dryRun hpath ▸ hpackets) _)

theorem writeFile_confined {out path : String} (h : Below out path) (text : String) :
    Keeps (Confined out) (writeFile path text : Step _).run :=
  .attempt (Machine.writeText_confined h text)

theorem writeRuns_confined (t : Template) (size : UInt64) (runs : List Run) :
    ∀ previous : Option Run, Keeps (Confined j.outputDirectory)
      (writeRuns j t size previous runs : Step _).run := by
  induction runs with
  | nil => exact fun _ => .pure _
  | cons r rest ih =>
    intro previous
    refine (Keeps.lift ((Machine.sayAll_quiet _).confined _)).step fun _ => ?_
    refine Keeps.step ?_ fun _ => ih (some r)
    exact writeTemplate_keeps
      (Machine.writeText_confined (filePath_below (by decide) (by decide) r)) t _

theorem layOutJobs_contained (j : JobRequest) :
    Keeps (Contained j.outputDirectory) (layOutJobs j : Step _).run := by
  have hquiet : ∀ {β : Type} {x : StateM Machine β}, Keeps Quiet x →
      Keeps (Contained j.outputDirectory) x := fun hx => (hx.confined _).contained
  have hsay : ∀ text : String, Keeps (Contained j.outputDirectory) (Host.say text) :=
    fun text => hquiet (Machine.say_quiet text)
  have hlog : ∀ event : Event, Keeps (Contained j.outputDirectory) (Host.log event) :=
    fun event => hquiet (Machine.log_quiet event)
  unfold layOutJobs
  split
  · exact .lift (hsay _)
  · refine Keeps.step (Machine.loadTemplate_same _).of_same fun t => ?_
    refine (Keeps.attempt (hquiet (Machine.loadBounds_quiet _))).step fun bounds => ?_
    refine (prepareOutput_confined j).contained.step fun warnings => ?_
    refine (obtainTrace_contained j).step fun trace => ?_
    refine (makeJobDirectories_confined j).contained.step fun _ => ?_
    refine (Keeps.lift (hquiet (Machine.sayAll_quiet _))).step fun _ => ?_
    refine (Keeps.attempt (Machine.analyzeFile_same _ _ _).of_same).step fun a => ?_
    refine (Keeps.lift (hlog _)).step fun _ => ?_
    refine (Keeps.lift (hquiet (Machine.reportOf_quiet _ _ _))).step fun report => ?_
    refine (writeRuns_confined t _ _ none).contained.step fun _ => ?_
    refine (Keeps.lift (hsay _)).step fun _ => ?_
    refine (writeFile_confined ((Below.refl _).join (by decide)) _).contained.step fun _ => ?_
    refine (Keeps.attempt (Machine.markExecutable_confined
      ((Below.refl _).join (by decide))).contained).step fun _ => ?_
    refine (Keeps.lift (hlog _)).step fun _ => ?_
    refine (writeFile_confined ((Below.refl _).join (by decide)) _).contained.step fun _ => ?_
    exact (Keeps.lift (hlog _)).step fun _ => .lift (hsay _)

/-! ## Runs -/

/-- Nothing stops a run before its output is prepared: there is something to do, and the template and
the bounds in it can be loaded. -/
structure Begins (j : JobRequest) (w : Machine) : Prop where
  notEmpty : j.selection.isEmpty = false
  template : ∃ t, (Template.load (m := StateM Machine) j.template w).1 = .ok t
  bounds : ∃ b, (Configuration.load (m := StateM Machine) j.template w).1 = .ok b

theorem layOutJobs_idle (h : ¬ Begins j w) : ((layOutJobs j : Step _).run w).2.tree = w.tree := by
  unfold layOutJobs
  split
  · exact (Machine.say_quiet _ w).tree
  · rename_i hne
    refine Machine.bind_final (P := fun v => v.tree = w.tree) (fun e v he => ?_) fun t v ht => ?_
    · exact (Machine.loadTemplate_same _).of_eq he ▸ rfl
    · obtain rfl := (Machine.loadTemplate_same _).of_eq ht
      refine Machine.bind_final (P := fun v => v.tree = w.tree) (fun e v he => ?_) fun b v hb => ?_
      · exact ((Keeps.attempt (Machine.loadBounds_quiet _)).of_eq he).tree
      · exact absurd ⟨by simpa using hne, ⟨t, congrArg Prod.fst ht⟩,
          ⟨b, congrArg Prod.fst (Machine.attempt_ok hb)⟩⟩ h

/-- Effects are confined to the output, and a run that stops early has none. -/
theorem layOutJobs_isConfined (hout : ".." ∉ Path.parts j.outputDirectory)
    (hprograms : ∀ e ∈ w.programs, WritesPackets w.home e.2) :
    (∀ l, ((layOutJobs j : Step _).run w).2.tree.get? l ≠ w.tree.get? l →
      location w.home j.outputDirectory <+: l ∨
        l <+: location w.home j.outputDirectory ∧ w.tree.get? l = none ∧
          ((layOutJobs j : Step _).run w).2.tree.get? l = some .directory) ∧
    (j.selection.isEmpty = true ∨
      (∃ e, (Template.load (m := StateM Machine) j.template w).1 = .error e) ∨
      (∃ e, (Configuration.load (m := StateM Machine) j.template w).1 = .error e) →
      ((layOutJobs j : Step _).run w).2.tree = w.tree) := by
  constructor
  · intro l hl
    refine ((layOutJobs_contained j w hprograms).tree l hl).imp_right fun ⟨hdown, hnew⟩ => ?_
    exact ⟨hdown hout, hnew⟩
  · intro hstop
    refine layOutJobs_idle fun h => ?_
    obtain ⟨t, ht⟩ := h.template
    obtain ⟨b, hb⟩ := h.bounds
    rcases hstop with hempty | ⟨e, he⟩ | ⟨e, he⟩
    · rw [h.notEmpty] at hempty
      cases hempty
    · rw [ht] at he
      cases he
    · rw [hb] at he
      cases he

/-- The output is to be two directories down, and the simulator leaves no trace there. -/
def deepRun : JobRequest where
  simulator := "./sim"
  template := "t.toml"
  outputDirectory := "deep/./jobs"
  keepPackets := false
  trace := none
  selection := ⟨[.fcfs], [⟨1000000000⟩], [⟨1000000000⟩]⟩
  colour := false

/-- The run stops after it has made `deep`. -/
theorem layOutJobs_isConfined_deepRun : ".." ∉ Path.parts deepRun.outputDirectory ∧
    (∀ e ∈ usedMachine.programs, WritesPackets usedMachine.home e.2) ∧
    ((layOutJobs deepRun : Step _).run usedMachine).1.isOk = false ∧
    ((layOutJobs deepRun : Step _).run usedMachine).2.tree.get? ["deep"] ≠
      usedMachine.tree.get? ["deep"] ∧
    ∀ l, ((layOutJobs deepRun : Step _).run usedMachine).2.tree.get? l ≠ usedMachine.tree.get? l →
      location usedMachine.home deepRun.outputDirectory <+: l ∨
        l <+: location usedMachine.home deepRun.outputDirectory ∧ usedMachine.tree.get? l = none ∧
          ((layOutJobs deepRun : Step _).run usedMachine).2.tree.get? l = some .directory := by
  have hout : ".." ∉ Path.parts deepRun.outputDirectory := by decide +kernel
  refine ⟨hout, usedMachine_programs, by decide +kernel, by decide +kernel, ?_⟩
  exact (layOutJobs_isConfined hout usedMachine_programs).1

end Program

end Saturation
