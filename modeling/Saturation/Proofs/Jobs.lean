import Saturation.Proofs.Machine
import Saturation.Proofs.Report

/-!
Laying out jobs loses and duplicates nothing. Once the output directory is clear, the files only
grow, so that a configuration that was written stays what it is: every other file has another
location.
-/

set_option autoImplicit false

namespace Saturation

/-- The values that the configuration of a run is rendered with. -/
def Run.values (r : Run) (averagePacketSize : UInt64) : JobValues :=
  ⟨r.policy, r.innocentRate, averagePacketSize, r.attackRate, r.strategy⟩

namespace Program

open FileTree (location)
open Machine (Step Keeps Quiet Grows Holds WritesPackets bind_ok pure_ok lift_ok attempt_ok)
open Settings (Value Group)

variable {w w' : Machine} {j : JobRequest}

/-! ## Locations -/

theorem filePath_location {subdirectory extension : String} (hsub : Path.IsName subdirectory)
    (hext : '/' ∉ extension.toList) (home : Location) (r : Run) :
    location home (j.filePath subdirectory extension r) = location home j.outputDirectory ++
      [subdirectory, r.policy.name, jobName r.innocentRate r.attackRate ++ "." ++ extension] := by
  rw [JobRequest.filePath, FileTree.location_join (fileName_isName _ _ hext),
    FileTree.location_join r.policy.isName, FileTree.location_join hsub]
  simp

theorem configuration_location (home : Location) (r : Run) :
    location home (j.configurationPath r) = location home j.outputDirectory ++
      ["configs", r.policy.name, jobName r.innocentRate r.attackRate ++ "." ++ "cfg"] :=
  filePath_location (by decide) (by decide) home r

theorem configuration_location_injective {home : Location} {r s : Run}
    (h : location home (j.configurationPath r) = location home (j.configurationPath s)) :
    r.triple = s.triple := by
  rw [configuration_location, configuration_location, List.append_cancel_left_eq] at h
  simp only [List.cons.injEq, true_and, and_true] at h
  obtain ⟨hpolicy, hname⟩ := h
  simp only [String.toList_inj.symm, String.toList_append, List.append_cancel_right_eq] at hname
  obtain ⟨hinnocent, hattack⟩ := jobName_injective (String.toList_inj.mp hname)
  rw [Run.triple, Run.triple, Policy.name_injective hpolicy, hinnocent, hattack]

theorem templateName_isName (j : JobRequest) : Path.IsName
    ("template." ++ (Path.extension? j.template).getD Configuration.documentExtension) := by
  refine ⟨?_, ?_, ?_, ?_⟩
  · have hslash : '/' ∉ ((Path.extension? j.template).getD Configuration.documentExtension).toList := by
      cases he : Path.extension? j.template with
      | none => decide
      | some e => exact Path.extension?_noSlash he
    rw [String.toList_append]
    simpa using hslash
  all_goals
    intro h
    have := congrArg String.toList h
    simp at this

theorem templateCopy_location (home : Location) : ∃ extension,
    location home j.templateCopy = location home j.outputDirectory ++ ["template." ++ extension] :=
  ⟨_, FileTree.location_join (templateName_isName j) home j.outputDirectory⟩

/-! ## Clearing the output -/

/-- Clearing an output ends behind the removal of a file or a directory, whether that succeeds or
not, or where it began. -/
theorem clearOutput_final {path : String} {P : Machine → Prop}
    (hnone : (Host.kind? (m := StateM Machine) path w).1 = none → P w)
    (hfile : (Host.kind? (m := StateM Machine) path w).1 = some .file →
      ∀ v, Quiet w v → P (Host.removeFile (m := StateM Machine) path v).2)
    (hdirectory : (Host.kind? (m := StateM Machine) path w).1 = some .directory →
      ∀ v, Quiet w v → P (Host.removeTree (m := StateM Machine) path v).2)
    (hspecial : (Host.kind? (m := StateM Machine) path w).1 = some .special → P w) :
    P ((clearOutput path : Step _).run w).2 := by
  have hremove : ∀ {event : Event} {message : String} {x : StateM Machine (Except SystemError Unit)},
      (∀ v, Quiet w v → P (x v).2) → P ((do
        Host.log (m := StateM Machine) event
        attemptingFiles message x
        return [truncationWarning] : Step (List String)).run w).2 := by
    intro event message x hx
    rw [Machine.lift_bind]
    exact Machine.bind_through (hx _ (Machine.log_quiet event w)) fun _ _ _ h => h
  unfold clearOutput
  rw [Machine.lift_bind]
  cases hkind : (Host.kind? (m := StateM Machine) path w).1 with
  | none => exact hnone hkind
  | some kind =>
    cases kind with
    | file => exact hremove (hfile hkind)
    | directory => exact hremove (hdirectory hkind)
    | special => exact hspecial hkind

/-- Afterwards there is no file where the output goes, unless the path led nowhere. -/
theorem clearOutput_ok {path : String} {warnings : List String} (hclosed : w.tree.IsClosed)
    (h : (clearOutput path : Step _).run w = (.ok warnings, w')) :
    w'.home = w.home ∧ w'.programs = w.programs ∧ (w'.tree.IsBare (location w.home path) ∨
      Host.kind? (m := StateM Machine) path w = (none, w) ∧ w'.tree = w.tree) := by
  unfold clearOutput at h
  obtain ⟨kind, v, hkind, h⟩ := bind_ok h
  replace hkind := lift_ok hkind
  obtain rfl : w = v := (Prod.ext_iff.mp hkind).2
  cases kind with
  | none =>
    obtain ⟨-, rfl⟩ := pure_ok h
    exact ⟨rfl, rfl, .inr ⟨hkind, rfl⟩⟩
  | some kind =>
    cases kind with
    | file =>
      obtain ⟨_, v, hlog, h⟩ := bind_ok h
      obtain ⟨_, v', hremove, h⟩ := bind_ok h
      obtain ⟨-, rfl⟩ := pure_ok h
      have hquiet := (Machine.log_quiet _).of_eq (lift_ok hlog)
      obtain ⟨hbare, hhome, hprograms⟩ :=
        Machine.removeFile_ok (hquiet.tree.symm ▸ hclosed) (attempt_ok hremove)
      rw [hquiet.home] at hbare hhome
      exact ⟨hhome, hprograms.trans hquiet.programs, .inl hbare⟩
    | directory =>
      obtain ⟨_, v, hlog, h⟩ := bind_ok h
      obtain ⟨_, v', hremove, h⟩ := bind_ok h
      obtain ⟨-, rfl⟩ := pure_ok h
      have hquiet := (Machine.log_quiet _).of_eq (lift_ok hlog)
      obtain ⟨hbare, hhome, hprograms⟩ := Machine.removeTree_ok (attempt_ok hremove)
      rw [hquiet.home] at hbare hhome
      exact ⟨hhome, hprograms.trans hquiet.programs, .inl hbare⟩
    | special => cases h

/-! ## The dry run -/

/-- Where the dry run of a job writes its trace. -/
def dryTrace (j : JobRequest) : String := Path.join j.outputDirectory "log.packets"

def launchDryRun (j : JobRequest) : StateM Machine (Except SystemError UInt8) :=
  Host.launch j.simulator ["--config=" ++ j.template, "--packets=" ++ dryTrace j, "--dry"]

/-! ## What steps keep

A relation that is kept by what a step does to the machine is kept by the step. -/

section

variable {R : Machine → Machine → Prop} [Std.Refl R] [IsTrans Machine R]

theorem clearOutput_keeps {path : String} (hlog : ∀ event, Keeps R (Host.log event))
    (hfile : Keeps R (Host.removeFile path)) (hdirectory : Keeps R (Host.removeTree path)) :
    Keeps R (clearOutput path : Step _).run := by
  refine (Keeps.lift (Machine.kind?_same path).of_same).step fun kind => ?_
  split
  · refine (Keeps.lift (hlog _)).step fun _ => ?_
    exact (Keeps.attempt hfile).step fun _ => .pure _
  · refine (Keeps.lift (hlog _)).step fun _ => ?_
    exact (Keeps.attempt hdirectory).step fun _ => .pure _
  · exact .pure _
  · exact .pure _

theorem prepareOutput_keeps (hclear : Keeps R (clearOutput j.outputDirectory : Step _).run)
    (hmake : Keeps R (makeDirectories j.outputDirectory : Step _).run)
    (hcopy : Keeps R (Host.copy j.template j.templateCopy)) :
    Keeps R (prepareOutput j : Step _).run := by
  refine hclear.step fun warnings => ?_
  refine hmake.step fun _ => ?_
  exact (Keeps.attempt hcopy).step fun _ => .pure _

theorem obtainTrace_keeps (hlog : ∀ event, Keeps R (Host.log event))
    (hlaunch : Keeps R (launchDryRun j)) : Keeps R (obtainTrace j : Step _).run := by
  unfold obtainTrace
  split
  · exact .pure _
  · have hcheck : ∀ path : String, Keeps R (do
        if ← Configuration.isFile (m := StateM Machine) path then return path
        else fail s!"Simulation dry-run failed: no trace at {path}" : Step String).run := by
      intro path
      refine (Keeps.lift (Machine.isFile_same path).of_same).step fun found => ?_
      split <;> exact .pure _
    refine (Keeps.attempt hlaunch).step fun status => ?_
    dsimp only
    split
    · exact (Keeps.lift (hlog _)).step fun _ => hcheck _
    · exact hcheck _

theorem writeTemplate_keeps {path : String} (hwrite : ∀ text, Keeps R (Host.writeText path text))
    (t : Template) (job : JobValues) : Keeps R (t.write job path) := by
  unfold Template.write
  split
  · exact .pure _
  · refine (hwrite _).bind fun r => ?_
    cases r <;> exact .pure _

end

/-! ## Steps -/

theorem makeDirectories_grows (path : String) :
    Keeps (Grows fun _ => False) (makeDirectories path : Step _).run :=
  .attempt (Machine.makeChain_grows _)

theorem makeJobDirectories_grows (j : JobRequest) :
    Keeps (Grows fun _ => False) (makeJobDirectories j : Step _).run :=
  .steps fun _ _ => .steps fun _ _ => makeDirectories_grows _

theorem writeFile_ok {path text : String}
    (h : (writeFile path text : Step _).run w = (.ok (), w')) :
    Grows (· = location w.home path) w w' ∧
      (w.tree.get? (location w.home path) ≠ some .device → Holds w' path text) :=
  Machine.writeText_ok (attempt_ok h)

theorem packets_dryRun {template path packets : String}
    (h : "--packets=" ++ packets ∈ ["--config=" ++ template, "--packets=" ++ path, "--dry"]) :
    packets = path := by
  simp only [List.mem_cons, List.not_mem_nil, or_false, ← String.toList_inj,
    String.toList_append] at h
  rcases h with h | h | h
  · simp at h
  · exact String.toList_inj.mp (List.append_cancel_left h)
  · simp at h

theorem directsTo_dryRun {home l : Location} {template path : String}
    (h : Machine.DirectsTo home ["--config=" ++ template, "--packets=" ++ path, "--dry"] l) :
    l = location home path := by
  obtain ⟨packets, hmem, rfl⟩ := h
  rw [packets_dryRun hmem]

theorem obtainTrace_given {path : String} (h : j.trace = some path) :
    (obtainTrace j : Step _) = pure path := by
  rw [obtainTrace, h]

theorem dryTrace_location (home : Location) :
    location home (dryTrace j) = location home j.outputDirectory ++ ["log.packets"] :=
  FileTree.location_join (by decide) home j.outputDirectory

/-- Behind the launch it is only checked that there is a trace. -/
theorem obtainTrace_dry {trace : String} (hnone : j.trace = none)
    (h : (obtainTrace j : Step _).run w = (.ok trace, w')) :
    trace = dryTrace j ∧ Quiet (launchDryRun j w).2 w' := by
  unfold obtainTrace at h
  rw [hnone] at h
  obtain ⟨status, v, hlaunch, h⟩ := bind_ok h
  have hv : (launchDryRun j w).2 = v := congrArg Prod.snd (attempt_ok hlaunch)
  have hcheck : ∀ {u : Machine}, (do
      if ← Configuration.isFile (m := StateM Machine) (dryTrace j) then return dryTrace j
      else fail ("Simulation dry-run failed: no trace at " ++ dryTrace j) : Step String).run u =
        (.ok trace, w') → trace = dryTrace j ∧ Quiet u w' := by
    intro u h
    obtain ⟨found, u', hfound, h⟩ := bind_ok h
    have hquiet := (Machine.isFile_same _).quiet.of_eq (lift_ok hfound)
    cases found with
    | true =>
      obtain ⟨rfl, rfl⟩ := pure_ok h
      exact ⟨rfl, hquiet⟩
    | false => cases h
  rw [hv]
  dsimp only at h
  split at h
  · obtain ⟨_, u, hlog, h⟩ := bind_ok h
    obtain ⟨htrace, hquiet⟩ := hcheck h
    exact ⟨htrace, trans_of Quiet ((Machine.log_quiet _).of_eq (lift_ok hlog)) hquiet⟩
  · exact hcheck h

/-- The dry run writes its trace in the output directory. -/
theorem obtainTrace_ok {trace : String} (hprograms : ∀ e ∈ w.programs, WritesPackets w.home e.2)
    (h : (obtainTrace j : Step _).run w = (.ok trace, w')) :
    Grows (· = location w.home (dryTrace j)) w w' := by
  cases hgiven : j.trace with
  | some path =>
    rw [obtainTrace_given hgiven] at h
    obtain ⟨-, rfl⟩ := pure_ok h
    exact refl_of (Grows _) w'
  | none =>
    have hlaunch : Grows _ w (launchDryRun j w).2 := Machine.launch_grows hprograms rfl
    exact trans_of (Grows _) (hlaunch.mono fun _ => directsTo_dryRun)
      ((obtainTrace_dry hgiven h).2.grows _)

theorem prepareOutput_ok {warnings : List String} (hclosed : w.tree.IsClosed)
    (hclear : Host.kind? (m := StateM Machine) j.outputDirectory w = (none, w) →
      w.tree.IsBare (location w.home j.outputDirectory))
    (h : (prepareOutput j : Step _).run w = (.ok warnings, w')) :
    ∃ v : Machine, v.home = w.home ∧ v.programs = w.programs ∧
      v.tree.IsBare (location w.home j.outputDirectory) ∧
      Grows (· = location w.home j.templateCopy) v w' := by
  unfold prepareOutput at h
  obtain ⟨_, v, hcleared, h⟩ := bind_ok h
  obtain ⟨_, v', hmade, h⟩ := bind_ok h
  obtain ⟨_, u, hcopied, h⟩ := bind_ok h
  obtain ⟨-, rfl⟩ := pure_ok h
  obtain ⟨hhome, hprograms, hbare⟩ := clearOutput_ok hclosed hcleared
  refine ⟨v, hhome, hprograms, ?_, ?_⟩
  · rcases hbare with hbare | ⟨hnone, htree⟩
    · exact hbare
    · rw [htree]
      exact hclear hnone
  · have hmade := (makeDirectories_grows _).of_eq hmade
    have hcopied := Machine.copy_ok (attempt_ok hcopied)
    rw [hmade.home, hhome] at hcopied
    exact trans_of (Grows _) (hmade.mono fun _ h => h.elim) hcopied

/-! ## Configurations -/

theorem writeTemplate_ok {t : Template} {job : JobValues} {path : String}
    (h : (ExceptT.mk (t.write job path) : Step _).run w = (.ok (), w')) :
    ∃ text, t.document job = .ok text ∧
      Host.writeText (m := StateM Machine) path text w = (.ok (), w') := by
  unfold Template.write at h
  cases hdocument : t.document job with
  | error e =>
    rw [hdocument] at h
    cases h
  | ok text =>
    rw [hdocument] at h
    obtain ⟨r, v, hwrite, h⟩ := Machine.bind_out h
    cases r with
    | error e => cases h
    | ok u =>
      cases h
      exact ⟨text, rfl, hwrite⟩

/-- The configurations of some runs are written, and nothing else. If only the same runs are for the
same triple, each configuration is the document of its run, unless it is written to a device. -/
theorem writeRuns_ok {t : Template} {size : UInt64} (runs : List Run) :
    ∀ {previous : Option Run} {w : Machine},
    (writeRuns j t size previous runs : Step _).run w = (.ok (), w') →
      Grows (fun l => ∃ r ∈ runs, l = location w.home (j.configurationPath r)) w w' ∧
      ((∀ r ∈ runs, ∀ s ∈ runs, r.triple = s.triple → r = s) → ∀ r ∈ runs,
        ∃ text, t.document (r.values size) = .ok text ∧
          (w.tree.get? (location w.home (j.configurationPath r)) ≠ some .device →
            Holds w' (j.configurationPath r) text)) := by
  induction runs with
  | nil =>
    intro previous w h
    obtain ⟨-, rfl⟩ := pure_ok h
    exact ⟨refl_of (Grows _) w', fun _ r hr => absurd hr List.not_mem_nil⟩
  | cons r rest ih =>
    intro previous w h
    rw [writeRuns] at h
    obtain ⟨_, v, hsaid, h⟩ := bind_ok h
    obtain ⟨_, u, hwrite, h⟩ := bind_ok h
    have hquiet := (Machine.sayAll_quiet _).of_eq (lift_ok hsaid)
    obtain ⟨text, hdocument, hwrite⟩ := writeTemplate_ok hwrite
    obtain ⟨hfirst, hholds⟩ := Machine.writeText_ok hwrite
    rw [hquiet.home] at hfirst hholds
    rw [hquiet.tree] at hholds
    have hgrows : Grows (· = location w.home (j.configurationPath r)) w u :=
      trans_of (Grows _) (hquiet.grows _) hfirst
    obtain ⟨hrest, hread⟩ := ih h
    rw [hgrows.home] at hrest hread
    refine ⟨trans_of (Grows _) (hgrows.mono fun l hl => ⟨r, List.mem_cons_self, hl⟩)
      (hrest.mono fun l ⟨r', hr', hl⟩ => ⟨r', List.mem_cons_of_mem r hr', hl⟩), ?_⟩
    intro hsame
    have hlater : ∀ r' ∈ rest, ∃ text, t.document (r'.values size) = .ok text ∧
        (w.tree.get? (location w.home (j.configurationPath r')) ≠ some .device →
          Holds w' (j.configurationPath r') text) := by
      intro r' hr'
      obtain ⟨text, htext, hholds⟩ := hread (fun r₁ h₁ r₂ h₂ =>
        hsame r₁ (List.mem_cons_of_mem r h₁) r₂ (List.mem_cons_of_mem r h₂)) r' hr'
      exact ⟨text, htext, fun hd => hholds fun hdevice => hd (hgrows.tree.device hdevice)⟩
    refine List.forall_mem_cons.mpr ⟨?_, hlater⟩
    by_cases hagain : r ∈ rest
    · exact hlater r hagain
    · -- The others are for other triples, and so at other locations.
      refine ⟨text, hdocument, fun hd => (hholds hd).grows hrest ?_⟩
      rintro ⟨r', hr', hl⟩
      rw [hgrows.home] at hl
      have heq := hsame r List.mem_cons_self r' (List.mem_cons_of_mem r hr')
        (configuration_location_injective hl)
      exact hagain (heq ▸ hr')

/-! ## Phases -/

theorem analyzeFile_ok {path : String} {policies : List Policy} {bounds : AttackBounds Float}
    {a : Analysis} (h : analyzeFile (m := StateM Machine) path policies bounds w = (.ok a, w')) :
    ∃ bytes, w.tree.read w.home path = .ok bytes ∧ Analysis.ofTrace bytes policies bounds = .ok a := by
  obtain ⟨r, v, hread, h⟩ := Machine.bind_out h
  cases r with
  | error e => cases h
  | ok bytes => exact ⟨bytes, (Prod.ext_iff.mp hread).1, (Prod.ext_iff.mp h).1⟩

theorem reportOf_ok {path : String} {a : Analysis} {s : Selection} {report : Report}
    (h : reportOf (m := StateM Machine) path a s w = (report, w')) :
    ∃ time, report = Report.ofAnalysis time path a s := by
  obtain ⟨time, v, -, h⟩ := Machine.bind_out h
  obtain ⟨_, v', -, h⟩ := Machine.bind_out h
  exact ⟨time, (Prod.ext_iff.mp h).1.symm⟩

def scriptPath (j : JobRequest) : String := Path.join j.outputDirectory "jobs.sh"

def reportPath (j : JobRequest) : String := Path.join j.outputDirectory "strategies.json"

theorem scriptPath_location (home : Location) :
    location home (scriptPath j) = location home j.outputDirectory ++ ["jobs.sh"] :=
  FileTree.location_join (by decide) home j.outputDirectory

theorem reportPath_location (home : Location) :
    location home (reportPath j) = location home j.outputDirectory ++ ["strategies.json"] :=
  FileTree.location_join (by decide) home j.outputDirectory

theorem not_below_configs {top : Location} {name : String} (h : name ≠ "configs") :
    ¬ top ++ ["configs"] <+: top ++ [name] := by
  rw [List.prefix_append_right_inj]
  simpa using h.symm

theorem script_ne_report {home : Location} :
    location home (scriptPath j) ≠ location home (reportPath j) := by
  rw [scriptPath_location, reportPath_location]
  simp

/-- From the templates and bounds to the directories of the jobs: there is nothing but directories
at the output, and then two files beside those of the jobs. -/
theorem prepared_ok {trace : String} {warnings : List String} {v₁ v₂ v₃ v₄ : Machine}
    (hclosed : w.tree.IsClosed) (hprograms : ∀ e ∈ w.programs, WritesPackets w.home e.2)
    (hclear : Host.kind? (m := StateM Machine) j.outputDirectory w = (none, w) →
      w.tree.IsBare (location w.home j.outputDirectory))
    (hloaded : Quiet w v₁) (hprepare : (prepareOutput j : Step _).run v₁ = (.ok warnings, v₂))
    (htrace : (obtainTrace j : Step _).run v₂ = (.ok trace, v₃))
    (hmade : (makeJobDirectories j : Step _).run v₃ = (.ok (), v₄)) (hquiet : Quiet v₄ w') :
    ∃ clear : Machine, clear.home = w.home ∧
      clear.tree.IsBare (location w.home j.outputDirectory) ∧
      Grows (fun l => l = location w.home j.templateCopy ∨
        l = location w.home (dryTrace j)) clear w' := by
  rw [← hloaded.tree] at hclosed
  rw [← hloaded.home, ← hloaded.programs] at hprograms
  obtain ⟨clear, hhome, hclearPrograms, hbare, hcopied⟩ := prepareOutput_ok hclosed
    (fun hnone => by
      rw [hloaded.tree, hloaded.home]
      exact hclear (Prod.ext (hloaded.kind?_eq.symm.trans (Prod.ext_iff.mp hnone).1) rfl)) hprepare
  rw [← hhome, ← hclearPrograms, ← hcopied.home, ← hcopied.programs] at hprograms
  have hpackets := obtainTrace_ok hprograms htrace
  have hdirectories := (makeJobDirectories_grows j).of_eq hmade
  rw [hcopied.home, hhome, hloaded.home] at hpackets
  rw [hloaded.home] at hhome hbare hcopied
  refine ⟨clear, hhome, hbare, ?_⟩
  refine trans_of (Grows _) (hcopied.mono fun _ => .inl) ?_
  refine trans_of (Grows _) (hpackets.mono fun _ => .inr) ?_
  exact trans_of (Grows _) (hdirectories.mono fun _ => False.elim) (hquiet.grows _)

/-- What is published at the end of a run, written from `w` to `w'`. -/
structure Published (j : JobRequest) (report : Report) (w w' : Machine) : Prop where
  grows : Grows (fun l => l = location w.home (scriptPath j) ∨ l = location w.home (reportPath j)) w w'
  script : w.tree.get? (location w.home (scriptPath j)) ≠ some .device →
    Holds w' (scriptPath j) (j.script report.runs)
  report : w.tree.get? (location w.home (reportPath j)) ≠ some .device →
    Holds w' (reportPath j) report.text

/-- The script is written and marked, and then the report is written. -/
theorem published_ok {report : Report} {v₁ v₂ v₃ v₄ v₅ : Machine} (hsaid : Quiet w v₁)
    (hscript : (writeFile (scriptPath j) (j.script report.runs) : Step _).run v₁ = (.ok (), v₂))
    (hmark : Host.markExecutable (m := StateM Machine) (scriptPath j) v₂ = (.ok (), v₃))
    (hlogged : Quiet v₃ v₄)
    (hreport : (writeFile (reportPath j) report.text : Step _).run v₄ = (.ok (), v₅))
    (hend : Quiet v₅ w') : Published j report w w' := by
  obtain ⟨hwritten, hscript⟩ := writeFile_ok hscript
  obtain ⟨hmarked, hkept⟩ := Machine.markExecutable_ok hmark
  obtain ⟨hlast, hreport⟩ := writeFile_ok hreport
  have hhome₂ : v₂.home = w.home := hwritten.home.trans hsaid.home
  have hhome₄ : v₄.home = w.home := hlogged.home.trans (hmarked.home.trans hhome₂)
  rw [hsaid.home] at hwritten hscript
  rw [hsaid.tree] at hscript
  rw [hhome₂] at hmarked
  rw [hhome₄] at hlast hreport
  have hmarked₄ : Grows (· = location w.home (scriptPath j)) w v₄ :=
    trans_of (Grows _) (hsaid.grows _) <| trans_of (Grows _) hwritten <|
    trans_of (Grows _) hmarked (hlogged.grows _)
  refine ⟨?_, fun hdevice => ?_, fun hdevice => ?_⟩
  · refine trans_of (Grows _) (hmarked₄.mono fun _ => .inl) ?_
    exact trans_of (Grows _) (hlast.mono fun _ => .inr) (hend.grows _)
  · refine (((hkept (hscript hdevice)).quiet hlogged).grows hlast ?_).quiet hend
    rw [hhome₄]
    exact script_ne_report
  · exact (hreport fun hd => hdevice (hmarked₄.tree.device hd)).quiet hend

/-- What is printed in front of the strategies. -/
def openingLines (j : JobRequest) (warnings : List String) : List String :=
  heading j.colour "Job Generation" ++ warnings.map (warning j.colour) ++
    ["Computing optimal adversarial strategies"]

/-- The steps of a run that succeeds, with what they come up with and the machines they leave. -/
structure Stages (j : JobRequest) (w w' : Machine) where
  template : Template
  bounds : AttackBounds Float
  warnings : List String
  trace : String
  analysis : Analysis
  report : Report
  loaded : Machine
  prepared : Machine
  traced : Machine
  made : Machine
  opened : Machine
  ingested : Machine
  start : Machine
  written : Machine
  parted : Machine
  scripted : Machine
  marked : Machine
  announced : Machine
  published : Machine
  finished : Machine
  load : Template.load (m := StateM Machine) j.template w = (.ok template, w)
  loadBounds : Configuration.load (m := StateM Machine) j.template w = (.ok bounds, loaded)
  prepare : (prepareOutput j : Step _).run loaded = (.ok warnings, prepared)
  traceObtained : (obtainTrace j : Step _).run prepared = (.ok trace, traced)
  directoriesMade : (makeJobDirectories j : Step _).run traced = (.ok (), made)
  opening : sayAll (m := StateM Machine) (openingLines j warnings) made = ((), opened)
  analyze : analyzeFile (m := StateM Machine) trace j.selection.policies bounds opened =
    (.ok analysis, opened)
  ingestionLogged : Host.log (m := StateM Machine) (.traceIngested trace analysis.summary) opened =
    ((), ingested)
  reported : reportOf (m := StateM Machine) trace analysis j.selection ingested = (report, start)
  runs : (writeRuns j template analysis.summary.statistics.averagePacketSize none report.runs :
    Step _).run start = (.ok (), written)
  parting : Host.say (m := StateM Machine) "" written = ((), parted)
  script : (writeFile (scriptPath j) (j.script report.runs) : Step _).run parted = (.ok (), scripted)
  mark : Host.markExecutable (m := StateM Machine) (scriptPath j) scripted = (.ok (), marked)
  scriptLogged : Host.log (m := StateM Machine) (.artifactWritten trace "jobs" (scriptPath j)) marked =
    ((), announced)
  publish : (writeFile (reportPath j) report.text : Step _).run announced = (.ok (), published)
  reportLogged : Host.log (m := StateM Machine) (.artifactWritten trace "report" (reportPath j))
    published = ((), finished)
  ending : Host.say (m := StateM Machine) (success j.colour ("Generated jobs: " ++ scriptPath j))
    finished = ((), w')

theorem layOutJobs_stages (hne : j.selection.isEmpty = false)
    (h : (layOutJobs j : Step _).run w = (.ok (), w')) : Nonempty (Stages j w w') := by
  unfold layOutJobs at h
  rw [if_neg (by simp [hne])] at h
  -- Each step leaves a machine behind, numbered in their order.
  obtain ⟨t, v₁, hload, h⟩ := bind_ok h
  obtain ⟨bounds, v₂, hbounds, h⟩ := bind_ok h
  obtain ⟨warnings, v₃, hprepare, h⟩ := bind_ok h
  obtain ⟨trace, v₄, htrace, h⟩ := bind_ok h
  obtain ⟨_, v₅, hdirectories, h⟩ := bind_ok h
  obtain ⟨_, v₆, hopening, h⟩ := bind_ok h
  obtain ⟨a, v₇, hanalyze, h⟩ := bind_ok h
  obtain ⟨_, v₈, hlog, h⟩ := bind_ok h
  obtain ⟨report, v₉, hreport, h⟩ := bind_ok h
  obtain ⟨_, v₁₀, hruns, h⟩ := bind_ok h
  obtain ⟨_, v₁₁, hparting, h⟩ := bind_ok h
  obtain ⟨_, v₁₂, hscript, h⟩ := bind_ok h
  obtain ⟨_, v₁₃, hmark, h⟩ := bind_ok h
  obtain ⟨_, v₁₄, hlog', h⟩ := bind_ok h
  obtain ⟨_, v₁₅, hpublish, h⟩ := bind_ok h
  obtain ⟨_, v₁₆, hlog'', hending⟩ := bind_ok h
  obtain rfl : w = v₁ := (Machine.loadTemplate_same _).of_eq hload
  have hanalyze := attempt_ok hanalyze
  obtain rfl : v₆ = v₇ := (Machine.analyzeFile_same _ _ _).of_eq hanalyze
  exact ⟨⟨t, bounds, warnings, trace, a, report, v₂, v₃, v₄, v₅, v₆, v₈, v₉, v₁₀, v₁₁, v₁₂, v₁₃, v₁₄,
    v₁₅, v₁₆, hload, attempt_ok hbounds, hprepare, htrace, hdirectories, lift_ok hopening, hanalyze,
    lift_ok hlog, lift_ok hreport, hruns, lift_ok hparting, hscript, attempt_ok hmark, lift_ok hlog',
    hpublish, lift_ok hlog'', lift_ok hending⟩⟩

/-- A run that succeeds: what its steps come up with, and the machines between them. -/
structure Course (j : JobRequest) (w w' : Machine) where
  template : Template
  bounds : AttackBounds Float
  trace : String
  analysis : Analysis
  report : Report
  loaded : Machine
  prepared : Machine
  traced : Machine
  made : Machine
  start : Machine
  written : Machine
  load : Template.load (m := StateM Machine) j.template w = (.ok template, w)
  loadBounds : Configuration.load (m := StateM Machine) j.template w = (.ok bounds, loaded)
  prepare : ∃ warnings, (prepareOutput j : Step _).run loaded = (.ok warnings, prepared)
  traceObtained : (obtainTrace j : Step _).run prepared = (.ok trace, traced)
  directoriesMade : (makeJobDirectories j : Step _).run traced = (.ok (), made)
  analyzed : ∃ bytes, made.tree.read made.home trace = .ok bytes ∧
    Analysis.ofTrace bytes j.selection.policies bounds = .ok analysis
  reported : ∃ time, report = Report.ofAnalysis time trace analysis j.selection
  quiet : Quiet made start
  runs : (writeRuns j template report.summary.statistics.averagePacketSize none report.runs : Step _).run
    start = (.ok (), written)
  published : Published j report written w'

theorem layOutJobs_course (hne : j.selection.isEmpty = false)
    (h : (layOutJobs j : Step _).run w = (.ok (), w')) : Nonempty (Course j w w') := by
  obtain ⟨s⟩ := layOutJobs_stages hne h
  have hopening := (Machine.sayAll_quiet _).of_eq s.opening
  obtain ⟨bytes, hread, hanalysis⟩ := analyzeFile_ok s.analyze
  rw [hopening.tree, hopening.home] at hread
  obtain ⟨time, hreport⟩ := reportOf_ok s.reported
  have hsummary : s.report.summary = s.analysis.summary := by rw [hreport]; rfl
  have hquiet : Quiet s.made s.start :=
    trans_of Quiet hopening <|
    trans_of Quiet ((Machine.log_quiet _).of_eq s.ingestionLogged)
      ((Machine.reportOf_quiet _ _ _).of_eq s.reported)
  have hend : Quiet s.published w' := trans_of Quiet ((Machine.log_quiet _).of_eq s.reportLogged)
    ((Machine.say_quiet _).of_eq s.ending)
  have hpublished := published_ok ((Machine.say_quiet _).of_eq s.parting) s.script s.mark
    ((Machine.log_quiet _).of_eq s.scriptLogged) s.publish hend
  exact ⟨⟨s.template, s.bounds, s.trace, s.analysis, s.report, s.loaded, s.prepared, s.traced, s.made,
    s.start, s.written, s.load, s.loadBounds, ⟨_, s.prepare⟩, s.traceObtained, s.directoriesMade,
    ⟨bytes, hread, hanalysis⟩, ⟨time, hreport⟩, hquiet, hsummary ▸ s.runs, hpublished⟩⟩

/-- What has to be the case for jobs to be laid out: a selection that was read, with something in
it, and a machine whose programs write nothing but their packets. No line is broken by a path. -/
structure IsSetUp (j : JobRequest) (w : Machine) : Prop where
  selection : ∃ policies innocents attacks,
    Selection.read policies innocents attacks = .ok j.selection
  notEmpty : j.selection.isEmpty = false
  simulator : '\n' ∉ j.simulator.toList
  output : '\n' ∉ j.outputDirectory.toList
  closed : w.tree.IsClosed
  programs : ∀ e ∈ w.programs, WritesPackets w.home e.2

/-- The way to the jobs of a report: the output is cleared, the configurations are written from
`start` to `written`, and the script and the report are written behind them. -/
structure Phases (j : JobRequest) (t : Template) (report : Report) (w clear start written w' : Machine) :
    Prop where
  load : Template.load (m := StateM Machine) j.template w = (.ok t, w)
  triples : report.runs.map Run.triple = j.selection.triples
  home : clear.home = w.home
  bare : clear.tree.IsBare (location w.home j.outputDirectory)
  before : Grows (fun l => l = location w.home j.templateCopy ∨
    l = location w.home (dryTrace j)) clear start
  runs : (writeRuns j t report.summary.statistics.averagePacketSize none report.runs : Step _).run start =
    (.ok (), written)
  behind : Grows (fun l => l = location w.home (scriptPath j) ∨
    l = location w.home (reportPath j)) written w'
  script : written.tree.get? (location w.home (scriptPath j)) ≠ some .device →
    Holds w' (scriptPath j) (j.script report.runs)
  report : written.tree.get? (location w.home (reportPath j)) ≠ some .device →
    Holds w' (reportPath j) report.text

theorem layOutJobs_phases (hsetup : IsSetUp j w)
    (hclear : Host.kind? (m := StateM Machine) j.outputDirectory w = (none, w) →
      w.tree.IsBare (location w.home j.outputDirectory))
    (h : (layOutJobs j : Step _).run w = (.ok (), w')) :
    ∃ t report clear start written, Phases j t report w clear start written w' := by
  obtain ⟨c⟩ := layOutJobs_course hsetup.notEmpty h
  obtain ⟨bytes, -, hanalysis⟩ := c.analyzed
  obtain ⟨time, hreport⟩ := c.reported
  obtain ⟨warnings, hprepare⟩ := c.prepare
  obtain ⟨clear, hhome, hbare, hbefore⟩ := prepared_ok hsetup.closed hsetup.programs hclear
    ((Machine.loadBounds_quiet _).of_eq c.loadBounds) hprepare c.traceObtained c.directoriesMade
    c.quiet
  have hhome' : c.written.home = w.home := (writeRuns_ok _ c.runs).1.home.trans
    (hbefore.home.trans hhome)
  obtain ⟨hbehind, hholds, hholds'⟩ := c.published
  rw [hhome'] at hbehind hholds hholds'
  refine ⟨c.template, c.report, clear, c.start, c.written, c.load, ?_, hhome, hbare, hbefore, c.runs,
    hbehind, hholds, hholds'⟩
  rw [hreport]
  exact Report.triples_ofAnalysis hanalysis time c.trace

namespace Phases

variable {t : Template} {report : Report} {clear start written : Machine}

theorem home_start (p : Phases j t report w clear start written w') : start.home = w.home :=
  p.before.home.trans p.home

theorem writtenRuns (p : Phases j t report w clear start written w') :
    Grows (fun l => ∃ r ∈ report.runs, l = location w.home (j.configurationPath r)) start written := by
  rw [← p.home_start]
  exact (writeRuns_ok _ p.runs).1

theorem home_end (p : Phases j t report w clear start written w') : w'.home = w.home :=
  p.behind.home.trans (p.writtenRuns.home.trans p.home_start)

/-- Each configuration is still there in the end, and reads back as the render for its run. -/
theorem configurations (p : Phases j t report w clear start written w')
    (hnodup : (report.runs.map Run.triple).Nodup) : ∀ r ∈ report.runs, ∃ text,
      Holds w' (j.configurationPath r) text ∧ Settings.read text.toList =
        .ok (t.render (r.values report.summary.statistics.averagePacketSize)) := by
  have hwritten := (writeRuns_ok _ p.runs).2 fun r hr s hs => List.inj_on_of_nodup_map hnodup hr hs
  rw [p.home_start] at hwritten
  intro r hr
  obtain ⟨text, htext, hholds⟩ := hwritten r hr
  have hdevice := p.bare.not_device p.before.tree ⟨_, (configuration_location w.home r).symm⟩
  refine ⟨text, (hholds hdevice).grows p.behind ?_,
    Template.read_document (Machine.loadTemplate_isDocument p.load) htext⟩
  rw [p.writtenRuns.home, p.home_start, configuration_location, scriptPath_location,
    reportPath_location]
  simp

/-- Whatever is below `configs`, apart from directories, is a configuration. -/
theorem only (p : Phases j t report w clear start written w') {l : Location} {n : Node}
    (hl : location w.home j.outputDirectory ++ ["configs"] <+: l) (hn : w'.tree.get? l = some n)
    (hfile : n ≠ .directory) : ∃ r ∈ report.runs, l = location w.home (j.configurationPath r) := by
  have hsome : ((l = location w.home j.templateCopy ∨
      l = location w.home (dryTrace j)) ∨
      ∃ r ∈ report.runs, l = location w.home (j.configurationPath r)) ∨
      l = location w.home (scriptPath j) ∨ l = location w.home (reportPath j) :=
    p.bare.written ((p.before.tree.trans p.writtenRuns.tree).trans p.behind.tree)
      ((List.prefix_append _ _).trans hl) hn hfile
  -- Except for the configurations, they are all directly in the output directory.
  rcases hsome with ((h | h) | h) | h | h
  · obtain ⟨extension, hcopy⟩ := templateCopy_location (j := j) w.home
    exact absurd (h.trans hcopy ▸ hl) (not_below_configs (by simp [← String.toList_inj]))
  · rw [dryTrace_location] at h
    exact absurd (h ▸ hl) (not_below_configs (by decide))
  · exact h
  · rw [scriptPath_location] at h
    exact absurd (h ▸ hl) (not_below_configs (by decide))
  · rw [reportPath_location] at h
    exact absurd (h ▸ hl) (not_below_configs (by decide))

end Phases

/-- The jobs of a report: a run for each triple of the selection, in its order, all of them in the
text of the report, a line of the script for each run, and under `configs` the configuration of each
run and nothing else. -/
structure IsLaidOut (j : JobRequest) (t : Template) (report : Report) (w : Machine) : Prop where
  triples : report.runs.map Run.triple = j.selection.triples
  count : report.runs.length = j.selection.policies.length * j.selection.innocentRates.length *
    j.selection.attackRates.length
  distinct : (report.runs.map Run.triple).Nodup
  strategies : Host.readText (m := StateM Machine) (reportPath j) w = (.ok report.text, w)
  told : Report.Tells report.text report.summary report.runs
  script : ∃ text, Host.readText (m := StateM Machine) (scriptPath j) w = (.ok text, w) ∧
    text.toList.splitOn '\n' = (report.runs.map fun r => (j.command r).toList) ++ [[]]
  paths : (report.runs.map j.configurationPath).Nodup
  configurations : ∀ r ∈ report.runs, ∃ text,
    Host.readText (m := StateM Machine) (j.configurationPath r) w = (.ok text, w) ∧
      Settings.read text.toList =
        .ok (t.render (r.values report.summary.statistics.averagePacketSize))
  only : ∀ l, location w.home (Path.join j.outputDirectory "configs") <+: l →
    ((∃ n, w.tree.get? l = some n ∧ n ≠ .directory) ↔
      ∃ r ∈ report.runs, l = location w.home (j.configurationPath r))

def packetLog : Bytes := "0;1;a;x;512;1000\n".toUTF8.toList

def settingsFile : Bytes :=
  "application : \x7b max_attack_job_size_ns = 1000.0; \x7d;".toUTF8.toList

/-- The same settings in TOML. -/
def tomlFile : Bytes := "[application]\nmax_attack_job_size_ns = 1000.0\n".toUTF8.toList

/-- A reader of TOML, as far as that file goes. -/
def tomlFormat : SourceFormat where
  extensions := ["toml"]
  read? text :=
    if (String.ofList text).toUTF8.toList = tomlFile then
      some [("application", .obj [("max_attack_job_size_ns", .float 1000.0)])]
    else none

/-- A simulator that writes one packet. -/
def onePacket : Saturation.Program := fun arguments t =>
  if "--packets=jobs/log.packets" ∈ arguments then
    match t.write [] "jobs/log.packets" packetLog with
    | .ok t' => (t', 0)
    | .error _ => (t, 1)
  else (t, 1)

theorem onePacket_writesPackets : WritesPackets [] onePacket := by
  intro arguments t
  unfold onePacket
  split
  · rename_i h
    cases hwrite : t.write [] "jobs/log.packets" packetLog with
    | ok t' => exact .inr ⟨_, _, h, hwrite⟩
    | error e => exact .inl rfl
  · exact .inl rfl

/-- Two templates, a simulator, a trace, and jobs from before. -/
def usedMachine : Machine where
  tree := ⟨[(["t.cfg"], .file settingsFile false), (["t.toml"], .file tomlFile false),
    (["sim"], .file [] true), (["log"], .file packetLog false), (["jobs"], .directory),
    (["jobs", "configs"], .directory), (["jobs", "configs", "old.cfg"], .file [] false)]⟩
  home := []
  programs := [(["sim"], onePacket)]
  searched := []
  environment := []
  formats := [tomlFormat, Configuration.jsonFormat]
  time := 0
  printed := ""
  logged := []

theorem usedMachine_isClosed : usedMachine.tree.IsClosed := FileTree.isClosed_of_nodes (by decide)

theorem usedMachine_programs :
    ∀ e ∈ usedMachine.programs, WritesPackets usedMachine.home e.2 := by
  intro e he
  rw [List.mem_singleton.mp he]
  exact onePacket_writesPackets

/-- Four runs, with a dry run of the simulator. -/
def fourRuns : JobRequest where
  simulator := "./sim"
  template := "t.toml"
  outputDirectory := "jobs"
  keepPackets := true
  trace := none
  selection := ⟨[.fcfs, .fq], [⟨1000000000⟩], [⟨1000000⟩, ⟨1000000000⟩]⟩
  colour := false

theorem fourRuns_isSetUp : IsSetUp fourRuns usedMachine where
  selection := ⟨"fcfs, fq,fcfs", "1G,1000M", "1M,1G", by decide +kernel⟩
  notEmpty := rfl
  simulator := by decide
  output := by decide
  closed := usedMachine_isClosed
  programs := usedMachine_programs

/-- The output is the same directory, by a path that does not lead there yet. -/
def roundabout : JobRequest where
  simulator := "./sim"
  template := "t.cfg"
  outputDirectory := "new/../jobs"
  keepPackets := false
  trace := some "log"
  selection := ⟨[.fcfs], [⟨1000000000⟩], [⟨1000000000⟩]⟩
  colour := false

theorem roundabout_isSetUp : IsSetUp roundabout usedMachine where
  selection := ⟨"fcfs", "1G", "1G", by decide +kernel⟩
  notEmpty := rfl
  simulator := by decide
  output := by decide
  closed := usedMachine_isClosed
  programs := usedMachine_programs

end Program

end Saturation
