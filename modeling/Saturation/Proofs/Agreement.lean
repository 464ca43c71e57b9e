import Saturation.Proofs.Confinement
import Saturation.Proofs.Rendering

/-!
The commands agree. Whether the strategies for a trace are shown, laid out as jobs for a trace that
is there, or laid out for one that a dry run leaves, they come from the contents of the trace and
the bounds in the configuration alone.
-/

set_option autoImplicit false

namespace Saturation

open FileTree (location)
open Settings (Group)
open Settings.Group (at?)

namespace Machine

variable {w w' : Machine} {path text : String} {content : Bytes}

/-- A path leads to a file with some contents. -/
def HasFile (w : Machine) (path : String) (content : Bytes) : Prop :=
  ∃ x, w.tree.locate w.home path = .ok (location w.home path, .file content x)

theorem HasFile.get? (h : HasFile w path content) :
    ∃ x, w.tree.get? (location w.home path) = some (.file content x) := by
  obtain ⟨x, hx⟩ := h
  exact ⟨x, (FileTree.locate_ok hx).2.2.1⟩

theorem HasFile.grows (h : HasFile w path content) (hw : Grows (fun _ => False) w w') :
    HasFile w' path content := by
  obtain ⟨x, hx⟩ := h
  refine ⟨x, ?_⟩
  rw [hw.home]
  exact hw.tree.locate_file hx id

/-- What is read from a file is what it has. -/
theorem HasFile.read_eq {bytes : Bytes} (h : HasFile w path content)
    (hread : w.tree.read w.home path = .ok bytes) : bytes = content := by
  obtain ⟨x, hx⟩ := h.get?
  exact FileTree.read_file hx hread

/-- A path shows a text, unless it stands for a device. -/
def Shows (w : Machine) (path text : String) : Prop :=
  w.tree.get? (location w.home path) ≠ some .device →
    Host.readText (m := StateM Machine) path w = (.ok text, w)

/-- What has been a device is one in the end. -/
theorem Shows.of_grows {v : Machine} {written : Location → Prop} (hgrows : Grows written v w)
    (h : v.tree.get? (location v.home path) ≠ some .device → Holds w path text) :
    Shows w path text := by
  intro hdevice
  rw [hgrows.home] at hdevice
  exact (h fun hd => hdevice (hgrows.tree.device_kept hd)).readText

end Machine

namespace Program

open Machine (Step Keeps Quiet Silent Grows Confined Holds HasFile Shows bind_ok lift_ok attempt_ok)

variable {q : Inquiry} {j : JobRequest} {w w' : Machine} {content : Bytes}

/-! ## Showing strategies -/

theorem showStrategies_ok (hjson : q.format = .json) (hne : q.selection.isEmpty = false)
    (h : (showStrategies q : Step _).run w = (.ok (), w')) : ∃ bounds v bytes a time,
      Configuration.load (m := StateM Machine) q.configuration w = (.ok bounds, v) ∧
      w.tree.read w.home q.trace = .ok bytes ∧
      Analysis.ofTrace bytes q.selection.policies bounds = .ok a ∧
      w'.printed = w.printed ++ ((Report.ofAnalysis time q.trace a q.selection).text ++ "\n") := by
  unfold showStrategies at h
  rw [if_neg (by simp [hne])] at h
  obtain ⟨bounds, v₁, hbounds, h⟩ := bind_ok h
  obtain ⟨a, v₂, hanalyze, h⟩ := bind_ok h
  obtain ⟨_, v₃, hlog, h⟩ := bind_ok h
  obtain ⟨_, v₄, hready, h⟩ := bind_ok h
  obtain ⟨report, v₅, hreport, h⟩ := bind_ok h
  rw [hjson] at h
  have hloaded := (Machine.loadBounds_silent _).of_eq (attempt_ok hbounds)
  obtain ⟨bytes, hread, hanalysis⟩ := analyzeFile_ok (attempt_ok hanalyze)
  obtain rfl := (Machine.analyzeFile_same _ _ _).of_eq (attempt_ok hanalyze)
  rw [hloaded.quiet.tree, hloaded.quiet.home] at hread
  obtain ⟨time, rfl⟩ := reportOf_ok (lift_ok hreport)
  have hsilent : Silent w v₅ :=
    trans_of Silent hloaded <|
    trans_of Silent ((Machine.log_silent _).of_eq (lift_ok hlog)) <|
    trans_of Silent ((Keeps.steps fun _ _ => .lift (Machine.log_silent _)).of_eq hready)
      ((Machine.reportOf_silent _ _ _).of_eq (lift_ok hreport))
  refine ⟨bounds, v₁, bytes, a, time, attempt_ok hbounds, hread, hanalysis, ?_⟩
  rw [← hsilent.printed]
  exact congrArg Machine.printed (congrArg Prod.snd (lift_ok h)).symm

/-! ## Laying out jobs -/

/-- The machine that the dry run of a job leaves, whatever its exit status is. -/
def afterDryRun (j : JobRequest) (w : Machine) : Machine :=
  let loaded := (Configuration.load (m := StateM Machine) j.template w).2
  let prepared := ((prepareOutput j : Step _).run loaded).2
  (launchDryRun j prepared).2

namespace Course

variable {path : String}

/-- A trace that is not in the output is analyzed as it was in the beginning. -/
theorem analysis_given (c : Course j w w') (hgiven : j.trace = some path)
    (hfile : HasFile w path content)
    (hout : ¬ location w.home j.outputDirectory <+: location w.home path) :
    Analysis.ofTrace content j.selection.policies c.bounds = .ok c.analysis := by
  obtain ⟨bytes, hread, hanalysis⟩ := c.analyzed
  obtain ⟨warnings, hprepare⟩ := c.prepare
  have htrace := c.traceObtained
  rw [obtainTrace_given hgiven] at htrace
  obtain ⟨htrace, htraced⟩ := Machine.pure_ok htrace
  have hmade := (makeJobDirectories_confined j).of_eq c.directoriesMade
  rw [htraced] at hmade
  have hconfined : Confined j.outputDirectory w c.made :=
    trans_of (Confined _) (((Machine.loadBounds_quiet _).of_eq c.loadBounds).confined _) <|
    trans_of (Confined _) ((prepareOutput_confined j).of_eq hprepare) hmade
  obtain ⟨x, hx⟩ := hfile.get?
  rw [htrace, hconfined.home] at hread
  rwa [FileTree.read_file (hconfined.tree.same hx hout) hread] at hanalysis

/-- A trace that a dry run has left is analyzed as that. -/
theorem analysis_dry (c : Course j w w') (hnone : j.trace = none)
    (hfile : HasFile (afterDryRun j w) (dryTrace j) content) :
    Analysis.ofTrace content j.selection.policies c.bounds = .ok c.analysis := by
  obtain ⟨bytes, hread, hanalysis⟩ := c.analyzed
  obtain ⟨warnings, hprepare⟩ := c.prepare
  obtain ⟨htrace, hquiet⟩ := obtainTrace_dry hnone c.traceObtained
  have hleft : afterDryRun j w = (launchDryRun j c.prepared).2 := by
    rw [afterDryRun, c.loadBounds, hprepare]
  rw [hleft] at hfile
  have hmade : Grows (fun _ => False) (launchDryRun j c.prepared).2 c.made :=
    trans_of (Grows _) (hquiet.grows _) ((makeJobDirectories_grows j).of_eq c.directoriesMade)
  rw [htrace] at hread
  rwa [(hfile.grows hmade).read_eq hread] at hanalysis

/-- The report comes from the contents of the trace and the bounds in the configuration. -/
theorem report_eq (c : Course j w w') {bounds : AttackBounds Float} {v : Machine} {a : Analysis}
    (htrace : Analysis.ofTrace content j.selection.policies c.bounds = .ok c.analysis)
    (hbounds : Configuration.load (m := StateM Machine) j.template w = (.ok bounds, v))
    (hanalysis : Analysis.ofTrace content j.selection.policies bounds = .ok a) :
    ∃ time path, c.report = Report.ofAnalysis time path a j.selection := by
  obtain ⟨time, hreport⟩ := c.reported
  obtain ⟨hb, -⟩ := Prod.ext_iff.mp (c.loadBounds.symm.trans hbounds)
  rw [Except.ok.inj hb, hanalysis] at htrace
  exact ⟨time, c.trace, by rw [hreport, Except.ok.inj htrace]⟩

theorem shows_report (c : Course j w w') : Shows w' (reportPath j) c.report.text :=
  .of_grows c.published.grows c.published.report

theorem shows_configuration (c : Course j w w') : ∀ r ∈ c.report.runs, ∃ text,
    c.template.document (r.values c.report.summary.statistics.averagePacketSize) = .ok text ∧
      Shows w' (j.configurationPath r) text := by
  obtain ⟨bytes, -, hanalysis⟩ := c.analyzed
  obtain ⟨time, hreport⟩ := c.reported
  obtain ⟨hgrows, hwritten⟩ := writeRuns_ok _ c.runs
  have hunique : ∀ r ∈ c.report.runs, ∀ s ∈ c.report.runs, r.triple = s.triple → r = s := by
    rw [hreport]
    exact Report.runs_unique hanalysis
  intro r hr
  obtain ⟨text, htext, hholds⟩ := hwritten hunique r hr
  have hend : Grows (fun _ => True) c.start w' :=
    trans_of (Grows _) (hgrows.mono fun _ _ => trivial) (c.published.grows.mono fun _ _ => trivial)
  refine ⟨text, htext, .of_grows hend fun hd => (hholds hd).grows c.published.grows ?_⟩
  rw [configuration_location, scriptPath_location, reportPath_location]
  simp

end Course

/-! ## Agreement -/

/-- An inquiry, and two requests for jobs, about the same configuration and selection and about
traces with the same contents: a file that the inquiry names, one that the first request names
outside its output, and one that the dry run of the second request leaves. -/
structure IsSameTask (q : Inquiry) (given dry : JobRequest) (w : Machine) (content : Bytes) :
    Prop where
  format : q.format = .json
  notEmpty : q.selection.isEmpty = false
  givenTemplate : given.template = q.configuration
  dryTemplate : dry.template = q.configuration
  givenSelection : given.selection = q.selection
  drySelection : dry.selection = q.selection
  asked : HasFile w q.trace content
  supplied : ∃ path, given.trace = some path ∧ HasFile w path content ∧
    ¬ location w.home given.outputDirectory <+: location w.home path
  unsupplied : dry.trace = none
  left : HasFile (afterDryRun dry w) (dryTrace dry) content

/-- One summary of the trace and the same runs in all that the three commands leave, those that the
bounds in the configuration and the contents of the trace lead to: in the report that is printed, in
both reports that are written, and in the configurations, which are the same for both requests and
have the attack of their run. -/
structure IsAgreement (q : Inquiry) (given dry : JobRequest) (w w₀ w₁ w₂ : Machine) (content : Bytes)
    (summary : TraceSummary) (runs : List Run) : Prop where
  answer : ∃ bounds v a, Configuration.load (m := StateM Machine) q.configuration w = (.ok bounds, v) ∧
    Analysis.ofTrace content q.selection.policies bounds = .ok a ∧ summary = a.summary ∧
      runs = a.analyzers.flatMap fun z => Run.grid z q.selection.innocentRates q.selection.attackRates
  printed : ∃ text, w₀.printed = w.printed ++ (text ++ "\n") ∧ Report.Tells text summary runs
  givenReport : ∃ text, Shows w₁ (reportPath given) text ∧ Report.Tells text summary runs
  dryReport : ∃ text, Shows w₂ (reportPath dry) text ∧ Report.Tells text summary runs
  jobSizes : ∀ r ∈ runs, r.strategy.actualJobSize = r.strategy.estimatedJobSize
  configurations : ∀ r ∈ runs, ∃ (text : String) (settings : Group),
    Shows w₁ (given.configurationPath r) text ∧ Shows w₂ (dry.configurationPath r) text ∧
      Settings.read text.toList = .ok settings ∧
      at? ["attack_traffic", "packet_size_bits"] settings =
        some (Report.word r.strategy.packetSize) ∧
      at? ["attack_traffic", "job_size_ns"] settings = some (.float r.strategy.estimatedJobSize)

/-- One run, with a dry run of the simulator. -/
def oneRun : JobRequest :=
  { fourRuns with template := "t.cfg", selection := ⟨[.fcfs], [⟨1000000000⟩], [⟨1000000⟩]⟩ }

/-- The same run for the trace that the simulator also writes. -/
def oneRunOfLog : JobRequest := { oneRun with trace := some "log" }

def oneRunInquiry : Inquiry := ⟨"t.cfg", "log", oneRun.selection, .json, false⟩

theorem oneRun_isSameTask :
    IsSameTask oneRunInquiry oneRunOfLog oneRun usedMachine packetLog where
  format := rfl
  notEmpty := rfl
  givenTemplate := rfl
  dryTemplate := rfl
  givenSelection := rfl
  drySelection := rfl
  asked := ⟨false, by decide +kernel⟩
  supplied := ⟨"log", rfl, ⟨false, by decide +kernel⟩, by decide +kernel⟩
  unsupplied := rfl
  left := ⟨false, by decide +kernel⟩

end Program

end Saturation
