import Saturation.Program.Strategies
import Saturation.Template

/-!
Laying out simulation jobs in an output directory: a configuration for each policy and pair of
rates, a script that runs them all, and the report of the strategies behind them.
-/

set_option autoImplicit false

namespace Saturation.Program

/-- Where the simulator is, and where its jobs go. -/
structure JobRequest where
  simulator : String
  template : String
  outputDirectory : String
  keepPackets : Bool
  /-- A trace that is there already; without one the simulator makes it. -/
  trace : Option String
  selection : Selection
  colour : Bool
  deriving Repr

/-! ## Names of files -/

/-- The name that the files of a job share. -/
def jobName (innocent attack : Rate) : String := s!"I{innocent.display}_A{attack.display}"

namespace JobRequest

/-- A file of a run, in the subdirectory of its policy. -/
def filePath (j : JobRequest) (subdirectory extension : String) (r : Run) : String :=
  Path.join (Path.join (Path.join j.outputDirectory subdirectory) r.policy.name)
    (jobName r.innocentRate r.attackRate ++ "." ++ extension)

def configurationPath (j : JobRequest) : Run → String :=
  j.filePath "configs" Configuration.documentExtension

def packetsPath (j : JobRequest) : Run → String := j.filePath "packets" "packets"

def summaryPath (j : JobRequest) : Run → String := j.filePath "outputs" "out"

/-- The command that runs a job. -/
def command (j : JobRequest) (r : Run) : String :=
  s!"{j.simulator} --config=" ++ j.configurationPath r ++ " " ++
    (if j.keepPackets then "--packets=" ++ j.packetsPath r ++ " " else "") ++
    "| tee " ++ j.summaryPath r

/-- The script that runs all jobs. -/
def script (j : JobRequest) (runs : List Run) : String :=
  String.join (runs.map fun r => j.command r ++ "\n")

/-- The file that the template is kept in. -/
def templateCopy (j : JobRequest) : String :=
  Path.join j.outputDirectory
    ("template." ++ (Path.extension? j.template).getD Configuration.documentExtension)

end JobRequest

/-! ## Summary -/

def summaryLine (r : Run) : String :=
  s!"For r_A = {r.attackRate.pretty}bps: J_A = " ++
    Decimal.fixedText 2 r.strategy.estimatedJobSize ++ s!", P_A = {r.strategy.packetSize}" ++
    if r.policy.hasValidatedGoodput then
      ", Expected Goodput = " ++ gbpsText r.strategy.expectedGoodput ++ " (Expected DF = " ++
        Decimal.fixedText 4 r.strategy.expectedDisplacement ++ ")"
    else ""

/-- The headings in front of a run: for what differs from the run before it. -/
def runHeadings (colour : Bool) (previous : Option Run) (r : Run) : List String :=
  let samePolicy := previous.map Run.policy == some r.policy
  let sameRate := previous.map Run.innocentRate == some r.innocentRate
  (if samePolicy then [] else ["", "Policy: " ++ Text.toned colour [.bold] r.policy.name]) ++
    (if samePolicy && sameRate then [] else [s!"\tFor r_I = {r.innocentRate.pretty}bps"])

/-- What is printed for a run. -/
def runLines (colour : Bool) (previous : Option Run) (r : Run) : List String :=
  runHeadings colour previous r ++ ["\t\t" ++ summaryLine r]

variable {m : Type → Type} [Monad m] [Host m]

/-! ## Steps -/

def truncationWarning : String := "Output path exists, contents will be truncated"

/-- Takes away what is at the output path, and gives the warnings about it. -/
def clearOutput (path : String) : ExceptT Failure m (List String) := do
  match ← Host.kind? (m := m) path with
  | some .file =>
    Host.log (m := m) (.outputFileReplaced path)
    attemptingFiles s!"Failed to remove {path}" (Host.removeFile (m := m) path)
    return [truncationWarning]
  | some .directory =>
    Host.log (m := m) (.outputDirectoryReplaced path)
    attemptingFiles s!"Failed to remove {path}" (Host.removeTree (m := m) path)
    return [truncationWarning]
  | some .special => fail s!"{path} is not a file or directory"
  | none => return []

/-- Makes a directory and those it is in. -/
def makeDirectories (path : String) : ExceptT Failure m Unit :=
  attemptingFiles s!"Failed to create {path}" do
    Host.makeChain (m := m) (path :: Path.ancestors path)

/-- Makes an empty output directory and keeps the template in it. -/
def prepareOutput (j : JobRequest) : ExceptT Failure m (List String) := do
  let warnings ← clearOutput (m := m) j.outputDirectory
  makeDirectories (m := m) j.outputDirectory
  attemptingFiles s!"Failed to copy template to {j.templateCopy}"
    (Host.copy (m := m) j.template j.templateCopy)
  return warnings

/-- The trace to analyze: the one given, or one from a dry run of the simulator. -/
def obtainTrace (j : JobRequest) : ExceptT Failure m String := do
  match j.trace with
  | some path => return path
  | none =>
    let path := Path.join j.outputDirectory "log.packets"
    let status ← attemptingFiles s!"Failed to launch simulator {j.simulator}"
      (Host.launch (m := m) j.simulator [s!"--config={j.template}", s!"--packets={path}", "--dry"])
    if status ≠ 0 then Host.log (m := m) (.simulatorFailed status)
    if ← Configuration.isFile (m := m) path then return path
    else fail s!"Simulation dry-run failed: no trace at {path}"

/-- Makes the directories of the jobs: one for each kind of file and policy. -/
def makeJobDirectories (j : JobRequest) : ExceptT Failure m Unit :=
  ["configs", "packets", "outputs"].forM fun subdirectory =>
    j.selection.policies.forM fun policy =>
      makeDirectories (m := m) (Path.join (Path.join j.outputDirectory subdirectory) policy.name)

/-- Prints the runs, one behind the other, and writes their configurations. -/
def writeRuns (j : JobRequest) (template : Template) (averagePacketSize : UInt64) :
    Option Run → List Run → ExceptT Failure m Unit
  | _, [] => return ()
  | previous, r :: rest => do
    sayAll (m := m) (runLines j.colour previous r)
    ExceptT.mk (template.write (m := m)
      ⟨r.policy, r.innocentRate, averagePacketSize, r.attackRate, r.strategy⟩ (j.configurationPath r))
    writeRuns j template averagePacketSize (some r) rest

def writeFile (path text : String) : ExceptT Failure m Unit :=
  attemptingFiles s!"Failed to write {path}" (Host.writeText (m := m) path text)

/-- Lays out the jobs of a selection. -/
def layOutJobs (j : JobRequest) : ExceptT Failure m Unit := do
  if j.selection.isEmpty then
    Host.say (m := m)
      (notice j.colour "Either no policies or rates were specified, returning early")
  else
    let template ← ExceptT.mk (Template.load (m := m) j.template)
    let bounds ← attempting s!"Failed to load configuration {j.template}"
      (Configuration.load (m := m) j.template)
    let warnings ← prepareOutput (m := m) j
    let trace ← obtainTrace (m := m) j
    makeJobDirectories (m := m) j
    sayAll (m := m) (heading j.colour "Job Generation" ++ warnings.map (warning j.colour) ++
      ["Computing optimal adversarial strategies"])
    let a ← attempting s!"Failed to analyze trace {trace}"
      (analyzeFile (m := m) trace j.selection.policies bounds)
    Host.log (m := m) (.traceIngested trace a.summary)
    let report ← reportOf (m := m) trace a j.selection
    writeRuns (m := m) j template a.summary.statistics.averagePacketSize none report.runs
    Host.say (m := m) ""
    let scriptPath := Path.join j.outputDirectory "jobs.sh"
    writeFile (m := m) scriptPath (j.script report.runs)
    attemptingFiles s!"Failed to mark {scriptPath} executable" (Host.markExecutable (m := m) scriptPath)
    Host.log (m := m) (.artifactWritten trace "jobs" scriptPath)
    let reportPath := Path.join j.outputDirectory "strategies.json"
    writeFile (m := m) reportPath report.text
    Host.log (m := m) (.artifactWritten trace "report" reportPath)
    Host.say (m := m) (success j.colour s!"Generated jobs: {scriptPath}")

end Saturation.Program
