import Saturation.Configuration.Bounds
import Saturation.Program.Figures
import Saturation.Report
import Saturation.Text.Table

/-!
Computing the strategies for a trace, and showing them: as a table for a person, or as the report
for another program.
-/

set_option autoImplicit false

namespace Saturation.Program

open Text (toned)

inductive OutputFormat where
  | table
  | json
  deriving DecidableEq, Repr

/-- What the strategies of a selection are computed from. -/
structure Inquiry where
  configuration : String
  trace : String
  selection : Selection
  format : OutputFormat
  colour : Bool
  deriving Repr

/-! ## Tables -/

def statisticsLines (colour : Bool) (s : Statistics Float) : List String :=
  [s!"Packets:                {s.totalPackets}",
    s!"Average packet size:    {s.averagePacketSize} bits (max {s.maximumPacketSize})",
    "Average job size:       " ++ Decimal.fixedText 2 s.averageJobSize ++ " ns (max " ++
      Decimal.fixedText 2 s.maximumJobSize ++ ")",
    "Max innocent rate:      " ++ toned colour [.cyan] (gbpsText s.rMax),
    ""]

def columns : List String :=
  ["Policy", "r_I", "r_A", "Job size (ns)", "Packet size (bits)", "Goodput", "DF"]

def runRow (colour : Bool) (r : Run) : List String :=
  [r.policy.name, r.innocentRate.pretty ++ "bps", r.attackRate.pretty ++ "bps",
    Decimal.fixedText 2 r.strategy.estimatedJobSize, toString r.strategy.packetSize,
    goodputText colour r.policy r.strategy.expectedGoodput,
    displacementText colour r.policy r.strategy.expectedDisplacement]

/-- A report as a person reads it. -/
def reportLines (colour : Bool) (r : Report) : List String :=
  heading colour "Trace Statistics" ++
  ["Trace:                  " ++ toned colour [.cyan] r.tracePath,
    s!"SHA-256:                {r.summary.sha256}"] ++
  statisticsLines colour r.summary.statistics ++
  heading colour "Optimal Attack Strategies" ++
  [if r.runs.isEmpty then toned colour [.yellow] "No strategies computed"
    else Text.Table.render columns (r.runs.map (runRow colour))]

variable {m : Type → Type} [Monad m] [Host m]

/-! ## Analysis -/

/-- The analysis of the trace in a file. -/
def analyzeFile (path : String) (policies : List Policy) (bounds : AttackBounds Float) :
    m (Except Fault Analysis) := do
  match ← Host.read path with
  | .ok bytes => return Analysis.ofTrace bytes policies bounds
  | .error e => return .error (.unreadable e)

/-- The report of a selection, with an event for each strategy. -/
def reportOf (tracePath : String) (a : Analysis) (s : Selection) : m Report := do
  let report := Report.ofAnalysis (← Host.now) tracePath a s
  report.runs.forM fun r => Host.log (.strategyComputed tracePath r.policy r.rates r.strategy)
  return report

/-- Computes the strategies of a selection and prints them. -/
def showStrategies (q : Inquiry) : ExceptT Failure m Unit := do
  if q.selection.isEmpty then
    Host.say (m := m)
      (warning q.colour "Either no policies or rates were specified, nothing to analyze")
  else
    let bounds ← attempting s!"Failed to load configuration {q.configuration}"
      (Configuration.load q.configuration)
    let a ← attempting s!"Failed to analyze trace {q.trace}"
      (analyzeFile q.trace q.selection.policies bounds)
    Host.log (m := m) (.traceIngested q.trace a.summary)
    a.analyzers.forM fun z => Host.log (m := m) (.analyzerReady q.trace z.policy)
    let report ← reportOf (m := m) q.trace a q.selection
    match q.format with
    | .json => Host.say (m := m) report.text
    | .table => sayAll (m := m) (reportLines q.colour report)

end Saturation.Program
