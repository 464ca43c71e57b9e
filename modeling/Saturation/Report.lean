import Saturation.Analysis
import Saturation.Json.Writer
import Saturation.Selection
import Saturation.Text.Timestamp

/-!
The record of an analysis: the trace it was made from, and the strategy for each policy, innocent
rate and attack rate.
-/

set_option autoImplicit false

namespace Saturation

open Settings (Value)

/-- The answer for one policy and one pair of rates. -/
structure Run where
  policy : Policy
  innocentRate : Rate
  attackRate : Rate
  strategy : Strategy Float
  deriving Repr

structure Report where
  /-- In seconds since the beginning of 1970. -/
  generatedAt : Int
  tracePath : String
  summary : TraceSummary
  runs : List Run
  deriving Repr

def Rates.ofPair (innocent attack : Rate) : Rates Float := ⟨innocent.gbps, attack.gbps⟩

namespace Run

def rates (r : Run) : Rates Float := Rates.ofPair r.innocentRate r.attackRate

/-- The answer of an analyzer. -/
def ofAnalyzer (a : Analyzer Float) (innocent attack : Rate) : Run :=
  ⟨a.policy, innocent, attack, a.strategy (Rates.ofPair innocent attack)⟩

/-- The answers of an analyzer over a grid of rates, the attack rate changing first. -/
def grid (a : Analyzer Float) (innocents attacks : List Rate) : List Run :=
  innocents.flatMap fun i => attacks.map fun r => ofAnalyzer a i r

end Run

namespace Report

/-- The report of a selection: its policies in order, and the whole grid of rates for each. -/
def ofAnalysis (time : Int) (tracePath : String) (a : Analysis) (s : Selection) : Report where
  generatedAt := time
  tracePath
  summary := a.summary
  runs := a.analyzers.flatMap fun z => Run.grid z s.innocentRates s.attackRates

/-! ## JSON -/

def word (n : UInt64) : Value := .int n.toNat

def statisticsValue (s : Statistics Float) : Value :=
  .obj [("total_packets", .int s.totalPackets), ("average_packet_size", word s.averagePacketSize),
    ("maximum_packet_size", word s.maximumPacketSize), ("average_job_size", .float s.averageJobSize),
    ("maximum_job_size", .float s.maximumJobSize), ("r_max", .float s.rMax)]

def strategyValue (s : Strategy Float) : Value :=
  .obj [("estimated_job_size_ns", .float s.estimatedJobSize),
    ("actual_job_size_ns", .float s.actualJobSize), ("packet_size_bits", word s.packetSize),
    ("expected_goodput_gbps", .float s.expectedGoodput),
    ("expected_displacement", .float s.expectedDisplacement)]

def runValue (r : Run) : Value :=
  .obj [("policy", .str r.policy.name), ("innocent_rate", word r.innocentRate.bps),
    ("attack_rate", word r.attackRate.bps), ("strategy", strategyValue r.strategy)]

def value (r : Report) : Value :=
  .obj [("generated_at", .str (Text.timestamp r.generatedAt)),
    ("trace", .obj [("path", .str r.tracePath), ("records", .int r.summary.statistics.totalPackets),
      ("sha256", .str r.summary.sha256), ("statistics", statisticsValue r.summary.statistics)]),
    ("runs", .arr (r.runs.map runValue))]

/-- The report over several lines, without a line feed at its end. -/
def text (r : Report) : String := String.ofList (Json.pretty 0 r.value)

end Report

end Saturation
