import Saturation.Strategy
import Saturation.Policy
import Saturation.Trace.Ingest

/-!
What a run reports while it works. An event has a level, a message, and fields with stable names,
so that a log can be filtered by policy or by trace.
-/

set_option autoImplicit false

namespace Saturation

inductive Event where
  /-- A packet size outside the range of packets was asked for. -/
  | packetSizeClamped (requested : Int) (clamped : UInt64)
  | traceIngested (trace : String) (summary : TraceSummary)
  | analyzerReady (trace : String) (policy : Policy)
  | strategyComputed (trace : String) (policy : Policy) (rates : Rates Float)
      (strategy : Strategy Float)
  | artifactWritten (trace kind path : String)
  | outputFileReplaced (path : String)
  | outputDirectoryReplaced (path : String)
  | simulatorFailed (status : UInt8)
  deriving Repr

namespace Event

inductive Level where
  | info
  | warn
  deriving DecidableEq, Repr

/-- The value of a field. -/
inductive Datum where
  | text (s : String)
  | number (x : Float)
  deriving Repr

def Datum.natural (n : Nat) : Datum := text (toString n)

/-- An attack that has a rate and displaces nothing. -/
def isIneffective (rates : Rates Float) (strategy : Strategy Float) : Bool :=
  Scalar.below Scalar.zero rates.attack && Scalar.isZero strategy.expectedDisplacement

def level : Event → Level
  | packetSizeClamped _ _ | outputFileReplaced _ | outputDirectoryReplaced _ | simulatorFailed _ => .warn
  | strategyComputed _ _ rates strategy => if isIneffective rates strategy then .warn else .info
  | _ => .info

def message : Event → String
  | packetSizeClamped _ _ => "Minimum attack packet size out of range"
  | traceIngested _ _ => "Trace ingested"
  | analyzerReady _ _ => "Policy analyzer built"
  | strategyComputed _ _ rates strategy =>
    if isIneffective rates strategy then "Attack has no effect on innocent goodput"
    else "Computed optimal attack strategy"
  | artifactWritten _ _ _ => "Wrote output file"
  | outputFileReplaced _ => "Output path is a file, removing it"
  | outputDirectoryReplaced _ => "Output directory exists, removing it"
  | simulatorFailed _ => "Simulator dry-run exited unsuccessfully"

/-- The fields of an event, its message not among them. -/
def fields : Event → List (String × Datum)
  | packetSizeClamped requested clamped =>
    [("requested", .text (toString requested)), ("clamped", .natural clamped.toNat)]
  | traceIngested trace summary =>
    let s := summary.statistics
    [("event", .text "trace_ingested"), ("trace", .text trace), ("sha256", .text summary.sha256),
      ("total_packets", .natural s.totalPackets),
      ("average_packet_size", .natural s.averagePacketSize.toNat),
      ("average_job_size", .number s.averageJobSize),
      ("maximum_job_size", .number s.maximumJobSize), ("r_max", .number s.rMax)]
  | analyzerReady trace policy =>
    [("event", .text "analyzer_ready"), ("trace", .text trace), ("policy", .text policy.name)]
  | strategyComputed trace policy rates strategy =>
    [("event", .text "strategy_computed"), ("trace", .text trace), ("policy", .text policy.name),
      ("innocent_gbps", .number rates.innocent), ("attack_gbps", .number rates.attack),
      ("job_size_ns", .number strategy.actualJobSize),
      ("packet_size_bits", .natural strategy.packetSize.toNat)] ++
    if isIneffective rates strategy then []
    else
      [("expected_goodput_gbps", .number strategy.expectedGoodput),
        ("expected_displacement", .number strategy.expectedDisplacement)]
  | artifactWritten trace kind path =>
    [("event", .text "artifact_written"), ("trace", .text trace), ("kind", .text kind),
      ("path", .text path)]
  | outputFileReplaced path | outputDirectoryReplaced path => [("path", .text path)]
  | simulatorFailed status => [("status", .text s!"exit status: {status}")]

end Event

end Saturation
