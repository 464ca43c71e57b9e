import Saturation.Collector
import Saturation.Trace.Ingest

/-! Analyzers of several policies from one pass over a trace. -/

set_option autoImplicit false

namespace Saturation

structure Analysis where
  summary : TraceSummary
  /-- In the order in which the policies were asked for, repeated ones included. -/
  analyzers : List (Analyzer Float)
  deriving Repr

namespace Analysis

/-- Every collector takes in the packet of a record. -/
def observe (cs : List (Collector Float)) (r : Record) : List (Collector Float) :=
  cs.map fun c => c.observe r.packet

/-- The analyzers of some collectors, or the fault of the first one that has none. -/
def finish (cs : List (Collector Float)) (bounds : AttackBounds Float) (stats : Statistics Float) :
    Except Fault (List (Analyzer Float)) :=
  cs.mapM fun c => c.finish bounds stats

def ofTrace (bytes : List UInt8) (policies : List Policy) (bounds : AttackBounds Float) :
    Except Fault Analysis :=
  match Trace.ingest observe (policies.map Collector.start) bytes with
  | (_, .error e) => .error e
  | (collectors, .ok summary) =>
    match finish collectors bounds summary.statistics with
    | .ok analyzers => .ok ⟨summary, analyzers⟩
    | .error e => .error e

/-- The first analyzer of a policy. -/
def analyzer? (a : Analysis) (policy : Policy) : Option (Analyzer Float) :=
  a.analyzers.find? fun z => z.policy = policy

end Analysis

end Saturation
