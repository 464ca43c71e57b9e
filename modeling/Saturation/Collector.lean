import Saturation.Analyzer

/-!
What the policies keep of the packets while a trace is read. Each policy keeps only what its model
is built from once the statistics of the whole trace are known.
-/

set_option autoImplicit false

namespace Saturation

variable {α : Type} [Scalar α]

/-- What a policy keeps. Packets come with the last one first. -/
inductive Collector (α : Type) where
  | arrival
  /-- The names of the flows, each one once. -/
  | shares (names : List String)
  /-- Beside the packets, how often each whole job size occurs. -/
  | jobSizes (counts : List (Nat × Nat)) (packets : List (Packet α))
  | flowJobSizes (flows : FlowTable α)
  | costRatios (packets : List (Packet α))
  | flowCostRatios (flows : FlowTable α)
  deriving Repr

namespace Collector

def start : Policy → Collector α
  | .fcfs => arrival
  | .fq => shares []
  | .sjf => jobSizes [] []
  | .sjfInorder => flowJobSizes []
  | .wsjf => costRatios []
  | .wsjfInorder => flowCostRatios []

def policy : Collector α → Policy
  | arrival => .fcfs
  | shares _ => .fq
  | jobSizes _ _ => .sjf
  | flowJobSizes _ => .sjfInorder
  | costRatios _ => .wsjf
  | flowCostRatios _ => .wsjfInorder

/-- Takes in the next packet. -/
def observe (c : Collector α) (p : Packet α) : Collector α :=
  match c with
  | arrival => arrival
  | shares names => shares (names.insert p.flow)
  | jobSizes counts ps =>
    jobSizes (Histogram.add (Model.jobSizeKey p.jobSize) counts) (p :: ps)
  | flowJobSizes t => flowJobSizes (t.record p)
  | costRatios ps => costRatios (p :: ps)
  | flowCostRatios t => flowCostRatios (t.record p)

def model (c : Collector α) (stats : Statistics α) : Except Fault (Model α) :=
  match c with
  | arrival => .ok .arrival
  | shares names => .ok (.shares names.length)
  | jobSizes counts ps => .ok (.ofJobSizeCounts stats counts ps.reverse)
  | flowJobSizes t => .ok (.ofTableJobSizes stats t)
  | costRatios ps => Model.ofCostRatios stats ps.reverse
  | flowCostRatios t => Model.ofTableCostRatios stats t

/-- The analyzer of the policy once all packets are in. -/
def finish (c : Collector α) (bounds : AttackBounds α) (stats : Statistics α) :
    Except Fault (Analyzer α) :=
  match c.model stats with
  | .ok model => .ok ⟨c.policy, stats, bounds, model⟩
  | .error e => .error e

end Collector

end Saturation
