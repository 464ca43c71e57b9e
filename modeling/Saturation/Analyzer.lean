import Saturation.Policy
import Saturation.Strategy
import Saturation.Trace.Flow

/-!
The model of each policy, built from the packets of a trace, and the best attack on it.

Arrival order and fair shares need averages and the number of flows only. The other policies rank
packets, or whole flows, by job size or by cost ratio: the ranking decides what an attack starves,
and its cumulative cost profile decides where the attack settles.
-/

set_option autoImplicit false

namespace Saturation

variable {α : Type} [Scalar α]

/-- What is served as a whole: the value it is ranked by, and its size in bits. -/
abbrev Ranking (α : Type) := List (α × UInt64)

inductive Model (α : Type) where
  | arrival
  | shares (flows : Nat)
  | byJobSize (ranking : Ranking α) (profile : JobSizeProfile α)
  | byCostRatio (ranking : Ranking α) (profile : RatioProfile α)
  deriving Repr

structure Analyzer (α : Type) where
  policy : Policy
  statistics : Statistics α
  bounds : AttackBounds α
  model : Model α
  deriving Repr

/-- How often each key occurs, in ascending order of the keys. -/
def Histogram.add (key : Nat) : List (Nat × Nat) → List (Nat × Nat)
  | [] => [(key, 1)]
  | (k, n) :: rest =>
    if key < k then (key, 1) :: (k, n) :: rest
    else if key = k then (k, n + 1) :: rest
    else (k, n) :: add key rest

def Histogram.ofKeys (keys : List Nat) : List (Nat × Nat) := keys.foldl (fun h k => add k h) []

namespace Model

/-- The whole part of a job size. -/
def jobSizeKey (jobSize : α) : Nat := (Scalar.truncate jobSize : UInt64).toNat

/-- Packets in ascending order of a key. -/
def sortedBy (key : Packet α → Computed α) (ps : List (Packet α)) : List (Packet α) :=
  ps.mergeSort fun p q => (key p).precedes (key q)

/-- Packets by job size. The profile counts whole job sizes. -/
def ofJobSizeCounts (stats : Statistics α) (counts : List (Nat × Nat)) (ps : List (Packet α)) :
    Model α :=
  let total : α := Scalar.ofNat stats.totalPackets
  byJobSize ((sortedBy (fun p => .given p.jobSize) ps).map fun p => (p.jobSize, p.size))
    (JobSizeProfile.ofSorted (counts.map fun h =>
      (h.1, Scalar.ofNat h.2 / total * Scalar.ofNat h.1)))

def ofJobSizes (stats : Statistics α) (ps : List (Packet α)) : Model α :=
  ofJobSizeCounts stats (Histogram.ofKeys (ps.map fun p => jobSizeKey p.jobSize)) ps

/-- Flows by average job size. -/
def ofTableJobSizes (stats : Statistics α) (t : FlowTable α) : Model α :=
  let total : α := Scalar.ofNat stats.totalPackets
  let flows := t.sortedBy Flow.jobRank
  byJobSize (flows.map fun f => (f.averageJobSize, f.size))
    (JobSizeProfile.ofSorted (flows.map fun f => (jobSizeKey f.averageJobSize, f.jobSize / total)))

def ofFlowJobSizes (stats : Statistics α) (ps : List (Packet α)) : Model α :=
  ofTableJobSizes stats (FlowTable.ofPackets ps)

/-- Packets by cost ratio. -/
def ofCostRatios (stats : Statistics α) (ps : List (Packet α)) : Except Fault (Model α) :=
  let total : α := Scalar.ofNat stats.totalPackets
  let ranked := sortedBy Packet.costRank ps
  match RatioProfile.ofSorted (ranked.map fun p => (p.costRatio, p.jobSize / total)) with
  | .ok profile => .ok (byCostRatio (ranked.map fun p => (p.costRatio, p.size)) profile)
  | .error e => .error e

/-- Flows by average cost ratio. -/
def ofTableCostRatios (stats : Statistics α) (t : FlowTable α) : Except Fault (Model α) :=
  let total : α := Scalar.ofNat stats.totalPackets
  let flows := t.sortedBy Flow.costRank
  match RatioProfile.ofSorted (flows.map fun f => (f.averageCostRatio, f.jobSize / total)) with
  | .ok profile => .ok (byCostRatio (flows.map fun f => (f.averageCostRatio, f.size)) profile)
  | .error e => .error e

def ofFlowCostRatios (stats : Statistics α) (ps : List (Packet α)) : Except Fault (Model α) :=
  ofTableCostRatios stats (FlowTable.ofPackets ps)

/-- The model of a policy for the packets of a trace. -/
def ofPackets (policy : Policy) (stats : Statistics α) (ps : List (Packet α)) :
    Except Fault (Model α) :=
  match policy with
  | .fcfs => .ok arrival
  | .fq => .ok (shares (FlowTable.ofPackets ps).length)
  | .sjf => .ok (ofJobSizes stats ps)
  | .sjfInorder => .ok (ofFlowJobSizes stats ps)
  | .wsjf => ofCostRatios stats ps
  | .wsjfInorder => ofFlowCostRatios stats ps

end Model

namespace Analyzer

def ofPackets (policy : Policy) (bounds : AttackBounds α) (stats : Statistics α)
    (ps : List (Packet α)) : Except Fault (Analyzer α) :=
  match Model.ofPackets policy stats ps with
  | .ok model => .ok ⟨policy, stats, bounds, model⟩
  | .error e => .error e

/-- The goodput when all jobs share the scheduler in the order of arrival. -/
def arrivalGoodput (a : Analyzer α) (rates : Rates α) : α :=
  let adversarial := jobSizeAttackWork rates a.bounds.maxJobSize
  let innocent := innocentWork rates a.statistics a.statistics.averageJobSize
  rates.innocent * Scalar.smaller (Scalar.one / (innocent + adversarial)) Scalar.one

/-- The goodput when each flow has an equal share, diluted by the adversary's work. -/
def sharesGoodput (a : Analyzer α) (flows : Nat) (rates : Rates α) : α :=
  let adversarial := jobSizeAttackWork rates a.bounds.maxJobSize
  let k : α := Scalar.ofNat flows
  Scalar.smaller rates.innocent (k * a.statistics.rMax / (adversarial + k))

/-- The effect of an attack at a threshold on what is ranked. -/
def rankedEstimate (a : Analyzer α) (ranking : Ranking α) (rates : Rates α) (t : Threshold α) :
    Estimate α :=
  Estimate.ofServedSize rates a.statistics (servedSize t.admits ranking)

/-- The best attack at the given rates. -/
@[specialize] def strategy (a : Analyzer α) (rates : Rates α) : Strategy α :=
  match a.model with
  | .arrival =>
    (Attack.ofJobSize a.bounds.maxJobSize).strategy
      (Estimate.ofGoodput rates a.statistics (a.arrivalGoodput rates))
  | .shares flows =>
    (Attack.ofJobSize a.bounds.maxJobSize).strategy
      (Estimate.ofGoodput rates a.statistics (a.sharesGoodput flows rates))
  | .byJobSize ranking profile =>
    let t := profile.threshold rates a.statistics
    (Attack.ofJobSize t.limit).strategy (a.rankedEstimate ranking rates t)
  | .byCostRatio ranking profile =>
    let t := profile.threshold rates a.statistics
    (Attack.ofCostRatio t.limit a.bounds.minPacketSize).strategy (a.rankedEstimate ranking rates t)

end Analyzer

end Saturation
