import Saturation.Trace.Packet

/-!
Totals of flows, in the order of the flows' names, so that what ties in a later sort is always in
that order.
-/

set_option autoImplicit false

namespace Saturation

variable {α : Type} [Scalar α]

/-- The number of packets of a flow, and the sums of their sizes. -/
structure Flow (α : Type) where
  packets : Nat
  size : UInt64
  jobTotal : Computed α
  deriving Repr

namespace Flow

def empty : Flow α := ⟨0, 0, .given Scalar.zero⟩

/-- One more packet. Its size is part of the sum over the whole trace, which was found to fit a word
before. -/
def add (f : Flow α) (p : Packet α) : Flow α :=
  ⟨f.packets + 1, f.size + p.size, f.jobTotal.add p.jobSize⟩

def jobSize (f : Flow α) : α := f.jobTotal.value

/-- The average job size, to rank by. -/
def jobRank (f : Flow α) : Computed α := f.jobTotal.divide (Scalar.ofNat f.packets)

def averageJobSize (f : Flow α) : α := f.jobRank.value

/-- The service time of a bit of the flow, to rank by. -/
def costRank (f : Flow α) : Computed α := f.jobTotal.divide (Scalar.ofWord f.size)

/-- The service time of a bit of the flow. -/
def averageCostRatio (f : Flow α) : α := f.costRank.value

end Flow

/-- Flows under their names, in ascending order of the names. -/
abbrev FlowTable (α : Type) := List (String × Flow α)

namespace FlowTable

def record (p : Packet α) : FlowTable α → FlowTable α
  | [] => [(p.flow, Flow.empty.add p)]
  | (name, f) :: rest =>
    if p.flow < name then (p.flow, Flow.empty.add p) :: (name, f) :: rest
    else if p.flow = name then (name, f.add p) :: rest
    else (name, f) :: record p rest

def ofPackets (ps : List (Packet α)) : FlowTable α := ps.foldl (fun t p => record p t) []

def get? (name : String) : FlowTable α → Option (Flow α)
  | [] => none
  | (n, f) :: rest => if name = n then some f else get? name rest

/-- The flows in ascending order of a key. -/
def sortedBy (key : Flow α → Computed α) (t : FlowTable α) : List (Flow α) :=
  (t.map Prod.snd).mergeSort fun f g => (key f).precedes (key g)

end FlowTable

end Saturation
