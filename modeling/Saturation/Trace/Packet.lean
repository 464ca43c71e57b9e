import Saturation.Computed

/-! Packets of innocent traffic, and the records of a trace that describe them. -/

set_option autoImplicit false

namespace Saturation

/-- What scheduling depends on: the flow, the wire size in bits, and the service time in ns. -/
structure Packet (α : Type) where
  flow : String
  size : UInt64
  jobSize : α
  deriving DecidableEq, Repr

/-- The service time of a bit, to rank by. -/
def Packet.costRank {α : Type} [Scalar α] (p : Packet α) : Computed α :=
  (Computed.given p.jobSize).divide (Scalar.ofWord p.size)

/-- The service time of a bit. -/
def Packet.costRatio {α : Type} [Scalar α] (p : Packet α) : α := p.costRank.value

/-- One line of a packet log. -/
structure Record where
  arrivalTime : Float
  departureTime : Float
  classTag : String
  packet : Packet Float
  deriving Repr

end Saturation
