import Saturation.Rate
import Saturation.Trace.Statistics

/-! What an attack leaves of the innocent traffic. -/

set_option autoImplicit false

namespace Saturation

variable {α : Type} [Scalar α]

/-- The goodput of innocent traffic, and its loss for each unit of the attack's rate. -/
structure Estimate (α : Type) where
  goodput : α
  displacement : α
  deriving Repr

namespace Estimate

/-- A goodput is held to the ideal one, so that no attack has a negative effect. -/
def ofGoodput (rates : Rates α) (stats : Statistics α) (goodput : α) : Estimate α :=
  let ideal := stats.idealGoodput rates.innocent
  let goodput := Scalar.smaller goodput ideal
  { goodput
    displacement :=
      if Scalar.isZero rates.attack then Scalar.zero
      else Scalar.larger (ideal - goodput) Scalar.zero / rates.attack }

/-- The goodput when this many of the offered bits are served. -/
def ofServedSize (rates : Rates α) (stats : Statistics α) (served : UInt64) : Estimate α :=
  let offered : α := Scalar.ofNat stats.totalPackets * Scalar.ofWord stats.averagePacketSize
  ofGoodput rates stats (rates.innocent * Scalar.ofWord served / offered)

end Estimate

/-- The size of the items in front of the first one that is not admitted. They are part of a trace
whose sizes fit a word together. -/
def servedSize (admits : α → Bool) (items : List (α × UInt64)) : UInt64 :=
  (items.takeWhile fun item => admits item.1).foldl (fun total item => total + item.2) 0

end Saturation
