import Saturation.Fraction
import Saturation.Goodput
import Saturation.Threshold

/-!
Strategies: the packets an adversary sends at a threshold. A threshold over job sizes is a job size
itself, sent in smallest packets; a threshold over cost ratios becomes a fraction of a job size and
a packet size.
-/

set_option autoImplicit false

namespace Saturation

variable {α : Type} [Scalar α]

/-- What the adversary may emit. -/
structure AttackBounds (α : Type) where
  maxJobSize : α
  /-- Packets of ratio policies are made at least this large. -/
  minPacketSize : UInt64
  deriving Repr

/-- The packets an adversary sends. -/
structure Attack (α : Type) where
  jobSize : α
  packetSize : UInt64
  deriving Repr

namespace Attack

def ofJobSize (threshold : α) : Attack α := ⟨threshold, minPacketSize⟩

/-- The best fraction for a ratio; if its denominator is too small for a packet, both sides are
scaled up and the job size loses its fraction. -/
def ofCostRatio (ratio : α) (minSize : UInt64) : Attack α :=
  let f := Fraction.ofValue ratio maxPacketSize.toNat
  if f.denominator < minSize.toNat then
    let scale : α := Scalar.ofWord minSize / Scalar.ofNat f.denominator
    let jobSize : UInt64 := Scalar.truncate (Scalar.ofNat f.numerator * scale)
    ⟨Scalar.ofWord jobSize, minSize⟩
  else ⟨Scalar.ofNat f.numerator, f.denominator.toUInt64⟩

end Attack

/-- The best attack for a policy and a pair of rates, with its expected effect. -/
structure Strategy (α : Type) where
  /-- The job size the adversary announces, in ns. -/
  estimatedJobSize : α
  /-- The job size its packets really have, in ns. -/
  actualJobSize : α
  /-- In bits. -/
  packetSize : UInt64
  /-- In Gbps. -/
  expectedGoodput : α
  expectedDisplacement : α
  deriving Repr

/-- An adversary announces the job sizes it has. -/
def Attack.strategy (a : Attack α) (e : Estimate α) : Strategy α where
  estimatedJobSize := a.jobSize
  actualJobSize := a.jobSize
  packetSize := a.packetSize
  expectedGoodput := e.goodput
  expectedDisplacement := e.displacement

end Saturation
