import Saturation.Error
import Saturation.Trace.Packet

/-!
Baseline statistics of a trace: sums and maxima while it is read, averages once it has ended.
Sizes are summed in 64-bit words, and a sum that does not fit one breaks the pass off.
-/

set_option autoImplicit false

namespace Saturation

variable {α : Type} [Scalar α]

/-- Running sums and maxima over packets. -/
structure Totals (α : Type) where
  count : Nat
  sizeSum : UInt64
  sizeMax : UInt64
  jobSum : α
  jobMax : α
  deriving Repr

structure Statistics (α : Type) where
  totalPackets : Nat
  /-- In bits, without the fraction. -/
  averagePacketSize : UInt64
  maximumPacketSize : UInt64
  averageJobSize : α
  maximumJobSize : α
  /-- The rate that innocent traffic alone can sustain; it is taken from the exact mean size. -/
  rMax : α
  deriving Repr

def Totals.empty : Totals α := ⟨0, 0, 0, Scalar.zero, Scalar.zero⟩

/-- One more packet, with its size added in words. -/
def Totals.add (t : Totals α) (p : Packet α) : Totals α where
  count := t.count + 1
  sizeSum := t.sizeSum + p.size
  sizeMax := max t.sizeMax p.size
  jobSum := t.jobSum + p.jobSize
  jobMax := Scalar.larger t.jobMax p.jobSize

/-- One more packet, if the sum of sizes fits its word. -/
def Totals.observe (t : Totals α) (p : Packet α) : Except Fault (Totals α) :=
  if t.sizeSum.toNat + p.size.toNat < 0x10000000000000000 then .ok (t.add p) else .error .overflow

def Totals.ofPackets (ps : List (Packet α)) : Except Fault (Totals α) := ps.foldlM observe empty

def Totals.statistics (t : Totals α) : Except Fault (Statistics α) :=
  if t.count = 0 then .error .emptyTrace
  else
    let averageSize := Scalar.ofWord t.sizeSum / Scalar.ofNat t.count
    let averageJobSize := t.jobSum / Scalar.ofNat t.count
    .ok { totalPackets := t.count
          averagePacketSize := Scalar.truncate averageSize
          maximumPacketSize := t.sizeMax
          averageJobSize
          maximumJobSize := t.jobMax
          rMax := averageSize / averageJobSize }

def Statistics.ofPackets (ps : List (Packet α)) : Except Fault (Statistics α) := do
  (← Totals.ofPackets ps).statistics

/-- The goodput of an innocent rate when nothing is attacked. -/
def Statistics.idealGoodput (s : Statistics α) (innocent : α) : α := Scalar.smaller innocent s.rMax

end Saturation
