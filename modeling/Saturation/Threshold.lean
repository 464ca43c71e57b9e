import Saturation.Profile
import Saturation.Rate
import Saturation.Trace.Statistics

/-!
The threshold of an attack: a profile is walked upwards to the first point at which innocent and
attack work together use up the scheduler, and the last point in front of it is taken.
-/

set_option autoImplicit false

namespace Saturation

variable {α : Type} [Scalar α]

/-- The smallest and the largest packet, in bits. -/
def minPacketSize : UInt64 := 512

def maxPacketSize : UInt64 := 12144

/-- The adversary's operating point. `saturated`: there is no capacity beyond it, and only what is
at or below it is served; `exhausted`: the whole profile fits, and everything is served. -/
inductive Threshold (α : Type) where
  | saturated (limit : α)
  | exhausted (limit : α)
  deriving Repr

namespace Threshold

def limit : Threshold α → α
  | saturated x => x
  | exhausted x => x

def admits : Threshold α → α → Bool
  | saturated x, value => Scalar.atMost value x
  | exhausted _, _ => true

end Threshold

/-- The work of innocent traffic at a cumulative expectation. -/
def innocentWork (rates : Rates α) (stats : Statistics α) (expectation : α) : α :=
  rates.innocent / Scalar.ofWord stats.averagePacketSize * expectation

/-- The work of smallest packets that each carry a job of the given size. -/
def jobSizeAttackWork (rates : Rates α) (jobSize : α) : α :=
  rates.attack / Scalar.ofWord minPacketSize * jobSize

/-- The work of packets of the given cost ratio. -/
def costRatioAttackWork (rates : Rates α) (ratio : α) : α := rates.attack * ratio

/-- Work is normalized: at 1 the scheduler is fully used. -/
def isSaturated (work : α) : Bool := Scalar.atMost Scalar.one work

namespace JobSizeProfile

/-- The job size tested at a key: just small enough to be served in front of the key's jobs. -/
def candidate (key : Nat) : α := Scalar.ofNat (key - 1)

def workAt (rates : Rates α) (stats : Statistics α) (point : Nat × α) : α :=
  innocentWork rates stats point.2 + jobSizeAttackWork rates (candidate point.1)

/-- The threshold over job sizes; if the whole profile fits, it is the largest job of the trace. -/
def threshold (p : JobSizeProfile α) (rates : Rates α) (stats : Statistics α) : Threshold α :=
  match p.points.find? fun point => isSaturated (workAt rates stats point) with
  | some point => .saturated (candidate point.1)
  | none => .exhausted stats.maximumJobSize

end JobSizeProfile

namespace RatioProfile

/-- The first of `n` slots from `slot` on that has a property. -/
@[specialize] def firstSlot (saturated : Nat → Bool) (slot : Nat) : Nat → Option Nat
  | 0 => none
  | n + 1 => if saturated slot then some slot else firstSlot saturated (slot + 1) n

/-- The first slot of some stretches at which the work saturates. -/
@[specialize] def firstSaturated (rates : Rates α) (stats : Statistics α) : List (Nat × Nat × α) → Option Nat
  | [] => none
  | (first, n, value) :: rest =>
    let innocent := innocentWork rates stats value
    match firstSlot (fun slot => isSaturated (innocent + costRatioAttackWork rates (slotRatio slot)))
      first n with
    | some slot => some slot
    | none => firstSaturated rates stats rest

/-- The threshold over cost ratios; if the whole table fits, it is the ratio of the last slot. -/
@[specialize] def threshold (p : RatioProfile α) (rates : Rates α) (stats : Statistics α) : Threshold α :=
  match firstSaturated rates stats p.stretches with
  | some slot => .saturated (slotRatio (slot - 1))
  | none => .exhausted p.maxRatio

end RatioProfile

end Saturation
