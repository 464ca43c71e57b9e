import Saturation.Error
import Saturation.Scalar

/-!
Cumulative cost profiles: for a threshold, the expected service time, per innocent packet, of all
that a scheduler serves in front of an attack at that threshold.

A profile is a step function, kept as its steps in ascending order. Profiles over job sizes have
a key for each whole job size that occurs. Profiles over cost ratios are read as tables with
`slotsPerUnit` slots for each unit of the ratio, where a slot without a step of its own has the
value of the nearest step below it.
-/

set_option autoImplicit false

namespace Saturation

variable {α : Type} [Scalar α]

namespace Profile

/-- The value of the last step at or below a key; 0 in front of the first step. -/
def valueAt (key : Nat) (steps : List (Nat × α)) : α :=
  (steps.takeWhile fun s => decide (s.1 ≤ key)).getLast?.elim Scalar.zero Prod.snd

end Profile

/-- Steps over whole job sizes. -/
structure JobSizeProfile (α : Type) where
  points : List (Nat × α)
  deriving Repr

namespace JobSizeProfile

/-- The steps behind those already made (the last one first), whose total is `sum`. -/
def build (made : List (Nat × α)) (sum : α) : List (Nat × α) → List (Nat × α)
  | [] => made.reverse
  | (key, contribution) :: rest =>
    let sum := sum + contribution
    match made with
    | (last, value) :: below =>
      if last = key then build ((key, sum) :: below) sum rest
      else build ((key, sum) :: (last, value) :: below) sum rest
    | [] => build [(key, sum)] sum rest

/-- Neighbours with the same key make one step, which has the running total of both. -/
def ofSorted (contributions : List (Nat × α)) : JobSizeProfile α := ⟨build [] Scalar.zero contributions⟩

def size (p : JobSizeProfile α) : Nat := p.points.length

/-- The expected job size over the whole trace. -/
def total (p : JobSizeProfile α) : α := p.points.getLast?.elim Scalar.zero Prod.snd

end JobSizeProfile

/-- Slots for each unit of a cost ratio. -/
def slotsPerUnit : Nat := 4096

/-- Tables stay below this length. -/
def slotLimit : Nat := 0x1000000

/-- The slot of a cost ratio, held within 64 bits. -/
def ratioSlot (ratio : α) : Nat := min (Scalar.nearest (ratio * Scalar.ofNat slotsPerUnit)) 0xFFFFFFFFFFFFFFFF

/-- The cost ratio a slot stands for. -/
def slotRatio (slot : Nat) : α := Scalar.ofNat slot / Scalar.ofNat slotsPerUnit

/-- The table over cost ratios, as its steps. The last step is in the last slot. -/
structure RatioProfile (α : Type) where
  steps : List (Nat × α)
  deriving Repr

namespace RatioProfile

/-- The steps behind those already made (the last one first), whose total is `sum`. A slot at or
below the last one adds to the last one. -/
def build (made : List (Nat × α)) (sum : α) : List (α × α) → Except Fault (List (Nat × α))
  | [] => .ok made.reverse
  | (ratio, contribution) :: rest =>
    let slot := ratioSlot ratio
    if slotLimit ≤ slot then .error (.profileTooLarge (min (slot + 1) 0xFFFFFFFFFFFFFFFF) slotLimit)
    else
      let sum := sum + contribution
      match made with
      | (last, value) :: below =>
        if slot ≤ last then build ((last, sum) :: below) sum rest
        else build ((slot, sum) :: (last, value) :: below) sum rest
      | [] => build [(slot, sum)] sum rest

def ofSorted (contributions : List (α × α)) : Except Fault (RatioProfile α) :=
  match build [] Scalar.zero contributions with
  | .ok steps => .ok ⟨steps⟩
  | .error e => .error e

/-- The number of slots. -/
def size (p : RatioProfile α) : Nat := p.steps.getLast?.elim 0 fun s => s.1 + 1

/-- The value in a slot. -/
def valueAt (p : RatioProfile α) (slot : Nat) : α := Profile.valueAt slot p.steps

/-- The largest ratio of the table. -/
def maxRatio (p : RatioProfile α) : α := slotRatio (p.size - 1)

/-- The table as stretches of slots with one value: first slot, number of slots, value. -/
def stretchesFrom (first : Nat) (value : α) : List (Nat × α) → List (Nat × Nat × α)
  | [] => [(first, 1, value)]
  | (slot, v) :: rest => (first, slot - first, value) :: stretchesFrom slot v rest

/-- In front of the first step the value is 0. -/
def stretches (p : RatioProfile α) : List (Nat × Nat × α) :=
  match p.steps with
  | [] => []
  | (slot, v) :: rest =>
    if slot = 0 then stretchesFrom slot v rest else (0, slot, Scalar.zero) :: stretchesFrom slot v rest

end RatioProfile

end Saturation
