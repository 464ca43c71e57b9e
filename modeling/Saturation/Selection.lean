import Saturation.Policy
import Saturation.Rate

/-! What a command was asked for: the policies, and the grid of rates, each from a list of names. -/

set_option autoImplicit false

namespace Saturation

/-- The parts of a comma-separated list, without blanks around them and without empty ones. -/
def listParts (text : String) : List (List Char) :=
  ((text.toList.splitOn ',').map Text.trim).filter (· ≠ [])

/-- Reads the parts in order and keeps the first of equal items. -/
def readParts {β : Type} [DecidableEq β] (read : String → Except Fault β) :
    List (List Char) → List β → Except Fault (List β)
  | [], items => .ok items
  | part :: rest, items =>
    match read (String.ofList part) with
    | .ok item => readParts read rest (if item ∈ items then items else items ++ [item])
    | .error e => .error e

def readList {β : Type} [DecidableEq β] (read : String → Except Fault β) (text : String) :
    Except Fault (List β) := readParts read (listParts text) []

structure Selection where
  policies : List Policy
  innocentRates : List Rate
  attackRates : List Rate
  deriving DecidableEq, Repr

namespace Selection

def read (policies innocentRates attackRates : String) : Except Failure Selection := do
  let within (attempt : String) (f : Fault) := (Failure.ofFault f).within attempt
  let ps ← (readList Policy.read policies).mapError (within "Invalid --policies")
  let is ← (readList Rate.read innocentRates).mapError (within "Invalid --innocent-rates")
  let as ← (readList Rate.read attackRates).mapError (within "Invalid --attack-rates")
  return ⟨ps, is, as⟩

/-- Whether there is nothing to compute. -/
def isEmpty (s : Selection) : Bool :=
  s.policies.isEmpty || s.innocentRates.isEmpty || s.attackRates.isEmpty

end Selection

end Saturation
