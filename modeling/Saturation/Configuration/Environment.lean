import Saturation.Settings.Value
import Saturation.Text.Lowercase

/-!
Settings from environment variables: `ADVERSARY__APPLICATION__MAX_ATTACK_JOB_SIZE_NS` overrides
`application.max_attack_job_size_ns`. Capitals do not matter.
-/

set_option autoImplicit false

namespace Saturation.Configuration

open Settings (Value Group)

/-- What the variables that hold settings start with. -/
def variableStart : List Char := ['a', 'd', 'v', 'e', 'r', 's', 'a', 'r', 'y', '_', '_']

/-- Two underscores stand for a point. -/
def dotted : List Char → List Char
  | '_' :: '_' :: cs => '.' :: dotted cs
  | c :: cs => c :: dotted cs
  | [] => []

/-- The key that a variable overrides. -/
def variableKey? (name : String) : Option String :=
  let lowered := (Text.lower name).toList
  if variableStart.isPrefixOf lowered then
    some (String.ofList (dotted (lowered.drop variableStart.length)))
  else none

/-- The settings in some variables; of several for one key, the last one counts. -/
def ofEnvironment (environment : List (String × String)) : Group :=
  Group.ofList (environment.filterMap fun v => (variableKey? v.1).map fun key => (key, .str v.2))

end Saturation.Configuration
