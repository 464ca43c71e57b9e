import Saturation.Configuration.Source
import Saturation.Strategy

/-!
Simulator configurations: a template, and the documents made from it by putting in the values of
one job. A template is a libconfig document or a file of another format, of which it takes what JSON
can hold; what is made from it is always a document.
-/

set_option autoImplicit false

namespace Saturation

open Settings (Value Group)

/-- The values of a job that a template is filled with. -/
structure JobValues where
  policy : Policy
  innocentRate : Rate
  /-- In bits. -/
  averagePacketSize : UInt64
  attackRate : Rate
  strategy : Strategy Float
  deriving Repr

structure Template where
  settings : Group

namespace Template

/-- The flows that attack traffic is spread over. -/
def attackFlows : Nat := 1000000

/-- A number as a setting; what is not finite has none. -/
def numberSetting (x : Float) : Value := if x.isFinite then .float x else .null

def wordSetting (n : UInt64) : Value := .int n.toNat

/-- The fields of a group of settings; what is absent or no group has none. -/
def fieldsUnder (name : String) (settings : Group) : Group :=
  match settings.get? name with
  | some (.obj fields) => fields
  | _ => []

def innocentTraffic (job : JobValues) (fields : Group) : Group :=
  (fields.insert "rate_bps" (wordSetting job.innocentRate.bps)).insert
    "average_packet_size_bits" (wordSetting job.averagePacketSize)

def attackTraffic (job : JobValues) (fields : Group) : Group :=
  ((((fields.insert "rate_bps" (wordSetting job.attackRate.bps)).insert
    "type" (.str "synthetic")).insert
    "num_flows" (.int attackFlows)).insert
    "packet_size_bits" (wordSetting job.strategy.packetSize)).insert
    "job_size_ns" (numberSetting job.strategy.estimatedJobSize)

/-- The settings of a job. -/
def render (t : Template) (job : JobValues) : Group :=
  ((t.settings.insert "policy" (.str job.policy.name)).insert
    "innocent_traffic" (.obj (innocentTraffic job (fieldsUnder "innocent_traffic" t.settings)))).insert
    "attack_traffic" (.obj (attackTraffic job (fieldsUnder "attack_traffic" t.settings)))

/-- The document of a job. -/
def document (t : Template) (job : JobValues) : Except Failure String :=
  match Settings.write (t.render job) with
  | .ok text => .ok (String.ofList text)
  | .error e => .error (Failure.within "Failed to serialize configuration" ⟨[.unwritable e]⟩)

variable {m : Type → Type} [Monad m] [Host m]

def load (path : String) : m (Except Failure Template) := do
  let unreadable (c : Cause) : Failure := Failure.within s!"Failed to read template {path}" ⟨[c]⟩
  if Configuration.isDocumentPath path then
    match ← Host.readText path with
    | .error e => return .error (unreadable (.system e))
    | .ok text =>
      match Settings.read text.toList with
      | .ok settings => return .ok ⟨settings⟩
      | .error e => return .error (Failure.within s!"Failed to parse template {path}" ⟨[.document e]⟩)
  else
    match ← Configuration.readSource path with
    | .ok source => return .ok ⟨Group.ofList (Value.heldFields (Configuration.layers [source]))⟩
    | .error e => return .error (unreadable (.configuration e))

/-- Writes the document of a job to a file. -/
def write (t : Template) (job : JobValues) (path : String) : m (Except Failure Unit) := do
  match t.document job with
  | .error e => return .error e
  | .ok text =>
    match ← Host.writeText path text with
    | .ok () => return .ok ()
    | .error e => return .error (Failure.within s!"Failed to write {path}" (Failure.ofSystem e))

end Template

end Saturation
