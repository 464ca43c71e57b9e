import Saturation.Configuration.Environment
import Saturation.Configuration.Source

/-!
The bounds of the adversary, from a configuration file and the environment above it. The longest
job has to be given; the smallest packet has a default and is held to the sizes of packets.
-/

set_option autoImplicit false

namespace Saturation.Configuration

open Settings (Group)

/-- Ratio strategies are scaled to packets of 1 KiB unless told otherwise. -/
def defaultMinPacketSize : UInt64 := 8192

/-- The bounds with the given longest job. -/
def ofMaxJobSize (maxJobSize : Float) : AttackBounds Float := ⟨maxJobSize, defaultMinPacketSize⟩

/-- The size of a packet nearest to a requested one, and a warning if it is another one. -/
def clamped (requested : Int) : UInt64 × List Event :=
  let size := max (minPacketSize.toNat : Int) (min requested maxPacketSize.toNat)
  (size.toNat.toUInt64,
    if size = requested then [] else [.packetSizeClamped requested size.toNat.toUInt64])

def maxJobSizeKey : String := "application.max_attack_job_size_ns"

/-- The bounds in some settings, with the warnings about them. -/
def bounds (settings : Group) : Except Fault (AttackBounds Float × List Event) :=
  match setting? "application" "max_attack_job_size_ns" settings with
  | none => .error (.missingKey maxJobSizeKey)
  | some v =>
    match float? v with
    | none => .error (.configuration .unsuitable)
    | some maxJobSize =>
      match setting? "application" "min_attack_packet_size_bits" settings with
      | none => .ok (ofMaxJobSize maxJobSize, [])
      | some v =>
        match int? v with
        | none => .error (.configuration .unsuitable)
        | some requested =>
          let (size, warnings) := clamped requested
          .ok (⟨maxJobSize, size⟩, warnings)

variable {m : Type → Type} [Monad m] [Host m]

/-- The settings in the file of a configuration. -/
def readSettings (path : String) : m (Except Fault Group) := do
  if isDocumentPath path then
    match ← Host.readText path with
    | .error e => return .error (.unreadableConfiguration path e)
    | .ok text =>
      match Settings.read text.toList with
      | .error e => return .error (.malformedDocument e)
      | .ok document => return (ofDocument document).mapError .configuration
  else return (← readSource path).mapError .configuration

/-- The bounds in a configuration file, overridden by the environment. -/
def load (path : String) : m (Except Fault (AttackBounds Float)) := do
  match ← readSettings path with
  | .error e => return .error e
  | .ok source =>
    let environment ← Host.environment
    match bounds (layers [source, ofEnvironment environment]) with
    | .error e => return .error e
    | .ok (b, warnings) =>
      for w in warnings do Host.log w
      return .ok b

end Saturation.Configuration
