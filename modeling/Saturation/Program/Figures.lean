import Saturation.Decimal.Fixed
import Saturation.Host
import Saturation.Text.Tone

/-! How results are shown to a person: figures, notices and headings. -/

set_option autoImplicit false

namespace Saturation.Program

open Text (toned)

/-- A rate with four places. -/
def gbpsText (gbps : Float) : String := Decimal.fixedText 4 gbps ++ " Gbps"

/-- What stands for an estimate that is not reported. -/
def withheld (colour : Bool) : String := toned colour [.dimmed] "n/a"

def goodputText (colour : Bool) (policy : Policy) (gbps : Float) : String :=
  if policy.hasValidatedGoodput then gbpsText gbps else withheld colour

/-- The tone of a displacement: each unit of attack may displace a unit or more, less, or nothing. -/
def displacementTone (displacement : Float) : Text.Tone :=
  if Scalar.atMost Scalar.one displacement then .red
  else if Scalar.below Scalar.zero displacement then .yellow
  else .green

def displacementText (colour : Bool) (policy : Policy) (displacement : Float) : String :=
  if policy.hasValidatedGoodput then
    toned colour [displacementTone displacement] (Decimal.fixedText 4 displacement)
  else withheld colour

def success (colour : Bool) (text : String) : String := toned colour [.bold, .green] "✓" ++ " " ++ text

def warning (colour : Bool) (text : String) : String := toned colour [.bold, .yellow] "⚠" ++ " " ++ text

def notice (colour : Bool) (text : String) : String := toned colour [.bold, .blue] "ℹ" ++ " " ++ text

/-- The lines of a heading. -/
def heading (colour : Bool) (title : String) : List String :=
  [toned colour [.bold] title, "".pushn '=' 50]

variable {m : Type → Type} [Monad m] [Host m]

def sayAll (lines : List String) : m Unit := lines.forM Host.say

/-- The outcome of a step, or the failure of the attempt it was made in. -/
def attempting {β : Type} (attempt : String) (step : m (Except Fault β)) : ExceptT Failure m β :=
  ExceptT.mk do return (← step).mapError fun f => (Failure.ofFault f).within attempt

/-- As `attempting`, for a step on files. -/
def attemptingFiles {β : Type} (attempt : String) (step : m (Except SystemError β)) :
    ExceptT Failure m β :=
  ExceptT.mk do return (← step).mapError fun e => (Failure.ofSystem e).within attempt

/-- Stops with a message. -/
def fail {β : Type} (message : String) : ExceptT Failure m β := throw ⟨[.attempt message]⟩

end Saturation.Program
