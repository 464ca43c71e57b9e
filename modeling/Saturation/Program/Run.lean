import Saturation.Program.Arguments

/-! Running the program: from its arguments to its exit status. -/

set_option autoImplicit false

namespace Saturation.Program

def name : String := "advgen"

def versionText : String := "0.1.0"

def usage : String :=
  s!"Usage: {name} [OPTIONS] <COMMAND>

Commands:
  analyze   Compute the optimal attack strategies for a trace
  generate  Lay out simulation jobs that run each optimal attack

Options:
  -f, --format <table|json>       Output format
  -v, --verbose                   Log more
      --log-format <text|json>    Format of log lines
  -h, --help                      Print help
  -V, --version                   Print version"

variable {m : Type → Type} [Monad m] [Host m]

def Lists.read (l : Lists) : Except Failure Selection :=
  Selection.read l.policies l.innocentRates l.attackRates

/-- Does what a command asks for. -/
def Command.run (format : OutputFormat) (colour : Bool) : Command → ExceptT Failure m Unit
  | .analyze configuration trace lists => do
    let selection ← ExceptT.mk (pure lists.read)
    showStrategies ⟨configuration, trace, selection, format, colour⟩
  | .generate simulator template outputDirectory keepPackets trace lists => do
    let selection ← ExceptT.mk (pure lists.read)
    layOutJobs ⟨simulator, template, outputDirectory, keepPackets, trace, selection, colour⟩

/-- How the program ends, with what it says on the error stream at the end. -/
structure Ending where
  status : UInt8
  complaint : Option String
  deriving DecidableEq, Repr

def Ending.success : Ending := ⟨0, none⟩

/-- Runs an invocation, or says why there is none. -/
def run (colour : Bool) (requested : Except Stop Invocation) : m Ending := do
  match requested with
  | .error .help =>
    Host.say usage
    return .success
  | .error .version =>
    Host.say s!"{name} {versionText}"
    return .success
  | .error .misuse => return ⟨2, some (usage ++ "\n")⟩
  | .ok i =>
    match ← (i.command.run (m := m) i.format colour).run with
    | .ok () => return .success
    | .error f =>
      if f.breaksOff then return ⟨101, some (String.join f.texts ++ "\n")⟩
      else return ⟨1, some f.report⟩

end Saturation.Program
