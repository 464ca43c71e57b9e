import Saturation.Program.Jobs

/-!
The command line. Options may stand in front of the command or behind it, as `--name value`,
`--name=value`, `-n value`, `-nvalue` or `-n=value`; behind `--` there are operands only. Each option
is given at most once on each side of the command, and what stands behind it counts.
-/

set_option autoImplicit false

namespace Saturation.Program

/-- Why there is nothing to run. -/
inductive Stop where
  | help
  | version
  | misuse
  deriving DecidableEq, Repr

/-- What an option means. -/
inductive Meaning where
  | flag
  /-- A value that passes a test. -/
  | value (accepts : String → Bool)
  | stop (reason : Stop)

structure OptionRule where
  name : String
  short : Option Char
  meaning : Meaning

/-- What may stand on one side of the command. -/
structure Grammar where
  options : List OptionRule
  /-- How many operands there may be. -/
  operands : Nat
  commands : List String

/-- What has been read. -/
structure Given where
  /-- Options with their values; flags have an empty one. -/
  options : List (String × String)
  operands : List String
  /-- An option that is not judged yet, and its value if that is there. -/
  pending : Option (String × Option String)
  deriving DecidableEq, Repr

namespace Given

def empty : Given := ⟨[], [], none⟩

def get? (g : Given) (name : String) : Option String := (g.options.find? fun o => o.1 = name).map Prod.snd

def has (g : Given) (name : String) : Bool := (g.get? name).isSome

end Given

namespace Grammar

def rule? (g : Grammar) (name : String) : Option OptionRule := g.options.find? fun r => r.name = name

def shortRule? (g : Grammar) (c : Char) : Option OptionRule := g.options.find? fun r => r.short = some c

/-- Takes an option with its value, if it is new and the value passes. -/
def accept (g : Grammar) (given : Given) (name value : String) : Except Stop Given :=
  let passes := match (g.rule? name).map OptionRule.meaning with
    | some (.value accepts) => accepts value
    | _ => true
  if given.has name || !passes then .error .misuse
  else .ok { given with options := given.options ++ [(name, value)] }

/-- Judges the option that is pending. -/
def settle (g : Grammar) (given : Given) : Except Stop Given :=
  match given.pending with
  | none => .ok given
  | some (_, none) => .error .misuse
  | some (name, some value) => g.accept { given with pending := none } name value

/-- An option with the value attached to it, if any. -/
def option (g : Grammar) (given : Given) (r : OptionRule) (attached : Option String) :
    Except Stop Given := do
  let given ← g.settle given
  match r.meaning, attached with
  | .stop reason, none => .error reason
  | .flag, none => g.accept given r.name ""
  | .value _, some value => g.accept given r.name value
  | .value _, none => .ok { given with pending := some (r.name, none) }
  | _, some _ => .error .misuse

/-- An option by its name, behind the two dashes. -/
def long (g : Grammar) (given : Given) (body : List Char) : Except Stop Given :=
  let name := body.takeWhile (· ≠ '=')
  let attached := match body.dropWhile (· ≠ '=') with
    | '=' :: value => some (String.ofList value)
    | _ => none
  match g.rule? (String.ofList name) with
  | some r => g.option given r attached
  | none => .error .misuse

/-- Options by their letters, behind one dash. The first one with a value takes the rest. -/
def letters (g : Grammar) (given : Given) : List Char → Except Stop Given
  | [] => .ok given
  | c :: rest =>
    match g.shortRule? c with
    | none => .error .misuse
    | some r =>
      match r.meaning, rest with
      | .value _, [] => g.option given r none
      | .value _, '=' :: value => g.option given r (some (String.ofList value))
      | .value _, value => g.option given r (some (String.ofList value))
      | _, _ => do letters g (← g.option given r none) rest

/-- An operand, which may not be empty. -/
def operand (g : Grammar) (given : Given) (text : String) : Except Stop Given := do
  let given ← g.settle given
  if given.operands.length < g.operands && !text.isEmpty then
    .ok { given with operands := given.operands ++ [text] }
  else .error .misuse

/-- Reads arguments up to a command, and gives the command with what follows it. -/
def scan (g : Grammar) (given : Given) : List String → Except Stop (Given × Option (String × List String))
  | [] => .ok (given, none)
  | argument :: rest =>
    match given.pending, argument.toList with
    | some (name, none), cs =>
      if cs.head? = some '-' ∧ cs ≠ ['-'] then .error .misuse
      else scan g { given with pending := some (name, some argument) } rest
    | _, ['-', '-'] => do return (← rest.foldlM g.operand given, none)
    | _, '-' :: '-' :: body => do scan g (← g.long given body) rest
    | _, '-' :: c :: cs => do scan g (← g.letters given (c :: cs)) rest
    | _, _ =>
      if g.commands.contains argument then .ok (given, some (argument, rest))
      else do scan g (← g.operand given argument) rest

end Grammar

/-! ## The options -/

def anyValue : Meaning := .value fun _ => true

def oneOf (texts : List String) : Meaning := .value texts.contains

def pathValue : Meaning := .value fun text => !text.isEmpty

def helpOption : OptionRule := ⟨"help", some 'h', .stop .help⟩

/-- The options on both sides of the command. -/
def commonOptions : List OptionRule := [
  ⟨"format", some 'f', oneOf ["table", "json"]⟩,
  ⟨"verbose", some 'v', .flag⟩,
  ⟨"log-format", none, oneOf ["text", "json"]⟩,
  helpOption]

def commandNames : List String := ["analyze", "generate", "help"]

def leading : Grammar :=
  ⟨commonOptions ++ [⟨"version", some 'V', .stop .version⟩], 0, commandNames⟩

def analyzeGrammar : Grammar :=
  ⟨commonOptions ++ [
    ⟨"config", some 'c', pathValue⟩,
    ⟨"trace", some 't', pathValue⟩,
    ⟨"policies", none, anyValue⟩,
    ⟨"innocent-rates", none, anyValue⟩,
    ⟨"attack-rates", none, anyValue⟩], 0, []⟩

def generateGrammar : Grammar :=
  ⟨commonOptions ++ [
    ⟨"policies", none, anyValue⟩,
    ⟨"innocent-rates", none, anyValue⟩,
    ⟨"attack-rates", none, anyValue⟩,
    ⟨"keep-packets", none, .flag⟩,
    ⟨"trace", none, pathValue⟩], 3, []⟩

/-! ## Invocations -/

inductive LogFormat where
  | text
  | json
  deriving DecidableEq, Repr

/-- The lists of a selection as they were typed. -/
structure Lists where
  policies : String
  innocentRates : String
  attackRates : String
  deriving DecidableEq, Repr

inductive Command where
  | analyze (configuration trace : String) (lists : Lists)
  | generate (simulator template outputDirectory : String) (keepPackets : Bool)
      (trace : Option String) (lists : Lists)
  deriving DecidableEq, Repr

structure Invocation where
  format : OutputFormat
  verbose : Bool
  logFormat : LogFormat
  command : Command
  deriving DecidableEq, Repr

/-- All policies, as a list to read. -/
def allPolicies : String := ",".intercalate (Policy.all.map Policy.name)

def analyzeCommand (g : Given) : Except Stop Command :=
  match g.get? "config", g.get? "trace", g.get? "innocent-rates", g.get? "attack-rates" with
  | some configuration, some trace, some innocentRates, some attackRates =>
    .ok (.analyze configuration trace
      ⟨(g.get? "policies").getD allPolicies, innocentRates, attackRates⟩)
  | _, _, _, _ => .error .misuse

def generateCommand (g : Given) : Except Stop Command :=
  match g.operands with
  | [simulator, template, outputDirectory] =>
    .ok (.generate simulator template outputDirectory (g.has "keep-packets") (g.get? "trace")
      ⟨(g.get? "policies").getD "", (g.get? "innocent-rates").getD "",
        (g.get? "attack-rates").getD ""⟩)
  | _ => .error .misuse

/-- Reads what follows a command: all of it, and then the options that it needs. -/
def readCommand (g : Grammar) (command : Given → Except Stop Command) (arguments : List String) :
    Except Stop (Given × Command) := do
  let (given, _) ← g.scan Given.empty arguments
  let given ← g.settle given
  return (given, ← command given)

/-- Help is there for the program and for its commands. -/
def helpFor : List String → Stop
  | [] => .help
  | name :: rest => if commandNames.contains name && rest.isEmpty then .help else .misuse

/-- The options on both sides of a command, those behind it first. -/
def combined (front behind : Given) (command : Command) : Invocation :=
  let option (name : String) := (behind.get? name).orElse fun _ => front.get? name
  { format := if option "format" = some "json" then .json else .table
    verbose := (option "verbose").isSome
    logFormat := if option "log-format" = some "json" then .json else .text
    command }

/-- What the arguments of the program ask for. An option in front of the command whose value stands
by itself is judged after everything behind the command. -/
def Invocation.read (arguments : List String) : Except Stop Invocation := do
  let (front, found) ← leading.scan Given.empty arguments
  let (behind, command) ← match found with
    | some ("analyze", rest) => readCommand analyzeGrammar analyzeCommand rest
    | some ("generate", rest) => readCommand generateGrammar generateCommand rest
    | some (_, rest) => .error (helpFor rest)
    | none => .error .misuse
  let front ← leading.settle front
  return combined front behind command

end Saturation.Program
