import Saturation.Settings.Writer

/-!
What can go wrong, as causes; each kind of cause has its wording in one function.

A failure of a command is a chain: what was being attempted, from the outside in, and then the
fault with the faults behind it.
-/

set_option autoImplicit false

namespace Saturation

/-- Refusals of the file system. -/
inductive SystemError where
  | notFound
  | noExecution
  | permissionDenied
  | exists
  | notDirectory
  | isDirectory
  | invalidArgument
  | nameTooLong
  | notEmpty
  | notSupported
  /-- A text was expected and the bytes are not UTF-8. -/
  | notText
  /-- Only a regular file can be copied. -/
  | notRegular
  /-- A path without a parent that could be made. -/
  | noParent
  /-- No path has a NUL in it. -/
  | notAPath
  /-- Neither a program nor an argument has one. -/
  | notACommand
  /-- Any other refusal, by its number and its text. -/
  | other (code : Nat) (text : String)
  deriving DecidableEq, Repr

def SystemError.message : SystemError → String
  | .notFound => "No such file or directory (os error 2)"
  | .noExecution => "Exec format error (os error 8)"
  | .permissionDenied => "Permission denied (os error 13)"
  | .exists => "File exists (os error 17)"
  | .notDirectory => "Not a directory (os error 20)"
  | .isDirectory => "Is a directory (os error 21)"
  | .invalidArgument => "Invalid argument (os error 22)"
  | .nameTooLong => "File name too long (os error 36)"
  | .notEmpty => "Directory not empty (os error 39)"
  | .notSupported => "Function not implemented (os error 38)"
  | .notText => "stream did not contain valid UTF-8"
  | .notRegular => "the source path is neither a regular file nor a symlink to a regular file"
  | .noParent => "failed to create whole tree"
  | .notAPath => "file name contained an unexpected NUL byte"
  | .notACommand => "nul byte found in provided data"
  | .other code text => s!"{text} (os error {code})"

/-- The refusal with a number of the system's, and the system's text for it. -/
def SystemError.ofCode (code : Nat) (text : String) : SystemError :=
  match code with
  | 2 => .notFound
  | 8 => .noExecution
  | 13 => .permissionDenied
  | 17 => .exists
  | 20 => .notDirectory
  | 21 => .isDirectory
  | 22 => .invalidArgument
  | 36 => .nameTooLong
  | 38 => .notSupported
  | 39 => .notEmpty
  | n => .other n text

/-- Faults of a configuration source other than a settings document. -/
inductive ConfigurationError where
  /-- A value that cannot be converted. -/
  | unsuitable
  /-- A source that does not hold an object. -/
  | malformed
  /-- A source that is absent or of no known format. -/
  | unavailable
  deriving DecidableEq, Repr

def ConfigurationError.message : ConfigurationError → String
  | .unsuitable => "a value is of an unsuitable type"
  | .malformed => "the source does not hold an object"
  | .unavailable => "there is no source of a known format"

/-- The numeric fields of a trace record. -/
inductive NumericField where
  | packetSize
  | jobSize
  | arrivalTime
  | departureTime
  deriving DecidableEq, Repr

def NumericField.text : NumericField → String
  | .packetSize => "packet size"
  | .jobSize => "job size"
  | .arrivalTime => "arrival time"
  | .departureTime => "departure time"

/-- Faults of a trace, a configuration or a request. -/
inductive Fault where
  | unreadable (cause : SystemError)
  | malformedRecord (line fields : Nat)
  | invalidField (line : Nat) (field : NumericField) (value : String)
  | emptyTrace
  | missingKey (key : String)
  | configuration (cause : ConfigurationError)
  | unreadableConfiguration (path : String) (cause : SystemError)
  | malformedDocument (cause : Settings.SyntaxError)
  | unsupportedPolicy (text : String)
  | invalidRate (text : String)
  | profileTooLarge (slots limit : Nat)
  /-- A sum that does not fit its word; the program is broken off. -/
  | overflow
  deriving DecidableEq, Repr

def Fault.message : Fault → String
  | .unreadable cause => s!"Failed to read trace: {cause.message}"
  | .malformedRecord line fields =>
    s!"Malformed trace record on line {line}: expected at least 6 fields, got {fields}"
  | .invalidField line field value => s!"Invalid {field.text} on line {line}: '{value}'"
  | .emptyTrace => "Trace contains no packet records"
  | .missingKey key => s!"Missing required configuration key '{key}'"
  | .configuration cause => s!"Failed to load configuration: {cause.message}"
  | .unreadableConfiguration path cause => s!"Failed to read configuration {path}: {cause.message}"
  | .malformedDocument cause => s!"Failed to parse configuration: {cause.message}"
  | .unsupportedPolicy text => s!"Unsupported policy: {text}"
  | .invalidRate text => s!"Invalid rate: '{text}'"
  | .profileTooLarge slots limit => s!"Cost-ratio profile needs {slots} slots (limit is {limit})"
  | .overflow => "attempt to add with overflow"

/-- A link of a failure's chain. -/
inductive Cause where
  | attempt (text : String)
  | fault (fault : Fault)
  | configuration (cause : ConfigurationError)
  | document (cause : Settings.SyntaxError)
  | unwritable (cause : Settings.WriteError)
  | system (cause : SystemError)
  deriving DecidableEq, Repr

def Cause.message : Cause → String
  | .attempt text => text
  | .fault f => f.message
  | .configuration c => c.message
  | .document c => c.message
  | .unwritable c => c.message
  | .system c => c.message

/-- The fault, and the faults behind it. -/
def Fault.causes : Fault → List Cause
  | .unreadable c => [.fault (.unreadable c), .system c]
  | .configuration c => [.fault (.configuration c), .configuration c]
  | .unreadableConfiguration path c => [.fault (.unreadableConfiguration path c), .system c]
  | .malformedDocument c => [.fault (.malformedDocument c), .document c]
  | f => [.fault f]

/-- Why a command stopped, from the outside in. -/
structure Failure where
  chain : List Cause
  deriving DecidableEq, Repr

/-- Whether the program is broken off where the failure is met. -/
def Failure.breaksOff (f : Failure) : Bool := f.chain = [.fault .overflow]

/-- The same failure inside a wider attempt. Nobody is told what was attempted when the program is
broken off. -/
def Failure.within (attempt : String) (f : Failure) : Failure :=
  if f.breaksOff then f else ⟨.attempt attempt :: f.chain⟩

def Failure.ofFault (f : Fault) : Failure := ⟨f.causes⟩

def Failure.ofSystem (e : SystemError) : Failure := ⟨[.system e]⟩

def Failure.texts (f : Failure) : List String := f.chain.map Cause.message

/-- The lines of a cause's text, the ones after the first moved in by `margin`. -/
def indented (margin : String) (text : String) : String :=
  ("\n" ++ margin).intercalate (text.splitOn "\n")

/-- The report of a failure: its outermost attempt, and the causes below it, numbered if there are
several. -/
def Failure.report (f : Failure) : String :=
  match f.texts with
  | [] => "Error: \n"
  | [only] => s!"Error: {only}\n"
  | [outer, cause] =>
    let margin := "".pushn ' ' 4
    s!"Error: {outer}\n\nCaused by:\n{margin}{indented margin cause}\n"
  | outer :: causes =>
    let margin := "".pushn ' ' 7
    let lines := causes.mapIdx fun i cause =>
      let number := "".pushn ' ' (5 - (toString i).length) ++ toString i
      s!"{number}: {indented margin cause}\n"
    s!"Error: {outer}\n\nCaused by:\n" ++ String.join lines

end Saturation
