import Saturation.Error
import Saturation.Event

/-!
What a command needs from the machine it runs on: files, a simulator to launch, the environment,
readers of settings files, the time, and somewhere to print and to log. Commands are written over
this interface, so that they run on a real machine and on a model of one alike.
-/

set_option autoImplicit false

namespace Saturation

/-- What a path leads to. -/
inductive FileKind where
  | file
  | directory
  /-- Anything else, a device for instance. -/
  | special
  deriving DecidableEq, Repr

/-- Bytes of a file. -/
abbrev Bytes := List UInt8

/-- A format of settings files. -/
structure SourceFormat where
  /-- The extensions that files of the format have. -/
  extensions : List String
  /-- The settings in a text, if it is one of the format. -/
  read? : List Char → Option Settings.Group

class Host (m : Type → Type) where
  /-- What is there, if anything can be reached. -/
  kind? : String → m (Option FileKind)
  read : String → m (Except SystemError Bytes)
  /-- Replaces the contents of a file, which is made if it is not there. -/
  write : String → Bytes → m (Except SystemError Unit)
  makeDirectory : String → m (Except SystemError Unit)
  removeFile : String → m (Except SystemError Unit)
  /-- Removes a directory with all that is below it. -/
  removeTree : String → m (Except SystemError Unit)
  /-- Copies a file over another one. -/
  copy : String → String → m (Except SystemError Unit)
  /-- Lets everybody execute a file. -/
  markExecutable : String → m (Except SystemError Unit)
  /-- Runs a program with some arguments and gives its exit status. -/
  launch : String → List String → m (Except SystemError UInt8)
  /-- The variables of the environment with their values. -/
  environment : m (List (String × String))
  /-- The formats of settings files that can be read, in the order in which they are tried. -/
  sourceFormats : m (List SourceFormat)
  /-- The time in seconds since the beginning of 1970. -/
  now : m Int
  print : String → m Unit
  log : Event → m Unit

namespace Host

variable {m : Type → Type} [Monad m] [Host m]

/-- Prints a line. -/
def say (text : String) : m Unit := print (text ++ "\n")

/-- The text of a file. -/
def readText (path : String) : m (Except SystemError String) := do
  match ← read path with
  | .ok bytes =>
    match Trace.decode bytes with
    | some text => return .ok text
    | none => return .error .notText
  | .error e => return .error e

def writeText (path text : String) : m (Except SystemError Unit) := write path text.toUTF8.toList

/-- Makes the first directory of a chain in which each one is inside the next. -/
def makeChain : List String → m (Except SystemError Unit)
  | [] => return .error .noParent
  | path :: parents => do
    if path.isEmpty then return .ok ()
    match ← makeDirectory path with
    | .ok () => return .ok ()
    | .error .notFound =>
      match ← makeChain parents with
      | .error e => return .error e
      | .ok () =>
        match ← makeDirectory path with
        | .ok () => return .ok ()
        | .error e => return if (← kind? path) == some .directory then .ok () else .error e
    | .error e => return if (← kind? path) == some .directory then .ok () else .error e

end Host

end Saturation
