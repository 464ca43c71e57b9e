import Saturation.Program.Run
import Std.Time.DateTime.Timestamp

/-!
The program on a real machine. Files, the environment, the clock and the two output streams are
those of the process. Other programs are not launched from here: the trace of a simulator has to be
there already. Settings are read from documents and from JSON.
-/

set_option autoImplicit false

namespace Saturation

/-- A step of the program; log lines are written in the given format. -/
abbrev Shell := ReaderT Program.LogFormat IO

namespace Shell

/-- The number of an error; some functions of the system give it below zero. -/
def number (code : UInt32) : Nat := if code.toNat < 0x80000000 then code.toNat else 0x100000000 - code.toNat

def refusal (e : IO.Error) : SystemError :=
  match e with
  | .alreadyExists _ code text | .inappropriateType _ code text | .invalidArgument _ code text
  | .noFileOrDirectory _ code text | .noSuchThing _ code text | .permissionDenied _ code text
  | .resourceExhausted _ code text | .interrupted _ code text | .hardwareFault code text
  | .illegalOperation code text | .otherError code text | .protocolError code text
  | .resourceBusy code text | .resourceVanished code text | .timeExpired code text
  | .unsatisfiedConstraints code text | .unsupportedOperation code text =>
    .ofCode (number code) text
  | e => .other 0 (toString e)

/-- A step that the system may refuse. -/
def attempt {β : Type} (step : IO β) : Shell (Except SystemError β) := fun _ => do
  match ← step.toBaseIO with
  | .ok x => return .ok x
  | .error e => return .error (refusal e)

def kind (path : String) : IO (Option FileKind) := do
  if path.isEmpty then return none
  try
    let found ← (← IO.FS.realPath path).metadata
    match found.type with
    | .file => return some .file
    | .dir => return some .directory
    | _ => return some .special
  catch _ => return none

def copy (path copied : String) : Shell (Except SystemError Unit) := do
  if (← kind path) != some .file then
    match ← attempt (IO.FS.readBinFile path) with
    | .error e => if e != .isDirectory then return .error e
    | .ok _ => pure ()
    return .error .notRegular
  attempt do IO.FS.writeBinFile copied (← IO.FS.readBinFile path)

/-- The variables of the process; those that are no text are left out. -/
def environment : IO (List (String × String)) := do
  try
    let bytes ← IO.FS.readBinFile "/proc/self/environ"
    return (bytes.toList.splitOn 0).filterMap fun entry => do
      let text ← Trace.decode entry
      let name := text.toList.takeWhile (· ≠ '=')
      guard (name.length < text.length)
      return (String.ofList name, String.ofList (text.toList.drop (name.length + 1)))
  catch _ => return []

def now : IO Int := do return (← Std.Time.Timestamp.now).toSecondsSinceUnixEpoch.val

def datum : Event.Datum → Settings.Value
  | .text s => .str s
  | .number x => .float x

def levelName : Event.Level → String
  | .info => "INFO"
  | .warn => "WARN"

/-- The line of an event in a log. -/
def line (format : Program.LogFormat) (time : Int) (e : Event) : String :=
  match format with
  | .json =>
    String.ofList (Json.compact (.obj [("timestamp", .str (Text.timestamp time)),
      ("level", .str (levelName e.level)),
      ("fields", .obj (("message", .str e.message) :: e.fields.map fun f => (f.1, datum f.2)))]))
  | .text =>
    let fields := e.fields.map fun f => " " ++ f.1 ++ "=" ++ String.ofList (Json.compact (datum f.2))
    Text.timestamp time ++ " " ++ levelName e.level ++ " " ++ e.message ++ String.join fields

end Shell

instance : Host Shell where
  kind? path := fun _ => Shell.kind path
  read path := Shell.attempt do return (← IO.FS.readBinFile path).toList
  write path bytes := Shell.attempt (IO.FS.writeBinFile path ⟨bytes.toArray⟩)
  makeDirectory path := Shell.attempt (IO.FS.createDir path)
  removeFile path := Shell.attempt (IO.FS.removeFile path)
  removeTree path := Shell.attempt (IO.FS.removeDirAll path)
  copy := Shell.copy
  markExecutable path := Shell.attempt
    (IO.setAccessRights path ⟨⟨true, true, true⟩, ⟨true, false, true⟩, ⟨true, false, true⟩⟩)
  launch _ _ := return .error .notSupported
  environment := fun _ => Shell.environment
  -- Further formats come with their readers, which are not part of this library.
  sourceFormats := return [Configuration.jsonFormat]
  now := fun _ => Shell.now
  print text := fun _ => IO.print text
  log event := fun format => do IO.eprintln (Shell.line format (← Shell.now) event)

end Saturation

open Saturation in
def main (arguments : List String) : IO UInt32 := do
  let requested := Program.Invocation.read arguments
  let format := match requested with
    | .ok i => i.logFormat
    | .error _ => .text
  let colour := (← IO.getEnv "NO_COLOR").isNone && (← (← IO.getStdout).isTty)
  let ending ← (Program.run (m := Shell) colour requested).run format
  match ending.complaint with
  | some text => IO.eprint text
  | none => pure ()
  return ending.status.toUInt32
