import Saturation.Configuration.Layers
import Saturation.Error
import Saturation.Files.Path
import Saturation.Host
import Saturation.Json.Reader
import Saturation.Json.Writer

/-!
Settings from files: libconfig documents, known by the extension `cfg` in any case of letters, and
files of other formats, each known by its extensions. The extension of these may be left out of the
path. JSON is one of them; what others there are is up to the machine.
-/

set_option autoImplicit false

namespace Saturation.Configuration

open Settings (Group)

def documentExtension : String := "cfg"

/-- Whether a path leads to a libconfig document. -/
def isDocumentPath (path : String) : Bool :=
  match Path.extension? path with
  | some e => e.toList.map Char.toLower == documentExtension.toList
  | none => false

/-- The settings in a text of a format. -/
def ofText (f : SourceFormat) (text : List Char) : Except ConfigurationError Group :=
  match f.read? text with
  | some fields => .ok (sourceFields fields)
  | none => .error .malformed

def jsonFormat : SourceFormat where
  extensions := ["json"]
  read? text :=
    match Json.read? text with
    | some (.obj fields) => some fields
    | _ => none

/-- The settings of a document, through its JSON form. -/
def ofDocument (document : Group) : Except ConfigurationError Group :=
  ofText jsonFormat (Json.compact (.obj document))

/-- Whether a path has one of the extensions of a format. -/
def hasExtension (path : String) (f : SourceFormat) : Bool :=
  (Path.extension? path).any fun e => f.extensions.contains e

variable {m : Type → Type} [Monad m] [Host m]

/-- Whether a path leads to a file. -/
def isFile (path : String) : m Bool := do return (← Host.kind? path) == some .file

/-- The first file that a path leads to with an extension behind it. -/
def findExtended (path : String) : List (String × SourceFormat) → m (Option (String × SourceFormat))
  | [] => return none
  | (e, f) :: rest => do
    match Path.extended path ("." ++ e) with
    | none => findExtended path rest
    | some longer => if ← isFile longer then return some (longer, f) else findExtended path rest

/-- The file that holds the settings of a path, and its format: the path itself, or the path with an
extension. -/
def findSource (path : String) : m (Option (String × SourceFormat)) := do
  let formats ← Host.sourceFormats
  if ← isFile path then
    return (formats.find? (hasExtension path)).map fun f => (path, f)
  findExtended path (formats.flatMap fun f => f.extensions.map fun e => (e, f))

/-- The settings in a file that is not a document. -/
def readSource (path : String) : m (Except ConfigurationError Group) := do
  match ← findSource path with
  | none => return .error .unavailable
  | some (found, f) =>
    match ← Host.readText found with
    | .ok text => return ofText f text.toList
    | .error _ => return .error .unavailable

end Saturation.Configuration
