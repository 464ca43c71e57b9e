import Saturation.Files.Tree

/-!
A model of a machine: a tree of files, a working directory, the programs that can be launched, and
what has been printed and logged so far.
-/

set_option autoImplicit false

namespace Saturation

/-- What a program does to the files, given its arguments, and its exit status. -/
abbrev Program := List String → FileTree → FileTree × UInt8

structure Machine where
  tree : FileTree
  /-- The working directory. -/
  home : Location
  /-- The programs, at the locations of their files. -/
  programs : List (Location × Program)
  /-- The directories in which a program is looked for by its name. -/
  searched : List String
  environment : List (String × String)
  formats : List SourceFormat
  /-- Seconds since the beginning of 1970. -/
  time : Int
  printed : String
  logged : List Event

namespace Machine

/-- A change of the files, or the refusal of it. -/
def change (f : FileTree → Location → Except SystemError FileTree) :
    StateM Machine (Except SystemError Unit) := fun w =>
  match f w.tree w.home with
  | .ok t => (.ok (), { w with tree := t })
  | .error e => (.error e, w)

def program? (l : Location) : List (Location × Program) → Option Program
  | [] => none
  | (at', p) :: rest => if at' = l then some p else program? l rest

/-- Runs the program in the file that a path leads to. -/
def start (path : String) (arguments : List String) (w : Machine) : Except SystemError UInt8 × Machine :=
  match w.tree.locate w.home path with
  | .error e => (.error e, w)
  | .ok (l, .file _ true) =>
    match program? l w.programs with
    | some p =>
      let (t, status) := p arguments w.tree
      (.ok status, { w with tree := t })
    | none => (.error .noExecution, w)
  | .ok _ => (.error .permissionDenied, w)

/-- Tries a name in some directories in turn. Where nothing is found, or nothing that may be run,
the next one is tried; in the end it matters whether anything was found. -/
def search (name : String) (arguments : List String) (w : Machine) (refusal : SystemError) :
    List String → Except SystemError UInt8 × Machine
  | [] => (.error refusal, w)
  | directory :: rest =>
    match start (Path.join directory name) arguments w with
    | (.error .notFound, _) | (.error .notDirectory, _) => search name arguments w refusal rest
    | (.error .permissionDenied, _) => search name arguments w .permissionDenied rest
    | started => started

/-- A path with a slash leads to its file; a name without one is looked for. -/
def launch (path : String) (arguments : List String) (w : Machine) :
    Except SystemError UInt8 × Machine :=
  if (path :: arguments).any fun text => text.toList.contains '\x00' then (.error .notACommand, w)
  else if path.toList.contains '/' then start path arguments w
  else if path.isEmpty then (.error .notFound, w)
  else search path arguments w .notFound w.searched

instance : Host (StateM Machine) where
  kind? path := fun w =>
    (match w.tree.locate w.home path with
      | .ok (_, n) => some n.kind
      | .error _ => none, w)
  read path := fun w => (w.tree.read w.home path, w)
  write path bytes := change fun t home => t.write home path bytes
  makeDirectory path := change fun t home => t.makeDirectory home path
  removeFile path := change fun t home => t.removeFile home path
  removeTree path := fun w =>
    let (t, outcome) := w.tree.removeTree w.home path
    (outcome, { w with tree := t })
  copy path copied := change fun t home => t.copy home path copied
  markExecutable path := change fun t home => t.markExecutable home path
  launch path arguments := launch path arguments
  environment := fun w => (w.environment, w)
  sourceFormats := fun w => (w.formats, w)
  now := fun w => (w.time, w)
  print text := fun w => ((), { w with printed := w.printed ++ text })
  log event := fun w => ((), { w with logged := w.logged ++ [event] })

end Machine

end Saturation
