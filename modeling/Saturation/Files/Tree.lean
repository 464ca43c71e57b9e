import Saturation.Files.Path
import Saturation.Host

/-!
A tree of files, as nodes under their locations, and what paths do to it. A path is followed name
by name from a directory; every name but the last has to lead to a directory. There are no links,
so that each node has one location.
-/

set_option autoImplicit false

namespace Saturation

/-- Where a node is: the names on the way from the root. -/
abbrev Location := List String

inductive Node where
  | file (bytes : Bytes) (executable : Bool)
  | directory
  /-- Takes everything and gives nothing. -/
  | device
  deriving DecidableEq, Repr

def Node.kind : Node → FileKind
  | file _ _ => .file
  | directory => .directory
  | device => .special

/-- The nodes below the root, which is a directory itself. -/
structure FileTree where
  nodes : List (Location × Node)
  deriving DecidableEq, Repr

namespace FileTree

def empty : FileTree := ⟨[]⟩

def find? (l : Location) : List (Location × Node) → Option Node
  | [] => none
  | (at', n) :: rest => if at' = l then some n else find? l rest

/-- The node at a location. -/
def get? (t : FileTree) (l : Location) : Option Node :=
  if l = [] then some .directory else find? l t.nodes

/-- Replaces the node at a location, or adds one. -/
def place (l : Location) (n : Node) : List (Location × Node) → List (Location × Node)
  | [] => [(l, n)]
  | (at', old) :: rest => if at' = l then (l, n) :: rest else (at', old) :: place l n rest

def set (t : FileTree) (l : Location) (n : Node) : FileTree := ⟨place l n t.nodes⟩

/-- Takes away the node at a location. -/
def erase (t : FileTree) (l : Location) : FileTree := ⟨t.nodes.filter fun e => e.1 ≠ l⟩

/-- Takes away everything below a location. -/
def clear (t : FileTree) (l : Location) : FileTree :=
  ⟨t.nodes.filter fun e => !(l.isPrefixOf e.1 && e.1 != l)⟩

theorem find?_place (l k : Location) (n : Node) (ns : List (Location × Node)) :
    find? k (place l n ns) = if k = l then some n else find? k ns := by
  induction ns with
  | nil => simp only [place, find?, eq_comm]
  | cons e ns ih =>
    obtain ⟨m, old⟩ := e
    simp only [place]
    split
    · rename_i h
      subst h
      simp only [find?]
      by_cases hk : k = m <;> simp [hk, eq_comm]
    · rename_i h
      simp only [find?, ih]
      by_cases hm : m = k
      · subst hm
        simp [h]
      · simp [hm]

theorem get?_set {l : Location} (hl : l ≠ []) (t : FileTree) (n : Node) (k : Location) :
    (t.set l n).get? k = if k = l then some n else t.get? k := by
  simp only [get?, set]
  by_cases hk : k = []
  · subst hk
    simp [Ne.symm hl]
  · simp [hk, find?_place]

theorem find?_filter (p : Location → Bool) (k : Location) (ns : List (Location × Node)) :
    find? k (ns.filter fun e => p e.1) = if p k then find? k ns else none := by
  induction ns with
  | nil => simp [find?]
  | cons e ns ih =>
    obtain ⟨m, n⟩ := e
    by_cases hm : m = k
    · subst hm
      by_cases hp : p m <;> simp [List.filter, find?, hp, ih]
    · by_cases hp : p m <;> by_cases hq : p k <;> simp [List.filter, find?, hp, hq, hm, ih]

/-- Names are at most this long, in bytes. -/
def nameLimit : Nat := 255

/-- Paths are shorter than this, in bytes. -/
def pathLimit : Nat := 4096

/-- The location that some names lead to. -/
def follow (t : FileTree) (here : Location) : List String → Except SystemError Location
  | [] => .ok here
  | name :: rest =>
    match t.get? here with
    | none => .error .notFound
    | some .directory =>
      if name = "." then follow t here rest
      else if name = ".." then follow t here.dropLast rest
      else if nameLimit < name.utf8ByteSize then .error .nameTooLong
      else match t.get? (here ++ [name]) with
        | none => .error .notFound
        | some _ => follow t (here ++ [name]) rest
    | some _ => .error .notDirectory

/-- Where a path starts. -/
def origin (home : Location) (path : String) : Location := if Path.isAbsolute path then [] else home

/-- Texts that lead nowhere, whatever there is. -/
def refusal? (path : String) : Option SystemError :=
  if path.toList.contains '\x00' then some .notAPath
  else if path.isEmpty then some .notFound
  else if pathLimit ≤ path.utf8ByteSize then some .nameTooLong
  else none

/-- Whether a path ends with a slash, and so has to lead to a directory. -/
def endsInside (path : String) : Bool := path.toList.getLast? == some '/'

/-- The location of what a path leads to, and the node there. -/
def locate (t : FileTree) (home : Location) (path : String) : Except SystemError (Location × Node) :=
  match refusal? path with
  | some e => .error e
  | none =>
    match t.follow (origin home path) (Path.parts path) with
    | .error e => .error e
    | .ok l =>
      match t.get? l with
      | none => .error .notFound
      | some n => if endsInside path && n.kind != .directory then .error .notDirectory else .ok (l, n)

/-- What the last name of a path stands for in the directory it is looked up in. -/
inductive Target where
  | here (directory : Location)
  | above (directory : Location)
  | entry (location : Location)
  deriving DecidableEq, Repr

/-- The target of a path; there need not be anything at it. -/
def target (t : FileTree) (home : Location) (path : String) : Except SystemError Target :=
  match refusal? path with
  | some e => .error e
  | none =>
    let names := Path.parts path
    match t.follow (origin home path) names.dropLast with
    | .error e => .error e
    | .ok l =>
      match t.get? l, names.getLast? with
      | none, _ => .error .notFound
      | some .directory, none => .ok (.here l)
      | some .directory, some name =>
        if name = "." then .ok (.here l)
        else if name = ".." then .ok (.above l)
        else if nameLimit < name.utf8ByteSize then .error .nameTooLong
        else .ok (.entry (l ++ [name]))
      | some _, _ => .error .notDirectory

def read (t : FileTree) (home : Location) (path : String) : Except SystemError Bytes :=
  match t.locate home path with
  | .error e => .error e
  | .ok (_, .file bytes _) => .ok bytes
  | .ok (_, .directory) => .error .isDirectory
  | .ok (_, .device) => .ok []

/-- Puts a file where a path leads, with the contents and the permission that it gives for the
file in its place; nothing can be put on a directory. -/
def put (t : FileTree) (home : Location) (path : String) (make : Option Bool → Bytes × Bool) :
    Except SystemError FileTree :=
  match t.target home path with
  | .error e => .error e
  | .ok (.here _) | .ok (.above _) => .error .isDirectory
  | .ok (.entry l) =>
    if endsInside path then .error .isDirectory
    else
      match t.get? l with
      | some .directory => .error .isDirectory
      | some .device => .ok t
      | some (.file _ executable) =>
        let made := make (some executable)
        .ok (t.set l (.file made.1 made.2))
      | none =>
        let made := make none
        .ok (t.set l (.file made.1 made.2))

def write (t : FileTree) (home : Location) (path : String) (bytes : Bytes) :
    Except SystemError FileTree :=
  t.put home path fun old => (bytes, old.getD false)

/-- Whether a path stands for a location. -/
def isAt (t : FileTree) (home : Location) (path : String) (l : Location) : Bool :=
  match t.target home path with
  | .ok (.entry k) => k == l
  | _ => false

/-- A file copied onto itself loses its contents. -/
def copy (t : FileTree) (home : Location) (path copied : String) : Except SystemError FileTree :=
  match t.locate home path with
  | .error e => .error e
  | .ok (l, .file bytes executable) =>
    t.put home copied fun _ => (if t.isAt home copied l then [] else bytes, executable)
  | .ok _ => .error .notRegular

def makeDirectory (t : FileTree) (home : Location) (path : String) : Except SystemError FileTree :=
  match t.target home path with
  | .error e => .error e
  | .ok (.here _) | .ok (.above _) => .error .exists
  | .ok (.entry l) =>
    match t.get? l with
    | some _ => .error .exists
    | none => .ok (t.set l .directory)

def removeFile (t : FileTree) (home : Location) (path : String) : Except SystemError FileTree :=
  match t.target home path with
  | .error e => .error e
  | .ok (.here _) | .ok (.above _) => .error .isDirectory
  | .ok (.entry l) =>
    match t.get? l with
    | none => .error .notFound
    | some .directory => .error .isDirectory
    | some _ => if endsInside path then .error .notDirectory else .ok (t.erase l)

/-- Removes an empty directory. -/
def removeEmpty (t : FileTree) (home : Location) (path : String) : Except SystemError FileTree :=
  match t.target home path with
  | .error e => .error e
  | .ok (.here _) => .error .invalidArgument
  | .ok (.above _) => .error .notEmpty
  | .ok (.entry l) =>
    match t.get? l with
    | none => .error .notFound
    | some .directory => .ok (t.erase l)
    | some _ => .error .notDirectory

/-- Removes a directory with everything below it: first what is below it, then the directory, by
its path again. That the path leads nowhere by then is no fault. -/
def removeTree (t : FileTree) (home : Location) (path : String) : FileTree × Except SystemError Unit :=
  match t.locate home path with
  | .error e => (t, .error e)
  | .ok (l, .directory) =>
    let cleared := t.clear l
    match cleared.removeEmpty home path with
    | .ok t => (t, .ok ())
    | .error .notFound => (cleared, .ok ())
    | .error e => (cleared, .error e)
  | .ok _ => (t, .error .notDirectory)

def markExecutable (t : FileTree) (home : Location) (path : String) : Except SystemError FileTree :=
  match t.locate home path with
  | .error e => .error e
  | .ok (l, .file bytes _) => .ok (t.set l (.file bytes true))
  | .ok _ => .ok t

end FileTree

end Saturation
