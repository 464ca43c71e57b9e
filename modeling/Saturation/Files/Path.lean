/-!
Paths as texts: their names, and the paths made from them. Empty names and the name `.` lead
nowhere, so that `a//b/.` has the names `a` and `b`.
-/

set_option autoImplicit false

namespace Saturation.Path

def isAbsolute (path : String) : Bool := path.toList.head? == some '/'

/-- All parts of a path between its slashes, but not the empty ones. -/
def parts (path : String) : List String :=
  ((path.toList.splitOn '/').filter (· ≠ [])).map String.ofList

def names (path : String) : List String := (parts path).filter (· ≠ ".")

/-- The last name, unless it leads upwards. -/
def fileName? (path : String) : Option String := (names path).getLast?.filter (· ≠ "..")

/-- A name in front of its last point and behind it. A point in front of everything does not count. -/
def splitName (name : List Char) : List Char × Option (List Char) :=
  let extension := name.reverse.takeWhile (· ≠ '.')
  let stem := name.reverse.drop (extension.length + 1)
  if stem = [] then (name, none) else (stem.reverse, some extension.reverse)

def extension? (path : String) : Option String :=
  (fileName? path).bind fun name => (splitName name.toList).2.map String.ofList

/-- The path with the given one below it; an absolute one takes its place. -/
def join (path below : String) : String :=
  if isAbsolute below || path.isEmpty then below
  else if path.toList.getLast? = some '/' then path ++ below
  else path ++ "/" ++ below

/-- A path backwards, from the last character of its last name on. -/
def fromLastName : List Char → List Char
  | '/' :: rest => fromLastName rest
  | '.' :: '/' :: rest => fromLastName rest
  | cs => cs

/-- The path with something written behind its last name, which has to be there. -/
def extended (path suffix : String) : Option String :=
  (fileName? path).map fun _ => String.ofList (fromLastName path.toList.reverse).reverse ++ suffix

/-- The path without its last name, then without the last two, and so on. -/
def ancestors (path : String) : List String :=
  let kept := match parts path with
    | "." :: rest => if isAbsolute path then names path else "." :: rest.filter (· ≠ ".")
    | _ => names path
  let lead := if isAbsolute path then "/" else ""
  (List.range kept.length).reverse.map fun n => lead ++ "/".intercalate (kept.take n)

end Saturation.Path
