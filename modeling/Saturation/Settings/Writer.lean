import Saturation.Decimal.Layout
import Saturation.Settings.Reader

/-!
Writing libconfig documents: one setting a line, a group's settings indented by four blanks,
scalars of one kind in brackets and any other sequence in parentheses.

Three things cannot be written: a name the reader would not take, a null, and an integer outside
the signed 64-bit range. The first one in the order of the text is reported, with its path.
-/

set_option autoImplicit false

namespace Saturation.Settings

/-- A step from a value into one of its parts. -/
inductive Step where
  | field (name : String)
  | item (index : Nat)
  deriving DecidableEq, Repr

/-- Names joined by points, and the index of an item in brackets behind its sequence. -/
def Step.pathText (path : List Step) : String :=
  path.foldl (fun text step => match step with
    | .field name => if text.isEmpty then name else text ++ "." ++ name
    | .item i => s!"{text}[{i}]") ""

/-- What a document cannot hold. -/
inductive Unwritable where
  | settingName
  | null
  | wideInteger
  deriving DecidableEq, Repr

def Unwritable.text : Unwritable → String
  | .settingName => "setting name"
  | .null => "null"
  | .wideInteger => "integer above the 64-bit signed range"

/-- Why a value cannot be written, and the place of its first fault. -/
structure WriteError where
  path : List Step
  kind : Unwritable
  deriving DecidableEq, Repr

def WriteError.pathText (e : WriteError) : String := Step.pathText e.path

def WriteError.message (e : WriteError) : String :=
  s!"Cannot write {e.kind.text} at '{e.pathText}' as libconfig"

namespace Writer

/-- Floats in documents: positional from 0.0001 on and below 1e16, and always with a point or an
exponent, so that they stay floats. -/
def floatLayout : Decimal.Layout :=
  { positionalFrom := -4, positionalBelow := 16, plusSign := false, tie := .up }

inductive ScalarKind where
  | bool
  | integer
  | float
  | str
  deriving DecidableEq, Repr

def scalarKind? : Value → Option ScalarKind
  | .bool _ => some .bool
  | .int _ => some .integer
  | .float _ => some .float
  | .str _ => some .str
  | _ => none

/-- Whether a sequence is an array: all items are scalars of the kind of the first. -/
def isArray : List Value → Bool
  | [] => true
  | v :: vs => (scalarKind? v).isSome && vs.all fun w => scalarKind? w == scalarKind? v

/-- Integers outside the 32-bit range have a suffix. -/
def integer (n : Int) : List Char :=
  let digits := (toString n).toList
  if -0x80000000 ≤ n ∧ n < 0x80000000 then digits else digits ++ ['L']

def hexDigit (n : Nat) : Char := Nat.digitChar n

def escaped (c : Char) : List Char :=
  match c with
  | '\\' => ['\\', '\\']
  | '"' => ['\\', '"']
  | '\n' => ['\\', 'n']
  | '\r' => ['\\', 'r']
  | '\t' => ['\\', 't']
  | '\x0c' => ['\\', 'f']
  | c =>
    if c.toNat < 0x20 then ['\\', 'x', hexDigit (c.toNat / 16), hexDigit (c.toNat % 16)] else [c]

def quoted (s : String) : List Char := '"' :: s.toList.flatMap escaped ++ ['"']

def indent (depth : Nat) : List Char := List.replicate (4 * depth) ' '

mutual

/-- The text of a value inside a group of the given depth, at the given path. -/
def value (depth : Nat) (path : List Step) : Value → Except WriteError (List Char)
  | .null => .error ⟨path, .null⟩
  | .bool b => .ok (if b then ['t', 'r', 'u', 'e'] else ['f', 'a', 'l', 's', 'e'])
  | .int n => if Decimal.inInt64 n then .ok (integer n) else .error ⟨path, .wideInteger⟩
  | .float x => .ok (floatLayout.ofFloat x)
  | .str s => .ok (quoted s)
  | .arr [] => .ok ['[', ' ', ']']
  | .arr (v :: vs) =>
    match items depth path 0 (v :: vs) with
    | .ok text =>
      .ok (if isArray (v :: vs) then '[' :: ' ' :: text ++ [' ', ']'] else '(' :: ' ' :: text ++ [' ', ')'])
    | .error e => .error e
  | .obj fields =>
    match settings (depth + 1) path fields with
    | .ok text => .ok ('\x7b' :: '\n' :: text ++ indent depth ++ ['\x7d'])
    | .error e => .error e

/-- Items with commas between them; the first has the index `i`. -/
def items (depth : Nat) (path : List Step) (i : Nat) : List Value → Except WriteError (List Char)
  | [] => .ok []
  | v :: vs =>
    match value depth (path ++ [.item i]) v with
    | .error e => .error e
    | .ok text =>
      match items depth path (i + 1) vs with
      | .error e => .error e
      | .ok more => .ok (if vs.isEmpty then text else text ++ ',' :: ' ' :: more)

/-- The lines of a group's settings. -/
def settings (depth : Nat) (path : List Step) :
    List (String × Value) → Except WriteError (List Char)
  | [] => .ok []
  | (name, v) :: rest =>
    if Reader.isName name.toList then
      match value depth (path ++ [.field name]) v with
      | .error e => .error e
      | .ok text =>
        match settings depth path rest with
        | .error e => .error e
        | .ok more => .ok (indent depth ++ name.toList ++ [' ', '=', ' '] ++ text ++ ';' :: '\n' :: more)
    else .error ⟨path ++ [.field name], .settingName⟩

end

end Writer

/-- The document with the given top-level settings. -/
def write (g : Group) : Except WriteError (List Char) := Writer.settings 0 [] g

end Saturation.Settings
