import Saturation.Decimal.Layout
import Saturation.Settings.Value

/-!
Writing JSON: on one line without blanks, or with a line for each item and two blanks for each
level. The fields of an object come in the order in which they are given.
-/

set_option autoImplicit false

namespace Saturation.Json

open Settings (Value)

/-- Floats are positional from 0.00001 on and below 1e16. -/
def floatLayout : Decimal.Layout :=
  { positionalFrom := -5, positionalBelow := 16, plusSign := true, tie := .toEven }

/-- What is not finite has no number in JSON. -/
def float (x : Float) : List Char :=
  if x.isFinite then floatLayout.ofFloat x else ['n', 'u', 'l', 'l']

def escaped (c : Char) : List Char :=
  match c with
  | '"' => ['\\', '"']
  | '\\' => ['\\', '\\']
  | '\x08' => ['\\', 'b']
  | '\x0c' => ['\\', 'f']
  | '\n' => ['\\', 'n']
  | '\r' => ['\\', 'r']
  | '\t' => ['\\', 't']
  | c =>
    if c.toNat < 0x20 then
      ['\\', 'u', '0', '0', Nat.digitChar (c.toNat / 16), Nat.digitChar (c.toNat % 16)]
    else [c]

def quoted (s : String) : List Char := '"' :: s.toList.flatMap escaped ++ ['"']

/-- The text of a value without parts. -/
def atom : Value → List Char
  | .bool b => if b then ['t', 'r', 'u', 'e'] else ['f', 'a', 'l', 's', 'e']
  | .int n => (toString n).toList
  | .float x => float x
  | .str s => quoted s
  | _ => ['n', 'u', 'l', 'l']

mutual

/-- A value on one line. -/
def compact : Value → List Char
  | .arr vs => '[' :: compactItems vs ++ [']']
  | .obj fields => '\x7b' :: compactFields fields ++ ['\x7d']
  | v => atom v

def compactItems : List Value → List Char
  | [] => []
  | v :: vs => compact v ++ if vs.isEmpty then [] else ',' :: compactItems vs

def compactFields : List (String × Value) → List Char
  | [] => []
  | (name, v) :: rest =>
    quoted name ++ ':' :: compact v ++ if rest.isEmpty then [] else ',' :: compactFields rest

end

/-- A new line at a level. -/
def newline (level : Nat) : List Char := '\n' :: List.replicate (2 * level) ' '

mutual

/-- A value at a level, over several lines if it has parts. -/
def pretty (level : Nat) : Value → List Char
  | .arr [] => ['[', ']']
  | .arr (v :: vs) => '[' :: prettyItems (level + 1) (v :: vs) ++ newline level ++ [']']
  | .obj [] => ['\x7b', '\x7d']
  | .obj (f :: fs) => '\x7b' :: prettyFields (level + 1) (f :: fs) ++ newline level ++ ['\x7d']
  | v => atom v

def prettyItems (level : Nat) : List Value → List Char
  | [] => []
  | v :: vs =>
    newline level ++ pretty level v ++ if vs.isEmpty then [] else ',' :: prettyItems level vs

def prettyFields (level : Nat) : List (String × Value) → List Char
  | [] => []
  | (name, v) :: rest =>
    newline level ++ quoted name ++ ':' :: ' ' :: pretty level v ++
      if rest.isEmpty then [] else ',' :: prettyFields level rest

end

end Saturation.Json
