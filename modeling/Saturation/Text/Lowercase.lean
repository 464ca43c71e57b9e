import Saturation.Text.CaseData

/-!
Lower case of a text, character by character. Two characters are special: the dotted capital I
becomes two characters, and the capital sigma has another form at the end of a word.
-/

set_option autoImplicit false

namespace Saturation.Text

def CaseRange.contains (r : CaseRange) (n : Nat) : Bool :=
  decide (r.first ≤ n ∧ n ≤ r.last ∧ (n - r.first) % r.step = 0)

/-- The lower-case form of a character, where it does not depend on its neighbours. -/
def lowerChar (c : Char) : List Char :=
  if c.toNat < 0x80 then [c.toLower]
  else if c.toNat = 0x130 then ['i', '\u0307']
  else match caseRanges.find? fun r => r.contains c.toNat with
    | some r => [Char.ofNat (c.toNat + r.offset).toNat]
    | none => [c]

def inRanges (ranges : List (Nat × Nat)) (c : Char) : Bool :=
  ranges.any fun r => decide (r.1 ≤ c.toNat ∧ c.toNat ≤ r.2)

def isCased (c : Char) : Bool := c.isAlpha || inRanges casedRanges c

/-- Of ASCII, these are `'`, `.`, `:`, `^` and the grave accent. -/
def isIgnorable (c : Char) : Bool :=
  [0x27, 0x2E, 0x3A, 0x5E, 0x60].contains c.toNat || inRanges ignorableRanges c

/-- Whether a letter comes first, past what is ignorable. -/
def nextIsCased (cs : List Char) : Bool := ((cs.dropWhile isIgnorable).head?.map isCased).getD false

/-- The lower case of `cs` behind the characters of `before`, the last one first. -/
def lowerFrom (before : List Char) : List Char → List Char
  | [] => []
  | c :: cs =>
    let here :=
      if c = 'Σ' then (if nextIsCased before && !nextIsCased cs then ['ς'] else ['σ'])
      else lowerChar c
    here ++ lowerFrom (c :: before) cs

def lower (s : String) : String := String.ofList (lowerFrom [] s.toList)

end Saturation.Text
