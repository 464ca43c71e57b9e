import Saturation.Decimal.Literal
import Saturation.Settings.Value

/-!
Reading libconfig documents.

A piece of a document is read from the front of a text, which leaves the rest of it. Where the
reading stops short, the rest at that point tells the line of the error: the number of line feeds
in front of it. A setting whose name has been read must be completed; what cannot begin a setting,
or an item of a sequence, merely ends the group or the sequence.
-/

set_option autoImplicit false

namespace Saturation.Settings

/-- The outcome of reading a piece. `missed`: there is none, and another form may be tried;
`broken`: the document is at fault there. -/
inductive Reading (α : Type) where
  | found (value : α) (rest : List Char)
  | missed (rest : List Char)
  | broken (rest : List Char)
  deriving Repr

namespace Reader

/-- Blank characters between the tokens of a document. -/
def isLayout (c : Char) : Bool := c == ' ' || c == '\t' || c == '\r' || c == '\n'

/-- The rest from the end of the line on. A carriage return ends a line only before a line feed. -/
def lineEnd? : List Char → Option (List Char)
  | [] => some []
  | '\n' :: cs => some ('\n' :: cs)
  | '\r' :: '\n' :: cs => some ('\r' :: '\n' :: cs)
  | '\r' :: _ => none
  | _ :: cs => lineEnd? cs

/-- The rest behind the next end of a block comment. -/
def blockEnd? : List Char → Option (List Char)
  | '*' :: '/' :: cs => some cs
  | _ :: cs => blockEnd? cs
  | [] => none

/-- The rest behind a comment: to the end of the line after `#` or `//`, or a block. -/
def comment? : List Char → Option (List Char)
  | '#' :: cs => lineEnd? cs
  | '/' :: '/' :: cs => lineEnd? cs
  | '/' :: '*' :: cs => blockEnd? cs
  | _ => none

theorem lineEnd?_length {s r : List Char} (h : lineEnd? s = some r) : r.length ≤ s.length := by
  fun_induction lineEnd? s with
  | case1 => simp_all
  | case2 => simp_all
  | case3 => simp_all
  | case4 => simp at h
  | case5 _ _ _ _ _ ih => have := ih h; simp only [List.length_cons]; omega

theorem blockEnd?_length {s r : List Char} (h : blockEnd? s = some r) : r.length ≤ s.length := by
  fun_induction blockEnd? s with
  | case1 => simp_all; omega
  | case2 _ _ _ ih => have := ih h; simp only [List.length_cons]; omega
  | case3 => simp at h

theorem comment?_length {s r : List Char} (h : comment? s = some r) : r.length < s.length := by
  fun_cases comment? s with
  | case1 cs => have := lineEnd?_length h; simp only [List.length_cons]; omega
  | case2 cs => have := lineEnd?_length h; simp only [List.length_cons]; omega
  | case3 cs => have := blockEnd?_length h; simp only [List.length_cons]; omega
  | case4 => simp_all [comment?]

/-- The rest behind layout: blank characters and comments. -/
def skip (s : List Char) : List Char :=
  match s with
  | [] => []
  | c :: cs =>
    if isLayout c then skip cs
    else match _h : comment? (c :: cs) with
      | some rest => skip rest
      | none => c :: cs
termination_by s.length
decreasing_by
  · simp
  · exact comment?_length _h

theorem skip_length (s : List Char) : (skip s).length ≤ s.length := by
  fun_induction skip s with
  | case1 => simp
  | case2 c cs _ ih => simp only [List.length_cons]; omega
  | case3 c cs _ rest h ih => have := comment?_length h; omega
  | case4 => simp

def isNameStart (c : Char) : Bool := c.isAlpha || c == '*'

def isNameChar (c : Char) : Bool := c.isAlphanum || c == '_' || c == '-' || c == '*'

/-- Whether a text can name a setting. -/
def isName : List Char → Bool
  | c :: cs => isNameStart c && cs.all isNameChar
  | [] => false

/-- The longest name in front. -/
def name? : List Char → Option (List Char × List Char)
  | c :: cs => if isNameStart c then some (c :: cs.takeWhile isNameChar, cs.dropWhile isNameChar) else none
  | [] => none

/-- The rest behind a word that is in front in any case of letters; the word is in lower case. -/
def word? : List Char → List Char → Option (List Char)
  | [], s => some s
  | w :: ws, c :: cs => if c.toLower = w then word? ws cs else none
  | _ :: _, [] => none

def boolean? (s : List Char) : Option (Bool × List Char) :=
  match word? ['t', 'r', 'u', 'e'] s with
  | some rest => some (true, rest)
  | none => (word? ['f', 'a', 'l', 's', 'e'] s).map (false, ·)

def isHexDigit (c : Char) : Bool :=
  c.isDigit || ('a' ≤ c && c ≤ 'f') || ('A' ≤ c && c ≤ 'F')

def hexValue (c : Char) : Nat :=
  if c.isDigit then c.toNat - '0'.toNat else c.toLower.toNat - 'a'.toNat + 10

/-- The character a letter stands for behind a backslash. -/
def escape? : Char → Option Char
  | '\\' => some '\\'
  | '"' => some '"'
  | 'n' => some '\n'
  | 'r' => some '\r'
  | 't' => some '\t'
  | 'f' => some '\x0c'
  | _ => none

/-- The characters of a string literal behind its opening quote, up to the closing quote or to a
backslash with no meaning. -/
def fragments : List Char → List Char × List Char
  | [] => ([], [])
  | '"' :: cs => ([], '"' :: cs)
  | '\\' :: 'x' :: a :: b :: cs =>
    if isHexDigit a && isHexDigit b then
      let (text, rest) := fragments cs
      (Char.ofNat (16 * hexValue a + hexValue b) :: text, rest)
    else ([], '\\' :: 'x' :: a :: b :: cs)
  | '\\' :: c :: cs =>
    match escape? c with
    | some d =>
      let (text, rest) := fragments cs
      (d :: text, rest)
    | none => ([], '\\' :: c :: cs)
  | '\\' :: [] => ([], ['\\'])
  | c :: cs =>
    let (text, rest) := fragments cs
    (c :: text, rest)

theorem fragments_length (s : List Char) : (fragments s).2.length ≤ s.length := by
  fun_induction fragments s <;> simp_all <;> omega

/-- One string literal. -/
def quoted? : List Char → Option (List Char × List Char)
  | '"' :: cs =>
    match fragments cs with
    | (text, '"' :: rest) => some (text, rest)
    | _ => none
  | _ => none

theorem quoted?_length {s t r : List Char} (h : quoted? s = some (t, r)) : r.length < s.length := by
  fun_cases quoted? s with
  | case1 cs text rest hf =>
    simp only [quoted?, hf, Option.some.injEq, Prod.mk.injEq] at h
    have := fragments_length cs
    rw [hf] at this
    rw [← h.2]
    simp only [List.length_cons] at this ⊢
    omega
  | case2 => simp_all [quoted?]
  | case3 => simp_all [quoted?]

/-- String literals that follow each other make one string. -/
def moreQuoted (s : List Char) : List Char × List Char :=
  match _h : quoted? (skip s) with
  | some (text, rest) =>
    let (more, rest) := moreQuoted rest
    (text ++ more, rest)
  | none => ([], s)
termination_by s.length
decreasing_by
  have := quoted?_length _h
  have := skip_length s
  omega

def string? (s : List Char) : Option (List Char × List Char) :=
  match quoted? s with
  | some (text, rest) =>
    let (more, rest) := moreQuoted rest
    some (text ++ more, rest)
  | none => none

/-- The longest run of digits in front, if there is one. -/
def digits? (s : List Char) : Option (List Char × List Char) :=
  match s.span Char.isDigit with
  | ([], _) => none
  | (ds, rest) => some (ds, rest)

/-- The digits of a float around its point and its exponent: with a point, an exponent may follow;
without one, it must. -/
def floatParts? (s : List Char) : Option (Nat × Int × List Char) :=
  match digits? s with
  | some (whole, '.' :: rest) =>
    let (fraction, rest) := rest.span Char.isDigit
    let (e, rest) := Decimal.optionalExponent rest
    some (Decimal.digitsValue (whole ++ fraction), e - fraction.length, rest)
  | some (whole, rest) => (Decimal.exponent? rest).map fun (e, rest) => (Decimal.digitsValue whole, e, rest)
  | none =>
    match s with
    | '.' :: rest =>
      match digits? rest with
      | some (fraction, rest) =>
        let (e, rest) := Decimal.optionalExponent rest
        some (Decimal.digitsValue fraction, e - fraction.length, rest)
      | none => none
    | _ => none

/-- A float; one that rounds to infinity is not read. -/
def float? (s : List Char) : Option (Float × List Char) :=
  let (negative, body) := Decimal.signed s
  match floatParts? body with
  | some (m, e, rest) =>
    let x := Decimal.scaled negative m e
    if x.isFinite then some (x, rest) else none
  | none => none

/-- The rest behind the suffix of a wide integer. -/
def dropSuffix (s : List Char) : List Char :=
  ((word? ['l', 'l'] s).orElse fun _ => word? ['l'] s).getD s

/-- An integer behind `0x`, within the signed 64-bit range. -/
def hex? (s : List Char) : Option (Int × List Char) :=
  match word? ['0', 'x'] s with
  | some body =>
    let ds := body.takeWhile isHexDigit
    let n := ds.foldl (fun n c => 16 * n + hexValue c) 0
    if ds ≠ [] ∧ Decimal.inInt64 n then some (n, dropSuffix (body.dropWhile isHexDigit)) else none
  | none => none

/-- A decimal integer within the signed 64-bit range. -/
def integer? (s : List Char) : Option (Int × List Char) :=
  let (negative, body) := Decimal.signed s
  match digits? body with
  | some (ds, rest) =>
    let n : Int := if negative then -(Decimal.digitsValue ds : Int) else Decimal.digitsValue ds
    if Decimal.inInt64 n then some (n, dropSuffix rest) else none
  | none => none

/-- A scalar. The forms are tried in this order, since a later one may read the front of an
earlier one. -/
def scalar? (s : List Char) : Option (Value × List Char) :=
  match boolean? s with
  | some (b, rest) => some (.bool b, rest)
  | none => match string? s with
    | some (text, rest) => some (.str (String.ofList text), rest)
    | none => match float? s with
      | some (x, rest) => some (.float x, rest)
      | none => match hex? s with
        | some (n, rest) => some (.int n, rest)
        | none => match integer? s with
          | some (n, rest) => some (.int n, rest)
          | none => none

/-- The items of an array behind its first one, at most `n`. A comma with no item behind it is
left. -/
def moreScalars : Nat → List Char → List Value × List Char
  | 0, s => ([], s)
  | n + 1, s =>
    match skip s with
    | ',' :: cs =>
      match scalar? (skip cs) with
      | some (v, rest) =>
        let (more, rest) := moreScalars n rest
        (v :: more, rest)
      | none => ([], s)
    | _ => ([], s)

/-- The items of an array, at most `n + 1`. -/
def scalars (n : Nat) (s : List Char) : List Value × List Char :=
  match scalar? (skip s) with
  | some (v, rest) =>
    let (more, rest) := moreScalars n rest
    (v :: more, rest)
  | none => ([], s)

/-- The rest behind the terminator of a setting, which may be absent. -/
def terminated (s : List Char) : List Char :=
  match skip s with
  | ';' :: rest => rest
  | ',' :: rest => rest
  | _ => s

/-! Values and settings are read in at most `n` steps that go inwards or onwards. Each step but one
in two takes a character, so twice the length of the text and two more are enough. -/

mutual

/-- A value, behind its layout. -/
def value (n : Nat) (s : List Char) : Reading Value :=
  match n, s with
  | 0, s => .missed s
  | n + 1, '\x7b' :: cs =>
    match settings n cs [] with
    | .found fields rest =>
      match skip rest with
      | '\x7d' :: rest => .found (.obj fields) rest
      | _ => .missed s
    | .missed _ => .missed s
    | .broken at' => .broken at'
  | n + 1, '[' :: cs =>
    let (items, rest) := scalars n cs
    match skip rest with
    | ']' :: rest => .found (.arr items) rest
    | _ => .missed s
  | n + 1, '(' :: cs =>
    match items n cs with
    | .found items rest =>
      match skip rest with
      | ')' :: rest => .found (.arr items) rest
      | _ => .missed s
    | .missed _ => .missed s
    | .broken at' => .broken at'
  | _ + 1, s =>
    match scalar? s with
    | some (v, rest) => .found v rest
    | none => .missed s

/-- The items of a list: values with commas between them. -/
def items (n : Nat) (s : List Char) : Reading (List Value) :=
  match n with
  | 0 => .missed s
  | n + 1 =>
    match value n (skip s) with
    | .found v rest =>
      match moreItems n rest with
      | .found more rest => .found (v :: more) rest
      | .missed at' => .missed at'
      | .broken at' => .broken at'
    | .missed _ => .found [] s
    | .broken at' => .broken at'

def moreItems (n : Nat) (s : List Char) : Reading (List Value) :=
  match n with
  | 0 => .missed s
  | n + 1 =>
    match skip s with
    | ',' :: cs =>
      match value n (skip cs) with
      | .found v rest =>
        match moreItems n rest with
        | .found more rest => .found (v :: more) rest
        | .missed at' => .missed at'
        | .broken at' => .broken at'
      | .missed _ => .found [] s
      | .broken at' => .broken at'
    | _ => .found [] s

/-- One setting: a name, `=` or `:`, a value, and an optional terminator. -/
def setting (n : Nat) (s : List Char) : Reading (String × Value) :=
  match n with
  | 0 => .missed s
  | n + 1 =>
    match name? (skip s) with
    | some (name, rest) =>
      match skip rest with
      | c :: cs =>
        if c = '=' ∨ c = ':' then
          match value n (skip cs) with
          | .found v rest => .found (String.ofList name, v) (terminated rest)
          | .missed at' => .broken at'
          | .broken at' => .broken at'
        else .broken (c :: cs)
      | [] => .broken []
    | none => .missed (skip s)

/-- The settings of a group, added to those in front of them. -/
def settings (n : Nat) (s : List Char) (before : Group) : Reading Group :=
  match n with
  | 0 => .missed s
  | n + 1 =>
    match setting n s with
    | .found (name, v) rest => settings n rest (before.insert name v)
    | .missed _ => .found before s
    | .broken at' => .broken at'

end

/-- A whole document, or the rest at its first error. -/
def document (s : List Char) : Except (List Char) Group :=
  match settings (2 * s.length + 2) s [] with
  | .found fields rest =>
    match skip rest with
    | [] => .ok fields
    | rest => .error rest
  | .missed at' => .error at'
  | .broken at' => .error at'

end Reader

/-- The line on which the rest of a text begins. -/
def lineAt (text rest : List Char) : Nat := text.count '\n' - rest.count '\n' + 1

/-- The line of the first error in a document. -/
structure SyntaxError where
  line : Nat
  deriving DecidableEq, Repr

def SyntaxError.message (e : SyntaxError) : String := s!"libconfig syntax error on line {e.line}"

/-- The top-level settings of a document. -/
def read (text : List Char) : Except SyntaxError Group :=
  match Reader.document text with
  | .ok fields => .ok fields
  | .error rest => .error ⟨lineAt text rest⟩

end Saturation.Settings
