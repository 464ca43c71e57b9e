import Saturation.Settings.Reader

/-!
The texts of documents. A document is printed from a tree that has all that the text leaves open: the
layout in front of each token, the case of letters, signs and suffixes, the pieces of a string, and
what stands behind a setting. Each tree has a text and a meaning.
-/

set_option autoImplicit false

namespace Saturation.Settings

/-! ## Layout -/

/-- Blanks and comments. A comment to the end of the line ends with the line feed. -/
inductive Piece where
  | blank (c : Char) (h : c ∈ [' ', '\t', '\r', '\n'])
  | line (slashes : Bool) (words : List Char) (h : ∀ c ∈ words, c ≠ '\r' ∧ c ≠ '\n')
  | block (words : List Char) (h : ¬ ['*', '/'] <:+: words)

def lineMark (slashes : Bool) : List Char := if slashes then ['/', '/'] else ['#']

def Piece.text : Piece → List Char
  | blank c _ => [c]
  | line slashes words _ => lineMark slashes ++ (words ++ ['\n'])
  | block words _ => '/' :: '*' :: (words ++ ['*', '/'])

abbrev Layout := List Piece

def Layout.text (l : Layout) : List Char := l.flatMap Piece.text

/-! ## Literals -/

/-- A word whose letters may be of any case. -/
structure AnyCase (word : List Char) where
  text : List Char
  lower : text.map Char.toLower = word

def booleanWord (b : Bool) : List Char := (if b then "true" else "false").toList

inductive Sign where
  | none
  | plus
  | minus

namespace Sign

def text : Sign → List Char
  | none => []
  | plus => ['+']
  | minus => ['-']

def isMinus : Sign → Bool
  | minus => true
  | _ => false

def apply (s : Sign) (n : Nat) : Int := if s.isMinus then -(n : Int) else n

end Sign

/-- Decimal digits, at least one. -/
structure Digits where
  text : List Char
  nonempty : text ≠ []
  isDigit : ∀ c ∈ text, c.isDigit

inductive Suffix where
  | none
  | long (letters : AnyCase ['l'])
  | wide (letters : AnyCase ['l', 'l'])

def Suffix.text : Suffix → List Char
  | none => []
  | long letters => letters.text
  | wide letters => letters.text

structure Integer where
  sign : Sign
  digits : Digits
  suffix : Suffix
  inRange : Decimal.inInt64 (sign.apply (Decimal.digitsValue digits.text))

namespace Integer

def text (x : Integer) : List Char := x.sign.text ++ (x.digits.text ++ x.suffix.text)

def value (x : Integer) : Int := x.sign.apply (Decimal.digitsValue x.digits.text)

end Integer

structure HexDigit where
  value : Fin 16
  upper : Bool

def HexDigit.char (d : HexDigit) : Char :=
  if d.upper then (Nat.digitChar d.value).toUpper else Nat.digitChar d.value

/-- The number with some hexadecimal digits, the first one the most significant. -/
def hexNumber (digits : List HexDigit) : Nat := digits.foldl (fun n d => 16 * n + d.value) 0

structure Hexadecimal where
  mark : AnyCase ['x']
  digits : List HexDigit
  suffix : Suffix
  nonempty : digits ≠ []
  inRange : Decimal.inInt64 (hexNumber digits)

namespace Hexadecimal

def text (x : Hexadecimal) : List Char :=
  '0' :: (x.mark.text ++ (x.digits.map HexDigit.char ++ x.suffix.text))

def value (x : Hexadecimal) : Int := hexNumber x.digits

end Hexadecimal

structure Exponent where
  mark : AnyCase ['e']
  sign : Sign
  digits : Digits

namespace Exponent

def text (e : Exponent) : List Char := e.mark.text ++ (e.sign.text ++ e.digits.text)

def value (e : Exponent) : Int := e.sign.apply (Decimal.exponentValue e.digits.text)

end Exponent

/-- The digits of a float: digits and a point, with or without digits behind it; a point and digits;
or digits without a point, which an exponent must tell from an integer. -/
inductive Numeral where
  | pointed (whole : Digits) (fraction : List Char) (h : ∀ c ∈ fraction, c.isDigit)
      (exponent : Option Exponent)
  | pointFirst (fraction : Digits) (exponent : Option Exponent)
  | scientific (whole : Digits) (exponent : Exponent)

namespace Numeral

def exponentText (e : Option Exponent) : List Char := e.elim [] Exponent.text

def exponentOf (e : Option Exponent) : Int := e.elim 0 Exponent.value

def text : Numeral → List Char
  | pointed whole fraction _ e => whole.text ++ '.' :: (fraction ++ exponentText e)
  | pointFirst fraction e => '.' :: (fraction.text ++ exponentText e)
  | scientific whole e => whole.text ++ e.text

/-- The number is `mantissa * 10 ^ power`. -/
def mantissa : Numeral → Nat
  | pointed whole fraction _ _ => Decimal.digitsValue (whole.text ++ fraction)
  | pointFirst fraction _ => Decimal.digitsValue fraction.text
  | scientific whole _ => Decimal.digitsValue whole.text

def power : Numeral → Int
  | pointed _ fraction _ e => exponentOf e - fraction.length
  | pointFirst fraction e => exponentOf e - fraction.text.length
  | scientific _ e => e.value

end Numeral

/-- A float, which must not round to infinity. -/
structure FloatLiteral where
  sign : Sign
  numeral : Numeral
  finite : (Decimal.scaled sign.isMinus numeral.mantissa numeral.power).isFinite

namespace FloatLiteral

def text (x : FloatLiteral) : List Char := x.sign.text ++ x.numeral.text

def value (x : FloatLiteral) : Float :=
  Decimal.scaled x.sign.isMinus x.numeral.mantissa x.numeral.power

end FloatLiteral

inductive Escape where
  | backslash
  | quote
  | lineFeed
  | carriageReturn
  | tab
  | formFeed
  | code (high low : HexDigit)

namespace Escape

def text : Escape → List Char
  | backslash => ['\\']
  | quote => ['"']
  | lineFeed => ['n']
  | carriageReturn => ['r']
  | tab => ['t']
  | formFeed => ['f']
  | code high low => ['x', high.char, low.char]

def char : Escape → Char
  | backslash => '\\'
  | quote => '"'
  | lineFeed => '\n'
  | carriageReturn => '\r'
  | tab => '\t'
  | formFeed => Char.ofNat 12
  | code high low => Char.ofNat (16 * high.value + low.value)

end Escape

inductive Fragment where
  | plain (c : Char) (h : c ≠ '"' ∧ c ≠ '\\')
  | escape (e : Escape)

namespace Fragment

def text : Fragment → List Char
  | plain c _ => [c]
  | escape e => '\\' :: e.text

def char : Fragment → Char
  | plain c _ => c
  | escape e => e.char

end Fragment

abbrev Quoted := List Fragment

namespace Quoted

def text (q : Quoted) : List Char := '"' :: (q.flatMap Fragment.text ++ ['"'])

def chars (q : Quoted) : List Char := q.map Fragment.char

end Quoted

/-- Literals next to each other, with layout between them, are one string. -/
structure StringLiteral where
  first : Quoted
  more : List (Layout × Quoted)

namespace StringLiteral

def moreText (more : List (Layout × Quoted)) : List Char :=
  more.flatMap fun x => x.1.text ++ x.2.text

def text (x : StringLiteral) : List Char := x.first.text ++ moreText x.more

def value (x : StringLiteral) : String :=
  String.ofList (x.first.chars ++ x.more.flatMap fun x => x.2.chars)

end StringLiteral

inductive Literal where
  | boolean (b : Bool) (letters : AnyCase (booleanWord b))
  | integer (x : Integer)
  | hexadecimal (x : Hexadecimal)
  | float (x : FloatLiteral)
  | string (x : StringLiteral)

namespace Literal

def text : Literal → List Char
  | boolean _ letters => letters.text
  | integer x => x.text
  | hexadecimal x => x.text
  | float x => x.text
  | string x => x.text

def meaning : Literal → Value
  | boolean b _ => .bool b
  | integer x => .int x.value
  | hexadecimal x => .int x.value
  | float x => .float x.value
  | string x => .str x.value

end Literal

/-! ## Values and settings -/

/-- The name of a setting up to the layout in front of its value. -/
structure Label where
  before : Layout
  name : List Char
  isName : Reader.isName name
  between : Layout
  colon : Bool
  behind : Layout

namespace Label

def sign (l : Label) : Char := if l.colon then ':' else '='

def text (l : Label) : List Char :=
  l.before.text ++ (l.name ++ (l.between.text ++ l.sign :: l.behind.text))

end Label

/-- What stands behind a value in front of the next setting: a terminator, or layout. -/
inductive Ending where
  | closed (gap : Layout) (comma : Bool)
  | bare (gap : Layout) (h : gap ≠ [])

def Ending.text : Ending → List Char
  | closed gap comma => gap.text ++ [if comma then ',' else ';']
  | bare gap _ => gap.text

/-- A scalar of an array, with the layout around it. -/
structure Cell where
  before : Layout
  literal : Literal
  after : Layout

def Cell.text (x : Cell) : List Char := x.before.text ++ (x.literal.text ++ x.after.text)

mutual

inductive Node where
  | scalar (x : Literal)
  | array (cells : List Cell) (close : Layout)
  | list (items : Items) (close : Layout)
  | group (body : Body) (close : Layout)

inductive Items where
  | nil
  | cons (before : Layout) (item : Node) (after : Layout) (rest : Items)

/-- Settings. The last one needs no terminator. -/
inductive Body where
  | nil
  | last (label : Label) (node : Node)
  | cons (label : Label) (node : Node) (ending : Ending) (rest : Body)

end

/-- Cells with a comma in front of each. -/
def cellsText (cells : List Cell) : List Char := cells.flatMap fun x => ',' :: x.text

mutual

def Node.text : Node → List Char
  | .scalar x => x.text
  | .array cells close => '[' :: ((cellsText cells).tail ++ (close.text ++ [']']))
  | .list items close => '(' :: (items.text.tail ++ (close.text ++ [')']))
  | .group body close => '\x7b' :: (body.text ++ (close.text ++ ['\x7d']))

/-- Items with a comma in front of each. -/
def Items.text : Items → List Char
  | .nil => []
  | .cons before item after rest => ',' :: (before.text ++ (item.text ++ (after.text ++ rest.text)))

def Body.text : Body → List Char
  | .nil => []
  | .last label node => label.text ++ node.text
  | .cons label node ending rest => label.text ++ (node.text ++ (ending.text ++ rest.text))

end

mutual

/-- Of several settings of one name in a group, the last one counts. -/
def Node.meaning : Node → Value
  | .scalar x => x.meaning
  | .array cells _ => .arr (cells.map fun x => x.literal.meaning)
  | .list items _ => .arr items.meaning
  | .group body _ => .obj (Group.ofList body.fields)

def Items.meaning : Items → List Value
  | .nil => []
  | .cons _ item _ rest => item.meaning :: rest.meaning

/-- The settings in the order of the text. -/
def Body.fields : Body → List (String × Value)
  | .nil => []
  | .last label node => [(String.ofList label.name, node.meaning)]
  | .cons label node _ rest => (String.ofList label.name, node.meaning) :: rest.fields

end

/-- A comment that ends with the text. -/
structure LastComment where
  slashes : Bool
  words : List Char
  h : ∀ c ∈ words, c ≠ '\r' ∧ c ≠ '\n'

def LastComment.text (x : LastComment) : List Char := lineMark x.slashes ++ x.words

structure Document where
  body : Body
  close : Layout
  comment : Option LastComment

namespace Document

def text (d : Document) : List Char := d.body.text ++ (d.close.text ++ d.comment.elim [] LastComment.text)

def meaning (d : Document) : Group := Group.ofList d.body.fields

end Document

end Saturation.Settings
