import Saturation.Decimal.Literal
import Saturation.Settings.Value
import Saturation.Text.Lowercase

/-!
Settings from several sources, laid over each other. A source gives values to keys; a key may lead
into a value, as in `application.limits[2]`. Names lose their capitals on the way in, a group is
merged into the group it meets under its name, and any other value takes the place of what it meets,
as every value does at an index. Capitals inside the groups of a sequence stay.
-/

set_option autoImplicit false

namespace Saturation.Configuration

open Settings (Value Group)

/-- A step of a key into a value. A negative index counts from the end. -/
inductive Place where
  | name (text : String)
  | index (i : Int)
  deriving DecidableEq, Repr

/-! ## Keys -/

def isKeyChar (c : Char) : Bool := c.isAlphanum || c == ' ' || c == '_' || c == '-'

/-- An index with its closing bracket; blanks may stand around the number. -/
def index? (s : List Char) : Option (Int × List Char) :=
  let isGap (c : Char) : Bool := c == ' ' || c == '\t'
  let (negative, body) := match s.dropWhile isGap with
    | '-' :: r => (true, r)
    | r => (false, r)
  let (ds, rest) := body.span Char.isDigit
  let n : Int := if negative then -(Decimal.digitsValue ds : Int) else Decimal.digitsValue ds
  if ds ≠ [] ∧ Decimal.inInt64 n then
    match rest.dropWhile isGap with
    | ']' :: rest => some (n, rest)
    | _ => none
  else none

/-- The steps behind the first name of a key. -/
def steps? (s : List Char) : Option (List Place) :=
  match s with
  | [] => some []
  | '.' :: cs =>
    let name := cs.takeWhile isKeyChar
    if name = [] then none
    else (steps? (cs.dropWhile isKeyChar)).map fun more => .name (String.ofList name) :: more
  | '[' :: cs =>
    match index? cs with
    | some (i, rest) =>
      if rest.length ≤ cs.length then (steps? rest).map fun more => .index i :: more else none
    | none => none
  | _ => none
termination_by s.length
decreasing_by
  · exact Nat.lt_succ_of_le (List.dropWhile_sublist _).length_le
  · exact Nat.lt_succ_of_le ‹_›

/-- The steps of a key. A text that is not a key is a name as a whole. -/
def places (key : String) : List Place :=
  let name := key.toList.takeWhile isKeyChar
  if name = [] then [.name key]
  else match steps? (key.toList.dropWhile isKeyChar) with
    | some more => .name (String.ofList name) :: more
    | none => [.name key]

/-! ## Merging -/

/-- The fields of a group; any other value has none. -/
def fieldsOf : Value → Group
  | .obj fields => fields
  | _ => []

/-- The items of a sequence; any other value has none. -/
def itemsOf : Value → List Value
  | .arr items => items
  | _ => []

mutual

/-- A value laid over another one. -/
def overlay (target : Value) : Value → Value
  | .obj fields => overlayFields target fields
  | v => v

/-- Fields laid over a value one after the other. -/
def overlayFields (target : Value) : List (String × Value) → Value
  | [] => target
  | (name, v) :: rest =>
    let key := Text.lower name
    let group := fieldsOf target
    overlayFields (.obj (group.insert key (overlay ((group.get? key).getD (.obj [])) v))) rest

end

/-- The place of an index in a sequence; none in front of the sequence. -/
def position? (i : Int) (size : Nat) : Option Nat :=
  if 0 ≤ i then some i.toNat else if i.natAbs ≤ size then some (size - i.natAbs) else none

/-- A sequence with one item replaced; nulls fill the gap in front of it. -/
def setItem (n : Nat) (v : Value) (items : List Value) : List Value :=
  (items ++ List.replicate (n + 1 - items.length) Value.null).set n v

/-- Puts a value where the steps lead. What does not fit the steps is replaced on the way. -/
def put (v : Value) : List Place → Value → Value
  | [], target => overlay target v
  | [.name key], target => overlayFields (.obj (fieldsOf target)) [(key, v)]
  | .name name :: rest, target =>
    let key := Text.lower name
    let group := fieldsOf target
    .obj (group.insert key (put v rest ((group.get? key).getD .null)))
  | [.index i], target =>
    let items := itemsOf target
    .arr ((position? i items.length).elim items fun n => setItem n v items)
  | .index i :: rest, target =>
    let items := itemsOf target
    .arr ((position? i items.length).elim items fun n =>
      setItem n (put v rest (items[n]?.getD .null)) items)

/-- The settings of a source laid over those of the sources in front of it. -/
def layer (source : Group) (below : Group) : Group :=
  source.foldl (fun g f => fieldsOf (put f.2 (places f.1) (.obj g))) below

/-- The settings of all sources, those of a later one over those of an earlier one. In the outcome
the keys are read once more: one that was taken as a name because of a capital in it may be seen to
lead into a value after the loss of the capital, as a Kelvin sign becomes a plain `k`. -/
def layers (sources : List Group) : Group :=
  layer (sources.foldl (fun below source => layer source below) []) []

/-! ## Conversions -/

/-- Integers outside the signed 64-bit range are kept as floats. -/
def narrowed : Value → Value
  | .int n => if Decimal.inInt64 n then .int n else .float (Double.ofNat n.toNat)
  | v => v

mutual

/-- A document as a source gives it. -/
def sourceValue : Value → Value
  | .arr items => .arr (sourceItems items)
  | .obj fields => .obj (sourceFields fields)
  | v => narrowed v

def sourceItems : List Value → List Value
  | [] => []
  | v :: vs => sourceValue v :: sourceItems vs

def sourceFields : List (String × Value) → List (String × Value)
  | [] => []
  | (name, v) :: rest => (name, sourceValue v) :: sourceFields rest

end

/-- The truth a word stands for, in any case of letters. -/
def truth? (s : String) : Option Bool :=
  let word := s.toList.map Char.toLower
  if [['t', 'r', 'u', 'e'], ['o', 'n'], ['y', 'e', 's']].contains word then some true
  else if [['f', 'a', 'l', 's', 'e'], ['o', 'f', 'f'], ['n', 'o']].contains word then some false
  else none

/-- A setting as a float. Truths count as 1 and 0. -/
def float? : Value → Option Float
  | .float x => some x
  | .int n => some (if n < 0 then -(Double.ofNat n.natAbs) else Double.ofNat n.natAbs)
  | .bool b => some (if b then 1.0 else 0.0)
  | .str s =>
    match truth? s with
    | some b => some (if b then 1.0 else 0.0)
    | none => Decimal.double? s.toList
  | _ => none

/-- The nearest integer held within 64 bits, a half going away from zero. -/
def nearestInt64 (x : Float) : Int :=
  max (-0x8000000000000000) (min 0x7FFFFFFFFFFFFFFF (Double.ofFloat x).nearestInt)

/-- A setting as a signed 64-bit integer. -/
def int? : Value → Option Int
  | .int n => some n
  | .float x => some (nearestInt64 x)
  | .bool b => some (if b then 1 else 0)
  | .str s =>
    match truth? s with
    | some b => some (if b then 1 else 0)
    | none => Decimal.int64? s.toList
  | _ => none

/-- A setting inside a group of the top level. -/
def setting? (group name : String) (settings : Group) : Option Value :=
  match settings.get? group with
  | some (.obj fields) => Group.get? name fields
  | _ => none

end Saturation.Configuration
