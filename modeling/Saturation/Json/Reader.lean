import Saturation.Decimal.Literal
import Saturation.Settings.Value

/-!
Reading JSON. What numerals mean is left open. Where settings are read, a whole number within 64
bits is an integer and any other number is a float, made by one multiplication or by divisions from
the leading digits that fit a word, so that it can be one step off the nearest double. Values nest
at most `depthLimit` deep, and the last of several fields of one name counts.
-/

set_option autoImplicit false

namespace Saturation.Json

open Settings (Value Group)

def isSpace (c : Char) : Bool := c == ' ' || c == '\n' || c == '\r' || c == '\t'

def skip (s : List Char) : List Char := s.dropWhile isSpace

/-- The rest behind a word. -/
def word? : List Char → List Char → Option (List Char)
  | [], s => some s
  | c :: cs, d :: s => if c = d then word? cs s else none
  | _ :: _, [] => none

/-! ## Numbers -/

/-- A number without its sign, as it is written: its digits in front of the point and behind it, and
its exponent. A point has digits behind it. -/
structure Numeral where
  whole : List Char
  fraction : List Char
  /-- Whether it is negative, and its digits. -/
  exponent : Option (Bool × List Char)
  deriving DecidableEq, Repr

/-- The exponent that a mark starts. -/
def exponent? : List Char → Option (Option (Bool × List Char) × List Char)
  | c :: cs =>
    if c = 'e' ∨ c = 'E' then
      let (negative, body) := Decimal.signed cs
      let (ds, rest) := body.span Char.isDigit
      if ds = [] then none else some (some (negative, ds), rest)
    else some (none, c :: cs)
  | [] => some (none, [])

/-- A number without its sign. Zeros are not put in front of other digits. -/
def numeral? (s : List Char) : Option (Numeral × List Char) :=
  let (whole, rest) := s.span Char.isDigit
  if whole = [] ∨ (whole.head? = some '0' ∧ whole ≠ ['0']) then none
  else match rest with
    | '.' :: cs =>
      let (fraction, rest) := cs.span Char.isDigit
      if fraction = [] then none
      else (exponent? rest).map fun r => (⟨whole, fraction, r.1⟩, r.2)
    | rest => (exponent? rest).map fun r => (⟨whole, [], r.1⟩, r.2)

/-- The leading digits that still fit a word behind a significand, and the other digits. -/
def absorb (n : Nat) : List Char → Nat × List Char
  | [] => (n, [])
  | d :: ds =>
    let m := 10 * n + (d.toNat - 48)
    if m < 0x10000000000000000 then absorb m ds else (n, d :: ds)

def powerOfTen (places : Nat) : Float := Float.ofScientific 1 false places

/-- A value divided by a power of ten, by at most `1e308` at a time. -/
def scaleDown (x : Float) (places : Nat) : Float :=
  if places ≤ 308 then x / powerOfTen places
  else if x == 0.0 then x
  else scaleDown (x / powerOfTen 308) (places - 308)
termination_by places

/-- A significand times a power of ten, unless it is too large. -/
def scaled? (significand : Nat) : Int → Option Float
  | .ofNat places =>
    let x := Double.ofNat significand
    if places ≤ 308 then
      let y := x * powerOfTen places
      if y.isInf then none else some y
    else if significand = 0 then some x else none
  | .negSucc places => some (scaleDown (Double.ofNat significand) (places + 1))

/-- Exponents are held to 32 bits. -/
def exponentLimit : Nat := 0x7FFFFFFF

/-- A float from a significand, its power of ten, and an exponent. -/
def float? (significand : Nat) (power : Int) : Option (Bool × List Char) → Option Float
  | none => scaled? significand power
  | some (negative, ds) =>
    let e := Decimal.digitsValue ds
    if e ≤ exponentLimit then scaled? significand (if negative then power - e else power + e)
    else if significand ≠ 0 ∧ !negative then none
    else some 0.0

namespace Numeral

/-- The value without its sign: an integer if it is written as one that fits a word. -/
def magnitude? (d : Numeral) : Option (Nat ⊕ Float) :=
  let (n, dropped) := absorb 0 d.whole
  let (m, lost) := absorb n d.fraction
  if dropped = [] ∧ d.fraction = [] ∧ d.exponent = none then some (.inl n)
  else (float? m (dropped.length - (d.fraction.length - lost.length : Nat)) d.exponent).map .inr

/-- The value. There is no integer `-0`. -/
def value? (d : Numeral) (negative : Bool) : Option Value :=
  match d.magnitude? with
  | some (.inl n) =>
    if negative then
      some (if n ≠ 0 ∧ n ≤ 0x8000000000000000 then .int (-n) else .float (-(Double.ofNat n)))
    else some (.int n)
  | some (.inr x) => some (.float (if negative then -x else x))
  | none => none

end Numeral

/-- A number, given what numerals mean with a sign and without one. -/
def number? (meaning? : Numeral → Bool → Option Value) (s : List Char) : Option (Value × List Char) :=
  let (negative, body) := match s with
    | '-' :: body => (true, body)
    | _ => (false, s)
  match numeral? body with
  | some (d, rest) => (meaning? d negative).map fun v => (v, rest)
  | none => none

/-! ## Strings -/

def hexValue? (c : Char) : Option Nat :=
  if c.isDigit then some (c.toNat - 48)
  else if 'a' ≤ c ∧ c ≤ 'f' then some (c.toNat - 87)
  else if 'A' ≤ c ∧ c ≤ 'F' then some (c.toNat - 55)
  else none

/-- A code unit in four hexadecimal digits. -/
def unit? : List Char → Option (Nat × List Char)
  | a :: b :: c :: d :: rest => do
    return (((← hexValue? a) * 16 + (← hexValue? b)) * 256 + (← hexValue? c) * 16 + (← hexValue? d), rest)
  | _ => none

/-- The character of a code unit; the second half of a pair has to follow a first half. -/
def unitChar? (s : List Char) : Option (Char × List Char) :=
  match unit? s with
  | some (n, rest) =>
    if n < 0xD800 ∨ 0xDFFF < n then some (Char.ofNat n, rest)
    else if 0xDC00 ≤ n then none
    else match rest with
      | '\\' :: 'u' :: second =>
        match unit? second with
        | some (m, rest) =>
          if 0xDC00 ≤ m ∧ m ≤ 0xDFFF then
            some (Char.ofNat (0x10000 + (n - 0xD800) * 0x400 + (m - 0xDC00)), rest)
          else none
        | none => none
      | _ => none
  | none => none

/-- The character behind a backslash. -/
def escape? : List Char → Option (Char × List Char)
  | 'u' :: s => unitChar? s
  | '"' :: s => some ('"', s)
  | '\\' :: s => some ('\\', s)
  | '/' :: s => some ('/', s)
  | 'b' :: s => some ('\x08', s)
  | 'f' :: s => some ('\x0c', s)
  | 'n' :: s => some ('\n', s)
  | 'r' :: s => some ('\r', s)
  | 't' :: s => some ('\t', s)
  | _ => none

theorem unit?_length {s rest : List Char} {n : Nat} (h : unit? s = some (n, rest)) :
    rest.length < s.length := by
  unfold unit? at h
  split at h
  · simp only [Option.pure_def, Option.bind_eq_bind, Option.bind_eq_some_iff] at h
    obtain ⟨_, _, _, _, _, _, _, _, h⟩ := h
    cases h
    simp only [List.length_cons]
    omega
  · cases h

theorem unitChar?_length {s rest : List Char} {c : Char} (h : unitChar? s = some (c, rest)) :
    rest.length < s.length := by
  unfold unitChar? at h
  split at h
  · rename_i n r hu
    have := unit?_length hu
    split at h
    · cases h; exact this
    · split at h
      · cases h
      · split at h
        · rename_i second
          split at h
          · rename_i m r' hu'
            have := unit?_length hu'
            simp only [List.length_cons] at *
            split at h
            · simp only [Option.some.injEq, Prod.mk.injEq] at h
              obtain ⟨_, rfl⟩ := h
              omega
            · cases h
          · cases h
        · cases h
  · cases h

theorem escape?_length {s rest : List Char} {c : Char} (h : escape? s = some (c, rest)) :
    rest.length < s.length := by
  unfold escape? at h
  split at h
  · have := unitChar?_length h
    simp only [List.length_cons]
    omega
  all_goals first | (cases h; simp) | cases h

/-- The characters of a string behind its opening quote; the ones already read come last first. -/
def characters? (before : List Char) (s : List Char) : Option (List Char × List Char) :=
  match s with
  | [] => none
  | '"' :: rest => some (before.reverse, rest)
  | '\\' :: rest =>
    match _h : escape? rest with
    | some (c, rest) => characters? (c :: before) rest
    | none => none
  | c :: rest => if c.toNat < 0x20 then none else characters? (c :: before) rest
termination_by s.length
decreasing_by
  · have := escape?_length _h
    simp only [List.length_cons]
    omega
  · simp

def string? : List Char → Option (String × List Char)
  | '"' :: s => (characters? [] s).map fun r => (String.ofList r.1, r.2)
  | _ => none

/-! ## Values -/

/-- Parts with commas between them, at most `n`, up to a closing bracket. -/
def more? {β : Type} (close : Char) (part? : List Char → Option (β × List Char)) :
    Nat → List β → List Char → Option (List β × List Char)
  | 0, _, _ => none
  | n + 1, before, s =>
    match skip s with
    | ',' :: cs =>
      match part? (skip cs) with
      | some (x, rest) => more? close part? n (x :: before) rest
      | none => none
    | c :: rest => if c = close then some (before.reverse, rest) else none
    | [] => none

/-- The parts behind an opening bracket, at most `n`, up to the closing one. -/
def parts? {β : Type} (close : Char) (part? : List Char → Option (β × List Char)) (n : Nat)
    (s : List Char) : Option (List β × List Char) :=
  match skip s with
  | [] => none
  | c :: rest =>
    if c = close then some ([], rest)
    else match part? (c :: rest) with
      | some (x, rest) => more? close part? n [x] rest
      | none => none

/-- A name, a colon and a value. -/
def field? (value? : List Char → Option (Value × List Char)) (s : List Char) :
    Option ((String × Value) × List Char) :=
  match string? s with
  | some (name, rest) =>
    match skip rest with
    | ':' :: cs => (value? (skip cs)).map fun r => ((name, r.1), r.2)
    | _ => none
  | none => none

/-- A value without blanks in front, nested at most `depth` deep, whose arrays and objects have at
most `n` parts. -/
def value? (meaning? : Numeral → Bool → Option Value) (n : Nat) (depth : Nat) (s : List Char) :
    Option (Value × List Char) :=
  match s, depth with
  | 'n' :: _, _ => (word? ['n', 'u', 'l', 'l'] s).map fun rest => (.null, rest)
  | 't' :: _, _ => (word? ['t', 'r', 'u', 'e'] s).map fun rest => (.bool true, rest)
  | 'f' :: _, _ => (word? ['f', 'a', 'l', 's', 'e'] s).map fun rest => (.bool false, rest)
  | '"' :: _, _ => (string? s).map fun r => (.str r.1, r.2)
  | '[' :: _, 0 => none
  | '[' :: cs, depth + 1 =>
    (parts? ']' (value? meaning? n depth) n cs).map fun r => (.arr r.1, r.2)
  | '\x7b' :: _, 0 => none
  | '\x7b' :: cs, depth + 1 =>
    (parts? '\x7d' (field? (value? meaning? n depth)) n cs).map fun r => (.obj (Group.ofList r.1), r.2)
  | _, _ => number? meaning? s
termination_by depth

/-- How deep values may nest. -/
def depthLimit : Nat := 127

/-- The value a text holds, with nothing but blanks around it, given what numerals mean. -/
def readBy? (meaning? : Numeral → Bool → Option Value) (text : List Char) : Option Value :=
  match value? meaning? (text.length + 1) depthLimit (skip text) with
  | some (v, rest) => if skip rest = [] then some v else none
  | none => none

def read? (text : List Char) : Option Value := readBy? Numeral.value? text

end Saturation.Json
