/-! Text with emphasis for terminals, or plain for all other readers. -/

set_option autoImplicit false

namespace Saturation.Text

inductive Tone where
  | bold
  | dimmed
  | red
  | green
  | yellow
  | blue
  | cyan
  deriving DecidableEq, Repr

def Tone.code : Tone → Nat
  | bold => 1
  | dimmed => 2
  | red => 31
  | green => 32
  | yellow => 33
  | blue => 34
  | cyan => 36

/-- A text in the given tones, if there is colour. -/
def toned (colour : Bool) (tones : List Tone) (text : String) : String :=
  if colour then
    let codes := ";".intercalate (tones.map fun t => toString t.code)
    s!"\x1b[{codes}m{text}\x1b[0m"
  else text

end Saturation.Text
