import Saturation.Decimal.Literal
import Saturation.Error
import Saturation.Text.Blank
import Saturation.Trace.Packet

/-!
Lines of a packet log: arrival time, departure time, flow, class, packet size and job size,
separated by semicolons. Blanks around a field and fields behind the sixth do not matter.
-/

set_option autoImplicit false

namespace Saturation.Record

/-- The fields of a line without the blanks around them. -/
def fields (line : List Char) : List (List Char) := (line.splitOn ';').map Text.trim

/-- A field that a reader of numbers must take as a whole. -/
def numeric {β : Type} (read? : List Char → Option β) (number : Nat) (name : NumericField)
    (field : List Char) : Except Fault β :=
  match read? field with
  | some x => .ok x
  | none => .error (.invalidField number name (String.ofList field))

/-- Packets have at least one bit. -/
def packetSize? (field : List Char) : Option UInt64 :=
  (Decimal.word? field).filter (· ≠ 0)

/-- Job sizes are finite and not negative. -/
def jobSize? (field : List Char) : Option Float :=
  (Decimal.double? field).filter fun x => x.isFinite && !(x < 0.0)

/-- The record on the line with the given number. The sizes are judged before the times. -/
def read (number : Nat) (line : List Char) : Except Fault Record :=
  match fields line with
  | arrival :: departure :: flow :: tag :: size :: job :: _ => do
    let size ← numeric packetSize? number .packetSize size
    let jobSize ← numeric jobSize? number .jobSize job
    let arrivalTime ← numeric Decimal.double? number .arrivalTime arrival
    let departureTime ← numeric Decimal.double? number .departureTime departure
    return { arrivalTime, departureTime, classTag := String.ofList tag,
             packet := ⟨String.ofList flow, size, jobSize⟩ }
  | short => .error (.malformedRecord number short.length)

end Saturation.Record
