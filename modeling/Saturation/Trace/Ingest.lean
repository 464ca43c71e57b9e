import Saturation.Digest
import Saturation.Trace.Line
import Saturation.Trace.Statistics

/-!
Reading a trace in one pass, line by line up to the first one that is at fault or takes a sum out of
its word. The statistics of the packets, the digest of the bytes and whatever else is made of the
records grow along the way.
-/

set_option autoImplicit false

namespace Saturation

/-- What a complete pass over a trace produces. -/
structure TraceSummary where
  statistics : Statistics Float
  /-- The digest of the bytes, in hexadecimal. -/
  sha256 : String
  deriving Repr

namespace Trace

def decode (bytes : List UInt8) : Option String := String.fromUTF8? ⟨bytes.toArray⟩

/-- The bytes up to the first line feed, which is one of them, and the bytes behind it. -/
def nextLine (bytes : List UInt8) : List UInt8 × List UInt8 :=
  match bytes.dropWhile (· ≠ 10) with
  | [] => (bytes, [])
  | feed :: rest => (bytes.takeWhile (· ≠ 10) ++ [feed], rest)

theorem nextLine_length (b : UInt8) (bytes : List UInt8) :
    (nextLine (b :: bytes)).2.length < (b :: bytes).length := by
  unfold nextLine
  split
  · simp
  · rename_i feed rest h
    have hle := (List.dropWhile_sublist (· ≠ (10 : UInt8)) (l := b :: bytes)).length_le
    simp only [h, List.length_cons] at hle ⊢
    omega

/-- The record on a line. -/
def readLine (number : Nat) (line : List UInt8) : Except Fault Record :=
  match decode line with
  | some text => Record.read number text.toList
  | none => .error (.unreadable .notText)

/-- A pass over a trace behind some of its lines. `state` is what the receiver of the records has
made of them. -/
structure Pass (σ : Type) where
  lines : Nat
  hasher : Digest.Hasher
  totals : Totals Float
  state : σ

namespace Pass

variable {σ : Type}

def start (state : σ) : Pass σ := ⟨0, .start, .empty, state⟩

/-- The pass behind one more line with a record. The record is counted before it is handed on. -/
def next (receive : σ → Record → σ) (p : Pass σ) (line : List UInt8) (r : Record) :
    Except Fault (Pass σ) := do
  let totals ← p.totals.observe r.packet
  return { lines := p.lines + 1
           hasher := p.hasher.update line
           totals
           state := receive p.state r }

/-- What the pass has produced if there are no more lines. -/
def summary (p : Pass σ) : Except Fault TraceSummary :=
  match p.totals.statistics with
  | .ok statistics => .ok ⟨statistics, Digest.hex p.hasher.finish⟩
  | .error e => .error e

/-- Passes over the rest of a trace. -/
def run (receive : σ → Record → σ) (p : Pass σ) (bytes : List UInt8) :
    σ × Except Fault TraceSummary :=
  match bytes with
  | [] => (p.state, p.summary)
  | b :: bytes =>
    match readLine (p.lines + 1) (nextLine (b :: bytes)).1 >>=
        p.next receive (nextLine (b :: bytes)).1 with
    | .ok p => run receive p (nextLine (b :: bytes)).2
    | .error e => (p.state, .error e)
termination_by bytes.length
decreasing_by exact nextLine_length b bytes

end Pass

/-- A pass over a whole trace: what the receiver of its records ends with, and the outcome. A trace
without records is a fault too. -/
def ingest {σ : Type} (receive : σ → Record → σ) (state : σ) (bytes : List UInt8) :
    σ × Except Fault TraceSummary := (Pass.start state).run receive bytes

/-- The records in front of the first fault, and the outcome. -/
def read (bytes : List UInt8) : List Record × Except Fault TraceSummary :=
  let (records, outcome) := ingest (fun kept r => r :: kept) [] bytes
  (records.reverse, outcome)

end Trace

end Saturation
