import Saturation.Error
import Saturation.Text.Blank

/-! The scheduling policies that have a model of an attack. -/

set_option autoImplicit false

namespace Saturation

inductive Policy where
  | fcfs
  | fq
  | sjf
  | sjfInorder
  | wsjf
  | wsjfInorder
  deriving DecidableEq, Repr

namespace Policy

def all : List Policy := [fcfs, fq, sjf, sjfInorder, wsjf, wsjfInorder]

def name : Policy → String
  | fcfs => "fcfs"
  | fq => "fq"
  | sjf => "sjf"
  | sjfInorder => "sjf_inorder"
  | wsjf => "wsjf"
  | wsjfInorder => "wsjf_inorder"

/-- Whether the goodput estimate of the policy is reported. -/
def hasValidatedGoodput : Policy → Bool
  | fq => false
  | _ => true

/-- The policy with the given name, which may stand between blanks. -/
def read (text : String) : Except Fault Policy :=
  match all.find? fun p => p.name.toList = Text.trim text.toList with
  | some p => .ok p
  | none => .error (.unsupportedPolicy text)

theorem mem_all (p : Policy) : p ∈ all := by cases p <;> decide

end Policy

end Saturation
