import LazyCast.Kind
import LazyCast.Value
/-!
Deferred operations, each tagged with the kind that owns it, and their operands. Numbers of qubits
and positions in a ledger are natural numbers here, without a word to outgrow.
-/
namespace LazyCast

/-- A qubit's number, unique in a session. -/
abbrev Qubit := Nat

/-- A classical register, written by classical instructions. -/
abbrev Register := String

inductive Operand where
  | int (n : Int64)
  | float (x : Float)
  | bool (b : Bool)
  | qubit (q : Qubit)
  | reg (name : Register)
  /-- Free text, such as a member's or a type's name. -/
  | symbol (text : String)
  deriving BEq

namespace Operand

def qubit? : Operand → Option Qubit
  | qubit q => some q
  | _ => none

def reg? : Operand → Option Register
  | reg name => some name
  | _ => none

def literal? : Operand → Option Value
  | int n => some (.int n)
  | float x => some (.float x)
  | bool b => some (.bool b)
  | _ => none

/-- A value as a literal; one that no literal can hold becomes its text. -/
def ofValue : Value → Operand
  | .bool b => bool b
  | .float x => float x
  | .f64 x => float x
  | .f32 x => float x.toFloat
  | v => match v.toInt?.bind int64? with
    | some n => int n
    | none => symbol v.text

def text : Operand → String
  | int n => toString n.toInt
  | float x => Decimal.floatText x
  | bool b => if b then "true" else "false"
  | qubit q => "q[" ++ toString q ++ "]"
  | reg name => "%" ++ name
  | symbol s => s

end Operand

def qubitsOf (operands : List Operand) : List Qubit := operands.filterMap Operand.qubit?

structure Instruction where
  /-- Position in the ledger. -/
  seq : Nat
  opcode : String
  operands : List Operand
  kind : Kind

namespace Instruction

def qubits (i : Instruction) : List Qubit := qubitsOf i.operands

def text (i : Instruction) : String :=
  String.join ([Text.numberColumn i.seq, " [", i.kind.name, "] ", i.opcode] ++
    i.operands.map fun o => " " ++ o.text)

end Instruction
end LazyCast
