import LazyCast.Fault
import LazyCast.Sample
/-!
Programs in a backend's native operations. Binding a program against the registers of the moment
takes every operation whose guard holds and puts literals in the place of registers.
-/
namespace LazyCast

structure NativeOp where
  /-- The ledger position of the instruction this came from. -/
  seq : Nat
  code : String
  args : List Operand
  /-- The operation runs only when this holds. -/
  guard : Option Operand

namespace NativeOp

/-- An operation that always runs. -/
def plain (seq : Nat) (code : String) (args : List Operand) : NativeOp := ⟨seq, code, args, none⟩

def qubits (op : NativeOp) : List Qubit := qubitsOf op.args

def argsText (args : List Operand) : String :=
  if args.isEmpty then "" else " " ++ ", ".intercalate (args.map Operand.text)

def text (op : NativeOp) : String :=
  (match op.guard with
    | some guard => "if(" ++ guard.text ++ ") "
    | none => "") ++ op.code ++ argsText op.args

end NativeOp

structure Program where
  kind : Kind
  ops : List NativeOp

namespace Program

def empty (kind : Kind) : Program := ⟨kind, []⟩

def push (p : Program) (op : NativeOp) : Program := { p with ops := p.ops ++ [op] }

def extend (p q : Program) : Program := { p with ops := p.ops ++ q.ops }

def readRegister (registers : Registers) (name : Register) : Except ExecutionCause Value :=
  match registers.find? name with
  | some v => .ok v
  | none => .error (.readBeforeWrite name)

/-- A register's operand is the literal of its value. -/
def bindOperand (registers : Registers) : Operand → Except ExecutionCause Operand
  | .reg name => (readRegister registers name).map Operand.ofValue
  | o => .ok o

/-- Whether the guard holds; a guard that is no value never does. -/
def guardHolds (registers : Registers) : Option Operand → Except ExecutionCause Bool
  | none => .ok true
  | some (.reg name) => (readRegister registers name).map Value.truthy
  | some o => .ok (match o.literal? with
    | some v => v.truthy
    | none => false)

/-- The operation with literals for registers; none when its guard does not hold. -/
def bindOp (registers : Registers) (op : NativeOp) : Except ExecutionCause (Option NativeOp) := do
  if ← guardHolds registers op.guard then
    let args ← op.args.mapM (bindOperand registers)
    return some ⟨op.seq, op.code, args, none⟩
  else return none

def bindOps (registers : Registers) : List NativeOp → Except ExecutionCause (List NativeOp)
  | [] => .ok []
  | op :: rest => do
    let first ← bindOp registers op
    let others ← bindOps registers rest
    return first.toList ++ others

def bind (p : Program) (registers : Registers) : Except Fault Program :=
  ((bindOps registers p.ops).mapError (.execution p.kind)).map fun ops => ⟨p.kind, ops⟩

/-- One operation a line, its ledger position in front. -/
def listing (p : Program) : String :=
  "\n".intercalate (p.ops.map fun op => Text.numberColumn op.seq ++ "  " ++ op.text)

end Program
end LazyCast
