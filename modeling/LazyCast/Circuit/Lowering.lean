import LazyCast.Arithmetic
import LazyCast.Program
/-!
Quantum instructions in gates. `init` flips the qubits of the set bits, `redim` puts each qubit into
superposition, `sync` correlates its qubits by a chain of controlled flips; the others stand for
themselves, `x_if` as a guarded flip. The qubits of one instruction are distinct.
-/
namespace LazyCast.Lowering

def gate (seq : Nat) (code : String) (qubits : List Qubit) : NativeOp :=
  .plain seq code (qubits.map Operand.qubit)

def asQubits : List Operand → Except Malformation (List Qubit)
  | [] => .ok []
  | .qubit q :: rest => (asQubits rest).map (q :: ·)
  | o :: _ => .error (.notAQubit o)

def distinctQubits (least : Nat) (operands : List Operand) : Except Malformation (List Qubit) := do
  let qubits ← asQubits operands
  if qubits.length < least then throw (.tooFewQubits least)
  if ¬ qubits.Nodup then throw .repeatedQubit
  return qubits

/-- Exactly `count` distinct qubits, where at least `count` are asked for first. -/
def exactQubits (count : Nat) (operands : List Operand) : Except Malformation (List Qubit) := do
  let qubits ← distinctQubits count operands
  if qubits.length = count then return qubits
  else throw (.wrongQubitCount count qubits.length)

/-- The number that an `init` starts its qubits with. -/
def initialValue : List Operand → Except Malformation Nat
  | .int v :: _ => if 0 ≤ v.toInt then .ok v.toInt.toNat else .error (.expected .nonNegativeLiteral)
  | .bool b :: _ => .ok (if b then 1 else 0)
  | _ => .error (.expected .nonNegativeLiteral)

/-- A flip of every qubit whose bit is set; bit `i` belongs to the `i`-th qubit. The number has
    sixty-four bits, and a shift of it by more overflows. Here the qubits from the sixty-fifth on
    are never flipped, so for as many qubits this says nothing of what a shift would do. -/
def flips (seq value : Nat) (qubits : List Qubit) : List NativeOp :=
  (qubits.zipIdx.filter fun q => value.testBit q.2).map fun q => gate seq "x" [q.1]

def lowerInit (seq : Nat) (operands : List Operand) : Except Malformation (List NativeOp) := do
  let value ← initialValue operands
  let qubits ← distinctQubits 1 (operands.drop 1)
  if qubits.length < 64 ∧ pow2 qubits.length ≤ value then
    throw (.doesNotFit value qubits.length)
  return flips seq value qubits

/-- A controlled flip from each qubit to the next. -/
def chain (seq : Nat) : List Qubit → List NativeOp
  | p :: q :: rest => gate seq "cx" [p, q] :: chain seq (q :: rest)
  | _ => []

def isAngle : Operand → Bool
  | .float _ => true
  | .int _ => true
  | .reg _ => true
  | _ => false

def isCondition : Operand → Bool
  | .reg _ => true
  | .bool _ => true
  | .int _ => true
  | _ => false

def leading (form : Operand → Bool) (shape : OperandShape) (operands : List Operand) :
    Except Malformation Operand :=
  match operands with
  | o :: _ => if form o then .ok o else .error (.expected shape)
  | [] => .error (.expected shape)

/-- The gates of one instruction; none for an opcode that is no quantum one. -/
def ofOpcode? (opcode : String) (seq : Nat) (operands : List Operand) :
    Option (Except Malformation (List NativeOp)) :=
  match opcode with
  | "init" => some (lowerInit seq operands)
  | "redim" => some do
    let qubits ← distinctQubits 1 operands
    return qubits.map fun q => gate seq "h" [q]
  | "sync" => some do
    let qubits ← distinctQubits 2 operands
    return gate seq "h" (qubits.take 1) :: chain seq qubits
  | "x" => some ((exactQubits 1 operands).map fun qubits => [gate seq "x" qubits])
  | "z" => some ((exactQubits 1 operands).map fun qubits => [gate seq "z" qubits])
  | "h" => some ((exactQubits 1 operands).map fun qubits => [gate seq "h" qubits])
  | "cx" => some ((exactQubits 2 operands).map fun qubits => [gate seq "cx" qubits])
  | "cz" => some ((exactQubits 2 operands).map fun qubits => [gate seq "cz" qubits])
  | "swap" => some ((exactQubits 2 operands).map fun qubits => [gate seq "swap" qubits])
  | "ry" => some do
    let angle ← leading isAngle .angle operands
    let qubits ← exactQubits 1 (operands.drop 1)
    return [.plain seq "ry" (angle :: qubits.map Operand.qubit)]
  | "x_if" => some do
    let condition ← leading isCondition .condition operands
    let qubits ← exactQubits 1 (operands.drop 1)
    return [{ gate seq "x" qubits with guard := some condition }]
  | "measure" => some ((distinctQubits 1 operands).map fun qubits => [gate seq "measure" qubits])
  | "barrier" => some ((distinctQubits 0 operands).map fun qubits => [gate seq "barrier" qubits])
  | _ => none

def lowerOne (i : Instruction) : Except Fault (List NativeOp) :=
  match ofOpcode? i.opcode i.seq i.operands with
  | some lowered => lowered.mapError (.malformed i.opcode)
  | none => .error (.unsupportedInstruction i.opcode i.kind)

end LazyCast.Lowering
