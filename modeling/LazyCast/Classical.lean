import LazyCast.Program
import LazyCast.Registry
/-!
The classical evaluator: a register machine that runs in process. An operation that produces a
value writes its first operand, which must be a register. Arithmetic on integers is exact and fails
outside 64 bits; with a float among the operands it is floating-point arithmetic.
-/
namespace LazyCast

structure MemberCast where
  ticket : Nat
  /-- Qubits of the member, least significant first. -/
  qubits : List Qubit
  deriving DecidableEq

structure EvalState where
  registers : Registers
  /-- The value written last. -/
  last : Option Value
  memberCasts : List MemberCast

namespace EvalState

def empty : EvalState := ⟨Table.empty, none, []⟩

def toSample (s : EvalState) : Sample := .deterministic s.last s.registers

def write (s : EvalState) (name : Register) (v : Value) : EvalState :=
  { s with registers := s.registers.insert name v, last := some v }

def recordCast (s : EvalState) (ticket : Nat) (qubits : List Qubit) : EvalState :=
  { s with memberCasts := s.memberCasts ++ [⟨ticket, qubits⟩] }

end EvalState

namespace Classical

/-- An exact integer as a value, if sixty-four bits hold it. Computation has 128 bits before that. -/
def exact (left : Value) (code : String) (right : Value) (n : Int) : Except ExecutionCause Value :=
  match (int128? n).bind int64? with
  | some w => .ok (.int w)
  | none => .error (.integerOverflow left code right)

/-- Arithmetic and comparison of integers; quotients are cut off toward zero. -/
def onIntegers (left : Value) (code : String) (right : Value) (x y : Int) :
    Except ExecutionCause Value :=
  match code with
  | "add" => exact left code right (x + y)
  | "sub" => exact left code right (x - y)
  | "mul" => exact left code right (x * y)
  | "div" => if y = 0 then .error .divisionByZero else exact left code right (x.tdiv y)
  | "eq" => .ok (.bool (decide (x = y)))
  | "ne" => .ok (.bool (!decide (x = y)))
  | "lt" => .ok (.bool (decide (x < y)))
  | "le" => .ok (.bool (decide (x ≤ y)))
  | _ => .error (.unknownOpcode code)

def onFloats (code : String) (x y : Float) : Except ExecutionCause Value :=
  match code with
  | "add" => .ok (.float (x + y))
  | "sub" => .ok (.float (x - y))
  | "mul" => .ok (.float (x * y))
  | "div" => if y == 0 then .error .divisionByZero else .ok (.float (x / y))
  | "eq" => .ok (.bool (x == y))
  | "ne" => .ok (.bool (x != y))
  | "lt" => .ok (.bool (decide (x < y)))
  | "le" => .ok (.bool (decide (x ≤ y)))
  | _ => .error (.unknownOpcode code)

def onNumbers (code : String) (left right : Value) : Except ExecutionCause Value :=
  match left.toInt?, right.toInt? with
  | some x, some y => onIntegers left code right x y
  | _, _ =>
    match left.toFloat?, right.toFloat? with
    | some x, some y => onFloats code x y
    | _, _ => .error (.notNumeric code)

/-- An operation on two values; logic goes by truth, all else by number. -/
def binary (code : String) (left right : Value) : Except ExecutionCause Value :=
  match code with
  | "and" => .ok (.bool (left.truthy && right.truthy))
  | "or" => .ok (.bool (left.truthy || right.truthy))
  | "xor" => .ok (.bool (left.truthy != right.truthy))
  | _ => onNumbers code left right

def argument (op : NativeOp) (i : Nat) : Except ExecutionCause Operand :=
  match op.args[i]? with
  | some o => .ok o
  | none => .error (.missingOperand op.code i)

def valueOf (registers : Registers) : Operand → Except ExecutionCause Value
  | .reg name => Program.readRegister registers name
  | o => match o.literal? with
    | some v => .ok v
    | none => .error (.notAValue o)

def operandValue (registers : Registers) (op : NativeOp) (i : Nat) :
    Except ExecutionCause Value :=
  (argument op i).bind (valueOf registers)

def result (registers : Registers) (op : NativeOp) : Except ExecutionCause Value :=
  match op.code with
  | "const" => operandValue registers op 1
  | "mov" => operandValue registers op 1
  | "not" => (operandValue registers op 1).map fun v => .bool (!v.truthy)
  | code => do
    let left ← operandValue registers op 1
    let right ← operandValue registers op 2
    binary code left right

def destination (op : NativeOp) : Except ExecutionCause Register := do
  match (← argument op 0).reg? with
  | some name => return name
  | none => throw (.noDestination op.code)

def ticketOf (op : NativeOp) : Except ExecutionCause Nat := do
  match ← argument op 0 with
  | .int t => match uint32? t.toInt with
    | some ticket => return ticket.toNat
    | none => throw (.badTicket (.int t))
  | o => throw (.badTicket o)

/-- One operation. The state is unchanged when it fails. -/
def stepCause (op : NativeOp) (s : EvalState) : Except ExecutionCause EvalState :=
  match op.code with
  | "barrier" => .ok s
  | "cast" => (ticketOf op).map fun ticket => s.recordCast ticket op.qubits
  | _ => do
    let v ← result s.registers op
    let name ← destination op
    return s.write name v

def isValue (o : Operand) : Bool := o.reg?.isSome || o.literal?.isSome

def isRegister (o : Operand) : Bool := o.reg?.isSome

def isQubit (o : Operand) : Bool := o.qubit?.isSome

def isTicket : Operand → Bool
  | .int t => decide (0 ≤ t.toInt)
  | _ => false

def shapeOf (opcode : String) : OperandShape :=
  match opcode with
  | "const" => .registerAndLiteral
  | "mov" => .registerAndValue
  | "not" => .registerAndValue
  | "barrier" => .qubitsOnly
  | "cast" => .ticketAndQubits
  | _ => .registerAndTwoValues

def hasShape : OperandShape → List Operand → Bool
  | .registerAndLiteral, [dst, o] => isRegister dst && o.literal?.isSome
  | .registerAndValue, [dst, o] => isRegister dst && isValue o
  | .registerAndTwoValues, [dst, a, b] => isRegister dst && isValue a && isValue b
  | .qubitsOnly, operands => operands.all isQubit
  | .ticketAndQubits, ticket :: rest => isTicket ticket && rest.all isQubit
  | _, _ => false

def checkOperands (i : Instruction) : Except Fault Unit :=
  let shape := shapeOf i.opcode
  if hasShape shape i.operands then .ok () else .error (.malformed i.opcode (.expected shape))

end Classical

/-- The classical sub-compiler, restricted to the opcodes its descriptor declares. -/
structure Evaluator where
  name : String
  capabilities : Capabilities

namespace Evaluator

def ofDescriptor (d : Descriptor) : Evaluator :=
  ⟨d.name, ⟨d.kind, d.instructions.intersect .classical, false⟩⟩

def builtin : Evaluator := ofDescriptor .classical

def step (e : Evaluator) (op : NativeOp) (s : EvalState) : Except Fault EvalState :=
  (Classical.stepCause op s).mapError (.execution e.capabilities.kind)

/-- Each instruction is one operation of its own name. -/
def lowerOne (e : Evaluator) (i : Instruction) : Except Fault NativeOp :=
  if e.capabilities.supports i.opcode then
    (Classical.checkOperands i).map fun _ => .plain i.seq i.opcode i.operands
  else .error (.unsupportedInstruction i.opcode i.kind)

def lower (e : Evaluator) (instructions : List Instruction) : Except Fault Program :=
  (instructions.mapM e.lowerOne).map fun ops => ⟨e.capabilities.kind, ops⟩

def run (e : Evaluator) (s : EvalState) (ops : List NativeOp) : Except Fault EvalState :=
  ops.foldlM (fun s op => e.step op s) s

def execute (e : Evaluator) (p : Program) : Except Fault Sample :=
  (e.run .empty p.ops).map EvalState.toSample

end Evaluator
end LazyCast
