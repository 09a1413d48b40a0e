import LazyCast.Circuit.Amplitudes
import LazyCast.Program
/-!
Bound programs as circuits. The qubits that a program touches are numbered from zero in increasing
order; measurement is put off to the end, and a program that measures nothing measures them all.
-/
namespace LazyCast

inductive Gate where
  | x (k : Nat)
  | z (k : Nat)
  | h (k : Nat)
  | ry (angle : Float) (k : Nat)
  | cx (control target : Nat)
  | cz (p q : Nat)
  | swap (p q : Nat)

/-- The numbers that gates need from their scalars. -/
structure Trigonometry (α : Type) where
  /-- One over the square root of two. -/
  diagonal : α
  sine : Float → α
  cosine : Float → α

/-- Sine and cosine are taken of half the angle. -/
def floatTrigonometry : Trigonometry Float where
  diagonal := Float.ofBits 0x3FE6A09E667F3BCD
  sine angle := (angle / 2).sin
  cosine angle := (angle / 2).cos

namespace Gate

def apply {α : Type} [Add α] [Mul α] [Neg α] (t : Trigonometry α) :
    Gate → Amplitudes α → Amplitudes α
  | x k, v => v.x k
  | z k, v => v.z k
  | h k, v => v.rotate k t.diagonal t.diagonal t.diagonal (-t.diagonal)
  | ry angle k, v =>
    v.rotate k (t.cosine angle) (-(t.sine angle)) (t.sine angle) (t.cosine angle)
  | cx control target, v => v.cx control target
  | cz p q, v => v.cz p q
  | swap p q, v => v.swap p q

def angleOf? (op : NativeOp) : Option Float :=
  (op.args.head?.bind Operand.literal?).bind Value.toFloat?

/-- The gate of an operation, with its qubits by dense number; none for fences and measurements. -/
def ofOp (op : NativeOp) (qubits : List Nat) : Except ExecutionCause (Option Gate) :=
  match op.code, qubits with
  | "x", k :: _ => .ok (some (x k))
  | "z", k :: _ => .ok (some (z k))
  | "h", k :: _ => .ok (some (h k))
  | "ry", k :: _ =>
    match angleOf? op with
    | some angle => .ok (some (ry angle k))
    | none => .error .angleNotNumeric
  | "cx", p :: q :: _ => .ok (some (cx p q))
  | "cz", p :: q :: _ => .ok (some (cz p q))
  | "swap", p :: q :: _ => .ok (some (swap p q))
  | "measure", _ => .ok none
  | "barrier", _ => .ok none
  | code, _ =>
    if ["x", "z", "h", "ry"].contains code then .error (.missingQubits code 1)
    else if ["cx", "cz", "swap"].contains code then .error (.missingQubits code 2)
    else .error (.unknownGate code)

end Gate

structure Circuit where
  /-- The qubits in use with their dense numbers, in increasing order. -/
  dense : Table Qubit Nat
  /-- In measurement order. -/
  measured : List Qubit
  gates : List Gate

namespace Circuit

def isBound (op : NativeOp) : Bool :=
  op.guard.isNone && op.args.all fun a => a.reg?.isNone

def touched (ops : List NativeOp) : OrderedSet Qubit :=
  .ofList (ops.flatMap NativeOp.qubits)

/-- Keeps the first of equal qubits. -/
def distinct (qubits : List Qubit) : List Qubit :=
  qubits.foldl (fun seen q => if q ∈ seen then seen else seen ++ [q]) []

def measuredBy (ops : List NativeOp) : List Qubit :=
  distinct ((ops.filter fun op => op.code == "measure").flatMap NativeOp.qubits)

def denseNumbers (qubits : OrderedSet Qubit) : Table Qubit Nat := ⟨qubits.elems.zipIdx⟩

def denseOf (dense : Table Qubit Nat) (q : Qubit) : Nat := (dense.find? q).getD 0

def gatesOf (dense : Table Qubit Nat) (ops : List NativeOp) : Except ExecutionCause (List Gate) :=
  (ops.mapM fun op => Gate.ofOp op (op.qubits.map (denseOf dense))).map fun gates =>
    gates.filterMap id

/-- The circuit of a bound program on at most `allowed` qubits. -/
def ofOps (allowed : Nat) (ops : List NativeOp) : Except ExecutionCause Circuit := do
  if !ops.all isBound then throw .unboundRegisters
  let qubits := touched ops
  let asked := measuredBy ops
  let measured := if asked.isEmpty then qubits.elems else asked
  if measured.isEmpty then throw .nothingMeasured
  if allowed < qubits.size then throw (.tooManyQubits qubits.size allowed)
  let dense := denseNumbers qubits
  let gates ← gatesOf dense ops
  return ⟨dense, measured, gates⟩

def amplitudes {α : Type} [Zero α] [One α] [Add α] [Mul α] [Neg α] (t : Trigonometry α)
    (c : Circuit) : Amplitudes α :=
  c.gates.foldl (fun v g => g.apply t v) (Amplitudes.zeroState c.dense.size)

/-- A basis state as an outcome, the first measured qubit rightmost. -/
def outcome (c : Circuit) (basis : Nat) : String :=
  String.ofList (c.measured.reverse.map fun q =>
    if basis.testBit (denseOf c.dense q) then '1' else '0')

/-- What some draws count on a circuit with the given running sums. -/
def tally {α : Type} [LT α] [DecidableLT α] (c : Circuit) (sums : List (Nat × α))
    (draws : List α) : Counts :=
  let picked : Table Nat Nat := draws.foldl
    (fun t r => t.update (Amplitudes.pick sums r) fun seen => seen.getD 0 + 1) Table.empty
  Counts.ofPairs (picked.entries.map fun e => (c.outcome e.1, e.2))

end Circuit
end LazyCast
