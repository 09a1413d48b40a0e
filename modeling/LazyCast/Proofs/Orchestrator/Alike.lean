import LazyCast.Proofs.Circuit.Instructions
import LazyCast.Proofs.Orchestrator.WellRead
/-!
Positions order the work and change nothing else. An instruction at another place of a ledger is
lowered to the same operations at that place, and an operation is evaluated, bound and simulated
alike wherever it stands.
-/
namespace LazyCast

def Instruction.Alike (i j : Instruction) : Prop := j = { i with seq := j.seq }

theorem Instruction.Alike.qubits {i j : Instruction} (alike : i.Alike j) : j.qubits = i.qubits := by
  rw [alike]
  rfl

namespace NativeOp

def placed (seq : Nat) (op : NativeOp) : NativeOp := { op with seq := seq }

def Alike (a b : NativeOp) : Prop := b = a.placed b.seq

theorem alike_placed (seq : Nat) (op : NativeOp) : op.Alike (op.placed seq) := rfl

theorem alike_map_placed (seq : Nat) (ops : List NativeOp) :
    List.Forall₂ Alike ops (ops.map (placed seq)) := by
  rw [List.forall₂_map_right_iff]
  exact List.forall₂_same.mpr fun op _ => alike_placed seq op

variable {a b : NativeOp}

theorem Alike.gate? (alike : a.Alike b) : b.gate? = a.gate? := by
  rw [alike]
  rfl

end NativeOp

namespace Lowering

theorem chain_placed (n seq : Nat) (qubits : List Qubit) :
    chain n qubits = (chain seq qubits).map (NativeOp.placed n) := by
  induction qubits with
  | nil => rfl
  | cons p rest ih =>
    cases rest with
    | nil => rfl
    | cons q rest =>
      rw [chain, chain, List.map_cons, ih]
      rfl

theorem flips_placed (n seq value : Nat) (qubits : List Qubit) :
    flips n value qubits = (flips seq value qubits).map (NativeOp.placed n) := by
  unfold flips
  rw [List.map_map]
  rfl

theorem lowerInit_placed (n seq : Nat) (operands : List Operand) :
    lowerInit n operands = (lowerInit seq operands).map (List.map (NativeOp.placed n)) := by
  unfold lowerInit
  cases initialValue operands with
  | error e => rfl
  | ok value =>
    cases distinctQubits 1 (operands.drop 1) with
    | error e => rfl
    | ok qubits =>
      simp only [bind, Except.bind, throw, throwThe, MonadExceptOf.throw]
      split
      · rfl
      · simp [pure, Except.pure, Except.map, flips_placed n seq]

theorem ofOpcode?_placed (opcode : String) (n seq : Nat) (operands : List Operand) :
    ofOpcode? opcode n operands =
      (ofOpcode? opcode seq operands).map (Except.map (List.map (NativeOp.placed n))) := by
  unfold ofOpcode?
  split
  case h_1 => exact congrArg some (lowerInit_placed n seq operands)
  case h_2 =>
    cases distinctQubits 1 operands with
    | error e => rfl
    | ok qubits =>
      have same : (qubits.map fun q => gate n "h" [q]) =
          (qubits.map fun q => gate seq "h" [q]).map (NativeOp.placed n) := by
        rw [List.map_map]
        rfl
      exact congrArg (fun ops => some (Except.ok ops)) same
  case h_3 =>
    cases distinctQubits 2 operands with
    | error e => rfl
    | ok qubits =>
      exact congrArg (fun ops => some (Except.ok (gate n "h" (qubits.take 1) :: ops)))
        (chain_placed n seq qubits)
  case h_10 =>
    cases leading isAngle .angle operands with
    | error e => rfl
    | ok angle => cases exactQubits 1 (operands.drop 1) <;> rfl
  case h_11 =>
    cases leading isCondition .condition operands with
    | error e => rfl
    | ok condition => cases exactQubits 1 (operands.drop 1) <;> rfl
  case h_12 => cases distinctQubits 1 operands <;> rfl
  case h_13 => cases distinctQubits 0 operands <;> rfl
  case h_14 => rfl
  case h_7 | h_8 | h_9 => cases exactQubits 2 operands <;> rfl
  all_goals cases exactQubits 1 operands <;> rfl

variable {i j : Instruction}

theorem lowerOne_alike (alike : i.Alike j) :
    lowerOne j = (lowerOne i).map (List.map (NativeOp.placed j.seq)) := by
  rw [alike]
  unfold lowerOne
  dsimp only
  rw [ofOpcode?_placed i.opcode j.seq i.seq]
  cases ofOpcode? i.opcode i.seq i.operands with
  | none => rfl
  | some lowered => cases lowered <;> rfl

end Lowering

section Alike
variable {i j : Instruction} {a b : NativeOp}

theorem Simulator.lowerOne_alike (s : Simulator) (alike : i.Alike j) :
    s.lowerOne j = (s.lowerOne i).map (List.map (NativeOp.placed j.seq)) := by
  have whole := Lowering.lowerOne_alike alike
  rw [alike] at whole ⊢
  unfold Simulator.lowerOne
  dsimp only at whole ⊢
  split
  · exact whole
  · rfl

theorem Evaluator.lowerOne_alike (e : Evaluator) (alike : i.Alike j) :
    e.lowerOne j = (e.lowerOne i).map (NativeOp.placed j.seq) := by
  have checks : Classical.checkOperands j = Classical.checkOperands i := by
    rw [alike]
    rfl
  unfold Evaluator.lowerOne
  rw [checks, alike]
  dsimp only
  split
  · cases Classical.checkOperands i <;> rfl
  · rfl

theorem CapabilityTable.resolve_alike (t : CapabilityTable) (host : Kind) (alike : i.Alike j) :
    t.resolve host j = t.resolve host i := by
  rw [alike]
  rfl

theorem Evaluator.step_alike (e : Evaluator) (alike : a.Alike b) (s : EvalState) :
    e.step b s = e.step a s := by
  rw [alike]
  rfl

theorem Program.bindOp_alike (registers : Registers) (alike : a.Alike b) :
    bindOp registers b = (bindOp registers a).map (Option.map (NativeOp.placed b.seq)) := by
  rw [alike]
  unfold bindOp
  dsimp only [NativeOp.placed]
  cases guardHolds registers a.guard with
  | error e => rfl
  | ok holds =>
    cases holds with
    | false => rfl
    | true => cases bound : a.args.mapM (bindOperand registers) <;> rfl

end Alike
end LazyCast
