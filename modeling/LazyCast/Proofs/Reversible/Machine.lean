import LazyCast.Proofs.Circuit.Definite
import LazyCast.Classical
import LazyCast.Proofs.Orchestrator.Binding
/-!
Ledgers that turn no qubit, as programs on bits. Every qubit is a bit that starts at zero, beside
the registers of the evaluator; instructions run one after the other, none of them put off. Each
instruction of the simulator is lowered to operations that move basis states as it changes the bits.
-/
namespace LazyCast

def reversibleOpcodes : List String := ["init", "x", "cx", "swap", "z", "cz", "x_if", "barrier"]

def evaluatedOpcodes : List String :=
  ["const", "mov", "add", "sub", "mul", "div", "eq", "ne", "lt", "le", "not", "and", "or", "xor",
    "cast"]

structure BitState where
  bits : Qubit → Bool
  eval : EvalState

namespace BitState

def zero : BitState := ⟨fun _ => false, .empty⟩

def flip (b : BitState) (qubits : List Qubit) (n : Nat) : BitState :=
  { b with bits := fun q => b.bits q ^^ (decide (q ∈ qubits) && n.testBit (qubits.idxOf q)) }

def controlledFlip (b : BitState) : List Qubit → BitState
  | [p, q] => if b.bits p then b.flip [q] 1 else b
  | _ => b

def exchange (b : BitState) : List Qubit → BitState
  | [p, q] =>
    { b with bits := fun k => if k = p then b.bits q else if k = q then b.bits p else b.bits k }
  | _ => b

def literal : List Operand → Nat
  | .int n :: _ => n.toInt.toNat
  | .bool v :: _ => v.toNat
  | _ => 0

def condition (b : BitState) : List Operand → Except ExecutionCause Bool
  | o :: _ => (Classical.valueOf b.eval.registers o).map Value.truthy
  | [] => .ok false

def step (b : BitState) (i : Instruction) : Except ExecutionCause BitState :=
  match i.opcode with
  | "init" => .ok (b.flip i.qubits (literal i.operands))
  | "x" => .ok (b.flip i.qubits 1)
  | "cx" => .ok (b.controlledFlip i.qubits)
  | "swap" => .ok (b.exchange i.qubits)
  | "x_if" =>
    (b.condition i.operands).map fun holds => if holds then b.flip i.qubits 1 else b
  | "z" => .ok b
  | "cz" => .ok b
  | "barrier" => .ok b
  | code =>
    (Classical.stepCause (.plain i.seq code i.operands) b.eval).map fun eval =>
      { b with eval := eval }

def run (b : BitState) (is : List Instruction) : Except ExecutionCause BitState := is.foldlM step b

/-- The number with the bits of some qubits, the first one the least significant. -/
def number (b : BitState) : List Qubit → Nat
  | [] => 0
  | q :: rest => (b.bits q).toNat + 2 * b.number rest

theorem testBit_number (b : BitState) (qubits : List Qubit) (i : Nat) :
    (b.number qubits).testBit i = ((qubits[i]?).map b.bits).getD false := by
  induction qubits generalizing i with
  | nil => simp [number]
  | cons q rest ih =>
    cases i with
    | zero => cases set : b.bits q <;> simp [number, set]
    | succ i =>
      have half : (b.number (q :: rest)) / 2 = b.number rest := by
        cases set : b.bits q
        · simp [number, set]
        · simp [number, set]
          omega
      rw [Nat.testBit_add_one, half, ih]
      rfl

theorem number_lt (b : BitState) (qubits : List Qubit) : b.number qubits < 2 ^ qubits.length := by
  induction qubits with
  | nil => exact Nat.one_pos
  | cons q rest ih =>
    have digit := (b.bits q).toNat_le
    rw [number, List.length_cons, Nat.pow_succ]
    omega

theorem number_flip_zero {qubits : List Qubit} {n : Nat} (nodup : qubits.Nodup)
    (fits : n < 2 ^ qubits.length) : (zero.flip qubits n).number qubits = n := by
  refine Nat.eq_of_testBit_eq fun i => ?_
  rw [testBit_number]
  by_cases inside : i < qubits.length
  · rw [List.getElem?_eq_getElem inside]
    simp [flip, zero, nodup.idxOf_getElem i inside]
  · rw [List.getElem?_eq_none (Nat.le_of_not_lt inside)]
    exact (Nat.testBit_lt_two_pow (fits.trans_le
      (Nat.pow_le_pow_right (by decide) (Nat.le_of_not_lt inside)))).symm

theorem run_cons {b last : BitState} {i : Instruction} {rest : List Instruction}
    (ran : b.run (i :: rest) = .ok last) :
    ∃ next, b.step i = .ok next ∧ next.run rest = .ok last :=
  Except.bind_eq_ok.mp ran

def Shown (b : BitState) (s : Nat) : Prop := ∀ q, s.testBit q = b.bits q

theorem shown_zero : zero.Shown 0 := fun q => Nat.zero_testBit q

theorem Shown.number {b : BitState} {s : Nat} (shown : b.Shown s) (qubits : List Qubit) :
    gather qubits s = b.number qubits := by
  induction qubits with
  | nil => rfl
  | cons q rest ih => rw [gather, BitState.number, ih, shown q]

theorem Shown.flip {b : BitState} {s : Nat} (shown : b.Shown s) (q : Qubit) :
    (b.flip [q] 1).Shown (Amplitudes.flip q s) := by
  intro k
  rw [Amplitudes.testBit_flip, shown k]
  by_cases here : q = k
  · subst here
    simp [BitState.flip]
  · simp [BitState.flip, here, Ne.symm here]

theorem Shown.controlledFlip {b : BitState} {s : Nat} (shown : b.Shown s) {p q : Qubit}
    (apart : p ≠ q) : (b.controlledFlip [p, q]).Shown ((Gate.cx p q).moves s) := by
  by_cases set : b.bits p = true
  · have moved : (Gate.cx p q).moves s = Amplitudes.flip q s := if_pos ⟨(shown p).trans set, apart⟩
    rw [moved, BitState.controlledFlip, if_pos set]
    exact shown.flip q
  · have still : (Gate.cx p q).moves s = s := if_neg fun on => set ((shown p).symm.trans on.1)
    rw [still, BitState.controlledFlip, if_neg set]
    exact shown

theorem Shown.exchange {b : BitState} {s : Nat} (shown : b.Shown s) {p q : Qubit}
    (apart : p ≠ q) : (b.exchange [p, q]).Shown ((Gate.swap p q).moves s) := by
  intro k
  have first := shown p
  have second := shown q
  by_cases same : s.testBit p = s.testBit q
  · have still : (Gate.swap p q).moves s = s := if_pos same
    rw [still, shown k]
    simp only [BitState.exchange]
    split
    · next here => rw [here, ← first, ← second, same]
    · split
      · next here => rw [here, ← first, ← second, same]
      · rfl
  · have moved : (Gate.swap p q).moves s = Amplitudes.flip q (Amplitudes.flip p s) := if_neg same
    have other : (!s.testBit p) = s.testBit q := by
      cases hp : s.testBit p <;> cases hq : s.testBit q <;> simp_all
    rw [moved, Amplitudes.testBit_flip, Amplitudes.testBit_flip]
    simp only [BitState.exchange]
    by_cases atp : k = p
    · subst atp
      simp [Ne.symm apart, other, second]
    · by_cases atq : k = q
      · subst atq
        simp [atp, apart, ← other, first]
      · simp [atp, atq, Ne.symm atp, Ne.symm atq, shown k]

end BitState
end LazyCast
