import LazyCast.Proofs.Circuit.Listing
import LazyCast.Proofs.Passes.Sampled
/-!
What the listing of a run is worth. Of whatever a simulator has lowered, bound and run, the listing
records the run; its turns are by numerals that denote the simulated angles where the operands are
numbers, and by a name where an operand is a truth value or a float that is not finite.
-/
namespace LazyCast

open Decimal

def Operand.isNumber : Operand → Bool
  | .int _ => true
  | .float x => match ofFloat x with
    | .finite _ _ => true
    | _ => false
  | _ => false

namespace Decimal

/-- What stands for a float in a listing: a numeral, or the name of a value that has none. -/
inductive Spelled (text : String) (x : Float) : Prop where
  | numeral (denotes : Denotes text x)
  | truth (t : Bool) (named : text = if t then "true" else "false")
      (same : x = Float.ofInt (if t then 1 else 0))
  | nan (named : text = "NaN") (read : ofFloat x = .nan)
  | infinite (negative : Bool) (named : text = if negative then "-inf" else "inf")
      (read : ofFloat x = .infinite negative)

theorem Denotes.plain {text : String} {x : Float} (denotes : Denotes text x) : Qasm.Plain text := by
  obtain ⟨negative, q, _, read, _⟩ := denotes
  intro mem
  rcases mem_of_numeral? read _ mem with digit | point | minus
  · exact absurd digit (by decide)
  · exact absurd point (by decide)
  · exact absurd minus (by decide)

theorem Spelled.plain {text : String} {x : Float} (spelled : Spelled text x) : Qasm.Plain text := by
  cases spelled with
  | numeral denotes => exact denotes.plain
  | truth t named =>
    rw [named]
    cases t <;> decide
  | nan named =>
    rw [named]
    decide
  | infinite negative named =>
    rw [named]
    cases negative <;> decide

theorem log2_int64 (n : Int64) : n.toInt.natAbs.log2 ≤ 900 := by
  have least := n.le_toInt
  have most := n.toInt_lt
  rcases Nat.eq_zero_or_pos n.toInt.natAbs with zero | positive
  · rw [zero]
    decide
  · have less : n.toInt.natAbs.log2 < 64 := (Nat.log2_lt (by omega)).mpr (by omega)
    omega

end Decimal

section Operands
variable {a : Operand} {x : Float}

theorem Operand.spelled (angle : a.literal?.bind Value.toFloat? = some x) : Spelled a.text x := by
  cases a with
  | int n =>
    obtain rfl : Float.ofInt n.toInt = x := Option.some.inj angle
    exact .numeral (denotes_ofInt n.toInt (log2_int64 n))
  | float y =>
    obtain rfl : y = x := Option.some.inj angle
    cases read : ofFloat y with
    | nan => exact .nan (by rw [Operand.text, floatText, read, Reading.text]) read
    | infinite negative =>
      exact .infinite negative (by rw [Operand.text, floatText, read, Reading.text]) read
    | finite negative m => exact .numeral (denotes_floatText read)
  | bool t => exact .truth t rfl (Option.some.inj angle).symm
  | qubit q => cases angle
  | reg name => cases angle
  | symbol text => cases angle

theorem Operand.denotes_iff (angle : a.literal?.bind Value.toFloat? = some x) :
    Denotes a.text x ↔ a.isNumber = true := by
  have unnamed : ∀ {text : String}, numeral? text.toList = none → ¬ Denotes text x := by
    intro text none ⟨_, _, _, read, _⟩
    rw [none] at read
    cases read
  cases a with
  | int n =>
    obtain rfl : Float.ofInt n.toInt = x := Option.some.inj angle
    exact iff_of_true (denotes_ofInt n.toInt (log2_int64 n)) rfl
  | float y =>
    obtain rfl : y = x := Option.some.inj angle
    cases read : ofFloat y with
    | nan =>
      refine iff_of_false ?_ (by simp [isNumber, read])
      rw [Operand.text, floatText, read]
      exact unnamed (by decide)
    | infinite negative =>
      refine iff_of_false ?_ (by simp [isNumber, read])
      rw [Operand.text, floatText, read]
      cases negative
      · exact unnamed (by decide)
      · exact unnamed (by decide)
    | finite negative m => exact iff_of_true (denotes_floatText read) (by simp [isNumber, read])
  | bool t =>
    refine iff_of_false ?_ Bool.false_ne_true
    cases t
    · exact unnamed (by decide)
    · exact unnamed (by decide)
  | qubit q => cases angle
  | reg name => cases angle
  | symbol text => cases angle

end Operands

namespace Qasm
variable {op : NativeOp} {ops : List NativeOp} {allowed : Nat} {c : Circuit}

theorem turn_ofOp {qs : List Nat} {x : Float} {k : Nat}
    (made : Gate.ofOp op qs = .ok (some (.ry x k))) : op.code = "ry" ∧
      ∃ a, op.args.head? = some a ∧ a.literal?.bind Value.toFloat? = some x ∧
        angleText op = a.text := by
  unfold Gate.ofOp at made
  split at made
  case h_4 code =>
    split at made
    · next angle =>
      cases made
      obtain ⟨v, literal, float⟩ := Option.bind_eq_some_iff.mp angle
      obtain ⟨a, first, literal⟩ := Option.bind_eq_some_iff.mp literal
      obtain ⟨rest, args⟩ := List.head?_eq_some_iff.mp first
      exact ⟨code, a, first, by rw [literal]; exact float, by rw [angleText, args]⟩
    · cases made
  case h_10 =>
    split at made
    · cases made
    · split at made <;> cases made
  all_goals cases made

theorem spelled_turn {qs : List Nat} {x : Float} {k : Nat}
    (made : Gate.ofOp op qs = .ok (some (.ry x k))) : Spelled (angleText op) x := by
  obtain ⟨_, a, _, angle, text⟩ := turn_ofOp made
  rw [text]
  exact Operand.spelled angle

theorem turn_of_code (simulable : op.Simulable) (code : op.code = "ry") (place : Qubit → Nat) :
    ∃ x k, Gate.ofOp op (op.qubits.map place) = .ok (some (.ry x k)) := by
  obtain ⟨g, made⟩ := simulable
  have placed := Gate.ofOp_map op place op.qubits
  rw [made] at placed
  rw [placed]
  generalize op.qubits = qubits at made
  unfold Gate.ofOp at made
  split at made
  case h_4 =>
    split at made
    · cases made
      exact ⟨_, _, rfl⟩
    · cases made
  case h_10 =>
    split at made
    · cases made
    · split at made <;> cases made
  all_goals
    next other =>
    exact absurd (other.symm.trans code) (by decide)

theorem Fitting.records_spelled (fitting : Fitting ops) (made : Circuit.ofOps allowed ops = .ok c) :
    Records Spelled ops c (render ops c.dense c.measured) := by
  refine (fitting.records_iff made fun _ _ _ _ turn => (spelled_turn turn).plain).mpr ?_
  intro op mem x k turn
  exact spelled_turn turn

theorem Fitting.records_denotes (fitting : Fitting ops) (made : Circuit.ofOps allowed ops = .ok c) :
    Records Denotes ops c (render ops c.dense c.measured) ↔
      ∀ op ∈ ops, op.code = "ry" → ∃ a, op.args.head? = some a ∧ a.isNumber = true := by
  rw [fitting.records_iff made fun _ _ _ _ turn => (spelled_turn turn).plain]
  constructor
  · intro denotes op mem code
    obtain ⟨x, k, turn⟩ := turn_of_code (fitting.simulable op mem) code (Circuit.denseOf c.dense)
    obtain ⟨_, a, first, angle, text⟩ := turn_ofOp turn
    exact ⟨a, first, (Operand.denotes_iff angle).mp (text ▸ denotes op mem x k turn)⟩
  · intro numbers op mem x k turn
    obtain ⟨code, a, first, angle, text⟩ := turn_ofOp turn
    obtain ⟨a', first', number⟩ := numbers op mem code
    rw [first] at first'
    cases first'
    exact text ▸ (Operand.denotes_iff angle).mpr number

end Qasm

section Runs
variable {s : Simulator} {batch : List Instruction} {p b : Program} {registers : Registers} {run : Nat}

theorem Simulator.fitting_of_bound {c : Circuit} (lowered : s.lower batch = .ok p)
    (binds : p.bind registers = .ok b) (made : Circuit.ofOps s.maxQubits b.ops = .ok c) :
    Qasm.Fitting b.ops := by
  obtain ⟨_, _, ran⟩ := Except.bind_eq_ok.mp lowered
  obtain ⟨_, whole, _, reduces⟩ := lower_eq_ok (Pass.known_of_runAll ran) lowered
  have source := Program.source_of_bound whole reduces.sublist.subset binds
  obtain ⟨_, _, _, simulable, _⟩ := Circuit.ofOps_eq_ok.mp made
  refine ⟨simulable, fun x mem => ?_, fun x mem => ?_⟩
  · obtain ⟨i, ops, op, own, at_op, one⟩ := source x mem
    exact Program.apart_bindOp (Lowering.apart_of_lowered own op at_op) one
  · obtain ⟨i, ops, op, own, at_op, one⟩ := source x mem
    obtain ⟨code, qubits, _⟩ := (Program.bindOp_ok one).2 x rfl
    rw [code, qubits]
    exact Lowering.lone_of_lowered own op at_op

/-- The listing that comes with a sample records the run that it is from. Its turns are by decimal
    numerals of the simulated angles unless some turn is by a truth value or a float that is not
    finite: the name of that value stands there then. -/
theorem Simulator.run_listed {sample : MeasuredSample} (lowered : s.lower batch = .ok p)
    (binds : p.bind registers = .ok b) (executed : s.execute run b = .ok sample) :
    ∃ c provenance, Circuit.ofOps s.maxQubits b.ops = .ok c ∧ sample = s.sample run b.ops c ∧
      sample.provenance = some provenance ∧ Qasm.Records Spelled b.ops c provenance.qasm ∧
      (Qasm.Records Denotes b.ops c provenance.qasm ↔
        ∀ op ∈ b.ops, op.code = "ry" → ∃ a, op.args.head? = some a ∧ a.isNumber = true) := by
  obtain ⟨c, made, rfl⟩ := execute_eq_ok executed
  have fitting := fitting_of_bound lowered binds made
  exact ⟨c, _, made, rfl, rfl, fitting.records_spelled made, fitting.records_denotes made⟩

/-- A turn by a register that holds a whole number is listed with that number's digits. -/
theorem Simulator.steered_listed : ∃ p eval b c,
    (Orchestrator.twinSimulator .quantum ["cancel-inverses"]).lower steered = .ok p ∧
    Evaluator.builtin.run .empty steering = .ok eval ∧ p.bind eval.registers = .ok b ∧
    ∀ run, ∃ sample provenance,
      (Orchestrator.twinSimulator .quantum ["cancel-inverses"]).execute run b = .ok sample ∧
      sample.provenance = some provenance ∧
      provenance.qasm = "OPENQASM 2.0;\ninclude \"qelib1.inc\";\nqreg q[2];\ncreg c[1];\n" ++
        "h q[1];\ncx q[1],q[0];\nry(3) q[1];\nx q[0];\nmeasure q[1] -> c[0];" ∧
      Qasm.Records Denotes b.ops c provenance.qasm := by
  obtain ⟨p, lowered⟩ : ∃ p,
    (Orchestrator.twinSimulator .quantum ["cancel-inverses"]).lower steered = .ok p := ⟨_, rfl⟩
  obtain ⟨eval, ran⟩ : ∃ eval, Evaluator.builtin.run .empty steering = .ok eval := ⟨_, rfl⟩
  obtain ⟨b, binds⟩ : ∃ b, p.bind eval.registers = .ok b := by
    cases lowered
    cases ran
    exact ⟨_, rfl⟩
  obtain ⟨c, made⟩ : ∃ c, Circuit.ofOps 16 b.ops = .ok c := by
    cases lowered
    cases ran
    cases binds
    exact ⟨_, rfl⟩
  refine ⟨p, eval, b, c, lowered, ran, binds, fun run => ?_⟩
  have executed : (Orchestrator.twinSimulator .quantum ["cancel-inverses"]).execute run b = _ :=
    Simulator.execute_of_circuit made run
  obtain ⟨c', provenance, made', _, listed, _, denotes⟩ :=
    Simulator.run_listed lowered binds executed
  obtain rfl : c = c' := Except.ok.inj (made.symm.trans made')
  refine ⟨_, provenance, executed, listed, ?_, denotes.mpr ?_⟩
  · cases listed
    change Qasm.render b.ops c.dense c.measured = _
    cases lowered
    cases ran
    cases binds
    cases made
    decide
  · cases lowered
    cases ran
    cases binds
    decide

def turned : List Instruction := [⟨0, "ry", [.reg "t", .qubit 0], .quantum⟩]

def truth : List NativeOp := [.plain 0 "const" [.reg "t", .bool true]]

theorem Simulator.turned_by_truth : ∃ p eval b c sample provenance,
    (Orchestrator.twinSimulator .quantum []).lower turned = .ok p ∧
    Evaluator.builtin.run .empty truth = .ok eval ∧ p.bind eval.registers = .ok b ∧
    Circuit.ofOps 16 b.ops = .ok c ∧
    (Orchestrator.twinSimulator .quantum []).execute 0 b = .ok sample ∧
    sample.provenance = some provenance ∧
    provenance.qasm = "OPENQASM 2.0;\ninclude \"qelib1.inc\";\nqreg q[1];\ncreg c[1];\n" ++
      "ry(true) q[0];\nmeasure q[0] -> c[0];" ∧
    ¬ Qasm.Records Denotes b.ops c provenance.qasm := by
  obtain ⟨p, lowered⟩ : ∃ p, (Orchestrator.twinSimulator .quantum []).lower turned = .ok p :=
    ⟨_, rfl⟩
  obtain ⟨eval, ran⟩ : ∃ eval, Evaluator.builtin.run .empty truth = .ok eval := ⟨_, rfl⟩
  obtain ⟨b, binds⟩ : ∃ b, p.bind eval.registers = .ok b := by
    cases lowered
    cases ran
    exact ⟨_, rfl⟩
  obtain ⟨c, made⟩ : ∃ c, Circuit.ofOps 16 b.ops = .ok c := by
    cases lowered
    cases ran
    cases binds
    exact ⟨_, rfl⟩
  have fitting := Simulator.fitting_of_bound lowered binds made
  refine ⟨p, eval, b, c, _, _, lowered, ran, binds, made, Simulator.execute_of_circuit made 0, rfl,
    ?_, (fitting.records_denotes made).not.mpr fun numbers => ?_⟩
  · cases lowered
    cases ran
    cases binds
    cases made
    decide
  · cases lowered
    cases ran
    cases binds
    obtain ⟨a, first, number⟩ := numbers _ List.mem_cons_self rfl
    cases first
    exact Bool.false_ne_true number

end Runs
end LazyCast
