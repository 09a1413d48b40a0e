import LazyCast.Proofs.Orchestrator.Routed
import LazyCast.Proofs.Passes.Lowered
/-!
Simulators as executors. A simulator answers a program as soon as the program has a circuit on few
enough qubits, whatever it has run before, and its failures are final.
-/
namespace LazyCast

theorem Gate.ofOp_final {op : NativeOp} {qs : List Nat} {e : ExecutionCause}
    (fails : ofOp op qs = .error e) : e.isTransient = false := by
  by_cases known : op.code ∈ codes
  · simp only [codes, List.mem_cons, List.not_mem_nil, or_false] at known
    rcases known with c | c | c | c | c | c | c | c | c <;>
      rcases qs with _ | ⟨p, _ | ⟨q, qs⟩⟩ <;> simp [ofOp, c] at fails <;>
      first
        | (subst fails; rfl)
        | (cases angle : angleOf? op <;> simp [angle] at fails; subst fails; rfl)
  · simp only [codes, List.mem_cons, List.not_mem_nil, or_false, not_or] at known
    rcases qs with _ | ⟨p, _ | ⟨q, qs⟩⟩ <;> simp [ofOp, known] at fails <;> subst fails <;> rfl

theorem Circuit.gatesOf_final {dense : Table Qubit Nat} {ops : List NativeOp} {e : ExecutionCause}
    (fails : gatesOf dense ops = .error e) : e.isTransient = false := by
  obtain ⟨op, _, fails⟩ := Except.mapM_eq_error (Except.map_eq_error.mp fails)
  exact Gate.ofOp_final fails

/-- What a program lacks for a circuit, time does not bring. -/
theorem Circuit.ofOps_final {allowed : Nat} {ops : List NativeOp} {e : ExecutionCause}
    (fails : ofOps allowed ops = .error e) : e.isTransient = false := by
  rw [ofOps_eq] at fails
  split at fails
  · split at fails
    · cases fails
      rfl
    · split at fails
      · cases fails
        rfl
      · cases gates : gatesOf (denseNumbers (touched ops)) ops with
        | error f =>
          rw [gates] at fails
          cases fails
          exact gatesOf_final gates
        | ok gs =>
          rw [gates] at fails
          cases fails
  · cases fails
    rfl

namespace Simulator
variable {s : Simulator} {p : Program}

theorem verdict_subCompiler (s : Simulator) (usage : Usage) (p : Program) (kind : Kind)
    (limit : Option Nat) : (s.subCompiler.execute usage p).verdict kind limit =
      (s.execute usage.samplings p).map .measured := by
  have early : Worker.isLate limit 0 = false := by cases limit <;> simp [Worker.isLate]
  simp only [Simulator.subCompiler]
  cases s.execute usage.samplings p with
  | error e => simp [Attempt.verdict, early, Except.map]
  | ok m => simp [Attempt.verdict, early, Except.map]

theorem execute_eq_ok {run : Nat} {m : MeasuredSample} (ok : s.execute run p = .ok m) :
    ∃ c, Circuit.ofOps s.maxQubits p.ops = .ok c ∧ m = s.sample run p.ops c := by
  unfold execute at ok
  obtain ⟨c, made, rfl⟩ := Except.map_eq_ok.mp ok
  cases circuit : Circuit.ofOps s.maxQubits p.ops with
  | error e =>
    rw [circuit] at made
    cases made
  | ok c' =>
    rw [circuit] at made
    cases made
    exact ⟨c, rfl, rfl⟩

theorem execute_of_circuit {c : Circuit} (made : Circuit.ofOps s.maxQubits p.ops = .ok c)
    (run : Nat) : s.execute run p = .ok (s.sample run p.ops c) := by
  unfold execute
  rw [made]
  rfl

theorem execute_final {run : Nat} {e : Fault} (fails : s.execute run p = .error e) :
    mayRetry e = false := by
  unfold execute at fails
  cases circuit : Circuit.ofOps s.maxQubits p.ops with
  | ok c =>
    rw [circuit] at fails
    cases fails
  | error f =>
    rw [circuit] at fails
    cases fails
    have final := Circuit.ofOps_final circuit
    simp [mayRetry, Fault.isTransient, final]

def spare : Simulator := ⟨"", ⟨.classical, ⟨.empty, .empty⟩, true⟩, [], 1, 0, 1⟩

end Simulator

namespace Orchestrator
variable {r : Registry} {o : Orchestrator}

theorem Ready.simulates (ready : o.Ready (simulators r)) (kind : Kind) :
    ∃ s : Simulator, o.compilersOf Simulator.spare.subCompiler kind = s.subCompiler ∧
      (o.workers.contains kind = true → r.Serves kind s) := by
  unfold compilersOf
  cases found : o.workers.find? kind with
  | none => exact ⟨_, rfl, fun covered => by simp [Table.contains, found] at covered⟩
  | some w =>
    obtain ⟨s, serves, compiler⟩ := (ready kind w found).belongs
    exact ⟨s, compiler, fun _ => serves⟩

theorem Ready.decides (ready : o.Ready (simulators r)) (policy : SupervisionPolicy) :
    Decisive policy (o.compilersOf Simulator.spare.subCompiler) := by
  refine Or.inr fun p usage e fails => ?_
  obtain ⟨s, compiler, _⟩ := ready.simulates p.kind
  simp only [executorOf, compiler, Simulator.verdict_subCompiler] at fails
  cases ran : s.execute (usage p.kind).samplings p with
  | ok m =>
    rw [ran] at fails
    cases fails
  | error f =>
    rw [ran] at fails
    cases fails
    exact Simulator.execute_final ran

def Circuits (r : Registry) (p : Program) (c : Circuit) : Prop :=
  ∃ s, r.Serves p.kind s ∧ Circuit.ofOps s.maxQubits p.ops = .ok c

/-- A sample of a program, drawn from its circuit by the simulator of its kind. -/
def Samples (r : Registry) (p : Program) (c : Circuit) (m : MeasuredSample) : Prop :=
  ∃ s run, r.Serves p.kind s ∧ Circuit.ofOps s.maxQubits p.ops = .ok c ∧ m = s.sample run p.ops c

theorem Samples.circuits {p : Program} {c : Circuit} {m : MeasuredSample}
    (samples : Samples r p c m) : Circuits r p c := by
  obtain ⟨s, _, serves, made, _⟩ := samples
  exact ⟨s, serves, made⟩

theorem Samples.qubits {p : Program} {c : Circuit} {m : MeasuredSample}
    (samples : Samples r p c m) : m.qubits = c.measured := by
  obtain ⟨_, _, _, _, rfl⟩ := samples
  rfl

theorem Ready.answers (ready : o.Ready (simulators r)) {p : Program}
    (covered : o.workers.contains p.kind = true) (limit : Option Nat) (usage : Kind → Usage) :
    (∀ sample, (executorOf (o.compilersOf Simulator.spare.subCompiler) limit p usage).1 =
        .ok sample → ∃ m c, sample = .measured m ∧ Samples r p c m) ∧
      ∀ c f, Circuits r p c →
        (executorOf (o.compilersOf Simulator.spare.subCompiler) limit p usage).1 ≠ .error f := by
  obtain ⟨s, compiler, serves⟩ := ready.simulates p.kind
  have serves := serves covered
  simp only [executorOf, compiler, Simulator.verdict_subCompiler]
  refine ⟨fun sample ok => ?_, fun c f circuit fails => ?_⟩
  · obtain ⟨m, ran, rfl⟩ := Except.map_eq_ok.mp ok
    obtain ⟨c, made, drawn⟩ := Simulator.execute_eq_ok ran
    exact ⟨m, c, rfl, s, _, serves, made, drawn⟩
  · obtain ⟨s', serves', made⟩ := circuit
    rw [serves'.unique serves] at made
    rw [Simulator.execute_of_circuit made] at fails
    cases fails

end Orchestrator
end LazyCast
