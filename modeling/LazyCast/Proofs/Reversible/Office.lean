import LazyCast.Proofs.Passes.Measured
import LazyCast.Proofs.Reversible.Traced
/-!
The office of one simulator beside the evaluator. It has a worker for the quantum kind only, and
routes every instruction on bits by its opcode: the evaluator's own to the evaluator, whatever kind
they were declared for, and all others to the simulator, which hosts them.
-/
namespace LazyCast

def Descriptor.simulating (passes : List String) (metadata : Json) : Descriptor :=
  { Descriptor.stateVector with passes := passes, metadata := metadata }

def Capabilities.simulating : Capabilities :=
  ⟨.quantum, InstructionSet.stateVector.intersect .stateVector, true⟩

section Descriptors
variable {passes : List String} {metadata : Json} {r : Registry} {sim : Simulator}

theorem Simulator.of_simulating
    (made : Simulator.ofDescriptor (.simulating passes metadata) = .ok sim) :
    sim.capabilities = .simulating ∧ sim.shots ≠ 0 ∧ sim.maxQubits ≤ qubitLimit := by
  unfold Simulator.ofDescriptor at made
  dsimp only at made
  split at made
  · cases made
  · rename_i some
    split at made
    · cases made
    · rename_i few
      cases made
      simp only [not_or] at some few
      exact ⟨rfl, some.1, Nat.le_of_not_lt few.2⟩

variable (made : Registry.ofDescriptors [.classical, .simulating passes metadata] = .ok r)
include made

theorem Registry.descriptors_simulating : r.descriptors =
    ⟨[("classical", .classical), ("quantum", .simulating passes metadata)]⟩ := by
  have added := (made_of_ofDescriptors made).added
  simp only [addAll, bind, Except.bind] at added
  have classical : Descriptor.classical.validate = .ok () := rfl
  rw [classical] at added
  cases valid : (Descriptor.simulating passes metadata).validate with
  | error e =>
    rw [valid] at added
    cases added
  | ok u =>
    rw [valid] at added
    have order : Key.before "quantum" "classical" = false := by decide
    rw [← Except.ok.inj added]
    simp [Table.insert, Table.update, Table.updateEntry, Table.empty, Descriptor.simulating,
      Descriptor.classical, Descriptor.stateVector, order]

theorem Registry.classical_simulating : r.classical = .classical := by
  have found := r.classical_found
  rw [descriptors_simulating made] at found
  exact (Option.some.inj found).symm

theorem Registry.kinds_simulating : r.kinds = ⟨[.classical, .quantum]⟩ := by
  rw [kinds, descriptors_simulating made]
  rfl

theorem Registry.require_simulating :
    r.require .quantum = .ok (.simulating passes metadata) := by
  refine require_eq_ok.mpr ⟨?_, rfl⟩
  rw [find?, descriptors_simulating made]
  rfl

theorem Registry.serves_simulating
    (simulator : Simulator.ofDescriptor (.simulating passes metadata) = .ok sim) :
    r.Serves .quantum sim := ⟨_, require_simulating made, simulator⟩

theorem Registry.kind_of_require {kind : Kind} {d : Descriptor} (required : r.require kind = .ok d) :
    kind = .classical ∨ kind = .quantum := by
  obtain ⟨found, level⟩ := require_eq_ok.mp required
  rw [find?, descriptors_simulating made] at found
  obtain ⟨name, height⟩ := kind
  rcases List.mem_cons.mp (Table.mem_of_find? found) with same | mem
  · cases same
    exact Or.inl (congrArg (Kind.mk _) level.symm)
  · cases List.mem_singleton.mp mem
    exact Or.inr (congrArg (Kind.mk _) level.symm)

theorem SpawnPlan.compute_simulating {referenced : List Kind} {plan : SpawnPlan}
    (computed : SpawnPlan.compute r referenced = .ok plan) :
    plan = ⟨[.classical]⟩ ∨ plan = ⟨[.classical, .quantum]⟩ := by
  have first : (OrderedSet.empty.insert r.classical.kind : SpawnPlan) = ⟨[.classical]⟩ := by
    rw [Registry.classical_simulating made]
    rfl
  have reach : ∀ {p q : SpawnPlan} {kind : Kind},
      p = ⟨[.classical]⟩ ∨ p = ⟨[.classical, .quantum]⟩ → SpawnPlan.reach r p kind = .ok q →
        q = ⟨[.classical]⟩ ∨ q = ⟨[.classical, .quantum]⟩ := by
    intro p q kind before reached
    obtain ⟨d, required, rfl⟩ := Except.map_eq_ok.mp reached
    rw [Registry.kinds_simulating made]
    rcases before with rfl | rfl <;>
      rcases Registry.kind_of_require made required with rfl | rfl <;> decide
  unfold SpawnPlan.compute at computed
  have start : (OrderedSet.empty.insert r.classical.kind : SpawnPlan) = ⟨[.classical]⟩ ∨
      (OrderedSet.empty.insert r.classical.kind : SpawnPlan) = ⟨[.classical, .quantum]⟩ :=
    Or.inl first
  generalize (OrderedSet.empty.insert r.classical.kind : SpawnPlan) = p at computed start
  induction referenced generalizing p with
  | nil =>
    cases computed
    exact start
  | cons kind rest ih =>
    rw [List.foldlM_cons] at computed
    obtain ⟨q, reached, computed⟩ := Except.bind_eq_ok.mp computed
    exact ih q computed (reach start reached)

end Descriptors

def CapabilityTable.simulating : CapabilityTable :=
  .ofList [.simulating] Evaluator.builtin.capabilities

namespace Orchestrator

structure BitOffice (r : Registry) (sim : Simulator) (o : Orchestrator) : Prop where
  ready : o.Ready (simulators r)
  serves : r.Serves .quantum sim
  plan : o.plan = ⟨[.classical, .quantum]⟩
  classical : o.classical = Evaluator.builtin
  capabilities : o.capabilities = .simulating
  workers : o.workers.contains .quantum = true

theorem bitOffice_of_reachable {passes : List String} {metadata : Json} {r : Registry}
    (made : Registry.ofDescriptors [.classical, .simulating passes metadata] = .ok r)
    {sim : Simulator}
    (simulator : Simulator.ofDescriptor (.simulating passes metadata) = .ok sim)
    {policy : SupervisionPolicy} {o : Orchestrator}
    (reachable : Reachable r .builtin ⟨[.classical, .quantum]⟩ policy o) : BitOffice r sim o := by
  have simulated : Simulated [.classical, .simulating passes metadata] := by
    intro d mem other
    simp only [List.mem_cons, List.not_mem_nil, or_false] at mem
    rcases mem with rfl | rfl
    · exact absurd rfl other
    · rfl
  obtain ⟨first, started, same, workers⟩ := reachable.continues
  obtain ⟨compilers, working, rfl⟩ := start_eq started
  have needed : ([.classical, .quantum] : List Kind).filter (fun k => !k.isClassical) =
      [.quantum] := by decide
  simp only [needed] at working
  obtain ⟨d, c, others, required, instantiated, rest, rfl⟩ := startWorkers_cons working
  cases rest
  rw [Registry.require_simulating made] at required
  cases required
  have one : c = sim.subCompiler := by
    rw [instantiate_stateVector rfl, simulator] at instantiated
    exact (Except.ok.inj instantiated).symm
  subst one
  have offers := (Simulator.of_simulating simulator).1
  refine ⟨reachable.ready (simulators_staff (Registry.made_of_ofDescriptors made) simulated),
    Registry.serves_simulating made simulator, same.plan, ?_, ?_, ?_⟩
  · rw [same.classical, Registry.classical_simulating made]
    rfl
  · rw [same.capabilities, Registry.classical_simulating made]
    simp only [List.map_cons, List.map_nil, Simulator.subCompiler, offers]
    rfl
  · rw [workers]
    rfl

end Orchestrator

def Instruction.IsDeclared (i : Instruction) : Prop := i.kind = .classical ∨ i.kind = .quantum

instance (i : Instruction) : Decidable i.IsDeclared := inferInstanceAs (Decidable (_ ∨ _))

section Routing
variable {i : Instruction}

theorem executes_evaluated (declared : i.IsDeclared) (opcode : i.opcode ∈ evaluatedOpcodes) :
    CapabilityTable.simulating.Executes .quantum i .classical := by
  obtain ⟨seq, code, operands, kind⟩ := i
  dsimp only at opcode
  simp only [evaluatedOpcodes, List.mem_cons, List.not_mem_nil, or_false] at opcode
  rcases declared with rfl | rfl <;>
    rcases opcode with rfl | rfl | rfl | rfl | rfl | rfl | rfl | rfl | rfl | rfl | rfl | rfl |
      rfl | rfl | rfl <;> exact ⟨_, rfl⟩

theorem executes_hosted (declared : i.IsDeclared)
    (opcode : i.opcode ∈ "measure" :: reversibleOpcodes) :
    CapabilityTable.simulating.Executes .quantum i .quantum := by
  obtain ⟨seq, code, operands, kind⟩ := i
  dsimp only at opcode
  simp only [reversibleOpcodes, List.mem_cons, List.not_mem_nil, or_false] at opcode
  rcases declared with rfl | rfl <;>
    rcases opcode with rfl | rfl | rfl | rfl | rfl | rfl | rfl | rfl | rfl <;> exact ⟨_, rfl⟩

end Routing
end LazyCast
