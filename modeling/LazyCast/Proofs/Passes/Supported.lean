import LazyCast.Proofs.Orchestrator.Faults
import LazyCast.Proofs.Passes.Measured
/-!
Routing and lowering agree. The capability table says of the evaluator and of every worker just what
its sub-compiler supports, and every opcode that a simulator supports has gates; so what is routed to
an executor fails there, if at all, for its operands.
-/
namespace LazyCast

namespace CapabilityTable
variable {t : CapabilityTable} {host kind : Kind} {i : Instruction} {opcode : String}

theorem mem_place {c d : Capabilities} {placed : List Capabilities} (mem : d ∈ place c placed) :
    d = c ∨ d ∈ placed := by
  induction placed with
  | nil => exact Or.inl (List.mem_singleton.mp mem)
  | cons p ps ih =>
    rw [place] at mem
    split at mem
    · exact Or.inr mem
    · split at mem
      · exact List.mem_cons.mp mem
      · rcases List.mem_cons.mp mem with rfl | mem
        · exact Or.inr List.mem_cons_self
        · exact (ih mem).imp_right (List.mem_cons_of_mem p)

theorem mem_ofList {entries : List Capabilities} {universal c : Capabilities}
    (mem : c ∈ (ofList entries universal).entries) : c ∈ entries := by
  have upto : ∀ (entries placed : List Capabilities),
      c ∈ entries.foldl (fun placed c => place c placed) placed → c ∈ entries ∨ c ∈ placed := by
    intro entries
    induction entries with
    | nil => exact fun placed mem => Or.inr mem
    | cons d ds ih =>
      intro placed mem
      rcases ih _ mem with later | placed
      · exact Or.inl (List.mem_cons_of_mem d later)
      · rcases mem_place placed with rfl | placed
        · exact Or.inl List.mem_cons_self
        · exact Or.inr placed
  rcases upto entries [] mem with listed | none
  · exact listed
  · cases none

theorem supported_of_kindSupports (supports : t.kindSupports kind opcode = true) :
    (kind = t.universal.kind ∧ t.universal.supports opcode = true) ∨
      ∃ c ∈ t.entries, c.kind = kind ∧ c.supports opcode = true := by
  unfold kindSupports find? at supports
  by_cases universal : kind = t.universal.kind
  · rw [if_pos universal] at supports
    exact Or.inl ⟨universal, supports⟩
  · rw [if_neg universal] at supports
    cases found : t.entries.find? fun c => decide (c.kind = kind) with
    | none => rw [found] at supports; cases supports
    | some c =>
      rw [found] at supports
      have same := List.find?_some (p := fun c : Capabilities => decide (c.kind = kind)) found
      exact Or.inr ⟨c, List.mem_of_find?_eq_some found, of_decide_eq_true same, supports⟩

theorem Executes.supported (executes : t.Executes host i kind) :
    (kind = t.universal.kind ∧ t.universal.supports i.opcode = true) ∨
      ∃ c ∈ t.entries, c.kind = kind ∧ c.supports i.opcode = true := by
  obtain ⟨route, resolved⟩ := executes
  unfold resolve at resolved
  split at resolved
  · rename_i embedded
    cases resolved
    exact supported_of_kindSupports (Bool.and_eq_true_iff.mp embedded).2
  · split at resolved
    · rename_i native
      cases resolved
      exact supported_of_kindSupports native
    · split at resolved
      · rename_i c escalates
        cases resolved
        have supports := List.find?_some (p := fun c : Capabilities => c.supports i.opcode) escalates
        exact Or.inr ⟨c, (List.mem_filter.mp (List.mem_of_find?_eq_some escalates)).1, rfl, supports⟩
      · split at resolved
        · rename_i universal
          cases resolved
          exact Or.inl ⟨rfl, universal⟩
        · cases resolved

theorem executes_of_assigned {instructions : List Instruction} {routing : RoutingPlan}
    (planned : t.plan host instructions = .ok routing) :
    ∀ a ∈ routing.assignments, ∃ i ∈ instructions, t.Executes host i a.executor := by
  intro a mem
  unfold plan at planned
  obtain ⟨assignments, each, rfl⟩ := Except.map_eq_ok.mp planned
  obtain ⟨i, among, assigned⟩ := (Except.mapM_eq_ok each).2 a mem
  obtain ⟨⟨kind, route⟩, resolved, rfl⟩ := Except.map_eq_ok.mp assigned
  exact ⟨i, among, route, resolved⟩

end CapabilityTable

/-- The fault names an instruction of the batch, and what is wrong with its operands. -/
def Fault.Malforms (batch : List Instruction) (e : Fault) : Prop :=
  ∃ i ∈ batch, ∃ cause, e = .malformed i.opcode cause

theorem Simulator.supports_known {d : Descriptor} {s : Simulator}
    (made : Simulator.ofDescriptor d = .ok s) {opcode : String}
    (supports : s.capabilities.supports opcode = true) :
    InstructionSet.stateVector.contains opcode = true := by
  unfold ofDescriptor at made
  simp only at made
  split at made
  · cases made
  · split at made
    · cases made
    · cases made
      unfold Capabilities.supports InstructionSet.contains InstructionSet.intersect at supports
      rw [OrderedSet.contains_inter, Bool.and_eq_true] at supports
      exact supports.2

theorem Lowering.ofOpcode?_known {opcode : String}
    (known : InstructionSet.stateVector.contains opcode = true) (seq : Nat)
    (operands : List Operand) : ∃ r, ofOpcode? opcode seq operands = some r := by
  have listed : opcode ∈ ["init", "redim", "sync", "x", "z", "h", "cx", "cz", "swap", "ry", "x_if",
    "measure", "barrier"] := InstructionSet.mem_of_contains known
  simp only [List.mem_cons, List.not_mem_nil, or_false] at listed
  rcases listed with rfl | rfl | rfl | rfl | rfl | rfl | rfl | rfl | rfl | rfl | rfl | rfl | rfl <;>
    exact ⟨_, rfl⟩

theorem Simulator.malforms_of_lower {d : Descriptor} {s : Simulator}
    (made : Simulator.ofDescriptor d = .ok s)
    (known : ∀ pass ∈ s.passes, (Pass.ofName? pass).isSome) {batch : List Instruction}
    (supports : ∀ i ∈ batch, s.capabilities.supports i.opcode = true) {e : Fault}
    (failed : s.lower batch = .error e) : e.Malforms batch := by
  cases plain : s.lowerAll batch with
  | ok p =>
    obtain ⟨q, lowered, _⟩ := lower_of_lowerAll known plain
    cases failed.symm.trans lowered
  | error e' =>
    have same : s.lower batch = .error e' := by
      unfold lower
      rw [plain]
      rfl
    cases failed.symm.trans same
    obtain ⟨i, mem, failed⟩ := Except.mapM_eq_error (Except.map_eq_error.mp plain)
    refine ⟨i, mem, ?_⟩
    obtain ⟨r, shape⟩ :=
      Lowering.ofOpcode?_known (supports_known made (supports i mem)) i.seq i.operands
    unfold lowerOne Lowering.lowerOne at failed
    rw [if_pos (supports i mem), shape] at failed
    cases r with
    | ok ops => cases failed
    | error cause =>
      cases failed
      exact ⟨cause, rfl⟩

theorem Evaluator.malforms_of_lower {e : Evaluator} {batch : List Instruction}
    (supports : ∀ i ∈ batch, e.capabilities.supports i.opcode = true) {f : Fault}
    (failed : e.lower batch = .error f) : f.Malforms batch := by
  obtain ⟨i, mem, failed⟩ := Except.mapM_eq_error (Except.map_eq_error.mp failed)
  refine ⟨i, mem, ?_⟩
  unfold lowerOne at failed
  rw [if_pos (supports i mem)] at failed
  have failed := Except.map_eq_error.mp failed
  unfold Classical.checkOperands at failed
  dsimp only at failed
  split at failed
  · cases failed
  · cases failed
    exact ⟨_, rfl⟩

namespace Orchestrator
variable {ds : List Descriptor} {r : Registry} {o : Orchestrator}

structure Tabled (r : Registry) (o : Orchestrator) : Prop where
  bottom : o.classical.capabilities.kind = .classical
  universal : o.capabilities.universal = o.classical.capabilities
  entries : ∀ c ∈ o.capabilities.entries, c.kind.isClassical = false ∧
    o.workers.contains c.kind = true ∧
      ∃ s, r.Serves c.kind s ∧ c.instructions = s.capabilities.instructions

theorem tabled_of_reachable (made : Registry.Made ds r) (simulated : Simulated ds)
    {plan : SpawnPlan} {policy : SupervisionPolicy}
    (reachable : Reachable r .builtin plan policy o) : Tabled r o := by
  obtain ⟨first, started, continues⟩ := reachable.continues
  obtain ⟨compilers, workers, rfl⟩ := start_eq started
  have needed : ∀ kind ∈ plan.elems.filter fun k => !k.isClassical, kind.isClassical = false := by
    intro kind mem
    simpa using (List.mem_filter.mp mem).2
  have staffed := startWorkers_staffed (simulators_staff made simulated) needed workers
  have kinds := startWorkers_kinds workers
  have evaluates : o.classical = Evaluator.ofDescriptor r.classical := continues.1.classical
  refine ⟨evaluates ▸ made.classical_kind, by rw [continues.1.capabilities, evaluates]; rfl, ?_⟩
  intro c mem
  rw [continues.1.capabilities] at mem
  obtain ⟨x, among, rfl⟩ := List.mem_map.mp (CapabilityTable.mem_ofList mem)
  obtain ⟨s, serves, compiler⟩ := staffed x among
  refine ⟨needed x.1 (kinds ▸ List.mem_map_of_mem among), ?_, s, serves, by rw [compiler]; rfl⟩
  rw [continues.2, contains_ofList]
  refine decide_eq_true ?_
  rw [List.map_map]
  exact List.mem_map_of_mem (f := Prod.fst ∘ fun c => (c.1, Worker.start c.1 c.2)) among

namespace Tabled
variable {host kind : Kind} {i : Instruction} {batch : List Instruction}

theorem executor (tabled : Tabled r o) (executes : o.capabilities.Executes host i kind) :
    (kind = .classical ∧ o.classical.capabilities.supports i.opcode = true) ∨
      (kind.isClassical = false ∧ o.workers.contains kind = true ∧
        ∃ s, r.Serves kind s ∧ s.capabilities.supports i.opcode = true) := by
  rcases executes.supported with ⟨universal, supports⟩ | ⟨c, mem, rfl, supports⟩
  · rw [tabled.universal] at universal supports
    exact Or.inl ⟨universal.trans tabled.bottom, supports⟩
  · obtain ⟨needed, covered, s, serves, same⟩ := tabled.entries c mem
    refine Or.inr ⟨needed, covered, s, serves, ?_⟩
    unfold Capabilities.supports at supports ⊢
    rw [← same]
    exact supports

theorem lowers (tabled : Tabled r o) (executes : o.capabilities.Executes host i kind) :
    ∃ f, Lowers (simulators r) o kind f := by
  rcases tabled.executor executes with ⟨rfl, _⟩ | ⟨needed, covered, s, serves, _⟩
  · exact ⟨_, .evaluator rfl⟩
  · exact ⟨_, .worker needed covered ⟨s, serves, rfl⟩⟩

theorem malforms (tabled : Tabled r o) (made : Registry.Made ds r)
    (ready : o.Ready (simulators r)) (some : batch ≠ [])
    (executes : ∀ i ∈ batch, o.capabilities.Executes host i kind) {e : Fault}
    (failed : (o.lower kind batch).1 = .error e) : e.Malforms batch := by
  obtain ⟨first, mem⟩ := List.exists_mem_of_ne_nil batch some
  obtain ⟨f, lowers⟩ := tabled.lowers (executes first mem)
  rw [ready.lower_eq (simulators_sole r) lowers] at failed
  cases lowers with
  | evaluator classical =>
    refine Evaluator.malforms_of_lower (fun i mem => ?_) failed
    rcases tabled.executor (executes i mem) with ⟨_, supports⟩ | ⟨needed, _⟩
    · exact supports
    · cases needed.symm.trans classical
  | worker needed covered belongs =>
    obtain ⟨s, serves, rfl⟩ := belongs
    obtain ⟨d, _, simulator⟩ := id serves
    refine Simulator.malforms_of_lower simulator (serves.known made) (fun i mem => ?_) failed
    rcases tabled.executor (executes i mem) with ⟨rfl, _⟩ | ⟨_, _, s', serves', supports⟩
    · cases needed
    · rwa [serves.unique serves']

end Tabled

theorem Ready.lowerAll_error {staff : Staff} (ready : o.Ready staff) (sole : staff.Sole)
    {batches : List (Kind × List Instruction)}
    (each : ∀ batch ∈ batches, ∃ f, Lowers staff o batch.1 f) {e : Fault}
    (failed : (o.lowerAll batches).1 = .error e) :
    ∃ batch ∈ batches, (o.lower batch.1 batch.2).1 = .error e := by
  induction batches generalizing o with
  | nil => cases failed
  | cons batch rest ih =>
    have kept := ready.lower batch.1 batch.2
    have same := continues_lower o batch.1 batch.2
    unfold Orchestrator.lowerAll at failed
    rcases answer : o.lower batch.1 batch.2 with ⟨e' | p, left⟩ <;>
      rw [answer] at kept same failed
    · cases failed
      exact ⟨batch, List.mem_cons_self, by rw [answer]⟩
    · have kept := kept fun k no => by cases no
      have later : (left.lowerAll rest).1 = .error e := Except.map_eq_error.mp failed
      have each' : ∀ b ∈ rest, ∃ f, Lowers staff left b.1 f := fun b mem =>
        (each b (List.mem_cons_of_mem _ mem)).imp fun f => (Lowers.continues same).mpr
      obtain ⟨b, mem, failed⟩ := ih kept each' later
      obtain ⟨f, lowers⟩ := each b (List.mem_cons_of_mem _ mem)
      refine ⟨b, List.mem_cons_of_mem _ mem, ?_⟩
      rw [ready.lower_eq sole lowers, ← failed,
        kept.lower_eq sole ((Lowers.continues same).mpr lowers)]

section Agreement
variable {plan : SpawnPlan} {policy : SupervisionPolicy}

/-- Whatever is routed goes to the evaluator or to a worker, and can be lowered there but for the
    operands of an instruction. -/
theorem routed_lowers (made : Registry.ofDescriptors ds = .ok r) (simulated : Simulated ds)
    (serving : InService r plan policy o) {host : Kind} {instructions : List Instruction}
    {routing : RoutingPlan} (planned : o.capabilities.plan host instructions = .ok routing) :
    (∀ a ∈ routing.assignments, a.executor = .classical ∨
      (a.executor.isClassical = false ∧ o.workers.contains a.executor = true)) ∧
    (∀ batch ∈ (routing.partition instructions).entries, ∀ e,
      (o.lower batch.1 batch.2).1 = .error e → e.Malforms batch.2) ∧
    ∀ e, (o.lowerAll (routing.partition instructions).entries).1 = .error e →
      e.Malforms instructions := by
  have made := Registry.made_of_ofDescriptors made
  have reachable := serving.reachable
  have ready := reachable.ready (simulators_staff made simulated)
  have tabled := tabled_of_reachable made simulated reachable
  have inside := (mem_partition planned).1
  have alone : ∀ batch ∈ (routing.partition instructions).entries, ∀ e,
      (o.lower batch.1 batch.2).1 = .error e → e.Malforms batch.2 :=
    fun batch entry e failed => tabled.malforms made ready (partition_some batch entry)
      (fun i mem => (inside batch entry i mem).2) failed
  refine ⟨fun a mem => ?_, alone, fun e failed => ?_⟩
  · obtain ⟨i, _, executes⟩ := CapabilityTable.executes_of_assigned planned a mem
    rcases tabled.executor executes with ⟨classical, _⟩ | ⟨needed, covered, _⟩
    · exact Or.inl classical
    · exact Or.inr ⟨needed, covered⟩
  · have each : ∀ batch ∈ (routing.partition instructions).entries,
        ∃ f, Lowers (simulators r) o batch.1 f := by
      intro batch entry
      obtain ⟨i, mem⟩ := List.exists_mem_of_ne_nil _ (partition_some batch entry)
      exact tabled.lowers (inside batch entry i mem).2
    obtain ⟨batch, entry, failed⟩ := ready.lowerAll_error (simulators_sole r) each failed
    obtain ⟨i, mem, cause, same⟩ := alone batch entry e failed
    exact ⟨i, (inside batch entry i mem).1, cause, same⟩

def narrowed : List Descriptor :=
  [.classical, { Descriptor.stateVector with
      instructions := .ofOpcodes ["x", "measure", "const"], passes := ["drop-barriers"] },
    { Descriptor.stateVector with name := "wide", level := 2 }]

theorem narrowed_simulated : Simulated narrowed := by
  intro d mem other
  simp only [narrowed, List.mem_cons, List.not_mem_nil, or_false] at mem
  rcases mem with rfl | rfl | rfl
  · exact absurd rfl other
  · rfl
  · rfl

def escalating : List Instruction :=
  [⟨0, "x", [.qubit 0], .quantum⟩, ⟨1, "h", [.qubit 0, .qubit 0], .quantum⟩,
    ⟨2, "const", [.reg "a", .int 1], .classical⟩]

theorem escalating_lowers : ∃ r o routing e, Registry.ofDescriptors narrowed = .ok r ∧
    Orchestrator.start r .builtin r.kinds .escalate = .ok o ∧
    o.capabilities.plan .quantum escalating = .ok routing ∧
    routing.assignments.map Assignment.executor = [.quantum, ⟨"wide", 2⟩, .classical] ∧
    (o.lowerAll (routing.partition escalating).entries).1 = .error e ∧ e.Malforms escalating ∧
    ∀ a ∈ routing.assignments, a.executor = .classical ∨
      (a.executor.isClassical = false ∧ o.workers.contains a.executor = true) := by
  obtain ⟨r, o, routing, e, made, started, planned, executors, failed⟩ :
      ∃ r o routing e, Registry.ofDescriptors narrowed = .ok r ∧
        Orchestrator.start r .builtin r.kinds .escalate = .ok o ∧
        o.capabilities.plan .quantum escalating = .ok routing ∧
        routing.assignments.map Assignment.executor = [.quantum, ⟨"wide", 2⟩, .classical] ∧
        (o.lowerAll (routing.partition escalating).entries).1 = .error e :=
    ⟨_, _, _, _, rfl, rfl, rfl, rfl, rfl⟩
  obtain ⟨executors', _, malforms⟩ :=
    routed_lowers made narrowed_simulated ⟨o, [], started, rfl⟩ planned
  exact ⟨r, o, routing, e, made, started, planned, executors, failed, malforms e failed, executors'⟩

end Agreement

end Orchestrator
end LazyCast
