import LazyCast.Proofs.Passes.Stripped
import LazyCast.Proofs.Orchestrator.Executors
import LazyCast.Proofs.Orchestrator.Running
import LazyCast.Proofs.Orchestrator.Scheduling
/-!
Lowering with and without passes. Two orchestrators of one plan, one of them without passes, route
alike and lower a ledger to programs of which one list is the other with operations left out.
-/
namespace LazyCast.Orchestrator

def simulators (r : Registry) : Staff := fun kind c => ∃ s, r.Serves kind s ∧ c = s.subCompiler

/-- Every backend but the classical one is a state-vector simulator. -/
def Simulated (ds : List Descriptor) : Prop :=
  ∀ d ∈ ds, d.name ≠ "classical" → d.module = stateVectorModule

theorem Simulated.withoutPasses {ds : List Descriptor} (simulated : Simulated ds) :
    Simulated (ds.map Descriptor.withoutPasses) := by
  intro d mem other
  obtain ⟨e, among, rfl⟩ := List.mem_map.mp mem
  exact simulated e among other

section Staffing
variable {ds : List Descriptor} {r : Registry}

theorem instantiate_stateVector {d : Descriptor} (module : d.module = stateVectorModule) :
    ModuleTable.builtin.instantiate d = (Simulator.ofDescriptor d).map Simulator.subCompiler := by
  have found : ModuleTable.builtin.find? stateVectorModule =
      some fun d => (Simulator.ofDescriptor d).map Simulator.subCompiler :=
    Table.find?_insert_self _ _ _
  unfold ModuleTable.instantiate
  rw [module, found]

theorem required_other (made : Registry.Made ds r) {kind : Kind}
    (needed : kind.isClassical = false) {d : Descriptor} (required : r.require kind = .ok d) :
    d ∈ ds ∧ d.name ≠ "classical" := by
  obtain ⟨found, level⟩ := Registry.require_eq_ok.mp required
  obtain ⟨among, named, _⟩ := made.found found
  refine ⟨among, fun same => ?_⟩
  rw [named] at same
  rw [same] at found
  have classical : d = r.classical := Option.some.inj (found.symm.trans r.classical_found)
  have zero : kind.level = 0 := by rw [← level, classical, made.bottom]
  have is : kind = .classical := by
    obtain ⟨name, level⟩ := kind
    dsimp only at same zero
    rw [same, zero]
    rfl
  rw [is] at needed
  cases needed

theorem instantiate_simulator (made : Registry.Made ds r) (simulated : Simulated ds) {kind : Kind}
    (needed : kind.isClassical = false) {d : Descriptor} (required : r.require kind = .ok d)
    {c : SubCompiler} (instantiated : ModuleTable.builtin.instantiate d = .ok c) :
    simulators r kind c := by
  obtain ⟨among, other⟩ := required_other made needed required
  rw [instantiate_stateVector (simulated d among other)] at instantiated
  obtain ⟨s, simulator, rfl⟩ := Except.map_eq_ok.mp instantiated
  exact ⟨s, ⟨d, required, simulator⟩, rfl⟩

theorem simulators_staff (made : Registry.Made ds r) (simulated : Simulated ds) :
    Staffs r .builtin (simulators r) :=
  fun _ _ _ needed required instantiated =>
    instantiate_simulator made simulated needed required instantiated

theorem startWorkers_kinds {modules : ModuleTable} {kinds : List Kind}
    {compilers : List (Kind × SubCompiler)}
    (started : startWorkers r modules kinds = .ok compilers) :
    compilers.map Prod.fst = kinds := by
  induction kinds generalizing compilers with
  | nil =>
    cases started
    rfl
  | cons kind rest ih =>
    obtain ⟨_, _, _, _, _, later, rfl⟩ := startWorkers_cons started
    rw [List.map_cons, ih later]

theorem contains_ofList {κ α : Type} [DecidableEq κ] [Key κ] (entries : List (κ × α)) (k : κ) :
    (Table.ofList entries).contains k = decide (k ∈ entries.map Prod.fst) := by
  have from_start : ∀ (entries : List (κ × α)) (t : Table κ α),
      (entries.foldl (fun t e => t.insert e.1 e.2) t).contains k =
        (decide (k ∈ entries.map Prod.fst) || t.contains k) := by
    intro entries
    induction entries with
    | nil => simp
    | cons e entries ih =>
      intro t
      rw [List.foldl_cons, ih, contains_insert, List.map_cons, ← Bool.or_assoc]
      congr 1
      by_cases same : k = e.1 <;> simp [same]
  refine (from_start entries .empty).trans ?_
  exact Bool.or_false _

end Staffing

section Lowering
variable {r : Registry} {o : Orchestrator}

inductive LowersAs (r : Registry) (o : Orchestrator) (batch : Kind × List Instruction)
    (p : Program) : Prop where
  | classical (classical : batch.1.isClassical = true) (lowered : o.classical.lower batch.2 = .ok p)
  | simulated (needed : batch.1.isClassical = false) (covered : o.workers.contains batch.1 = true)
      {s : Simulator} (serves : r.Serves batch.1 s) (lowered : s.lower batch.2 = .ok p)

theorem simulators_sole (r : Registry) : (simulators r).Sole := by
  rintro kind c c' ⟨s, serves, rfl⟩ ⟨s', serves', rfl⟩
  rw [serves.unique serves']

theorem lowersAs_iff {batch : Kind × List Instruction} {p : Program} :
    LowersAs r o batch p ↔
      ∃ f, Lowers (simulators r) o batch.1 f ∧ f batch.2 = .ok p := by
  constructor
  · rintro (⟨classical, lowered⟩ | ⟨needed, covered, serves, lowered⟩)
    · exact ⟨_, .evaluator classical, lowered⟩
    · exact ⟨_, .worker needed covered ⟨_, serves, rfl⟩, lowered⟩
  · rintro ⟨f, classical | ⟨needed, covered, s, serves, rfl⟩, lowered⟩
    · exact .classical classical lowered
    · exact .simulated needed covered serves lowered

theorem Ready.lower_ok (ready : o.Ready (simulators r)) {batch : Kind × List Instruction}
    {p : Program} : (o.lower batch.1 batch.2).1 = .ok p ↔ LowersAs r o batch p :=
  (ready.lower_ok_iff (simulators_sole r)).trans lowersAs_iff.symm

theorem Ready.lowerAll_ok (ready : o.Ready (simulators r))
    {batches : List (Kind × List Instruction)} {programs : List Program} :
    (o.lowerAll batches).1 = .ok programs ↔ List.Forall₂ (LowersAs r o) batches programs := by
  rw [ready.lowerAll_ok_iff (simulators_sole r)]
  exact ⟨fun all => all.imp fun _ _ => ready.lower_ok.mp,
    fun all => all.imp fun _ _ => ready.lower_ok.mpr⟩

end Lowering
end LazyCast.Orchestrator
