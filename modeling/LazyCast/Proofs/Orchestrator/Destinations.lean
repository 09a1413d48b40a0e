import LazyCast.Proofs.Orchestrator.Phases
import LazyCast.Proofs.Orchestrator.Piecewise
import LazyCast.Proofs.Orchestrator.Restriction
import LazyCast.Proofs.Passes.Bound
import LazyCast.Proofs.Reversible.Batched
/-!
Evaluators behind a worker. Binding puts a literal for every register operand, for the destination as
for what is read. So an instruction that writes a register fails to bind before the register has a
value, and once it has one the bound operation has nowhere to write; the evaluator that runs in
process writes the same instructions without ado.
-/
namespace LazyCast

/-- An instruction that leaves a value: a constant, a move, arithmetic, a comparison or logic. -/
def Instruction.Produces (i : Instruction) : Prop := i.opcode ≠ "barrier" ∧ i.opcode ≠ "cast"

section Evaluation
variable {e : Evaluator} {i : Instruction} {is : List Instruction} {op : NativeOp}
  {ops : List NativeOp} {s s' : EvalState}

theorem Evaluator.lowerOne_eq_ok (lowered : e.lowerOne i = .ok op) :
    e.capabilities.supports i.opcode = true ∧ Classical.checkOperands i = .ok () ∧
      op = .plain i.seq i.opcode i.operands := by
  unfold lowerOne at lowered
  split at lowered
  · rename_i supports
    obtain ⟨_, checked, rfl⟩ := Except.map_eq_ok.mp lowered
    exact ⟨supports, checked, rfl⟩
  · cases lowered

def opsFor (is : List Instruction) : List NativeOp :=
  is.map fun i => .plain i.seq i.opcode i.operands

theorem Evaluator.lower_eq_ok {p : Program} : e.lower is = .ok p ↔
    (∀ i ∈ is, e.capabilities.supports i.opcode = true ∧ Classical.checkOperands i = .ok ()) ∧
      p = ⟨e.capabilities.kind, opsFor is⟩ := by
  constructor
  · intro lowered
    obtain ⟨ops, each, rfl⟩ := Except.map_eq_ok.mp lowered
    have one : ∀ i ∈ is, ∃ op, e.lowerOne i = .ok op := fun i mem =>
      ((Except.mapM_eq_ok each).1 i mem).imp fun op made => made.2
    have all : ∀ i ∈ is, e.lowerOne i = .ok (.plain i.seq i.opcode i.operands) := by
      intro i mem
      obtain ⟨op, made⟩ := one i mem
      rw [made, (lowerOne_eq_ok made).2.2]
    refine ⟨fun i mem => ?_, ?_⟩
    · obtain ⟨supports, checked, _⟩ := lowerOne_eq_ok (all i mem)
      exact ⟨supports, checked⟩
    · rw [Except.mapM_eq_map all] at each
      rw [← Except.ok.inj each]
      rfl
  · rintro ⟨each, rfl⟩
    have all : ∀ i ∈ is, e.lowerOne i = .ok (.plain i.seq i.opcode i.operands) := by
      intro i mem
      obtain ⟨supports, checked⟩ := each i mem
      rw [lowerOne, if_pos supports, checked]
      rfl
    rw [lower, Except.mapM_eq_map all]
    rfl

theorem Classical.stepCause_writes (plain : op.code ≠ "barrier" ∧ op.code ≠ "cast")
    (cause : stepCause op s = .ok s') :
    ∃ name rest v, op.args = .reg name :: rest ∧ s' = s.write name v := by
  unfold stepCause at cause
  split at cause
  · rename_i fence
    exact absurd fence plain.1
  · rename_i cast
    exact absurd cast plain.2
  · obtain ⟨v, _, cause⟩ := Except.bind_eq_ok.mp cause
    obtain ⟨name, written, cause⟩ := Except.bind_eq_ok.mp cause
    cases cause
    obtain ⟨o, first, named⟩ := Except.bind_eq_ok.mp written
    obtain ⟨rest, args⟩ : ∃ rest, op.args = o :: rest := by
      unfold argument at first
      cases shape : op.args with
      | nil => simp [shape] at first
      | cons x rest =>
        rw [shape] at first
        cases first
        exact ⟨rest, rfl⟩
    cases o with
    | reg other =>
      cases named
      exact ⟨_, rest, v, args, rfl⟩
    | _ => cases named

theorem Evaluator.run_produces (plain : ∀ op ∈ ops, op.code ≠ "barrier" ∧ op.code ≠ "cast")
    (ran : e.run s ops = .ok s') (left : ops ≠ [] ∨ ∃ v, s.last = some v) :
    ∃ v, s'.last = some v := by
  induction ops generalizing s with
  | nil =>
    cases ran
    exact left.resolve_left fun no => no rfl
  | cons op rest ih =>
    obtain ⟨here, later⟩ := List.forall_mem_cons.mp plain
    rw [run, List.foldlM_cons] at ran
    obtain ⟨after, stepped, ran⟩ := Except.bind_eq_ok.mp ran
    obtain ⟨name, _, v, _, rfl⟩ := Classical.stepCause_writes here (step_cause.mp stepped)
    exact ih later ran (Or.inr ⟨v, rfl⟩)

theorem Program.bind_unwritten {kind : Kind} {registers : Registers} {name : Register}
    {rest : List Operand} (args : op.args = .reg name :: rest) (unguarded : op.guard = none)
    (unwritten : registers.find? name = none) : (Program.mk kind [op]).bind registers =
      .error (.execution kind (.readBeforeWrite name)) := by
  have unread : readRegister registers name = .error (.readBeforeWrite name) := by
    rw [readRegister, unwritten]
  have unbound : bindOp registers op = .error (.readBeforeWrite name) := by
    rw [bindOp, unguarded, args, List.mapM_cons, bindOperand, unread]
    rfl
  rw [Program.bind, bindOps, unbound]
  rfl

end Evaluation

namespace Orchestrator

theorem Drive.run_unbound {d : Drive} {op : Scheduled} {rest : List Scheduled} {f : Fault}
    (idle : d.segment = none) (resting : d.pending = none) (needed : op.1.isClassical = false)
    (unbound : (Program.mk op.1 [op.2]).bind d.eval.registers = .error f) :
    (d.run (op :: rest)).1 = .error f := by
  have stepped : d.step op = (.ok (), { d with
      pending := some op.1, segment := some ((Program.empty op.1).push op.2) }) := by
    simp [Drive.step, needed, openSegment, flush, executeBefore, idle, resting, Outcome.andThen]
  have doomed : Drive.Doomed { d with
      pending := some op.1, segment := some ((Program.empty op.1).push op.2) } f :=
    ⟨_, rfl, unbound⟩
  rw [Drive.run, stepped]
  exact doomed.run rest

section Routing
variable {t : CapabilityTable} {host kind : Kind} {is : List Instruction}

theorem plan_native (own : ∀ i ∈ is, i.kind = kind ∧ t.kindSupports kind i.opcode = true)
    (beside : host.isAbove kind = false) : t.plan host is =
      .ok ⟨host, is.map fun i => ⟨i.seq, i.opcode, kind, kind, .native⟩⟩ := by
  have each : ∀ i ∈ is, t.assign host i = .ok ⟨i.seq, i.opcode, kind, kind, .native⟩ := by
    intro i mem
    obtain ⟨rfl, supports⟩ := own i mem
    rw [CapabilityTable.assign, CapabilityTable.resolve, beside, supports]
    rfl
  rw [CapabilityTable.plan, Except.mapM_eq_map each]
  rfl

theorem distribute_sole {es : List (Instruction × Assignment)}
    (sole : ∀ e ∈ es, e.2.executor = kind) (batch : List Instruction) :
    distribute es ⟨[(kind, batch)]⟩ = ⟨[(kind, batch ++ es.map Prod.fst)]⟩ := by
  induction es generalizing batch with
  | nil => simp [distribute]
  | cons e es ih =>
    obtain ⟨here, later⟩ := List.forall_mem_cons.mp sole
    have grown := ih later (batch ++ [e.1])
    rw [List.append_assoc] at grown
    refine Eq.trans ?_ grown
    simp [distribute, here, Table.update, Table.updateEntry]

variable (kind) in
theorem partition_sole {i : Instruction} {f : Instruction → Assignment}
    (sole : ∀ i, (f i).executor = kind) :
    ((RoutingPlan.mk host ((i :: is).map f)).partition (i :: is)).entries = [(kind, i :: is)] := by
  have each : ∀ e ∈ is.zip (is.map f), e.2.executor = kind := by
    intro e mem
    obtain ⟨j, _, same⟩ := List.mem_map.mp (List.of_mem_zip mem).2
    rw [← same]
    exact sole j
  have rest := distribute_sole each [i]
  have fst : (is.zip (is.map f)).map Prod.fst = is := List.map_fst_zip (by simp)
  rw [fst] at rest
  refine (congrArg Table.entries ?_).trans (congrArg Table.entries rest)
  simp [RoutingPlan.partition, distribute, sole i, Table.update, Table.updateEntry, Table.empty]

end Routing
section Office
variable {ds : List Descriptor} {r : Registry} {modules : ModuleTable} {plan : SpawnPlan}
  {policy : SupervisionPolicy} {o : Orchestrator} {kind : Kind} {c : SubCompiler} {d : Descriptor}

theorem kindSupports_planned (made : Registry.Made ds r)
    (started : start r modules plan policy = .ok o) (planned : kind ∈ plan.elems)
    (needed : kind.isClassical = false) (instantiates : Instantiates r modules kind c)
    (opcode : String) :
    o.capabilities.kindSupports kind opcode = c.capabilities.supports opcode := by
  have other : kind ≠ o.capabilities.universal.kind := by
    obtain ⟨_, _, rfl⟩ := start_eq started
    intro same
    rw [same.trans made.classical_kind] at needed
    cases needed
  have entry := (mem_capabilities started (c := { c.capabilities with kind := kind })).mpr
    ⟨planned, needed, c, instantiates, rfl⟩
  rw [CapabilityTable.kindSupports, CapabilityTable.find?, if_neg other]
  cases found : o.capabilities.entries.find? fun e => decide (e.kind = kind) with
  | none => simpa using List.find?_eq_none.mp found _ entry
  | some e =>
    have same : e.kind = kind := by simpa using List.find?_some found
    obtain ⟨_, _, c', instantiates', made'⟩ :=
      (mem_capabilities started).mp (List.mem_of_find?_eq_some found)
    rw [made', instantiates.unique (same ▸ instantiates')]
    rfl

theorem worker_planned (started : start r modules plan policy = .ok o) (planned : kind ∈ plan.elems)
    (needed : kind.isClassical = false) : o.workers.contains kind = true := by
  obtain ⟨compilers, workers, rfl⟩ := start_eq started
  have kinds := startWorkers_kinds workers
  rw [contains_ofList]
  refine decide_eq_true ?_
  rw [List.map_map]
  change kind ∈ compilers.map Prod.fst
  rw [kinds]
  exact List.mem_filter.mpr ⟨planned, by simp [needed]⟩

theorem instantiate_classical (module : d.module = classicalModule) :
    ModuleTable.builtin.instantiate d = .ok (Evaluator.ofDescriptor d).subCompiler := by
  have found : ModuleTable.builtin.find? classicalModule =
      some fun d => .ok (Evaluator.ofDescriptor d).subCompiler :=
    (Table.find?_insert_of_ne _ _ (by decide)).trans (Table.find?_insert_self _ _ _)
  unfold ModuleTable.instantiate
  rw [module, found]

/-- A kind above the classical one that the evaluator's module serves, with all its opcodes. -/
structure ServedByEvaluator (r : Registry) (kind : Kind) (d : Descriptor) : Prop where
  required : r.require kind = .ok d
  module : d.module = classicalModule
  opcodes : d.instructions.opcodes = InstructionSet.classical.opcodes
  higher : 0 < kind.level

namespace ServedByEvaluator

theorem needed (served : ServedByEvaluator r kind d) : kind.isClassical = false := by
  refine decide_eq_false fun same => ?_
  have higher := served.higher
  rw [same] at higher
  cases higher

theorem instantiates (served : ServedByEvaluator r kind d) :
    Instantiates r .builtin kind (Evaluator.ofDescriptor d).subCompiler :=
  ⟨d, served.required, instantiate_classical served.module⟩

theorem supports (served : ServedByEvaluator r kind d) {opcode : String}
    (known : InstructionSet.classical.contains opcode = true) :
    (Evaluator.ofDescriptor d).capabilities.supports opcode = true := by
  unfold Capabilities.supports InstructionSet.contains Evaluator.ofDescriptor
    InstructionSet.intersect
  rw [OrderedSet.contains_inter, served.opcodes, Bool.and_self]
  exact known

end ServedByEvaluator

structure Computes (kind : Kind) (ledger : FrozenLedger) : Prop where
  kinds : ∀ k ∈ ledger.kinds.elems, k = kind
  declared : ∀ i ∈ ledger.instructions, i.kind = kind
  produces : ∀ i ∈ ledger.instructions, i.Produces
  numbered : Numbered ledger.instructions

namespace Computes
variable {ledger : FrozenLedger}

theorem beside (computes : Computes kind ledger) : ledger.dominantKind.isAbove kind = false := by
  rcases Kind.dominant_mem ledger.kinds.elems with classical | mem
  · rw [FrozenLedger.dominantKind, classical]
    exact decide_eq_false (Nat.not_lt_zero _)
  · rw [FrozenLedger.dominantKind, computes.kinds _ mem]
    exact Kind.isAbove_irrefl kind

theorem planned (computes : Computes kind ledger) (made : Registry.Made ds r)
    (served : ServedByEvaluator r kind d) (planned : plan.contains kind = true)
    (reachable : Reachable r .builtin plan policy o)
    (known : ∀ i ∈ ledger.instructions, InstructionSet.classical.contains i.opcode = true) :
    o.capabilities.plan ledger.dominantKind ledger.instructions = .ok ⟨ledger.dominantKind,
      ledger.instructions.map fun i => ⟨i.seq, i.opcode, kind, kind, .native⟩⟩ := by
  obtain ⟨first, started, continues⟩ := reachable.continues
  refine plan_native (fun i mem => ⟨computes.declared i mem, ?_⟩) computes.beside
  rw [continues.1.capabilities, kindSupports_planned made started (of_decide_eq_true planned)
    served.needed served.instantiates]
  exact served.supports (known i mem)

theorem prepared (computes : Computes kind ledger) (made : Registry.Made ds r)
    (served : ServedByEvaluator r kind d) (planned : plan.contains kind = true)
    (serving : InService r plan policy o)
    (lowers : ∀ i ∈ ledger.instructions, InstructionSet.classical.contains i.opcode = true ∧
      Classical.checkOperands i = .ok ()) :
    (o.prepare ledger).1 = .ok (tagged ⟨kind, opsFor ledger.instructions⟩) := by
  have reachable := serving.reachable
  have ready := reachable.ready (stock_staff r)
  obtain ⟨first, started, continues⟩ := reachable.continues
  have routed := computes.planned made served planned reachable fun i mem => (lowers i mem).1
  have present : (ledger.kinds.elems.find? fun k => !o.plan.contains k) = none := by
    refine List.find?_eq_none.mpr fun k mem => ?_
    obtain ⟨_, _, rfl⟩ := start_eq started
    rw [computes.kinds k mem, continues.1.plan, planned]
    decide
  have covered : o.workers.contains kind = true :=
    (continues.2 kind).trans (worker_planned started (of_decide_eq_true planned) served.needed)
  rw [prepare, present, routed]
  dsimp only
  rcases shape : ledger.instructions with _ | ⟨i, rest⟩
  · simp [RoutingPlan.partition, Table.empty, lowerAll, Outcome.map, Except.map, schedule, opsFor,
      tagged]
  rw [partition_sole kind fun _ => rfl]
  have lowered : (o.lower kind (i :: rest)).1 = .ok ⟨kind, opsFor (i :: rest)⟩ := by
    rw [ready.lower_eq (stock_sole r) (.worker served.needed covered
      ⟨d, served.required, instantiate_classical served.module⟩), ← shape]
    refine Evaluator.lower_eq_ok.mpr ⟨fun i mem => ?_, ?_⟩
    · exact ⟨served.supports (lowers i mem).1, (lowers i mem).2⟩
    · rw [← made.kind_required served.required]
      rfl
  have all : (o.lowerAll [(kind, i :: rest)]).1 = .ok [⟨kind, opsFor (i :: rest)⟩] :=
    (ready.lowerAll_ok_iff (stock_sole r)).mpr (.cons lowered .nil)
  have order : (tagged ⟨kind, opsFor (i :: rest)⟩).Pairwise
      fun a b => decide (a.2.seq ≤ b.2.seq) = true := by
    have sorted := inOrder_of_numbered computes.numbered
    rw [shape] at sorted
    refine List.pairwise_map.mpr (List.pairwise_map.mpr (sorted.imp fun less => ?_))
    exact decide_eq_true (Nat.le_of_lt less)
  rw [Outcome.map, all, Except.map, schedule, List.flatMap_singleton,
    List.mergeSort_of_pairwise order]

theorem unwritten (computes : Computes kind ledger) (made : Registry.Made ds r)
    (served : ServedByEvaluator r kind d) (planned : plan.contains kind = true)
    (serving : InService r plan policy o)
    (lowers : ∀ i ∈ ledger.instructions, InstructionSet.classical.contains i.opcode = true ∧
      Classical.checkOperands i = .ok ()) {i : Instruction} {rest : List Instruction}
    (shape : ledger.instructions = i :: rest) {name : Register} {others : List Operand}
    (operands : i.operands = .reg name :: others) :
    (o.run ledger).1 = .error (.execution kind (.readBeforeWrite name)) := by
  have prepared := computes.prepared made served planned serving lowers
  rw [shape] at prepared
  rcases answer : o.prepare ledger with ⟨f | ops, left⟩ <;> rw [answer] at prepared <;> cases prepared
  have failed : ((Drive.begin { left with nextSession := left.nextSession + 1 }
      left.nextSession).run ((kind, .plain i.seq i.opcode i.operands) ::
        tagged ⟨kind, opsFor rest⟩)).1 = .error (.execution kind (.readBeforeWrite name)) :=
    Drive.run_unbound rfl rfl served.needed (Program.bind_unwritten operands rfl rfl)
  rw [run_eq_prepare, answer, Outcome.andThen_ok, Orchestrator.execute]
  exact Except.map_eq_error.mpr failed

end Computes

/-- A ledger for an evaluator behind a worker fails at its first instruction, which has the register
    that it writes read; in process the same instructions leave a value. Only the empty ledger comes
    to the same on both sides. -/
theorem evaluator_behind_worker (registered : Registry.ofDescriptors ds = .ok r)
    (served : ServedByEvaluator r kind d) (planned : plan.contains kind = true)
    (serving : InService r plan policy o) {ledger : FrozenLedger} (computes : Computes kind ledger)
    {p : Program} (lowered : (Evaluator.ofDescriptor r.classical).lower ledger.instructions = .ok p)
    {sample : Sample} (evaluated : (Evaluator.ofDescriptor r.classical).execute p = .ok sample) :
    (ledger.instructions = [] → (o.run ledger).1 = .ok ⟨sample, []⟩) ∧
      ∀ i rest, ledger.instructions = i :: rest → ∃ name v registers,
        i.operands.head? = some (.reg name) ∧ sample = .deterministic (some v) registers ∧
          (o.run ledger).1 = .error (.execution kind (.readBeforeWrite name)) := by
  have made := Registry.made_of_ofDescriptors registered
  obtain ⟨each, rfl⟩ := Evaluator.lower_eq_ok.mp lowered
  have lowers : ∀ i ∈ ledger.instructions, InstructionSet.classical.contains i.opcode = true ∧
      Classical.checkOperands i = .ok () := fun i mem =>
    ⟨Evaluator.supports_known (each i mem).1, (each i mem).2⟩
  obtain ⟨after, ran, rfl⟩ := Except.map_eq_ok.mp evaluated
  dsimp only at ran
  refine ⟨fun empty => ?_, fun i rest shape => ?_⟩
  · have prepared := computes.prepared made served planned serving lowers
    rcases answer : o.prepare ledger with ⟨f | ops, left⟩ <;>
      rw [answer] at prepared <;> cases prepared
    rw [run_eq_prepare, answer, Outcome.andThen_ok]
    rw [empty] at ran ⊢
    cases ran
    rfl
  · have plain : ∀ op ∈ opsFor ledger.instructions, op.code ≠ "barrier" ∧ op.code ≠ "cast" := by
      intro op mem
      obtain ⟨j, among, rfl⟩ := List.mem_map.mp mem
      exact computes.produces j among
    obtain ⟨v, last⟩ := Evaluator.run_produces plain ran (Or.inl (by simp [opsFor, shape]))
    -- The evaluator has written to the first operand, so that is a register.
    rw [shape] at ran plain
    obtain ⟨_, first, _⟩ := Except.bind_eq_ok.mp ran
    obtain ⟨name, others, _, operands, _⟩ := Classical.stepCause_writes
      (plain _ List.mem_cons_self) (Evaluator.step_cause.mp first)
    have operands : i.operands = .reg name :: others := operands
    exact ⟨name, v, after.registers, by rw [operands]; rfl, by rw [EvalState.toSample, last],
      computes.unwritten made served planned serving lowers shape operands⟩

end Office

def mirrored : List Descriptor :=
  [.classical, { Descriptor.classical with name := "K", level := 1 }]

theorem mirrored_office : ∃ r d o, Registry.ofDescriptors mirrored = .ok r ∧
    ServedByEvaluator r ⟨"K", 1⟩ d ∧ (SpawnPlan.all r).contains ⟨"K", 1⟩ = true ∧
    InService r (.all r) .escalate o ∧ Evaluator.ofDescriptor r.classical = .builtin :=
  ⟨_, _, _, rfl, ⟨rfl, rfl, rfl, by decide⟩, rfl, ⟨_, [], rfl, rfl⟩, rfl⟩

def added : FrozenLedger where
  id := 0
  instructions := [⟨0, "const", [.reg "a", .int 6], ⟨"K", 1⟩⟩,
    ⟨1, "add", [.reg "b", .reg "a", .int 1], ⟨"K", 1⟩⟩]
  kinds := ⟨[⟨"K", 1⟩]⟩
  owners := ⟨[0]⟩

theorem added_fails : ∃ r d o p, Registry.ofDescriptors mirrored = .ok r ∧
    ServedByEvaluator r ⟨"K", 1⟩ d ∧ InService r (.all r) .escalate o ∧
    Computes ⟨"K", 1⟩ added ∧ Evaluator.builtin.lower added.instructions = .ok p ∧
    Evaluator.builtin.execute p =
      .ok (.deterministic (some (.int 7)) ⟨[("a", .int 6), ("b", .int 7)]⟩) ∧
    (o.run added).1 = .error (.execution ⟨"K", 1⟩ (.readBeforeWrite "a")) := by
  obtain ⟨r, d, o, registered, served, planned, serving, builtin⟩ := mirrored_office
  have computes : Computes ⟨"K", 1⟩ added :=
    ⟨by decide, by decide, by simp [added, Instruction.Produces], rfl⟩
  obtain ⟨_, fails⟩ := evaluator_behind_worker registered served planned serving computes
    (by rw [builtin]; rfl) (by rw [builtin]; rfl)
  obtain ⟨name, _, _, first, _, failed⟩ := fails _ _ rfl
  cases first
  exact ⟨r, d, o, _, registered, served, serving, computes, rfl, rfl, failed⟩

def six : FrozenLedger where
  id := 0
  instructions := [⟨0, "const", [.reg "a", .int 6], ⟨"K", 1⟩⟩]
  kinds := ⟨[⟨"K", 1⟩]⟩
  owners := ⟨[0]⟩

/-- In process the constant is a value; behind the worker the run fails. -/
theorem six_unwritten : ∃ r d o p, Registry.ofDescriptors mirrored = .ok r ∧
    ServedByEvaluator r ⟨"K", 1⟩ d ∧ InService r (.all r) .escalate o ∧
    Computes ⟨"K", 1⟩ six ∧ (Evaluator.ofDescriptor r.classical).lower six.instructions = .ok p ∧
    (Evaluator.ofDescriptor r.classical).execute p =
      .ok (.deterministic (some (.int 6)) ⟨[("a", .int 6)]⟩) ∧
    (o.run six).1 = .error (.execution ⟨"K", 1⟩ (.readBeforeWrite "a")) := by
  obtain ⟨r, d, o, registered, served, planned, serving, builtin⟩ := mirrored_office
  have computes : Computes ⟨"K", 1⟩ six :=
    ⟨by decide, by decide, by simp [six, Instruction.Produces], rfl⟩
  have lowers : ∀ i ∈ six.instructions, InstructionSet.classical.contains i.opcode = true ∧
      Classical.checkOperands i = .ok () := by
    intro i mem
    rw [List.mem_singleton.mp mem]
    exact ⟨by decide, rfl⟩
  exact ⟨r, d, o, ⟨.classical, opsFor six.instructions⟩, registered, served, serving, computes,
    by rw [builtin]; rfl, by rw [builtin]; rfl, computes.unwritten
      (Registry.made_of_ofDescriptors registered) served planned serving lowers rfl rfl⟩

end Orchestrator
end LazyCast
