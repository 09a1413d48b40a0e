import LazyCast.Proofs.Passes.Plain
import LazyCast.Proofs.Passes.Supported
/-!
One simulator beside the evaluator. Whether the simulator hosts a ledger or the evaluator does,
instructions have the same executor; only a fence, which both of them take, may change sides. Fences
do nothing, so neither the wave nor what is measured depends on the host.
-/
namespace LazyCast

structure OneBackend (ds : List Descriptor) (backend : Descriptor) (sim : Simulator) : Prop where
  named : backend.name ≠ "classical"
  sole : ∀ d ∈ ds, d.name ≠ "classical" → d = backend
  module : backend.module = stateVectorModule
  simulates : Simulator.ofDescriptor backend = .ok sim

namespace OneBackend
variable {ds : List Descriptor} {backend : Descriptor} {sim s : Simulator} {r : Registry} {kind : Kind}

theorem simulated (one : OneBackend ds backend sim) : Orchestrator.Simulated ds := by
  intro d mem other
  rw [one.sole d mem other]
  exact one.module

theorem needed (one : OneBackend ds backend sim) : backend.kind.isClassical = false := by
  refine decide_eq_false fun same => one.named ?_
  exact congrArg Kind.name same

theorem serves (one : OneBackend ds backend sim) (made : Registry.Made ds r)
    (needed : kind.isClassical = false) (serves : r.Serves kind s) :
    kind = backend.kind ∧ s = sim := by
  obtain ⟨d, required, simulator⟩ := serves
  obtain ⟨among, other⟩ := Orchestrator.required_other made needed required
  obtain rfl := one.sole d among other
  exact ⟨(made.kind_required required).symm, Except.ok.inj (simulator.symm.trans one.simulates)⟩

end OneBackend

namespace CapabilityTable

theorem resolve_below {t : CapabilityTable} {host : Kind} {i : Instruction}
    (below : host.isAbove i.kind = false) : t.resolve host i = t.resolve i.kind i := by
  unfold resolve
  rw [below, Kind.isAbove_irrefl, Bool.false_and, Bool.false_and, if_neg Bool.false_ne_true,
    if_neg Bool.false_ne_true]

end CapabilityTable

def unfenced (ops : List NativeOp) : List NativeOp := ops.filter fun op => op.code != "barrier"

theorem gatesOn_unfenced (ops : List NativeOp) : gatesOn (unfenced ops) = gatesOn ops := by
  induction ops with
  | nil => rfl
  | cons op ops ih =>
    unfold gatesOn unfenced at ih ⊢
    by_cases fence : op.code = "barrier"
    · rw [List.filter_cons_of_neg (by simp [fence]), List.filterMap_cons_none (gate?_fence fence), ih]
    · rw [List.filter_cons_of_pos (by simp [fence]), List.filterMap_cons, List.filterMap_cons, ih]

/-- Fences are the only opcode that both kinds of sub-compiler know. -/
theorem InstructionSet.shared {opcode : String}
    (classical : InstructionSet.classical.contains opcode = true)
    (quantum : InstructionSet.stateVector.contains opcode = true) : opcode = "barrier" := by
  have first := mem_of_contains classical
  have second : opcode ∈ ["init", "redim", "sync", "x", "z", "h", "cx", "cz", "swap", "ry", "x_if",
    "measure", "barrier"] := mem_of_contains quantum
  simp only [List.mem_cons, List.not_mem_nil, or_false] at first second
  rcases second with rfl | rfl | rfl | rfl | rfl | rfl | rfl | rfl | rfl | rfl | rfl | rfl | rfl <;>
    first
    | rfl
    | simp at first

namespace Orchestrator
variable {ds : List Descriptor} {r : Registry} {o : Orchestrator} {host : Kind} {sim : Simulator}

structure Hosted (r : Registry) (o : Orchestrator) (host : Kind) (sim : Simulator) : Prop where
  needed : host.isClassical = false
  bottom : o.classical.capabilities.kind = .classical
  universal : o.capabilities.universal = o.classical.capabilities
  entries : ∀ c ∈ o.capabilities.entries, c.kind = host ∧
    c.instructions = sim.capabilities.instructions ∧ o.workers.contains host = true ∧
      r.Serves host sim
  shared : ∀ opcode, o.classical.capabilities.supports opcode = true →
    sim.capabilities.supports opcode = true → opcode = "barrier"
  plan : ∀ kind ∈ o.plan.elems, kind = .classical ∨ kind = host
  served : ∀ kind s, kind.isClassical = false → r.Serves kind s → kind = host ∧ s = sim

theorem hosted_of_reachable {backend : Descriptor} (one : OneBackend ds backend sim)
    (made : Registry.Made ds r) {plan : SpawnPlan} {policy : SupervisionPolicy}
    (reachable : Reachable r .builtin plan policy o) : Hosted r o backend.kind sim := by
  have tabled := tabled_of_reachable made one.simulated reachable
  obtain ⟨first, started, continues⟩ := reachable.continues
  obtain ⟨compilers, workers, rfl⟩ := start_eq started
  have needed : ∀ kind ∈ plan.elems.filter fun k => !k.isClassical, kind.isClassical = false := by
    intro kind mem
    simpa using (List.mem_filter.mp mem).2
  have staffed := startWorkers_staffed (simulators_staff made one.simulated) needed workers
  have kinds := startWorkers_kinds workers
  have evaluates : o.classical = Evaluator.ofDescriptor r.classical := continues.1.classical
  exact {
    needed := one.needed
    bottom := tabled.bottom
    universal := tabled.universal
    entries := by
      intro c mem
      obtain ⟨other, covered, s, serves, same⟩ := tabled.entries c mem
      obtain ⟨kind, rfl⟩ := one.serves made other serves
      exact ⟨kind, same, kind ▸ covered, kind ▸ serves⟩
    shared := fun opcode classical quantum => InstructionSet.shared
      (Evaluator.supports_known (evaluates ▸ classical))
      (Simulator.supports_known one.simulates quantum)
    plan := by
      intro kind mem
      rw [continues.1.plan] at mem
      cases other : kind.isClassical with
      | true => exact Or.inl (of_decide_eq_true other)
      | false =>
        have ofPlan : kind ∈ compilers.map Prod.fst := by
          rw [kinds]
          exact List.mem_filter.mpr ⟨mem, by simp [other]⟩
        obtain ⟨c, among, rfl⟩ := List.mem_map.mp ofPlan
        obtain ⟨s, serves, _⟩ := staffed c among
        exact Or.inr (one.serves made other serves).1
    served := fun kind s needed serves => one.serves made needed serves }

namespace Hosted
variable {i : Instruction} {dominant : Kind}

theorem kind_of_yields (hosted : Hosted r o host sim) {p : Program}
    (yields : Yields r o dominant i p) : p.kind = host ∨ p.kind.isClassical = true := by
  cases yields with
  | evaluated _ _ => exact Or.inr rfl
  | simulated needed _ _ serves _ => exact Or.inl (hosted.served _ _ needed serves).1

theorem supports_classical (hosted : Hosted r o host sim) (opcode : String) :
    o.capabilities.kindSupports .classical opcode = o.classical.capabilities.supports opcode := by
  unfold CapabilityTable.kindSupports CapabilityTable.find?
  rw [if_pos (by rw [hosted.universal, hosted.bottom]), hosted.universal]

theorem supports_host (hosted : Hosted r o host sim) (opcode : String) :
    o.capabilities.kindSupports host opcode = true ↔
      ∃ c ∈ o.capabilities.entries, c.supports opcode = true := by
  have other : host ≠ o.capabilities.universal.kind := by
    rw [hosted.universal, hosted.bottom]
    exact of_decide_eq_false hosted.needed
  unfold CapabilityTable.kindSupports CapabilityTable.find?
  rw [if_neg other]
  cases found : o.capabilities.entries.find? fun c => decide (c.kind = host) with
  | none =>
    refine ⟨fun no => (by cases no), ?_⟩
    rintro ⟨c, mem, _⟩
    have no := List.find?_eq_none.mp found c mem
    exact absurd (hosted.entries c mem).1 (by simpa using no)
  | some c =>
    have mem := List.mem_of_find?_eq_some found
    refine ⟨fun supports => ⟨c, mem, supports⟩, ?_⟩
    rintro ⟨c', mem', supports⟩
    have same := (hosted.entries c mem).2.1.trans (hosted.entries c' mem').2.1.symm
    unfold Capabilities.supports at supports ⊢
    dsimp only
    rw [same]
    exact supports

theorem serves_host (hosted : Hosted r o host sim) {opcode : String}
    (supports : o.capabilities.kindSupports host opcode = true) :
    o.workers.contains host = true ∧ r.Serves host sim ∧
      sim.capabilities.supports opcode = true := by
  obtain ⟨c, mem, supports⟩ := (hosted.supports_host opcode).mp supports
  obtain ⟨_, same, covered, serves⟩ := hosted.entries c mem
  refine ⟨covered, serves, ?_⟩
  unfold Capabilities.supports at supports ⊢
  rw [← same]
  exact supports

variable {other kind : Kind}

theorem resolve_unembedded {t : CapabilityTable} (unembedded : t.kindSupports host i.opcode = false) :
    t.resolve host i = t.resolve i.kind i := by
  unfold CapabilityTable.resolve
  rw [unembedded, Kind.isAbove_irrefl, Bool.and_false, Bool.false_and, if_neg Bool.false_ne_true,
    if_neg Bool.false_ne_true]

theorem resolve_aside {t : CapabilityTable} (hosts : dominant = .classical ∨ dominant = host)
    (aside : host.isAbove i.kind = false ∨ t.kindSupports host i.opcode = false) :
    t.resolve dominant i = t.resolve i.kind i := by
  rcases hosts with rfl | rfl
  · exact CapabilityTable.resolve_below (decide_eq_false (Nat.not_lt_zero _))
  · rcases aside with below | unembedded
    · exact CapabilityTable.resolve_below below
    · exact resolve_unembedded unembedded

theorem executes_escalated (hosted : Hosted r o host sim) (classical : i.kind = .classical)
    (above : host.isAbove i.kind = true)
    (foreign : o.classical.capabilities.supports i.opcode = false)
    (supports : o.capabilities.kindSupports host i.opcode = true) :
    o.capabilities.Executes .classical i host := by
  unfold CapabilityTable.Executes CapabilityTable.resolve
  rw [classical] at above ⊢
  rw [Kind.isAbove_irrefl, Bool.false_and, if_neg Bool.false_ne_true, hosted.supports_classical,
    foreign, if_neg Bool.false_ne_true]
  cases found : (o.capabilities.above .classical).find? fun c => c.supports i.opcode with
  | some c =>
    have mem := (List.mem_filter.mp (List.mem_of_find?_eq_some found)).1
    rw [← (hosted.entries c mem).1]
    exact ⟨_, rfl⟩
  | none =>
    obtain ⟨c, mem, claims⟩ := (hosted.supports_host i.opcode).mp supports
    have listed : c ∈ o.capabilities.above .classical :=
      List.mem_filter.mpr ⟨mem, by rw [(hosted.entries c mem).1]; exact above⟩
    exact absurd claims (List.find?_eq_none.mp found c listed)

/-- With another host an instruction keeps its executor, unless it is a fence that both support. -/
theorem executes_switch (hosted : Hosted r o host sim)
    (hosts : dominant = .classical ∨ dominant = host) (hosts' : other = .classical ∨ other = host)
    (kinds : i.kind = .classical ∨ i.kind = host)
    (executes : o.capabilities.Executes dominant i kind) :
    o.capabilities.Executes other i kind ∨
      (0 < host.level ∧ o.classical.capabilities.supports i.opcode = true ∧
        o.capabilities.kindSupports host i.opcode = true ∧
        ((other = host ∧ kind = .classical ∧ o.capabilities.Executes other i host) ∨
          (kind = host ∧ o.capabilities.Executes other i .classical))) := by
  by_cases aside : host.isAbove i.kind = false ∨ o.capabilities.kindSupports host i.opcode = false
  · obtain ⟨route, resolved⟩ := executes
    refine Or.inl ⟨route, ?_⟩
    rw [resolve_aside hosts' aside, ← resolve_aside hosts aside, resolved]
  · obtain ⟨above, supports⟩ : host.isAbove i.kind = true ∧
        o.capabilities.kindSupports host i.opcode = true := by simpa using aside
    have classical : i.kind = .classical := by
      rcases kinds with classical | same
      · exact classical
      · rw [same, Kind.isAbove_irrefl] at above
        cases above
    have embeds := CapabilityTable.executes_host (by simp [Kind.subsumes, above]) supports
    cases shared : o.classical.capabilities.supports i.opcode with
    | false =>
      have escalates := hosted.executes_escalated classical above shared supports
      left
      rcases hosts with rfl | rfl <;> rcases hosts' with rfl | rfl
      · exact executes
      · rw [executes.unique escalates]
        exact embeds
      · rw [executes.unique embeds]
        exact escalates
      · exact executes
    | true =>
      have higher : 0 < host.level := by
        rw [classical] at above
        exact of_decide_eq_true above
      have native : o.capabilities.Executes .classical i .classical := by
        have supports' := hosted.supports_classical i.opcode
        rw [shared, ← classical] at supports'
        have own : o.capabilities.Executes i.kind i i.kind :=
          CapabilityTable.executes_host (Kind.subsumes_refl i.kind) supports'
        rwa [classical] at own
      rcases hosts with rfl | rfl <;> rcases hosts' with rfl | rfl
      · exact Or.inl executes
      · exact Or.inr ⟨higher, rfl, supports, Or.inl ⟨rfl, executes.unique native, embeds⟩⟩
      · exact Or.inr ⟨higher, rfl, supports, Or.inr ⟨executes.unique embeds, native⟩⟩
      · exact Or.inl executes

end Hosted

section Fences
variable {i : Instruction}

/-- The same operation for the same kind, or for any kind where it is a fence. -/
structure Scheduled.Refenced (a b : Scheduled) : Prop where
  op : b.2 = a.2
  kind : b.1 = a.1 ∨ ∃ seq qubits, a.2 = Lowering.gate seq "barrier" qubits

theorem operands_of_qubits {operands : List Operand} (all : operands.all Classical.isQubit = true) :
    operands = (qubitsOf operands).map Operand.qubit := by
  induction operands with
  | nil => rfl
  | cons o rest ih =>
    rw [List.all_cons, Bool.and_eq_true] at all
    cases o with
    | qubit q => exact congrArg (Operand.qubit q :: ·) (ih all.2)
    | _ => cases all.1

theorem evaluated_fence {e : Evaluator} {op : NativeOp} (fence : i.opcode = "barrier")
    (lowered : e.lowerOne i = .ok op) :
    i.operands = i.qubits.map Operand.qubit ∧ op = Lowering.gate i.seq "barrier" i.qubits := by
  unfold Evaluator.lowerOne at lowered
  split at lowered
  · obtain ⟨_, checked, rfl⟩ := Except.map_eq_ok.mp lowered
    unfold Classical.checkOperands at checked
    rw [fence] at checked
    dsimp only at checked
    split at checked
    · rename_i shape
      have operands := operands_of_qubits shape
      refine ⟨operands, ?_⟩
      rw [fence, Lowering.gate, Instruction.qubits, ← operands]
    · cases checked
  · cases lowered

theorem evaluates_fence {e : Evaluator} (fence : i.opcode = "barrier")
    (supports : e.capabilities.supports i.opcode = true)
    (operands : i.operands = i.qubits.map Operand.qubit) :
    e.lowerOne i = .ok (Lowering.gate i.seq "barrier" i.qubits) := by
  have checked : Classical.checkOperands i = .ok () := by
    have all : i.operands.all Classical.isQubit = true := by
      rw [operands, List.all_map]
      exact List.all_eq_true.mpr fun _ _ => rfl
    unfold Classical.checkOperands
    rw [fence]
    exact if_pos all
  unfold Evaluator.lowerOne
  rw [if_pos supports, checked]
  change Except.ok (NativeOp.plain i.seq i.opcode i.operands) = _
  rw [fence, operands]
  rfl

theorem simulated_fence {s : Simulator} {ops : List NativeOp} (fence : i.opcode = "barrier")
    (lowered : s.lowerOne i = .ok ops) :
    i.operands = i.qubits.map Operand.qubit ∧ ops = [Lowering.gate i.seq "barrier" i.qubits] := by
  have lowered := Simulator.lowerOne_eq_ok lowered
  have shape : Lowering.ofOpcode? i.opcode i.seq i.operands =
      some ((Lowering.distinctQubits 0 i.operands).map fun qubits =>
        [Lowering.gate i.seq "barrier" qubits]) := by
    rw [fence]
    rfl
  obtain ⟨qubits, distinct, rfl⟩ := Except.map_eq_ok.mp (Lowering.lowerOne_shape shape lowered)
  have operands := (Lowering.distinctQubits_eq_ok distinct).1
  have same : i.qubits = qubits := by
    rw [Instruction.qubits, operands, Lowering.qubitsOf_map]
  rw [same]
  exact ⟨operands, rfl⟩

theorem simulates_fence {s : Simulator} (fence : i.opcode = "barrier")
    (supports : s.capabilities.supports i.opcode = true)
    (operands : i.operands = i.qubits.map Operand.qubit) (distinct : i.qubits.Nodup) :
    s.lowerOne i = .ok [Lowering.gate i.seq "barrier" i.qubits] := by
  unfold Simulator.lowerOne Lowering.lowerOne
  rw [if_pos supports, fence]
  simp only [Lowering.ofOpcode?]
  rw [operands, Lowering.distinctQubits_map distinct (Nat.zero_le _)]
  rfl

theorem Hosted.yields_switch (hosted : Hosted r o host sim) {dominant other : Kind} {p : Program}
    (hosts : dominant = .classical ∨ dominant = host) (hosts' : other = .classical ∨ other = host)
    (kinds : i.kind = .classical ∨ i.kind = host)
    (fences : 0 < host.level → other = host → dominant = host ∨
      (i.opcode = "barrier" → i.qubits.Nodup))
    (yields : Yields r o dominant i p) :
    ∃ q, Yields r o other i q ∧ List.Forall₂ Scheduled.Refenced (tagged p) (tagged q) := by
  have refl : ∀ ops : List Scheduled, List.Forall₂ Scheduled.Refenced ops ops :=
    fun ops => List.forall₂_same.mpr fun _ _ => ⟨rfl, Or.inl rfl⟩
  have moved : ∀ kind kind' seq qubits, List.Forall₂ Scheduled.Refenced
      (tagged ⟨kind, [Lowering.gate seq "barrier" qubits]⟩)
      (tagged ⟨kind', [Lowering.gate seq "barrier" qubits]⟩) :=
    fun kind kind' seq qubits => .cons ⟨rfl, Or.inr ⟨seq, qubits, rfl⟩⟩ .nil
  have needed : host ≠ .classical := of_decide_eq_false hosted.needed
  rcases hosted.executes_switch hosts hosts' kinds yields.executes with
    kept | ⟨higher, classical, supports, switch⟩
  · refine ⟨p, ?_, refl _⟩
    cases yields with
    | evaluated _ lowered => exact .evaluated kept lowered
    | simulated needed _ covered serves lowered => exact .simulated needed kept covered serves lowered
  obtain ⟨covered, serves, claims⟩ := hosted.serves_host supports
  have fence := hosted.shared i.opcode classical claims
  rcases switch with ⟨rfl, evaluated, executes⟩ | ⟨simulated, executes⟩
  · cases yields with
    | evaluated executes' lowered =>
      obtain ⟨operands, rfl⟩ := evaluated_fence fence lowered
      have distinct : i.qubits.Nodup := by
        rcases fences higher rfl with same | distinct
        · rw [same] at executes'
          exact absurd (executes.unique executes') needed
        · exact distinct fence
      exact ⟨_, .simulated hosted.needed executes covered serves
        (simulates_fence fence claims operands distinct), moved _ _ _ _⟩
    | simulated other _ _ _ _ =>
      cases evaluated
      cases other
  · cases yields with
    | evaluated _ _ => exact absurd simulated.symm needed
    | simulated _ _ _ _ lowered =>
      obtain ⟨operands, rfl⟩ := simulated_fence fence lowered
      exact ⟨_, .evaluated executes (evaluates_fence fence classical operands), moved _ _ _ _⟩

theorem boundFrom_fence {e : Evaluator} {eval : EvalState} {kind : Kind} {seq : Nat}
    {qubits : List Qubit} {rest bound : List Scheduled} :
    boundFrom e eval ((kind, Lowering.gate seq "barrier" qubits) :: rest) = .ok bound ↔
      ∃ left, boundFrom e eval rest = .ok left ∧
        bound = if kind.isClassical then left
          else (kind, Lowering.gate seq "barrier" qubits) :: left := by
  cases needed : kind.isClassical with
  | true =>
    rw [boundFrom_classical needed]
    simp only [if_true, exists_eq_right']
    rfl
  | false =>
    have one : (Program.mk kind [Lowering.gate seq "barrier" qubits]).bind eval.registers =
        .ok ⟨kind, [Lowering.gate seq "barrier" qubits]⟩ :=
      Program.bind_single.mpr ⟨_, Program.bindOp_gate _ _ _ _, rfl⟩
    rw [boundFrom_needed needed, one]
    refine Except.map_eq_ok.trans (exists_congr fun left => and_congr_right fun _ => ?_)
    exact eq_comm

theorem boundFrom_refenced {e : Evaluator} {eval : EvalState} {xs ys bound : List Scheduled}
    (refenced : List.Forall₂ Scheduled.Refenced xs ys) (all : boundFrom e eval xs = .ok bound) :
    ∃ bound', boundFrom e eval ys = .ok bound' ∧
      unfenced (bound'.map Prod.snd) = unfenced (bound.map Prod.snd) := by
  induction refenced generalizing eval bound with
  | nil => exact ⟨bound, all, rfl⟩
  | @cons x y xs ys first _ ih =>
    obtain ⟨kind, op⟩ := x
    obtain ⟨kind', op'⟩ := y
    obtain ⟨same, kinds⟩ := first
    dsimp only at same kinds
    subst same
    rcases kinds with rfl | ⟨seq, qubits, rfl⟩
    · cases needed : kind'.isClassical with
      | true =>
        rw [boundFrom_classical needed] at all ⊢
        obtain ⟨next, stepped, later⟩ := Except.bind_eq_ok.mp all
        obtain ⟨bound', later', same⟩ := ih later
        exact ⟨bound', Except.bind_eq_ok.mpr ⟨next, stepped, later'⟩, same⟩
      | false =>
        obtain ⟨b, left, binds, later, rfl⟩ := boundFrom_needed_ok needed all
        obtain ⟨left', later', same⟩ := ih later
        refine ⟨tagged b ++ left', ?_, ?_⟩
        · rw [boundFrom_needed needed, binds, later']
          rfl
        · unfold unfenced at same ⊢
          rw [List.map_append, List.map_append, List.filter_append, List.filter_append, same]
    · obtain ⟨left, later, rfl⟩ := boundFrom_fence.mp all
      obtain ⟨left', later', same⟩ := ih later
      refine ⟨_, boundFrom_fence.mpr ⟨left', later', rfl⟩, ?_⟩
      have aside : ∀ (kind : Kind) (left : List Scheduled), unfenced ((if kind.isClassical then left
          else (kind, Lowering.gate seq "barrier" qubits) :: left).map Prod.snd) =
            unfenced (left.map Prod.snd) := by
        intro kind left
        split
        · rfl
        · exact List.filter_cons_of_neg (by simp [Lowering.gate, NativeOp.plain])
      rw [aside, aside, same]

end Fences
end Orchestrator
end LazyCast
