import LazyCast.Proofs.Passes.Alone
import LazyCast.Proofs.Reversible.Office
/-!
Ledgers on bits, lowered. The evaluator's batch becomes its operations as they stand, the
simulator's the gates of its instructions, less what the passes leave out; both keep their order.
-/
namespace LazyCast

theorem Except.mapM_eq_map {ε α β : Type} {f : α → Except ε β} {g : α → β} {as : List α}
    (each : ∀ a ∈ as, f a = .ok (g a)) : as.mapM f = .ok (as.map g) := by
  induction as with
  | nil => rfl
  | cons a as ih =>
    obtain ⟨first, rest⟩ := List.forall_mem_cons.mp each
    rw [List.mapM_cons, first, ih rest]
    rfl

inductive Instruction.IsLowered (i : Instruction) : Prop where
  | hosted (opcode : i.opcode ∈ "measure" :: reversibleOpcodes) {ops : List NativeOp}
      (lowered : Lowering.lowerOne i = .ok ops)
  | evaluated (opcode : i.opcode ∈ evaluatedOpcodes) (shaped : Classical.checkOperands i = .ok ())

theorem Instruction.OnBits.isLowered {i : Instruction} (onBits : i.OnBits) : i.IsLowered := by
  cases onBits with
  | reversible opcode lowered => exact .hosted (List.mem_cons_of_mem _ opcode) lowered
  | evaluated opcode shaped => exact .evaluated opcode shaped

structure OnTwoBackends (is : List Instruction) : Prop where
  lowered : ∀ i ∈ is, i.IsLowered
  declared : ∀ i ∈ is, i.IsDeclared
  order : InOrder is

namespace OnTwoBackends
variable {is : List Instruction} {i : Instruction}

theorem executes (two : OnTwoBackends is) (mem : i ∈ is) :
    CapabilityTable.simulating.Executes .quantum i
      (if i.isEvaluated then .classical else .quantum) := by
  have declared := two.declared i mem
  cases two.lowered i mem with
  | hosted opcode lowered =>
    rw [not_evaluated opcode]
    exact executes_hosted declared opcode
  | evaluated opcode shaped =>
    have evaluated : i.isEvaluated = true := by
      simpa [Instruction.isEvaluated] using opcode
    rw [evaluated]
    exact executes_evaluated declared opcode

theorem executes_iff (two : OnTwoBackends is) (mem : i ∈ is) :
    (i.isEvaluated = true ↔ CapabilityTable.simulating.Executes .quantum i .classical) ∧
      ((!i.isEvaluated) = true ↔ CapabilityTable.simulating.Executes .quantum i .quantum) := by
  have executes := two.executes mem
  have only : ∀ kind, CapabilityTable.simulating.Executes .quantum i kind →
      kind = if i.isEvaluated then .classical else .quantum :=
    fun _ executes' => executes'.unique executes
  cases evaluated : i.isEvaluated with
  | true =>
    rw [evaluated] at executes only
    exact ⟨iff_of_true rfl executes,
      iff_of_false Bool.false_ne_true fun other => absurd (only _ other) (by decide)⟩
  | false =>
    rw [evaluated] at executes only
    exact ⟨iff_of_false Bool.false_ne_true fun other => absurd (only _ other) (by decide),
      iff_of_true rfl executes⟩

theorem planned (two : OnTwoBackends is) :
    ∃ routing, CapabilityTable.simulating.plan .quantum is = .ok routing := by
  have each : ∀ i ∈ is, ∃ a, CapabilityTable.simulating.assign .quantum i = .ok a := by
    intro i mem
    obtain ⟨route, executes⟩ := two.executes mem
    exact ⟨_, by rw [CapabilityTable.assign, executes]; rfl⟩
  have some : Nonempty Assignment := ⟨⟨0, "", .classical, .classical, .native⟩⟩
  choose! assignment assigned using each
  exact ⟨_, by rw [CapabilityTable.plan, Except.mapM_eq_map assigned]; rfl⟩

theorem lower_evaluated (two : OnTwoBackends is) :
    Evaluator.builtin.lower (is.filter Instruction.isEvaluated) =
      .ok ⟨.classical, evaluatorOps is⟩ := by
  have supported : ∀ code ∈ evaluatedOpcodes,
      Evaluator.builtin.capabilities.supports code = true := by decide
  have each : ∀ i ∈ is.filter Instruction.isEvaluated,
      Evaluator.builtin.lowerOne i = .ok (.plain i.seq i.opcode i.operands) := by
    intro i mem
    obtain ⟨mem, evaluated⟩ := List.mem_filter.mp mem
    cases two.lowered i mem with
    | hosted opcode lowered =>
      rw [not_evaluated opcode] at evaluated
      cases evaluated
    | evaluated opcode shaped =>
      rw [Evaluator.lowerOne, if_pos (supported i.opcode opcode), shaped]
      rfl
  rw [Evaluator.lower, Except.mapM_eq_map each]
  rfl

theorem lower_hosted (two : OnTwoBackends is) {sim : Simulator}
    (offers : sim.capabilities = .simulating) :
    sim.lowerAll (is.filter fun i => !i.isEvaluated) = .ok ⟨.quantum, hostOps is⟩ := by
  have supported : ∀ code ∈ "measure" :: reversibleOpcodes,
      Capabilities.simulating.supports code = true := by decide
  have each : ∀ i ∈ is.filter (fun i => !i.isEvaluated), sim.lowerOne i = .ok (gatesFor i) := by
    intro i mem
    obtain ⟨mem, other⟩ := List.mem_filter.mp mem
    cases two.lowered i mem with
    | hosted opcode lowered =>
      rw [Simulator.lowerOne, offers, if_pos (supported i.opcode opcode), lowered,
        gatesFor_of_lowered lowered]
    | evaluated opcode shaped =>
      have evaluated : i.isEvaluated = true := by
        simpa [Instruction.isEvaluated] using opcode
      rw [evaluated] at other
      cases other
  rw [Simulator.lowerAll, Except.mapM_eq_map each, offers, hostOps, List.flatMap_def]
  rfl

section Programs
open Orchestrator
variable {ds : List Descriptor} {r : Registry} {sim : Simulator} {o : Orchestrator}
  {routing : RoutingPlan}

structure LowersBatch (r : Registry) (o : Orchestrator) (is : List Instruction)
    (batch : Kind × List Instruction) (p : Program) : Prop where
  lowers : LowersAs r o batch p
  ops : batch.1 = .classical ∧ p.ops = evaluatorOps is ∨
    batch.1 = .quantum ∧ Reduces (hostOps is) p.ops

theorem lowers_batch (two : OnTwoBackends is) (made : Registry.Made ds r)
    (office : BitOffice r sim o) (offers : sim.capabilities = .simulating)
    (routed : CapabilityTable.simulating.plan .quantum is = .ok routing)
    {batch : Kind × List Instruction} (entry : batch ∈ (routing.partition is).entries) :
    ∃ p, LowersBatch r o is batch p := by
  obtain ⟨kind, b⟩ := batch
  -- A batch has an instruction, which tells its kind.
  obtain ⟨i, at_i⟩ := List.exists_mem_of_ne_nil _ (partition_some _ entry)
  obtain ⟨among, executes⟩ := (mem_partition routed).1 _ entry i at_i
  have ofKind := executes.unique (two.executes among)
  cases evaluated : i.isEvaluated with
  | true =>
    rw [evaluated] at ofKind
    cases (show kind = .classical from ofKind)
    have whole := batch_eq_filter two.order routed entry fun j mem => (two.executes_iff mem).1
    refine ⟨⟨.classical, evaluatorOps is⟩, .classical rfl ?_, Or.inl ⟨rfl, rfl⟩⟩
    rw [whole, office.classical]
    exact two.lower_evaluated
  | false =>
    rw [evaluated] at ofKind
    cases (show kind = .quantum from ofKind)
    have whole := batch_eq_filter two.order routed entry fun j mem => (two.executes_iff mem).2
    obtain ⟨q, lowered, _, reduces⟩ :=
      Simulator.lower_of_lowerAll (office.serves.known made) (two.lower_hosted offers)
    refine ⟨q, .simulated rfl office.workers office.serves ?_, Or.inr ⟨rfl, reduces⟩⟩
    rw [whole]
    exact lowered

theorem not_executes_of_none {kind : Kind} {programs : List Program} (made : Registry.Made ds r)
    (bottom : o.classical.capabilities.kind = .classical)
    (routed : CapabilityTable.simulating.plan .quantum is = .ok routing)
    (lowered : List.Forall₂ (LowersAs r o) (routing.partition is).entries programs)
    (without : ∀ q ∈ programs, q.kind ≠ kind) :
    ∀ i ∈ is, ¬ CapabilityTable.simulating.Executes .quantum i kind := by
  intro i mem executes
  obtain ⟨batch, entry, _, executes'⟩ := (mem_partition routed).2 i mem
  obtain ⟨q, among, lowers⟩ := forall₂_left lowered batch entry
  exact without q among ((lowers.kind made bottom).trans (executes'.unique executes))

theorem programs (two : OnTwoBackends is) (made : Registry.Made ds r)
    (office : BitOffice r sim o) (offers : sim.capabilities = .simulating)
    (routed : CapabilityTable.simulating.plan .quantum is = .ok routing) :
    ∃ programs, List.Forall₂ (LowersAs r o) (routing.partition is).entries programs ∧
      classicalOps (schedule programs) = evaluatorOps is ∧
        Reduces (hostOps is) (opsOf .quantum (schedule programs)) := by
  obtain ⟨programs, all⟩ := forall₂_choose fun _ entry =>
    two.lowers_batch made office offers routed entry
  have lowered : List.Forall₂ (LowersAs r o) (routing.partition is).entries programs :=
    all.imp fun _ _ lowers => lowers.lowers
  have bottom : o.classical.capabilities.kind = .classical := by
    rw [office.classical]
    rfl
  have kinds := kinds_of_lowered made bottom lowered
  have nodup : (programs.map Program.kind).Nodup := kinds ▸ partition_ordered.nodup
  have none : ∀ kind, (∀ q ∈ programs, q.kind ≠ kind) → ∀ i ∈ is,
      ¬ CapabilityTable.simulating.Executes .quantum i kind :=
    fun _ without => not_executes_of_none made bottom routed lowered without
  have split : ∀ p ∈ programs, ∃ batch, p.kind = batch.1 ∧ LowersBatch r o is batch p := by
    intro p mem
    obtain ⟨batch, _, lowers⟩ := forall₂_right all p mem
    exact ⟨batch, lowers.lowers.kind made bottom, lowers⟩
  refine ⟨programs, lowered, ?_, ?_⟩
  · refine opsOf_schedule_cases (P := (· = evaluatorOps is)) nodup (fun p mem ofKind => ?_)
      fun without => ?_
    · obtain ⟨batch, ofBatch, lowers⟩ := split p mem
      rcases lowers.ops with ⟨_, ops⟩ | ⟨other, _⟩
      · exact ⟨ops ▸ evaluatorOps_inOrder two.order, ops⟩
      · exact absurd (ofKind.symm.trans (ofBatch.trans other)) (by decide)
    · have nothing : is.filter Instruction.isEvaluated = [] :=
        List.filter_eq_nil_iff.mpr fun i mem evaluated =>
          none _ without i mem ((two.executes_iff mem).1.mp evaluated)
      rw [evaluatorOps, nothing]
      rfl
  · refine opsOf_schedule_cases (P := Reduces (hostOps is)) nodup (fun p mem ofKind => ?_)
      fun without => ?_
    · obtain ⟨batch, ofBatch, lowers⟩ := split p mem
      rcases lowers.ops with ⟨other, _⟩ | ⟨_, reduces⟩
      · exact absurd (ofKind.symm.trans (ofBatch.trans other)) (by decide)
      · exact ⟨(hostOps_inOrder two.order).sublist reduces.sublist, reduces⟩
    · have nothing : is.filter (fun i => !i.isEvaluated) = [] :=
        List.filter_eq_nil_iff.mpr fun i mem other =>
          none _ without i mem ((two.executes_iff mem).2.mp other)
      rw [hostOps, nothing]
      exact .refl []

end Programs
end OnTwoBackends
end LazyCast
