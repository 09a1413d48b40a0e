import LazyCast.Proofs.Orchestrator.Batches
import LazyCast.Proofs.Passes.Sampled
/-!
The host's last measurement. In a schedule without passes the last operation of the host is the
measurement of its last instruction, and the host's last run holds it.
-/
namespace LazyCast

namespace Registry
variable {ds : List Descriptor} {r r' : Registry} {kind : Kind} {s : Simulator}

theorem Made.classical_kind (made : Made ds r) :
    (Evaluator.ofDescriptor r.classical).capabilities.kind = .classical := by
  have named := (made.found r.classical_found).2.1
  change Kind.mk r.classical.name r.classical.level = _
  rw [named, made.bottom]
  rfl

theorem Serves.plain (made' : Made (ds.map Descriptor.withoutPasses) r')
    (serves : r'.Serves kind s) : s.passes = [] := by
  obtain ⟨d, required, ofDescriptor⟩ := serves
  obtain ⟨among, _, _⟩ := made'.found (require_eq_ok.mp required).1
  obtain ⟨e, _, rfl⟩ := List.mem_map.mp among
  rw [(Simulator.kind_ofDescriptor ofDescriptor).2]
  rfl

theorem Serves.unstripped (made : Made ds r) (made' : Made (ds.map Descriptor.withoutPasses) r')
    (serves : r'.Serves kind s) : ∃ s₀, r.Serves kind s₀ ∧ s = s₀.withoutPasses := by
  obtain ⟨d', required, ofDescriptor⟩ := serves
  obtain ⟨found, level⟩ := require_eq_ok.mp required
  rw [find?_stripped made made'] at found
  obtain ⟨d, there, rfl⟩ := Option.map_eq_some_iff.mp found
  rw [Simulator.ofDescriptor_withoutPasses] at ofDescriptor
  obtain ⟨s₀, made₀, rfl⟩ := Except.map_eq_ok.mp ofDescriptor
  exact ⟨s₀, ⟨d, require_eq_ok.mpr ⟨there, level⟩, made₀⟩, rfl⟩

end Registry

theorem Simulator.lower_plain {s : Simulator} (plain : s.passes = []) (batch : List Instruction) :
    s.lower batch = s.lowerAll batch := by
  unfold Simulator.lower
  rw [plain]
  change (s.lowerAll batch).bind (fun p => .ok p) = _
  cases s.lowerAll batch <;> rfl

theorem InstructionSet.mem_of_contains {opcodes : List String} {opcode : String}
    (contains : (ofOpcodes opcodes).contains opcode = true) : opcode ∈ opcodes := by
  unfold InstructionSet.contains ofOpcodes OrderedSet.contains OrderedSet.ofList at contains
  rw [decide_eq_true_eq, OrderedSet.mem_foldl_insert] at contains
  simpa [OrderedSet.empty] using contains

theorem Evaluator.supports_known {d : Descriptor} {opcode : String}
    (supports : (Evaluator.ofDescriptor d).capabilities.supports opcode = true) :
    InstructionSet.classical.contains opcode = true := by
  unfold Capabilities.supports InstructionSet.contains Evaluator.ofDescriptor
    InstructionSet.intersect at supports
  rw [OrderedSet.contains_inter, Bool.and_eq_true] at supports
  exact supports.2

theorem Evaluator.measures_nothing (d : Descriptor) {batch : List Instruction} {p : Program}
    (lowered : (Evaluator.ofDescriptor d).lower batch = .ok p) :
    ∀ i ∈ batch, i.opcode ≠ "measure" := by
  intro i mem measures
  unfold Evaluator.lower at lowered
  obtain ⟨ops, each, _⟩ := Except.map_eq_ok.mp lowered
  obtain ⟨op, _, one⟩ := (Except.mapM_eq_ok each).1 i mem
  unfold Evaluator.lowerOne at one
  split at one
  · rename_i supports
    have known := InstructionSet.mem_of_contains (Evaluator.supports_known supports)
    rw [measures] at known
    simp at known
  · cases one

namespace Orchestrator

/-- The last instruction that the host executes is a measurement. -/
def EndsMeasured (t : CapabilityTable) (ledger : FrozenLedger) : Prop :=
  ∃ before i after, ledger.instructions = before ++ i :: after ∧ i.opcode = "measure" ∧
    t.Executes ledger.dominantKind i ledger.dominantKind ∧
      ∀ j ∈ after, ¬ t.Executes ledger.dominantKind j ledger.dominantKind

section Pairs
variable {α β : Type} {R : α → β → Prop} {as : List α} {bs : List β}

theorem forall₂_left (all : List.Forall₂ R as bs) : ∀ a ∈ as, ∃ b ∈ bs, R a b := by
  induction all with
  | nil => simp
  | cons first _ ih =>
    intro a mem
    rcases List.mem_cons.mp mem with rfl | mem
    · exact ⟨_, List.mem_cons_self, first⟩
    · obtain ⟨b, among, related⟩ := ih a mem
      exact ⟨b, List.mem_cons_of_mem _ among, related⟩

theorem forall₂_right (all : List.Forall₂ R as bs) : ∀ b ∈ bs, ∃ a ∈ as, R a b :=
  forall₂_left all.flip

theorem forall₂_choose (each : ∀ a ∈ as, ∃ b, R a b) : ∃ bs, List.Forall₂ R as bs := by
  induction as with
  | nil => exact ⟨[], .nil⟩
  | cons a as ih =>
    obtain ⟨⟨b, first⟩, rest⟩ := List.forall_mem_cons.mp each
    obtain ⟨bs, others⟩ := ih rest
    exact ⟨b :: bs, .cons first others⟩

theorem forall₂_choose_beside {γ : Type} {S : α → γ → Prop} {T : β → γ → Prop}
    (each : ∀ a b, R a b → ∃ c, S a c ∧ T b c) (all : List.Forall₂ R as bs) :
    ∃ cs, List.Forall₂ S as cs ∧ List.Forall₂ T bs cs := by
  induction all with
  | nil => exact ⟨[], .nil, .nil⟩
  | cons first _ ih =>
    obtain ⟨c, here, beside⟩ := each _ _ first
    obtain ⟨cs, others, rest⟩ := ih
    exact ⟨c :: cs, .cons here others, .cons beside rest⟩

end Pairs

section Lowered
variable {ds : List Descriptor} {r : Registry} {o : Orchestrator}
  {batches : List (Kind × List Instruction)} {programs : List Program}

theorem LowersAs.kind (made : Registry.Made ds r)
    (bottom : o.classical.capabilities.kind = .classical) {batch : Kind × List Instruction}
    {p : Program} (lowers : LowersAs r o batch p) :
    p.kind = batch.1 := by
  cases lowers with
  | classical classical lowered =>
    unfold Evaluator.lower at lowered
    obtain ⟨ops, _, rfl⟩ := Except.map_eq_ok.mp lowered
    exact bottom.trans (of_decide_eq_true classical).symm
  | simulated needed covered serves lowered =>
    obtain ⟨plain, all, kind, _⟩ := Simulator.lower_eq_ok (serves.known made) lowered
    rw [kind, (Simulator.lowerAll_eq_ok all).1, serves.kind made]

theorem covers_of_lowered (made : Registry.Made ds r)
    (bottom : o.classical.capabilities.kind = .classical)
    (lowered : List.Forall₂ (LowersAs r o) batches programs) : o.Covers (schedule programs) := by
  intro op mem needed
  obtain ⟨p, among, kind, _⟩ := mem_schedule.mp mem
  obtain ⟨batch, _, lowers⟩ := forall₂_right lowered p among
  have ofBatch := lowers.kind made bottom
  rw [kind, ofBatch] at needed ⊢
  cases lowers with
  | classical classical _ => cases needed.symm.trans classical
  | simulated other covered _ _ => exact covered

variable {ledger : FrozenLedger} {routing : RoutingPlan}

theorem host_ops (made : Registry.Made (ds.map Descriptor.withoutPasses) r)
    (bottom : o.classical.capabilities.kind = .classical) {host : Kind}
    (needed : host.isClassical = false)
    (routed : o.capabilities.plan host ledger.instructions = .ok routing)
    (lowered : List.Forall₂ (LowersAs r o) (routing.partition ledger.instructions).entries
      programs) :
    (∀ op ∈ schedule programs, op.1 = host → ∃ i ∈ ledger.instructions,
      o.capabilities.Executes host i host ∧
        ∃ ops, Lowering.lowerOne i = .ok ops ∧ op.2 ∈ ops) ∧
    ∀ i ∈ ledger.instructions, o.capabilities.Executes host i host →
      ∃ ops, Lowering.lowerOne i = .ok ops ∧ ∀ op ∈ ops, (host, op) ∈ schedule programs := by
  obtain ⟨inside, covers⟩ := mem_partition routed
  constructor
  · intro op mem ofHost
    obtain ⟨p, among, kind, at_op⟩ := mem_schedule.mp mem
    obtain ⟨batch, entry, lowers⟩ := forall₂_right lowered p among
    have ofBatch := lowers.kind made bottom
    cases lowers with
    | classical classical _ =>
      rw [← ofHost, kind, ofBatch] at needed
      cases needed.symm.trans classical
    | simulated other covered serves lowers =>
      rw [Simulator.lower_plain (serves.plain made)] at lowers
      obtain ⟨i, at_i, ops, one, at_op⟩ := (Simulator.lowerAll_eq_ok lowers).2.1 op.2 at_op
      obtain ⟨among, executes⟩ := inside batch entry i at_i
      rw [← ofBatch, ← kind, ofHost] at executes
      exact ⟨i, among, executes, ops, one, at_op⟩
  · intro i mem executes
    obtain ⟨batch, entry, at_i, executes'⟩ := covers i mem
    have ofHost := executes.unique executes'
    obtain ⟨p, among, lowers⟩ := forall₂_left lowered batch entry
    have ofBatch := (lowers.kind made bottom).trans ofHost.symm
    cases lowers with
    | classical classical _ =>
      rw [ofHost] at needed
      cases needed.symm.trans classical
    | simulated other covered serves lowers =>
      rw [Simulator.lower_plain (serves.plain made)] at lowers
      obtain ⟨ops, one, all⟩ := (Simulator.lowerAll_eq_ok lowers).2.2 i at_i
      exact ⟨ops, one, fun op mem => mem_schedule.mpr ⟨p, among, ofBatch.symm, all op mem⟩⟩

theorem EndsMeasured.needed (ends : EndsMeasured o.capabilities ledger)
    {d : Descriptor} (classical : o.classical = Evaluator.ofDescriptor d)
    (routed : o.capabilities.plan ledger.dominantKind ledger.instructions = .ok routing)
    (lowered : List.Forall₂ (LowersAs r o) (routing.partition ledger.instructions).entries
      programs) : ledger.dominantKind.isClassical = false := by
  obtain ⟨before, i, after, split, measures, executes, _⟩ := ends
  have mem : i ∈ ledger.instructions := by simp [split]
  obtain ⟨batch, entry, at_i, executes'⟩ := (mem_partition routed).2 i mem
  obtain ⟨p, _, lowers⟩ := forall₂_left lowered batch entry
  rw [executes.unique executes']
  cases lowers with
  | classical _ lowers =>
    rw [classical] at lowers
    exact absurd measures (Evaluator.measures_nothing d lowers i at_i)
  | simulated other _ _ _ => exact other

end Lowered

theorem last_split {α : Type} {p : α → Bool} {xs : List α} {a : α} (mem : a ∈ xs)
    (holds : p a = true) :
    ∃ before x after, xs = before ++ x :: after ∧ p x = true ∧ ∀ y ∈ after, p y = false := by
  cases found : xs.reverse.find? p with
  | none =>
    have no := List.find?_eq_none.mp found a (List.mem_reverse.mpr mem)
    exact absurd holds no
  | some x =>
    obtain ⟨yes, after, before, split, no⟩ := List.find?_eq_some_iff_append.mp found
    refine ⟨before.reverse, x, after.reverse, ?_, yes, fun y mem => ?_⟩
    · rw [← List.reverse_reverse xs, split]
      simp
    · simpa using no y (List.mem_reverse.mp mem)

theorem seq_lt {is before after : List Instruction} {i : Instruction} (numbered : Numbered is)
    (split : is = before ++ i :: after) : ∀ j ∈ before, j.seq < i.seq := by
  have order := inOrder_of_numbered numbered
  rw [split] at order
  intro j mem
  exact (List.pairwise_append.mp order).2.2 j mem i List.mem_cons_self

section Last
variable {ds : List Descriptor} {r : Registry} {o : Orchestrator} {programs : List Program}
  {ledger : FrozenLedger} {routing : RoutingPlan}

theorem EndsMeasured.split (ends : EndsMeasured o.capabilities ledger)
    (numbered : Numbered ledger.instructions)
    (made : Registry.Made (ds.map Descriptor.withoutPasses) r)
    (bottom : o.classical.capabilities.kind = .classical)
    (needed : ledger.dominantKind.isClassical = false)
    (routed : o.capabilities.plan ledger.dominantKind ledger.instructions = .ok routing)
    (lowered : List.Forall₂ (LowersAs r o) (routing.partition ledger.instructions).entries
      programs) :
    ∃ before seq qubits after, qubits ≠ [] ∧ schedule programs = before ++
        (ledger.dominantKind, Lowering.gate seq "measure" qubits) :: after ∧
      ∀ op ∈ after, op.1 ≠ ledger.dominantKind := by
  obtain ⟨ops_of, has⟩ := host_ops made bottom needed routed lowered
  obtain ⟨is, i, js, split, measures, executes, later⟩ := ends
  have mem : i ∈ ledger.instructions := by simp [split]
  obtain ⟨ops, one, all⟩ := has i mem executes
  obtain ⟨qubits, some, rfl⟩ := Lowering.lowerOne_measure measures one
  have there := all _ List.mem_cons_self
  obtain ⟨before, x, after, parts, ofHost, rest⟩ :=
    last_split (p := fun op : Scheduled => decide (op.1 = ledger.dominantKind)) there (by simp)
  have ofHost : x.1 = ledger.dominantKind := of_decide_eq_true ofHost
  have sorted := schedule_sorted programs
  rw [parts] at sorted there
  -- The schedule is sorted, so its last operation of the host is not before the measurement; it
  -- cannot stem from a later instruction, and an earlier one has a smaller position.
  have upto : i.seq ≤ x.2.seq := by
    rcases List.mem_append.mp there with mem | mem
    · exact (List.pairwise_append.mp sorted).2.2 _ mem x List.mem_cons_self
    · rcases List.mem_cons.mp mem with rfl | mem
      · exact Nat.le_refl _
      · have no := rest _ mem
        simp at no
  obtain ⟨j, among, ran, ops', one', at_x⟩ := ops_of x (by simp [parts]) ofHost
  have at_seq := Lowering.seq_lowerOne one' x.2 at_x
  have same : j = i := by
    rw [split] at among
    rcases List.mem_append.mp among with mem | mem
    · have lt := seq_lt numbered split j mem
      rw [at_seq] at upto
      exact absurd lt (Nat.not_lt_of_le upto)
    · rcases List.mem_cons.mp mem with rfl | mem
      · rfl
      · exact absurd ran (later j mem)
  subst same
  cases one.symm.trans one'
  refine ⟨before, j.seq, qubits, after, some, ?_, fun op mem => ?_⟩
  · rw [parts, ← ofHost, ← List.mem_singleton.mp at_x]
  · have no := rest op mem
    simpa using no

end Last
end Orchestrator
end LazyCast
