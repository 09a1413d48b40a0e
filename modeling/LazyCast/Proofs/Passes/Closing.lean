import LazyCast.Proofs.Circuit.Readout
import LazyCast.Proofs.Passes.Alone
import LazyCast.Proofs.Passes.Executed
import LazyCast.Proofs.Reversible.Lowered
/-!
Ledgers that close with a measurement. Passes keep it and nothing comes after it in the schedule, so
it stands in the last run of all. Whether the sample that is handed out stems from that run depends
on who executes it.
-/
namespace LazyCast

theorem Lowering.lowerOne_measurement {i : Instruction} {ops : List NativeOp} {qubits : List Qubit}
    (measures : i.opcode = "measure") (operands : i.operands = qubits.map Operand.qubit)
    (lowered : lowerOne i = .ok ops) : ops = [gate i.seq "measure" qubits] := by
  obtain ⟨named, distinct, rfl⟩ := lowerOne_distinct measures lowered
  have same : named.map Operand.qubit = qubits.map Operand.qubit :=
    (distinctQubits_eq_ok distinct).1.symm.trans operands
  rw [← qubitsOf_map named, same, qubitsOf_map]

namespace Circuit
variable {ops : List NativeOp} {q : Qubit}

theorem mem_measuredBy {seq : Nat} {qubits : List Qubit}
    (mem : Lowering.gate seq "measure" qubits ∈ ops) : ∀ q ∈ qubits, q ∈ measuredBy ops := by
  intro q at_q
  have names : (Lowering.gate seq "measure" qubits).qubits = qubits := Lowering.qubitsOf_map qubits
  rw [measuredBy, mem_distinct, List.mem_flatMap]
  exact ⟨_, List.mem_filter.mpr ⟨mem, rfl⟩, names.symm ▸ at_q⟩

theorem mem_readout (measured : q ∈ measuredBy ops) : q ∈ readout ops := by
  have some : (measuredBy ops).isEmpty = false := by simpa using List.ne_nil_of_mem measured
  rw [readout, some, if_neg Bool.false_ne_true]
  exact measured

theorem utf8ByteSize_outcome (c : Circuit) (basis : Nat) :
    (c.outcome basis).utf8ByteSize = c.measured.length := by
  have digits : c.outcome basis = String.ofList
      ((c.measured.reverse.map fun q => basis.testBit (denseOf c.dense q)).map digit) := by
    rw [outcome, List.map_map]
    rfl
  rw [digits, utf8ByteSize_digits, List.length_map, List.length_reverse]

end Circuit

theorem CapabilityTable.executes_host {t : CapabilityTable} {host : Kind} {i : Instruction}
    (subsumes : host.subsumes i.kind = true) (supports : t.kindSupports host i.opcode = true) :
    t.Executes host i host := by
  unfold Executes resolve
  cases above : host.isAbove i.kind with
  | true => exact ⟨.embedded, by simp [supports]⟩
  | false =>
    have same : host = i.kind := by simpa [Kind.subsumes, above] using subsumes
    exact ⟨.native, by simp [← same, supports]⟩

theorem Counts.mem_ofPairs {pairs : List (String × Nat)} :
    ∀ e ∈ (Counts.ofPairs pairs).entries, ∃ p ∈ pairs, p.1 = e.1 := by
  have upto : ∀ (pairs : List (String × Nat)) (c : Counts),
      ∀ e ∈ (pairs.foldl (fun c p => Counts.add c p.1 p.2) c).entries,
        (∃ p ∈ pairs, p.1 = e.1) ∨ ∃ d ∈ c.entries, d.1 = e.1 := by
    intro pairs
    induction pairs with
    | nil => exact fun c e mem => Or.inr ⟨e, mem, rfl⟩
    | cons p rest ih =>
      intro c e mem
      rcases ih _ e mem with ⟨q, among, same⟩ | ⟨d, mem, same⟩
      · exact Or.inl ⟨q, List.mem_cons_of_mem _ among, same⟩
      · rcases Table.mem_update mem with old | rfl | ⟨_, _, rfl⟩
        · exact Or.inr ⟨d, old, same⟩
        · exact Or.inl ⟨p, List.mem_cons_self, same⟩
        · exact Or.inl ⟨p, List.mem_cons_self, same⟩
  intro e mem
  rcases upto pairs .empty e mem with listed | ⟨d, none, _⟩
  · exact listed
  · cases none

namespace Orchestrator

section Drawn
variable {r : Registry} {p : Program} {c : Circuit} {m : MeasuredSample}

theorem Samples.readout (samples : Samples r p c m) : m.qubits = Circuit.readout p.ops := by
  rw [samples.qubits]
  obtain ⟨_, _, made⟩ := samples.circuits
  obtain ⟨_, _, _, _, rfl⟩ := Circuit.ofOps_eq_ok.mp made
  rfl

theorem Samples.fits (samples : Samples r p c m) :
    ∀ e ∈ m.counts.entries, e.1.utf8ByteSize = m.qubits.length := by
  obtain ⟨_, _, _, _, rfl⟩ := samples
  intro e mem
  obtain ⟨_, among, same⟩ := Counts.mem_ofPairs e mem
  obtain ⟨basis, _, rfl⟩ := List.mem_map.mp among
  rw [← same]
  exact c.utf8ByteSize_outcome basis.1

end Drawn

section Closing
variable {ds : List Descriptor} {r : Registry} {o : Orchestrator} {programs : List Program}
  {ledger : FrozenLedger} {routing : RoutingPlan} {i : Instruction} {qubits : List Qubit}

structure Closes (ledger : FrozenLedger) (i : Instruction) (qubits : List Qubit) : Prop where
  last : ∃ before, ledger.instructions = before ++ [i]
  measures : i.opcode = "measure"
  operands : i.operands = qubits.map Operand.qubit

theorem Closes.mem (closes : Closes ledger i qubits) : i ∈ ledger.instructions := by
  obtain ⟨before, last⟩ := closes.last
  rw [last]
  exact List.mem_append_right before List.mem_cons_self

theorem measurement_scheduled (made : Registry.Made ds r)
    (evaluates : o.classical = Evaluator.ofDescriptor r.classical)
    (routed : o.capabilities.plan ledger.dominantKind ledger.instructions = .ok routing)
    (lowered : List.Forall₂ (LowersAs r o) (routing.partition ledger.instructions).entries
      programs) (mem : i ∈ ledger.instructions) (measures : i.opcode = "measure")
    (operands : i.operands = qubits.map Operand.qubit) :
    ∃ kind, kind.isClassical = false ∧ o.capabilities.Executes ledger.dominantKind i kind ∧
      (kind, Lowering.gate i.seq "measure" qubits) ∈ schedule programs := by
  have bottom : o.classical.capabilities.kind = .classical := evaluates ▸ made.classical_kind
  obtain ⟨batch, entry, at_i, executes⟩ := (mem_partition routed).2 i mem
  obtain ⟨p, among, lowers⟩ := forall₂_left lowered batch entry
  have ofBatch := lowers.kind made bottom
  refine ⟨batch.1, ?_⟩
  cases lowers with
  | classical _ lowers =>
    rw [evaluates] at lowers
    exact absurd measures (Evaluator.measures_nothing r.classical lowers i at_i)
  | simulated needed _ serves lowers =>
    obtain ⟨plain, all, _, reduces⟩ := Simulator.lower_eq_ok (serves.known made) lowers
    obtain ⟨ops, one, inside⟩ := (Simulator.lowerAll_eq_ok all).2.2 i at_i
    cases Lowering.lowerOne_measurement measures operands one
    have kept : Lowering.gate i.seq "measure" qubits ∈
        p.ops.filter fun op => op.code == "measure" := by
      rw [reduces.measures]
      exact List.mem_filter.mpr ⟨inside _ List.mem_cons_self, rfl⟩
    exact ⟨needed, executes, mem_schedule.mpr ⟨p, among, ofBatch.symm, (List.mem_filter.mp kept).1⟩⟩

theorem Closes.schedule (closes : Closes ledger i qubits) (numbered : Numbered ledger.instructions)
    (made : Registry.Made ds r) (evaluates : o.classical = Evaluator.ofDescriptor r.classical)
    (routed : o.capabilities.plan ledger.dominantKind ledger.instructions = .ok routing)
    (lowered : List.Forall₂ (LowersAs r o) (routing.partition ledger.instructions).entries
      programs) :
    ∃ kind ops, kind.isClassical = false ∧ o.capabilities.Executes ledger.dominantKind i kind ∧
      schedule programs = ops ++ [(kind, Lowering.gate i.seq "measure" qubits)] := by
  have mem := closes.mem
  obtain ⟨⟨before, last⟩, measures, operands⟩ := closes
  obtain ⟨kind, needed, executes, there⟩ := measurement_scheduled made evaluates routed lowered
    mem measures operands
  have bottom : o.classical.capabilities.kind = .classical := evaluates ▸ made.classical_kind
  rcases List.eq_nil_or_concat (Orchestrator.schedule programs) with empty | ⟨ops, x, split⟩
  · rw [empty] at there
    cases there
  rw [List.concat_eq_append] at split
  -- The schedule is sorted, so its last operation is not before the measurement; no instruction but
  -- the last one stands as far back, so both stem from it.
  have upto : i.seq ≤ x.2.seq := by
    have sorted := schedule_sorted programs
    rw [split] at sorted there
    rcases List.mem_append.mp there with mem | mem
    · exact (List.pairwise_append.mp sorted).2.2 _ mem x List.mem_cons_self
    · rw [← List.mem_singleton.mp mem]
      exact Nat.le_refl _
  obtain ⟨j, among, executes', at_seq, stems⟩ :=
    stem_of_lowered made bottom routed lowered x (by simp [split])
  have same : j = i := by
    rw [last] at among
    rcases List.mem_append.mp among with mem | mem
    · have less := seq_lt numbered last j mem
      omega
    · exact List.mem_singleton.mp mem
  subst same
  have ofKind : x.1 = kind := executes'.unique executes
  obtain ⟨ops', one, at_x⟩ := stems (ofKind ▸ needed)
  cases Lowering.lowerOne_measurement measures operands one
  exact ⟨kind, ops, needed, executes, by rw [split, ← ofKind, ← List.mem_singleton.mp at_x]⟩

theorem Closes.covers (closes : Closes ledger i qubits) (numbered : Numbered ledger.instructions)
    (made : Registry.Made ds r) (evaluates : o.classical = Evaluator.ofDescriptor r.classical)
    (routed : o.capabilities.plan ledger.dominantKind ledger.instructions = .ok routing)
    (lowered : List.Forall₂ (LowersAs r o) (routing.partition ledger.instructions).entries
      programs) {runs : List Program}
    (planned : runsOf o.classical (Orchestrator.schedule programs) = .ok runs)
    (hosted : o.capabilities.Executes ledger.dominantKind i ledger.dominantKind ∨
      ∀ p ∈ runs, p.kind ≠ ledger.dominantKind) {p : Program}
    (source : sourceOf ledger.dominantKind runs = some p) :
    ∀ q ∈ qubits, q ∈ Circuit.readout p.ops := by
  obtain ⟨kind, ops, needed, executes, split⟩ :=
    closes.schedule numbered made evaluates routed lowered
  obtain ⟨last, registers, bound, ends, ofKind, binds, inside⟩ :=
    (runs_of_planned planned).ends split needed
  have ofHost : last.kind = ledger.dominantKind ∨ ∀ p ∈ runs, p.kind ≠ ledger.dominantKind :=
    hosted.imp_left fun hosted => ofKind.trans (executes.unique hosted)
  cases (sourceOf_of_ending ends ofHost).symm.trans source
  obtain ⟨x, one, rfl⟩ := Program.bind_single.mp binds
  rw [Program.bindOp_gate] at one
  cases one
  have measured : Lowering.gate i.seq "measure" qubits ∈ p.ops := inside _ (by simp)
  exact fun q mem => Circuit.mem_readout (Circuit.mem_measuredBy measured q mem)

end Closing

end Orchestrator
end LazyCast
