import LazyCast.Proofs.Passes.Executed
import LazyCast.Proofs.Reversible.Batched
import LazyCast.Proofs.Reversible.Measured
/-!
Ledgers on bits, executed. A ledger that ends with a measurement comes to one run, and every shot of
its sample is the outcome that the ledger has as a program on bits.
-/
namespace LazyCast

def hostQubits (is : List Instruction) : List Qubit :=
  (is.filter fun i => !i.isEvaluated).flatMap Instruction.qubits

def measuring (seq : Nat) (qubits : List Qubit) : Instruction :=
  ⟨seq, "measure", qubits.map Operand.qubit, .quantum⟩

section Measuring
variable {seq : Nat} {qubits : List Qubit}

theorem lowerOne_measuring (nodup : qubits.Nodup) (some : qubits ≠ []) :
    Lowering.lowerOne (measuring seq qubits) = .ok [Lowering.gate seq "measure" qubits] := by
  have enough : 1 ≤ qubits.length := List.length_pos_iff.mpr some
  simp only [Lowering.lowerOne, measuring, Lowering.ofOpcode?,
    Lowering.distinctQubits_map nodup enough]
  rfl

theorem hostOps_measuring (nodup : qubits.Nodup) (some : qubits ≠ []) (is : List Instruction) :
    hostOps (is ++ [measuring seq qubits]) = hostOps is ++ [Lowering.gate seq "measure" qubits] := by
  have other : (measuring seq qubits).isEvaluated = false := not_evaluated List.mem_cons_self
  rw [hostOps_append, hostOps_cons other, gatesFor_of_lowered (lowerOne_measuring nodup some)]
  rfl

theorem evaluatorOps_measuring (is : List Instruction) :
    evaluatorOps (is ++ [measuring seq qubits]) = evaluatorOps is := by
  have other : (measuring seq qubits).isEvaluated = false := not_evaluated List.mem_cons_self
  rw [evaluatorOps_append, evaluatorOps_cons other]
  exact List.append_nil _

end Measuring

/-- A ledger on bits that ends with a measurement, with the bits that it comes to. -/
structure BitLedger (l : FrozenLedger) (is : List Instruction) (seq : Nat) (qubits : List Qubit)
    (b : BitState) : Prop where
  whole : l.instructions = is ++ [measuring seq qubits]
  numbered : Numbered l.instructions
  host : l.dominantKind = .quantum
  accepted : ∀ i ∈ is, i.OnBits
  declared : ∀ i ∈ is, i.IsDeclared
  nodup : qubits.Nodup
  nonempty : qubits ≠ []
  ran : BitState.zero.run is = .ok b

namespace BitLedger
open Orchestrator
variable {l : FrozenLedger} {is : List Instruction} {seq : Nat} {qubits : List Qubit}
  {b : BitState}

theorem two (bits : BitLedger l is seq qubits b) : OnTwoBackends l.instructions where
  lowered i mem := by
    rw [bits.whole] at mem
    rcases List.mem_append.mp mem with mem | mem
    · exact (bits.accepted i mem).isLowered
    · rw [List.mem_singleton.mp mem]
      exact .hosted List.mem_cons_self (lowerOne_measuring bits.nodup bits.nonempty)
  declared i mem := by
    rw [bits.whole] at mem
    rcases List.mem_append.mp mem with mem | mem
    · exact bits.declared i mem
    · rw [List.mem_singleton.mp mem]
      exact Or.inr rfl
  order := inOrder_of_numbered bits.numbered

theorem before_measuring (bits : BitLedger l is seq qubits b) : ∀ i ∈ is, i.seq < seq := by
  have order := bits.two.order
  rw [bits.whole] at order
  exact fun i mem => (List.pairwise_append.mp order).2.2 i mem _ List.mem_cons_self

theorem traced (bits : BitLedger l is seq qubits b) (e : Evaluator) : Traced e .zero b is := by
  have order := bits.two.order
  rw [bits.whole] at order
  exact traced_of_run e (List.pairwise_append.mp order).1 bits.accepted bits.ran

/-- The measurement can be bound like the rest: it waits for all that is evaluated. -/
theorem bindable (bits : BitLedger l is seq qubits b) (e : Evaluator) :
    ∀ op ∈ hostOps l.instructions, Bindable e .empty (evaluatorOps l.instructions) op := by
  have traced := bits.traced e
  rw [bits.whole, hostOps_measuring bits.nodup bits.nonempty, evaluatorOps_measuring]
  intro op mem
  rcases List.mem_append.mp mem with mem | mem
  · exact traced.binds op mem
  · rw [List.mem_singleton.mp mem]
    refine bindable_last (fun c mem => ?_) traced.ran
      (Program.bindOp_gate _ seq "measure" qubits)
    obtain ⟨i, among, _, same⟩ := mem_evaluatorOps mem
    rw [same]
    exact bits.before_measuring i among

theorem bound_hostOps (bits : BitLedger l is seq qubits b) (e : Evaluator) :
    (hostOps l.instructions).flatMap (boundAt e .empty (evaluatorOps l.instructions)) =
      (hostOps is).flatMap (boundAt e .empty (evaluatorOps is)) ++
        [Lowering.gate seq "measure" qubits] := by
  have last : Lowering.gate seq "measure" qubits ∈ hostOps l.instructions := by
    rw [bits.whole, hostOps_measuring bits.nodup bits.nonempty]
    exact List.mem_append_right _ List.mem_cons_self
  obtain ⟨registers, x, binds, at_last⟩ := (bits.bindable e _ last).boundAt
  rw [Program.bindOp_gate] at binds
  cases binds
  rw [bits.whole, evaluatorOps_measuring] at at_last
  rw [bits.whole, hostOps_measuring bits.nodup bits.nonempty, evaluatorOps_measuring,
    List.flatMap_append, List.flatMap_singleton, at_last]
  rfl

theorem moves_then_measures (bits : BitLedger l is seq qubits b) (e : Evaluator) :
    MovesThenMeasures ((hostOps is).flatMap (boundAt e .empty (evaluatorOps is))) seq qubits where
  moves op mem :=
    have ⟨i, _, _, moves⟩ := (bits.traced e).moves op mem
    ⟨i, moves⟩
  nodup := bits.nodup
  nonempty := bits.nonempty

theorem touched_le (bits : BitLedger l is seq qubits b) (e : Evaluator) :
    (Circuit.touched ((hostOps is).flatMap (boundAt e .empty (evaluatorOps is)) ++
      [Lowering.gate seq "measure" qubits])).size ≤ (hostQubits is ++ qubits).toFinset.card := by
  have nodup := Circuit.nodup_touched ((hostOps is).flatMap (boundAt e .empty (evaluatorOps is)) ++
    [Lowering.gate seq "measure" qubits])
  rw [OrderedSet.size, ← List.toFinset_card_of_nodup nodup]
  refine Finset.card_le_card fun q inside => List.mem_toFinset.mpr ?_
  obtain ⟨op, mem, at_op⟩ := (Circuit.mem_touched _ q).mp (List.mem_toFinset.mp inside)
  rcases List.mem_append.mp mem with mem | mem
  · obtain ⟨i, among, other, code, qs, _, rfl, within⟩ := (bits.traced e).moves op mem
    have at_qs : q ∈ qs := Lowering.qubitsOf_map qs ▸ at_op
    exact List.mem_append_left _ (List.mem_flatMap.mpr
      ⟨i, List.mem_filter.mpr ⟨among, by simp [other]⟩, within q at_qs⟩)
  · rw [List.mem_singleton.mp mem] at at_op
    exact List.mem_append_right _ (Lowering.qubitsOf_map qubits ▸ at_op)

section Running
variable {ds : List Descriptor} {r : Registry} {sim : Simulator} {o : Orchestrator}
  {routing : RoutingPlan} {programs : List Program}

theorem schedule_kinds (bits : BitLedger l is seq qubits b) (made : Registry.Made ds r)
    (bottom : o.classical.capabilities.kind = .classical)
    (capabilities : o.capabilities = .simulating)
    (routed : o.capabilities.plan l.dominantKind l.instructions = .ok routing)
    (lowered : List.Forall₂ (LowersAs r o) (routing.partition l.instructions).entries programs) :
    ∀ op ∈ schedule programs, op.1 = .quantum ∨ op.1.isClassical = true := by
  intro op mem
  obtain ⟨i, among, executes, _⟩ := origin_of_lowered made bottom routed lowered op mem
  rw [capabilities, bits.host] at executes
  have ofKind := executes.unique (bits.two.executes among)
  cases evaluated : i.isEvaluated with
  | true =>
    rw [evaluated] at ofKind
    exact Or.inr (by rw [show op.1 = .classical from ofKind]; rfl)
  | false =>
    rw [evaluated] at ofKind
    exact Or.inl ofKind

theorem measurement_stays (bits : BitLedger l is seq qubits b) {ops : List NativeOp}
    (reduces : Reduces (hostOps l.instructions) ops) :
    Lowering.gate seq "measure" qubits ∈ ops := by
  have before : Lowering.gate seq "measure" qubits ∈
      (hostOps l.instructions).filter fun op => op.code == "measure" := by
    rw [bits.whole, hostOps_measuring bits.nodup bits.nonempty]
    exact List.mem_filter.mpr ⟨List.mem_append_right _ List.mem_cons_self, rfl⟩
  exact List.mem_of_mem_filter (reduces.measures ▸ before)

theorem runs (bits : BitLedger l is seq qubits b) (made : Registry.Made ds r)
    {e : Evaluator} (same : o.classical = e) (bottom : e.capabilities.kind = .classical)
    (capabilities : o.capabilities = .simulating)
    (routed : CapabilityTable.simulating.plan .quantum l.instructions = .ok routing)
    (lowered : List.Forall₂ (LowersAs r o) (routing.partition l.instructions).entries programs)
    (classical : classicalOps (schedule programs) = evaluatorOps l.instructions)
    (reduces : Reduces (hostOps l.instructions) (opsOf .quantum (schedule programs))) :
    ∃ p, runsOf e (schedule programs) = .ok [p] ∧ p.kind = .quantum ∧
      p.ops.all Circuit.isBound = true ∧
        Reduces ((hostOps is).flatMap (boundAt e .empty (evaluatorOps is)) ++
          [Lowering.gate seq "measure" qubits]) p.ops := by
  have bindable := bits.bindable e
  have needed : Kind.quantum.isClassical = false := by decide
  rw [← capabilities, ← bits.host] at routed
  have kinds := bits.schedule_kinds made (same ▸ bottom) capabilities routed lowered
  have sorted := earlier_of_lowered made (same ▸ bottom) bits.numbered routed lowered
  have ran : e.run .empty (classicalOps (schedule programs)) = .ok b.eval := by
    rw [classical, bits.whole, evaluatorOps_measuring]
    exact (bits.traced e).ran
  obtain ⟨bound, all⟩ := boundFrom_ok needed kinds sorted ran fun op mem => by
    rw [classical]
    exact bindable op (reduces.sublist.subset mem)
  have placed := boundFrom_placed needed kinds sorted all
  -- The measurement is bound as it is, so something runs.
  have some : bound ≠ [] := by
    have measured := bits.measurement_stays reduces
    obtain ⟨registers, x, binds, at_it⟩ := placed.each _ measured
    rw [Program.bindOp_gate] at binds
    cases binds
    have runs_it : Lowering.gate seq "measure" qubits ∈ bound.map Prod.snd := by
      rw [placed.all]
      exact List.mem_flatMap.mpr ⟨_, measured, at_it ▸ List.mem_cons_self⟩
    rintro rfl
    cases runs_it
  obtain ⟨p, planned, ofKind, ops⟩ := single_of_bound all kinds some
  refine ⟨p, planned, ofKind, ?_, ?_⟩
  · exact List.all_eq_true.mpr fun x at_x => (mem_runsFrom planned p List.mem_cons_self x at_x).1
  · rw [ops, placed.all, classical, ← bits.bound_hostOps e]
    exact reduces.bound fun op mem => (bindable op mem).boundAt

theorem run (bits : BitLedger l is seq qubits b) (made : Registry.Made ds r)
    (office : BitOffice r sim o) (offers : sim.capabilities = .simulating) (shots : sim.shots ≠ 0)
    (running : l.kinds.elems.find? (fun k => !o.plan.contains k) = none)
    (few : (hostQubits is ++ qubits).toFinset.card ≤ sim.maxQubits) :
    ∃ out m s count, (o.run l).1 = .ok out ∧ out.sample = .measured m ∧ m.qubits = qubits ∧
      b.Shown s ∧ count ≠ 0 ∧ m.counts = ⟨[(Circuit.label qubits s, count)]⟩ := by
  have bottom : Evaluator.builtin.capabilities.kind = .classical := rfl
  obtain ⟨routing, routed⟩ := bits.two.planned
  obtain ⟨programs, lowered, classical, reduces⟩ := bits.two.programs made office offers routed
  obtain ⟨p, planned, ofKind, isBound, reduced⟩ :=
    bits.runs made office.classical bottom office.capabilities routed lowered classical reduces
  obtain ⟨c, circuit, sampled⟩ := (bits.moves_then_measures Evaluator.builtin).sampled reduced
    isBound (Nat.le_trans (bits.touched_le Evaluator.builtin) few) shots
  have prepares : o.Prepares l programs := by
    refine ⟨running, routing, _, ?_, Prod.ext (office.ready.lowerAll_ok.mpr lowered) rfl⟩
    rw [office.capabilities, bits.host]
    exact routed
  have covered := covers_of_lowered made (office.classical ▸ bottom) lowered
  rw [← office.classical] at planned
  obtain ⟨out, ok⟩ := office.ready.run_of_circuits prepares covered planned fun q mem => by
    rw [List.mem_singleton.mp mem]
    exact ⟨c, sim, ofKind.symm ▸ office.serves, circuit⟩
  obtain ⟨runs, planned', _, _, last⟩ := office.ready.run_ok prepares covered ok
  cases planned.symm.trans planned'
  have of_host : lastOf l.dominantKind [p] = some p := by
    rw [bits.host, ← ofKind]
    simp [lastOf]
  obtain ⟨m, c', sample, sim', run, serves, circuit', rfl⟩ := last p of_host
  rw [ofKind] at serves
  cases serves.unique office.serves
  cases circuit.symm.trans circuit'
  obtain ⟨measured, count, drawn, counts⟩ := sampled run
  exact ⟨out, _, _, count, ok, sample, measured, (bits.traced Evaluator.builtin).shown 0
    BitState.shown_zero, drawn, counts⟩

end Running
end BitLedger
end LazyCast
