import LazyCast.Proofs.Passes.Reduction
import LazyCast.Proofs.Reversible.Lowered
/-!
Programs that move bits and then measure some of them. With passes or without, such a program has
one outcome, the bits that it leaves on the measured qubits.
-/
namespace LazyCast

theorem Reduces.movesOf {xs ys : List NativeOp} (r : Reduces xs ys) (s : Nat) :
    movesOf ys s = movesOf xs s := by
  induction r with
  | refl ops => rfl
  | fence fence _ ih =>
    rw [ih]
    simp only [LazyCast.movesOf, gatesOn, List.filterMap_append, List.filterMap_cons,
      gate?_fence fence]
  | pair undoes _ ih =>
    obtain ⟨same, _⟩ := undoes.gate?
    rw [ih]
    simp only [LazyCast.movesOf, gatesOn, List.filterMap_append, List.filterMap_cons, same]
    cases NativeOp.gate? _ with
    | none => rfl
    | some g => simp only [List.foldl_append, List.foldl_cons, Gate.moves_moves]

theorem Circuit.distinct_of_nodup {qubits : List Qubit} (nodup : qubits.Nodup) :
    distinct qubits = qubits := by
  have keeps : ∀ seen, (seen ++ qubits).Nodup →
      qubits.foldl (fun seen q => if q ∈ seen then seen else seen ++ [q]) seen = seen ++ qubits := by
    induction qubits with
    | nil => simp
    | cons q rest ih =>
      intro seen fresh
      have out : q ∉ seen := fun inside =>
        (List.nodup_append.mp fresh).2.2 q inside q List.mem_cons_self rfl
      rw [List.foldl_cons, if_neg out, ih (List.nodup_cons.mp nodup).2 _ (by simpa using fresh)]
      simp
  exact keeps [] nodup

section Measuring
variable {xs ops : List NativeOp} {seq : Nat} {qubits : List Qubit}

structure MovesThenMeasures (xs : List NativeOp) (seq : Nat) (qubits : List Qubit) : Prop where
  moves : ∀ op ∈ xs, ∃ i, op.MovesBits i
  nodup : qubits.Nodup
  nonempty : qubits ≠ []

namespace MovesThenMeasures
variable (m : MovesThenMeasures xs seq qubits)
include m

theorem measuredBy : Circuit.measuredBy (xs ++ [Lowering.gate seq "measure" qubits]) = qubits := by
  have silent : (xs.filter fun op => op.code == "measure") = [] := by
    refine List.filter_eq_nil_iff.mpr fun op mem => ?_
    obtain ⟨i, code, at_op, fits, rfl, _⟩ := m.moves op mem
    simpa [Lowering.gate, NativeOp.plain] using fits.silent
  rw [Circuit.measuredBy, List.filter_append, silent, List.nil_append]
  have one : ([Lowering.gate seq "measure" qubits].filter fun op => op.code == "measure") =
      [Lowering.gate seq "measure" qubits] := rfl
  rw [one, List.flatMap_singleton]
  exact (congrArg Circuit.distinct (Lowering.qubitsOf_map qubits)).trans
    (Circuit.distinct_of_nodup m.nodup)

theorem permuting : Permuting (xs ++ [Lowering.gate seq "measure" qubits]) := by
  intro g mem
  rw [gatesOn_append] at mem
  rcases List.mem_append.mp mem with mem | mem
  · obtain ⟨op, at_op, gate⟩ := List.mem_filterMap.mp mem
    obtain ⟨i, code, at_op, fits, rfl, _⟩ := m.moves op at_op
    exact fits.permuting i.seq g gate
  · cases mem

theorem simulable : ∀ op ∈ xs ++ [Lowering.gate seq "measure" qubits], op.Simulable := by
  intro op mem
  rcases List.mem_append.mp mem with mem | mem
  · obtain ⟨i, code, at_op, fits, rfl, _⟩ := m.moves op mem
    exact fits.simulable i.seq
  · rw [List.mem_singleton.mp mem]
    exact ⟨none, rfl⟩

omit m in
theorem movesOf (s : Nat) :
    movesOf (xs ++ [Lowering.gate seq "measure" qubits]) s = LazyCast.movesOf xs s := by
  rw [movesOf_append]
  rfl

theorem sampled {s : Simulator} (reduces : Reduces (xs ++ [Lowering.gate seq "measure" qubits]) ops)
    (bound : ops.all Circuit.isBound = true)
    (few : (Circuit.touched (xs ++ [Lowering.gate seq "measure" qubits])).size ≤ s.maxQubits)
    (shots : s.shots ≠ 0) :
    ∃ c, Circuit.ofOps s.maxQubits ops = .ok c ∧ ∀ run, (s.sample run ops c).qubits = qubits ∧
      ∃ count, count ≠ 0 ∧ (s.sample run ops c).counts =
        ⟨[(Circuit.label qubits (LazyCast.movesOf xs 0), count)]⟩ := by
  have measured : Circuit.measuredBy ops = qubits := reduces.measuredBy.trans m.measuredBy
  have readout : Circuit.readout ops = qubits := by
    have asked : (Circuit.measuredBy ops).isEmpty = false := by simpa [measured] using m.nonempty
    rw [Circuit.readout, asked]
    exact measured
  have made : Circuit.ofOps s.maxQubits ops = .ok _ := Circuit.ofOps_eq_ok.mpr
    ⟨bound, touched_of_measuredBy (measured ▸ m.nonempty), Nat.le_trans reduces.touched few,
      fun op mem => m.simulable op (reduces.sublist.subset mem), rfl⟩
  refine ⟨_, made, fun run => ⟨readout, ?_⟩⟩
  obtain ⟨count, drawn, counts⟩ :=
    Simulator.sample_of_permuting made (m.permuting.sublist reduces.sublist) shots run
  exact ⟨count, drawn, by rw [counts, readout, reduces.movesOf, movesOf]⟩

end MovesThenMeasures
end Measuring
end LazyCast
