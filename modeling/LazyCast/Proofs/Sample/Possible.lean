import LazyCast.Proofs.Circuit.Drawing
import LazyCast.Proofs.Decimal.Truncation
import LazyCast.Proofs.Passes.Pooled
import LazyCast.Proofs.Sample.Correlated
/-!
Samples are possible outcomes, exactly. Bound operations make a circuit on the qubits they use; its
gates keep the probabilities of the basis states at a sum of one, and that many states cannot all be
as improbable as the threshold allows. So a draw never comes to the state that is left when there is
none above the threshold.
-/
namespace LazyCast

namespace Simulator

/-- The number that a finite float stands for. -/
noncomputable def exactValue (x : Float) : ℝ := ((Decimal.ofFloat x).number?.getD 0 : ℚ)

noncomputable def exactThreshold : ℝ := exactValue threshold

theorem exactThreshold_eq : exactThreshold = 1 / 2 ^ 52 := by
  have read : Decimal.ofFloat threshold = .finite false ⟨2 ^ 52, -104, true⟩ := by decide +kernel
  have number : (Decimal.ofFloat threshold).number? = some (1 / 2 ^ 52) := by
    rw [read]
    norm_num [Decimal.Reading.number?, Decimal.Magnitude.number]
  rw [exactThreshold, exactValue, number]
  norm_num

end Simulator

namespace Circuit

noncomputable def exactSums (t : Trigonometry ℝ) (c : Circuit) : List (Nat × ℝ) :=
  Amplitudes.runningSums Simulator.exactThreshold 0 0 (c.amplitudes t).toList

/-- A circuit from which nothing is drawn that is not possible. -/
structure Sampled (t : Trigonometry ℝ) (c : Circuit) : Prop where
  size : (c.amplitudes t).size = 2 ^ c.dense.size
  /-- The probabilities of all states make one after every gate. -/
  normal : ∀ gs, gs <+: c.gates → ({ c with gates := gs }.amplitudes t).total = 1
  drawn : ∀ r, 0 ≤ r → Amplitudes.Draws (1 / 2 ^ 52) (c.amplitudes t) r
    (Amplitudes.pick (c.exactSums t) r)
  counted : ∀ draws, (∀ r ∈ draws, 0 ≤ r) → ∀ e ∈ (c.tally (c.exactSums t) draws).entries,
    1 / 2 ^ 52 < c.probability t e.1

theorem weight_le_probability (t : Trigonometry ℝ) (c : Circuit) {i : Nat}
    (inside : i < (c.amplitudes t).size) :
    (c.amplitudes t).weight i ≤ c.probability t (c.outcome i) := by
  have terms : ∀ j ∈ Finset.range (c.amplitudes t).size,
      0 ≤ if c.outcome j = c.outcome i then ((c.amplitudes t)[j]?.getD 0) ^ 2 else 0 := by
    intro j _
    split <;> positivity
  have single := Finset.single_le_sum terms (Finset.mem_range.mpr inside)
  rwa [if_pos rfl] at single

theorem size_amplitudes {α : Type} [Zero α] [One α] [Add α] [Mul α] [Neg α] (t : Trigonometry α)
    {c : Circuit} (wired : c.Wired) : (c.amplitudes t).size = 2 ^ c.dense.size := by
  unfold amplitudes
  rw [zeroState_eq, Amplitudes.foldl_apply_ofFunction fun g mem => (wired g mem).2,
    Amplitudes.size_ofFunction]
  rfl

/-- Two to the twenty-four states at a probability of two to the minus fifty-two make less than one. -/
theorem exists_possible {t : Trigonometry ℝ} {c : Circuit}
    (size : (c.amplitudes t).size = 2 ^ c.dense.size) (few : c.dense.size ≤ Simulator.qubitLimit)
    (normal : (c.amplitudes t).total = 1) :
    ∃ k < (c.amplitudes t).size, 1 / 2 ^ 52 < (c.amplitudes t).weight k := by
  have most : (2 : ℝ) ^ c.dense.size ≤ 2 ^ 24 := pow_le_pow_right₀ (by norm_num) few
  apply Amplitudes.exists_possible
  rw [normal, size]
  push_cast
  linarith

theorem sampled_of_wired {t : Trigonometry ℝ} (unitary : t.Unitary) {c : Circuit} (wired : c.Wired)
    (few : c.dense.size ≤ Simulator.qubitLimit) : c.Sampled t := by
  have normal : ∀ gs, gs <+: c.gates → ({ c with gates := gs }.amplitudes t).total = 1 :=
    fun gs start => Amplitudes.total_foldl_apply unitary fun g mem => (wired g (start.subset mem)).2
  have size := size_amplitudes t wired
  have possible := exists_possible size few (normal c.gates (List.prefix_refl _))
  have drawn : ∀ r, 0 ≤ r → Amplitudes.Draws (1 / 2 ^ 52) (c.amplitudes t) r
      (Amplitudes.pick (c.exactSums t) r) := by
    intro r nonneg
    rw [exactSums, Simulator.exactThreshold_eq]
    exact Amplitudes.draws_pick possible nonneg
  refine ⟨size, normal, drawn, fun draws nonneg e mem => ?_⟩
  obtain ⟨r, among, shown⟩ := mem_tally mem
  have picked := drawn r (nonneg r among)
  rw [shown]
  exact picked.possible.trans_le (weight_le_probability t c picked.inside)

end Circuit

theorem Gate.angleOf?_eq_none {op : NativeOp} {qs : List Nat}
    (failed : ofOp op qs = .error .angleNotNumeric) : angleOf? op = none := by
  unfold ofOp at failed
  split at failed
  case h_4 =>
    split at failed
    · cases failed
    · next none => exact none
  case h_10 =>
    split at failed
    · cases failed
    · split at failed <;> cases failed
  all_goals cases failed

namespace Simulator
variable {s : Simulator} {batch : List Instruction} {p b : Program} {registers : Registers}

theorem ready_of_turns (lowered : s.lower batch = .ok p) (binds : p.bind registers = .ok b)
    (turns : ∀ op ∈ b.ops, op.code = "ry" → (Gate.angleOf? op).isSome = true) :
    ∀ x ∈ b.ops, x.Ready := by
  obtain ⟨_, _, ran⟩ := Except.bind_eq_ok.mp lowered
  obtain ⟨_, whole, _, reduces⟩ := lower_eq_ok (Pass.known_of_runAll ran) lowered
  intro x mem
  obtain ⟨i, ops, op, own, at_op, one⟩ :=
    Program.source_of_bound whole reduces.sublist.subset binds x mem
  have playable := Program.playable_bindOp (Lowering.stems_of_lowered own op at_op) one
  refine ⟨playable.isBound, playable.plays.resolve_right ?_,
    Program.apart_bindOp (Lowering.apart_of_lowered own op at_op) one⟩
  rintro ⟨code, failed⟩
  have angle := turns x mem code
  rw [Gate.angleOf?_eq_none failed] at angle
  cases angle

open Orchestrator (exactTrigonometry exactTrigonometry_unitary)

/-- Drawing yields possible outcomes only. Whatever a simulator lowers and binds, as long as its turns
    are by numbers, has a circuit on as many qubits as it uses; in exact arithmetic, whichever numbers
    its angles are, the probabilities of the basis states make one after every gate, and with at most
    twenty-four qubits every draw picks a state above the threshold, the first one at which the running
    sum exceeds the draw or else the last one. -/
theorem draws_possible (lowered : s.lower batch = .ok p) (binds : p.bind registers = .ok b)
    (turns : ∀ op ∈ b.ops, op.code = "ry" → (Gate.angleOf? op).isSome = true)
    (used : 0 < (Circuit.touched b.ops).size)
    (few : (Circuit.touched b.ops).size ≤ qubitLimit) :
    ∃ c, c.dense.size = (Circuit.touched b.ops).size ∧
      (∀ allowed, (Circuit.touched b.ops).size ≤ allowed → Circuit.ofOps allowed b.ops = .ok c) ∧
      ∀ value : Float → ℝ, c.Sampled (exactTrigonometry value) := by
  have ready := ready_of_turns lowered binds turns
  have bound : b.ops.all Circuit.isBound = true :=
    List.all_eq_true.mpr fun op mem => (ready op mem).isBound
  have made := fun (allowed : Nat) (room : (Circuit.touched b.ops).size ≤ allowed) =>
    Circuit.ofOps_eq_ok.mpr ⟨bound, used, room, fun op mem => (ready op mem).simulable, rfl⟩
  have size := Circuit.size_denseNumbers (Circuit.touched b.ops)
  refine ⟨_, size, made, fun value => ?_⟩
  apply Circuit.sampled_of_wired (exactTrigonometry_unitary value)
  · exact Circuit.wired_of_apart (fun op mem => (ready op mem).apart) (made _ (Nat.le_refl _))
  · exact size ▸ few

theorem steered_drawn : ∃ p b c,
    (Orchestrator.twinSimulator .quantum ["cancel-inverses"]).lower steered = .ok p ∧
    p.bind ⟨[("a", .int 3), ("c", .bool true)]⟩ = .ok b ∧ Circuit.ofOps 16 b.ops = .ok c ∧
    c.gates.length = 4 ∧ (c.amplitudes (exactTrigonometry exactValue)).size = 4 ∧
    (c.amplitudes (exactTrigonometry exactValue)).total = 1 ∧
    Amplitudes.Draws (1 / 2 ^ 52) (c.amplitudes (exactTrigonometry exactValue)) (1 / 2)
      (Amplitudes.pick (c.exactSums (exactTrigonometry exactValue)) (1 / 2)) := by
  obtain ⟨p, lowered⟩ : ∃ p,
    (Orchestrator.twinSimulator .quantum ["cancel-inverses"]).lower steered = .ok p := ⟨_, rfl⟩
  obtain ⟨b, binds⟩ : ∃ b, p.bind ⟨[("a", .int 3), ("c", .bool true)]⟩ = .ok b := by
    cases lowered
    exact ⟨_, rfl⟩
  have two : (Circuit.touched b.ops).size = 2 := by
    cases lowered
    cases binds
    decide
  have turns : ∀ op ∈ b.ops, op.code = "ry" → (Gate.angleOf? op).isSome = true := by
    cases lowered
    cases binds
    decide
  obtain ⟨c, size, made, sampled⟩ :=
    draws_possible lowered binds turns (two ▸ by decide) (two ▸ by decide)
  have made := made 16 (two ▸ by decide)
  obtain ⟨states, normal, drawn, _⟩ := sampled exactValue
  refine ⟨p, b, c, lowered, binds, made, ?_, ?_, normal _ (List.prefix_refl _),
    drawn (1 / 2) (by norm_num)⟩
  · obtain ⟨_, _, _, _, rfl⟩ := Circuit.ofOps_eq_ok.mp made
    cases lowered
    cases binds
    rfl
  · rw [states, size, two]
    rfl

end Simulator
end LazyCast
