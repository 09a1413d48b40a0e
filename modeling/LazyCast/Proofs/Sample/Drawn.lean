import LazyCast.Proofs.Circuit.Definite
import LazyCast.Proofs.Passes.Lowered
import LazyCast.Proofs.Passes.Sampled
import LazyCast.Proofs.Sample.Readings
/-!
Samples as they are drawn. Whatever numbers a run draws, its sample counts one outcome for each of
them, and each outcome has a digit for each of the distinct qubits that are read out. Such a sample
shows any of its qubits, and what it shows can be read.
-/
namespace LazyCast

namespace Circuit
variable {c : Circuit} {ops : List NativeOp} {allowed : Nat}

theorem total_tally {α : Type} [LT α] [DecidableLT α] (c : Circuit) (sums : List (Nat × α))
    (draws : List α) : (c.tally sums draws).total = draws.length := by
  have each : ∀ draws : List α,
      sumOf ((draws.map fun r => (Amplitudes.pick sums r, 1)).map Prod.snd) = draws.length := by
    intro draws
    induction draws with
    | nil => rfl
    | cons r draws ih =>
      rw [List.map_cons, List.map_cons, sumOf_cons, ih, List.length_cons, Nat.add_comm]
  have counted : c.tally sums draws = .ofPairs ((Table.empty.tally
      (draws.map fun r => (Amplitudes.pick sums r, 1))).entries.map fun e =>
        (c.outcome e.1, e.2)) := by
    unfold tally Table.tally
    rw [List.foldl_map]
  have picked := Table.sumOf_tally (draws.map fun r => (Amplitudes.pick sums r, 1))
  rw [counted, Counts.total_ofPairs, List.map_map]
  exact picked.trans (each draws)

theorem wellFormedOutcome_tally {α : Type} [LT α] [DecidableLT α]
    (made : ofOps allowed ops = .ok c) (sums : List (Nat × α)) (draws : List α) :
    ∀ e ∈ (c.tally sums draws).entries,
      Interpreter.wellFormedOutcome e.1 c.measured.length = true := by
  intro e mem
  rcases Table.mem_keys_tally mem with none | ⟨x, among, same⟩
  · cases none
  · obtain ⟨y, _, rfl⟩ := List.mem_map.mp among
    have read : c.measured = readout ops := by
      obtain ⟨_, _, _, _, rfl⟩ := ofOps_eq_ok.mp made
      rfl
    rw [← same, read]
    dsimp only
    rw [outcome_eq made]
    exact wellFormedOutcome_label _ _

end Circuit

namespace Simulator
variable {d : Descriptor} {s : Simulator}

/-- A run on any draws in place of those of the generator. -/
def executeOn (s : Simulator) (run : Nat) (draws : List Float) (p : Program) :
    Except Fault MeasuredSample :=
  ((Circuit.ofOps s.maxQubits p.ops).mapError (.execution s.capabilities.kind)).map fun c =>
    { s.sample run p.ops c with
      counts := c.tally (Amplitudes.runningSums threshold 0 0
        (c.amplitudes floatTrigonometry).toList) draws }

theorem execute_eq_executeOn (s : Simulator) (run : Nat) (p : Program) :
    s.execute run p = s.executeOn run (Random.draws (s.seedOf run) s.shots) p := rfl

theorem limits_ofDescriptor (made : ofDescriptor d = .ok s) :
    0 < s.shots ∧ s.maxQubits ≤ qubitLimit := by
  unfold ofDescriptor at made
  dsimp only at made
  split at made
  · cases made
  · rename_i shots
    split at made
    · cases made
    · rename_i qubits
      cases made
      dsimp only
      omega

structure Drawn (s : Simulator) (m : MeasuredSample) : Prop where
  nodup : m.qubits.Nodup
  some : m.qubits ≠ []
  few : m.qubits.length ≤ s.maxQubits
  formed : m.Formed
  tallied : m.counts.Ascending
  total : m.counts.total = s.shots

theorem drawn_of_executeOn {run : Nat} {draws : List Float} {p : Program} {m : MeasuredSample}
    (enough : draws.length = s.shots) (ran : s.executeOn run draws p = .ok m) : s.Drawn m := by
  obtain ⟨c, circuit, rfl⟩ := Except.map_eq_ok.mp ran
  have made : Circuit.ofOps s.maxQubits p.ops = .ok c := by
    cases found : Circuit.ofOps s.maxQubits p.ops with
    | error e =>
      rw [found] at circuit
      cases circuit
    | ok c' =>
      rw [found] at circuit
      cases circuit
      rfl
  obtain ⟨_, qubits, few, _, rfl⟩ := Circuit.ofOps_eq_ok.mp made
  have inside : Circuit.readout p.ops ⊆ (Circuit.touched p.ops).elems :=
    Circuit.readout_touched p.ops
  have shorter := ((Circuit.nodup_readout p.ops).subperm inside).length_le
  exact {
    nodup := Circuit.nodup_readout p.ops
    some := fun none => qubits.ne' ((Circuit.readout_eq_nil p.ops).mp none)
    few := shorter.trans few
    formed := Circuit.wellFormedOutcome_tally made _ draws
    tallied := Counts.ascending_ofPairs _
    total := (Circuit.total_tally _ _ draws).trans enough }

theorem Drawn.readable_part {m : MeasuredSample} (drawn : s.Drawn m) (shots : 0 < s.shots)
    (limit : s.maxQubits ≤ 64) {targets : List Qubit} (some : targets ≠ [])
    (nodup : targets.Nodup) (covered : ∀ q ∈ targets, q ∈ m.qubits) :
    (m.part targets).Readable := by
  refine MeasuredSample.readable_iff_formed.mpr
    ⟨MeasuredSample.formed_part drawn.formed covered, ?_, some, ?_⟩
  · rw [MeasuredSample.total_part, drawn.total]
    exact shots
  · have fewer := (nodup.subperm covered).length_le
    exact fewer.trans (drawn.few.trans limit)

/-- Whatever a simulator draws in its shots, the sample has distinct qubits, at most as many as are
    allowed, an outcome of as many binary digits in every shot, and it can be read on any of its
    qubits under every policy but the direct one. -/
theorem drawn_samples_readable (made : ofDescriptor d = .ok s) :
    (∀ run p, ∃ draws : List Float, draws.length = s.shots ∧
      s.execute run p = s.executeOn run draws p) ∧
    ∀ run (draws : List Float) p m, draws.length = s.shots → s.executeOn run draws p = .ok m →
      m.qubits.Nodup ∧ 1 ≤ m.qubits.length ∧ m.qubits.length ≤ s.maxQubits ∧
      (∀ e ∈ m.counts.entries, e.1.length = m.qubits.length ∧ Binary e.1) ∧
      m.counts.total = s.shots ∧ 0 < s.shots ∧
      ∀ targets, targets ≠ [] → targets.Nodup → (∀ q ∈ targets, q ∈ m.qubits) →
        ∃ part, m.project targets = some part ∧
          ∀ (i : Interpreter) target policy, i.find? target = some policy → policy ≠ .direct →
            ∃ v, i.interpret (.measured part) target = .ok v := by
  obtain ⟨shots, limit⟩ := limits_ofDescriptor made
  constructor
  · intro run p
    exact ⟨_, Random.length_draws _ _, execute_eq_executeOn s run p⟩
  · intro run draws p m enough ran
    have drawn := drawn_of_executeOn enough ran
    refine ⟨drawn.nodup, List.length_pos_of_ne_nil drawn.some, drawn.few,
      fun e mem => wellFormedOutcome_iff.mp (drawn.formed e mem), drawn.total, shots, ?_⟩
    intro targets some nodup covered
    refine ⟨m.part targets, MeasuredSample.project_eq drawn.formed covered, ?_⟩
    intro i target policy registered indirect
    have readable := drawn.readable_part shots (limit.trans (by decide)) some nodup covered
    exact Interpreter.interpret_ok registered indirect readable (Counts.ascending_ofPairs _).nodup

def alike : Program :=
  ⟨.quantum, [Lowering.gate 0 "h" [3], Lowering.gate 1 "cx" [3, 5],
    Lowering.gate 2 "measure" [5], Lowering.gate 3 "measure" [3], Lowering.gate 4 "measure" [5]]⟩

/-- Either of them can be cast alone, with no shot lost. -/
theorem alike_samples_readable : ∃ s m part v, ofDescriptor .stateVector = .ok s ∧
    s.execute 0 alike = .ok m ∧ m.qubits = [5, 3] ∧ m.counts.total = 1024 ∧
    m.project [3] = some part ∧ Interpreter.builtin.interpret (.measured part) "u64" = .ok v := by
  obtain ⟨s, made, shots, limit⟩ : ∃ s, ofDescriptor .stateVector = .ok s ∧ s.shots = 1024 ∧
      s.maxQubits = 16 := ⟨_, rfl, by decide, by decide⟩
  obtain ⟨drawn, samples⟩ := drawn_samples_readable made
  obtain ⟨draws, enough, same⟩ := drawn 0 alike
  obtain ⟨c, circuit, measured⟩ : ∃ c, Circuit.ofOps s.maxQubits alike.ops = .ok c ∧
      c.measured = [5, 3] := by
    rw [limit]
    exact ⟨_, rfl, rfl⟩
  have ran := execute_of_circuit circuit 0
  obtain ⟨_, _, _, _, total, _, parts⟩ := samples 0 draws alike _ enough (same ▸ ran)
  have covered : ∀ q ∈ [3], q ∈ c.measured := by
    rw [measured]
    decide
  obtain ⟨part, projected, reads⟩ := parts [3] (by decide) (by decide) covered
  obtain ⟨v, read⟩ := reads .builtin "u64" .majorityVote (by decide) (by decide)
  exact ⟨s, _, part, v, made, ran, measured, total.trans shots, projected, read⟩

end Simulator
end LazyCast
