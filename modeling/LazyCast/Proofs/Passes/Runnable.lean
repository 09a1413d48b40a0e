import LazyCast.Proofs.Passes.Bound
/-!
Programs that run. Registers that the evaluator has written hold literals, and an operation of a
simulator's program bound against them is a gate that it knows, on distinct qubits in use. So an
execution ends in samples, whatever the passes were, unless no qubit is in use or too many are.
-/
namespace LazyCast

theorem Pass.known_of_runAll {names : List String} {p q : Program}
    (ran : names.foldlM (fun p name => runNamed name p) p = .ok q) :
    ∀ name ∈ names, (ofName? name).isSome := by
  induction names generalizing p with
  | nil => exact fun _ none => by cases none
  | cons name names ih =>
    obtain ⟨next, first, rest⟩ := Except.bind_eq_ok.mp ran
    refine List.forall_mem_cons.mpr ⟨?_, ih rest⟩
    change runNamed name p = .ok next at first
    unfold runNamed at first
    split at first
    · next found =>
      rw [found]
      rfl
    · cases first

namespace Circuit
variable {ops : List NativeOp} {q : Qubit}

theorem number_touched (mem : q ∈ (touched ops).elems) :
    ∃ k < (touched ops).size, (denseNumbers (touched ops)).find? q = some k :=
  ⟨_, List.idxOf_lt_length_iff.mpr mem, by rw [find?_denseNumbers, if_pos mem]⟩

theorem denseOf_injOn {p : Qubit} (memp : p ∈ (touched ops).elems) (memq : q ∈ (touched ops).elems)
    (same : denseOf (denseNumbers (touched ops)) p = denseOf (denseNumbers (touched ops)) q) :
    p = q := by
  rw [denseOf_denseNumbers memp, denseOf_denseNumbers memq] at same
  exact (List.idxOf_inj memp).mp same

/-- Where a simulator finds the qubits of its operations. -/
structure Laid (ops : List NativeOp) : Prop where
  numbered : ∀ op ∈ ops, ∀ q ∈ op.qubits,
    ∃ k < (touched ops).size, (denseNumbers (touched ops)).find? q = some k
  readable : ∀ q ∈ readout ops,
    ∃ k < (touched ops).size, (denseNumbers (touched ops)).find? q = some k
  /-- No two qubits of an operation are found at one place. -/
  nodup : ∀ op ∈ ops, (op.qubits.map (denseOf (denseNumbers (touched ops)))).Nodup
  pairs : ∀ op ∈ ops, op.code ∈ Gate.paired → ∃ p q, op.qubits = [p, q] ∧ p ≠ q

theorem laid_of_apart (apart : ∀ op ∈ ops, op.Apart) : Laid ops where
  numbered op mem q at_q := number_touched ((mem_touched ops q).mpr ⟨op, mem, at_q⟩)
  readable q mem := number_touched (readout_touched ops q mem)
  nodup op mem := by
    have used : ∀ q ∈ op.qubits, q ∈ (touched ops).elems :=
      fun q at_q => (mem_touched ops q).mpr ⟨op, mem, at_q⟩
    exact (apart op mem).nodup.map_on fun p memp q memq => denseOf_injOn (used p memp) (used q memq)
  pairs op mem code := by
    obtain ⟨p, q, both⟩ := List.length_eq_two.mp ((apart op mem).two code)
    have nodup := (apart op mem).nodup
    rw [both] at nodup
    exact ⟨p, q, both, by simpa using nodup⟩

def Wired (c : Circuit) : Prop :=
  ∀ g ∈ c.gates, g.qubits.Nodup ∧ ∀ k ∈ g.qubits, k < c.dense.size

theorem size_denseNumbers (s : OrderedSet Qubit) : (denseNumbers s).size = s.size := by
  simp [denseNumbers, Table.size, OrderedSet.size]

theorem wired_of_apart {allowed : Nat} {c : Circuit} (apart : ∀ op ∈ ops, op.Apart)
    (made : ofOps allowed ops = .ok c) : c.Wired := by
  obtain ⟨_, _, _, _, rfl⟩ := ofOps_eq_ok.mp made
  intro renamed mem
  obtain ⟨g, own, rfl⟩ := List.mem_map.mp mem
  have inside := qubits_gatesOn own
  obtain ⟨op, among, made⟩ := mem_gatesOn own
  rw [Gate.qubits_rename, size_denseNumbers]
  constructor
  · have nodup := (apart op among).nodup.sublist (Gate.sublist_ofOp made)
    exact nodup.map_on fun p memp q memq => denseOf_injOn (inside p memp) (inside q memq)
  · intro k at_k
    obtain ⟨q, at_q, rfl⟩ := List.mem_map.mp at_k
    rw [denseOf_denseNumbers (inside q at_q)]
    exact List.idxOf_lt_length_iff.mpr (inside q at_q)

end Circuit

section Bound
variable {s : Simulator} {batch : List Instruction} {p b : Program} {registers : Registers}

structure NativeOp.Ready (op : NativeOp) : Prop where
  isBound : Circuit.isBound op = true
  simulable : op.Simulable
  apart : op.Apart

theorem Program.apart_bindOp {op x : NativeOp} (apart : op.Apart)
    (binds : bindOp registers op = .ok (some x)) : x.Apart := by
  obtain ⟨code, qubits, _⟩ := (bindOp_ok binds).2 x rfl
  exact ⟨qubits ▸ apart.nodup, by rw [code, qubits]; exact apart.two⟩

theorem Simulator.ready_of_bound (held : registers.Literal) (lowered : s.lower batch = .ok p)
    (binds : p.bind registers = .ok b) : ∀ x ∈ b.ops, x.Ready := by
  obtain ⟨_, _, ran⟩ := Except.bind_eq_ok.mp lowered
  obtain ⟨_, whole, _, reduces⟩ := lower_eq_ok (Pass.known_of_runAll ran) lowered
  intro x mem
  obtain ⟨i, ops, op, own, at_op, one⟩ :=
    Program.source_of_bound whole reduces.sublist.subset binds x mem
  exact ⟨isBound_bindOp one,
    Program.simulable_bindOp held (Lowering.stems_of_lowered own op at_op) one,
    Program.apart_bindOp (Lowering.apart_of_lowered own op at_op) one⟩

/-- How a simulator ends a run of bound operations. -/
inductive Simulator.Ends (s : Simulator) (run : Nat) (ops : List NativeOp) :
    Except Fault MeasuredSample → Prop where
  | sampled (c : Circuit) (made : Circuit.ofOps s.maxQubits ops = .ok c) (wired : c.Wired)
      (used : 0 < (Circuit.touched ops).size) (fits : (Circuit.touched ops).size ≤ s.maxQubits) :
      Ends s run ops (.ok (s.sample run ops c))
  | idle (none : (Circuit.touched ops).size = 0) :
      Ends s run ops (.error (.execution s.capabilities.kind .nothingMeasured))
  | crowded (used : 0 < (Circuit.touched ops).size)
      (many : s.maxQubits < (Circuit.touched ops).size) :
      Ends s run ops (.error (.execution s.capabilities.kind
        (.tooManyQubits (Circuit.touched ops).size s.maxQubits)))

theorem Simulator.ends_of_ready (ready : ∀ op ∈ b.ops, op.Ready) (run : Nat) :
    s.Ends run b.ops (s.execute run b) := by
  have bound : b.ops.all Circuit.isBound = true :=
    List.all_eq_true.mpr fun op mem => (ready op mem).isBound
  unfold Simulator.execute
  rcases Nat.eq_zero_or_pos (Circuit.touched b.ops).size with zero | used
  · rw [Circuit.ofOps_eq, if_pos bound, if_pos ((Circuit.readout_eq_nil b.ops).mpr zero)]
    exact .idle zero
  · rcases Nat.lt_or_ge s.maxQubits (Circuit.touched b.ops).size with many | fits
    · have read : Circuit.readout b.ops ≠ [] :=
        fun none => absurd ((Circuit.readout_eq_nil b.ops).mp none) (by omega)
      rw [Circuit.ofOps_eq, if_pos bound, if_neg read, if_pos many]
      exact .crowded used many
    · have made := Circuit.ofOps_eq_ok.mpr
        ⟨bound, used, fits, fun op mem => (ready op mem).simulable, rfl⟩
      rw [made]
      exact .sampled _ made (Circuit.wired_of_apart (fun op mem => (ready op mem).apart) made) used fits

/-- What a simulator lowers, it can run: bound against registers that an evaluator has written from
    none, it fails for nothing but what it uses, whichever passes reduced it. -/
theorem Simulator.runs_lowered {e : Evaluator} {ops : List NativeOp} {eval : EvalState}
    (lowered : s.lower batch = .ok p) (ran : e.run .empty ops = .ok eval)
    (binds : p.bind eval.registers = .ok b) :
    (∀ name v, eval.registers.find? name = some v →
      (∃ t, v = .bool t) ∨ (∃ n, v = .int n) ∨ ∃ x, v = .float x) ∧
    Circuit.Laid b.ops ∧ ∀ run, s.Ends run b.ops (s.execute run b) := by
  have held : eval.registers.Literal := Evaluator.run_literal ran EvalState.literal_empty
  have ready := ready_of_bound held lowered binds
  exact ⟨fun name v found => (held name v found).forms,
    Circuit.laid_of_apart fun op mem => (ready op mem).apart, ends_of_ready ready⟩

def steered : List Instruction :=
  [⟨0, "sync", [.qubit 4, .qubit 2], .quantum⟩, ⟨1, "x", [.qubit 4], .quantum⟩,
    ⟨2, "x", [.qubit 4], .quantum⟩, ⟨3, "ry", [.reg "a", .qubit 4], .quantum⟩,
    ⟨4, "x_if", [.reg "c", .qubit 2], .quantum⟩, ⟨5, "measure", [.qubit 4], .quantum⟩]

def steering : List NativeOp :=
  [.plain 0 "const" [.reg "a", .int 3], .plain 1 "lt" [.reg "c", .int 1, .reg "a"]]

theorem Simulator.steered_runs : ∃ p eval b,
    (Orchestrator.twinSimulator .quantum ["cancel-inverses"]).lower steered = .ok p ∧
    Evaluator.builtin.run .empty steering = .ok eval ∧ p.bind eval.registers = .ok b ∧
    b.ops.map NativeOp.seq = [0, 0, 3, 4, 5] ∧ ∀ run, ∃ sample,
      (Orchestrator.twinSimulator .quantum ["cancel-inverses"]).execute run b = .ok sample := by
  obtain ⟨p, lowered⟩ : ∃ p,
    (Orchestrator.twinSimulator .quantum ["cancel-inverses"]).lower steered = .ok p := ⟨_, rfl⟩
  obtain ⟨eval, ran⟩ : ∃ eval, Evaluator.builtin.run .empty steering = .ok eval := ⟨_, rfl⟩
  obtain ⟨b, binds⟩ : ∃ b, p.bind eval.registers = .ok b := by
    cases lowered
    cases ran
    exact ⟨_, rfl⟩
  obtain ⟨_, _, ends⟩ := Simulator.runs_lowered lowered ran binds
  have two : (Circuit.touched b.ops).size = 2 := by
    cases lowered
    cases ran
    cases binds
    decide
  refine ⟨p, eval, b, lowered, ran, binds, ?_, fun run => ?_⟩
  · cases lowered
    cases ran
    cases binds
    rfl
  · have ends := ends run
    generalize Simulator.execute _ run b = result at ends ⊢
    cases ends with
    | sampled c => exact ⟨_, rfl⟩
    | idle none => omega
    | crowded _ many =>
      rw [two] at many
      exact absurd many (by decide)

end Bound
end LazyCast
