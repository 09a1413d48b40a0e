import LazyCast.Proofs.Orchestrator.WellRead
import LazyCast.Proofs.Passes.Preserved
/-!
A single program with passes and without them, whatever it is bound against. What the passes leave
out binds wherever the rest does, and only turns can fail to be simulated; turns stay.
-/
namespace LazyCast

theorem Reduces.keeps {xs ys : List NativeOp} {op : NativeOp} (r : Reduces xs ys) (mem : op ∈ xs)
    (fence : op.code ≠ "barrier") (other : op.code ∉ Pass.selfInverse) : op ∈ ys := by
  induction r with
  | refl ops => exact mem
  | fence dropped _ ih =>
    refine ih ?_
    have off : op ≠ _ := fun same => fence (same ▸ dropped)
    simpa [off] using mem
  | pair undoes _ ih =>
    refine ih ?_
    have off : op ≠ _ := fun same => other (same ▸ undoes.involution)
    have off' : op ≠ _ := fun same => other (same ▸ undoes.code ▸ undoes.involution)
    simpa [off, off'] using mem

namespace Program
variable {registers : Registers} {ops bound : List NativeOp}

def boundBy (registers : Registers) (op : NativeOp) : List NativeOp :=
  match bindOp registers op with
  | .ok x => x.toList
  | .error _ => []

theorem boundBy_of_bindOp {op : NativeOp} {x : Option NativeOp}
    (binds : bindOp registers op = .ok x) : boundBy registers op = x.toList := by
  rw [boundBy, binds]

theorem bindOps_eq_ok : bindOps registers ops = .ok bound ↔
    (∀ op ∈ ops, ∃ x, bindOp registers op = .ok x) ∧ ops.flatMap (boundBy registers) = bound := by
  constructor
  · intro binds
    obtain ⟨each, same⟩ := bindOps_each binds
    exact ⟨each, same _ fun op _ x one => boundBy_of_bindOp one⟩
  · rintro ⟨each, rfl⟩
    induction ops with
    | nil => rfl
    | cons op rest ih =>
      obtain ⟨⟨x, one⟩, each⟩ := List.forall_mem_cons.mp each
      rw [bindOps, one, ih each, List.flatMap_cons, boundBy_of_bindOp one]
      rfl

theorem bind_eq_ok {p b : Program} : p.bind registers = .ok b ↔
    (∀ op ∈ p.ops, ∃ x, bindOp registers op = .ok x) ∧
      b = ⟨p.kind, p.ops.flatMap (boundBy registers)⟩ := by
  unfold Program.bind
  cases binds : bindOps registers p.ops with
  | error e =>
    have none : ¬ ∀ op ∈ p.ops, ∃ x, bindOp registers op = .ok x := by
      intro each
      cases binds.symm.trans (bindOps_eq_ok.mpr ⟨each, rfl⟩)
    exact ⟨fun no => (by cases no), fun ⟨each, _⟩ => absurd each none⟩
  | ok ops =>
    obtain ⟨each, rfl⟩ := bindOps_eq_ok.mp binds
    constructor
    · intro bound
      cases bound
      exact ⟨each, rfl⟩
    · rintro ⟨_, rfl⟩
      rfl

theorem bind_of_reduces {p q b : Program} (kind : q.kind = p.kind) (r : Reduces p.ops q.ops)
    (binds : p.bind registers = .ok b) :
    ∃ b', q.bind registers = .ok b' ∧ b'.kind = b.kind ∧ Reduces b.ops b'.ops := by
  obtain ⟨each, rfl⟩ := bind_eq_ok.mp binds
  have left : ∀ op ∈ q.ops, ∃ x, bindOp registers op = .ok x :=
    fun op mem => each op (r.sublist.subset mem)
  refine ⟨_, bind_eq_ok.mpr ⟨left, rfl⟩, kind, r.bound fun op mem => ?_⟩
  obtain ⟨x, one⟩ := each op mem
  exact ⟨registers, x, one, boundBy_of_bindOp one⟩

end Program

structure NativeOp.Playable (op : NativeOp) : Prop where
  isBound : Circuit.isBound op = true
  plays : op.Simulable ∨ (op.code = "ry" ∧ Gate.ofOp op op.qubits = .error .angleNotNumeric)

theorem Program.playable_bindOp {registers : Registers} {op b : NativeOp} {i : Instruction}
    (stems : op.StemsFrom i) (binds : bindOp registers op = .ok (some b)) : b.Playable := by
  refine ⟨isBound_bindOp binds, ?_⟩
  obtain ⟨code, qubits, _⟩ := (bindOp_ok binds).2 b rfl
  rcases stems.plays with ⟨fixed, g, plays⟩ | ⟨turns, angle, q, form, args⟩
  · exact Or.inl ⟨g, by rw [Gate.ofOp_congr code fixed, qubits, plays]⟩
  · have one : b.qubits = [q] := by
      rw [qubits, NativeOp.qubits, args]
      cases angle with
      | qubit p => cases form
      | _ => rfl
    rw [NativeOp.Simulable, one]
    simp only [Gate.ofOp, code.trans turns]
    cases Gate.angleOf? b with
    | none => exact Or.inr ⟨trivial, rfl⟩
    | some x => exact Or.inl ⟨_, rfl⟩

namespace Circuit
variable {ops : List NativeOp} {allowed : Nat}

theorem gatesOf_eq_error {dense : Table Qubit Nat} {e : ExecutionCause}
    (failed : gatesOf dense ops = .error e) :
    ∃ op ∈ ops, Gate.ofOp op op.qubits = .error e := by
  obtain ⟨op, mem, failed⟩ := Except.mapM_eq_error (Except.map_eq_error.mp failed)
  rw [Gate.ofOp_map] at failed
  exact ⟨op, mem, Except.map_eq_error.mp failed⟩

theorem ofOps_playable (all : ∀ op ∈ ops, op.Playable) (some : measuredBy ops ≠ [])
    (few : (touched ops).size ≤ allowed) :
    ((∀ op ∈ ops, op.Simulable) ∧ ∃ c, ofOps allowed ops = .ok c) ∨
      ((∃ op ∈ ops, op.code = "ry" ∧ ¬ op.Simulable) ∧
        ofOps allowed ops = .error .angleNotNumeric) := by
  have bound : ops.all isBound = true := List.all_eq_true.mpr fun op mem => (all op mem).isBound
  have used : 0 < (touched ops).size := touched_of_measuredBy some
  have read : readout ops ≠ [] := fun none => absurd ((readout_eq_nil ops).mp none) (by omega)
  cases gates : gatesOf (denseNumbers (touched ops)) ops with
  | ok gs =>
    obtain ⟨plays, _⟩ := gatesOf_eq_ok.mp gates
    exact Or.inl ⟨plays, _, ofOps_eq_ok.mpr ⟨bound, used, few, plays, rfl⟩⟩
  | error e =>
    obtain ⟨op, mem, failed⟩ := gatesOf_eq_error gates
    have unplayed : ¬ op.Simulable := fun ⟨g, made⟩ => by cases failed.symm.trans made
    obtain ⟨turns, angle⟩ := (all op mem).plays.resolve_left unplayed
    cases failed.symm.trans angle
    refine Or.inr ⟨⟨op, mem, turns, unplayed⟩, ?_⟩
    rw [ofOps_eq, if_pos bound, if_neg read, if_neg (Nat.not_lt.mpr few), gates]
    rfl

open Orchestrator (exactTrigonometry exactTrigonometry_unit)

/-- Circuits that read out the same qubits in the same order, with the same exact probabilities; or
    the same reason for having none. -/
def SameReading : Except ExecutionCause Circuit → Except ExecutionCause Circuit → Prop
  | .ok c, .ok c' => c'.measured = c.measured ∧ ∀ value outcome,
      c'.probability (exactTrigonometry value) outcome =
        c.probability (exactTrigonometry value) outcome
  | .error e, .error e' => e' = e
  | _, _ => False

theorem sameReading_of_reduces {xs ys : List NativeOp} (r : Reduces xs ys)
    (all : ∀ op ∈ xs, op.Playable) (some : measuredBy xs ≠ [])
    (few : (touched xs).size ≤ allowed) :
    SameReading (ofOps allowed xs) (ofOps allowed ys) := by
  have all' : ∀ op ∈ ys, op.Playable := fun op mem => all op (r.sublist.subset mem)
  have some' : measuredBy ys ≠ [] := by rwa [r.measuredBy]
  rcases ofOps_playable all some few with ⟨plays, c, made⟩ | ⟨⟨op, mem, turns, unplayed⟩, failed⟩ <;>
    rcases ofOps_playable all' some' (r.touched.trans few) with
      ⟨plays', c', made'⟩ | ⟨⟨op', mem', _, unplayed'⟩, failed'⟩
  · rw [made, made']
    exact ⟨r.measured made made' some, fun value outcome =>
      r.probability (exactTrigonometry_unit value) made made' some outcome⟩
  · exact absurd (plays op' (r.sublist.subset mem')) unplayed'
  · have fixed : op.code ≠ "barrier" ∧ op.code ∉ Pass.selfInverse := by
      rw [turns]
      decide
    exact absurd (plays' op (r.keeps mem fixed.1 fixed.2)) unplayed
  · rw [failed, failed']
    exact rfl

end Circuit

section Single
variable {s : Simulator} {batch : List Instruction} {p b : Program} {registers : Registers}

theorem Program.mem_bound (binds : p.bind registers = .ok b) :
    ∀ x ∈ b.ops, ∃ op ∈ p.ops, bindOp registers op = .ok (some x) := by
  obtain ⟨each, rfl⟩ := bind_eq_ok.mp binds
  intro x mem
  obtain ⟨op, among, at_x⟩ := List.mem_flatMap.mp mem
  obtain ⟨y, one⟩ := each op among
  rw [boundBy_of_bindOp one, Option.mem_toList] at at_x
  exact ⟨op, among, at_x ▸ one⟩

theorem Program.source_of_bound {plain : Program} (lowered : s.lowerAll batch = .ok plain)
    (inside : p.ops ⊆ plain.ops) (binds : p.bind registers = .ok b) : ∀ x ∈ b.ops, ∃ i ops op,
      Lowering.lowerOne i = .ok ops ∧ op ∈ ops ∧ bindOp registers op = .ok (some x) := by
  intro x mem
  obtain ⟨op, among, one⟩ := mem_bound binds x mem
  obtain ⟨i, _, ops, own, at_op⟩ := (Simulator.lowerAll_eq_ok lowered).2.1 op (inside among)
  exact ⟨i, ops, op, own, at_op, one⟩

theorem Program.playable_bound (lowered : s.lowerAll batch = .ok p)
    (binds : p.bind registers = .ok b) : ∀ x ∈ b.ops, x.Playable := by
  intro x mem
  obtain ⟨i, ops, op, own, at_op, one⟩ := source_of_bound lowered (List.Subset.refl _) binds x mem
  exact playable_bindOp (Lowering.stems_of_lowered own op at_op) one

theorem Program.simulable_bound (held : registers.Literal) (lowered : s.lowerAll batch = .ok p)
    (binds : p.bind registers = .ok b) : ∀ x ∈ b.ops, x.Simulable := by
  intro x mem
  obtain ⟨i, ops, op, own, at_op, one⟩ := source_of_bound lowered (List.Subset.refl _) binds x mem
  exact simulable_bindOp held (Lowering.stems_of_lowered own op at_op) one

theorem Program.measures_bound (lowered : s.lowerAll batch = .ok p)
    (measures : ∃ op ∈ p.ops, op.code = "measure" ∧ op.qubits ≠ [])
    (binds : p.bind registers = .ok b) : Circuit.measuredBy b.ops ≠ [] := by
  obtain ⟨op, among, code, some⟩ := measures
  obtain ⟨i, _, ops, own, at_op⟩ := (Simulator.lowerAll_eq_ok lowered).2.1 op among
  obtain ⟨each, rfl⟩ := bind_eq_ok.mp binds
  rcases Lowering.forms_of_lowered own op at_op with ⟨code', qubits, rfl⟩ | ⟨o, _, qubits, other⟩
  · cases code
    rw [Lowering.qubits_gate] at some
    have stays : Lowering.gate i.seq "measure" qubits ∈ p.ops.flatMap (boundBy registers) := by
      refine List.mem_flatMap.mpr ⟨_, among, ?_⟩
      rw [boundBy_of_bindOp (bindOp_gate registers i.seq "measure" qubits)]
      exact List.mem_singleton_self _
    exact Orchestrator.measuredBy_gate some stays
  · rcases other with rfl | rfl
    · exact absurd code (by decide : "ry" ≠ "measure")
    · exact absurd code (by decide : "x" ≠ "measure")

/-- Passes preserve a program that measures something, whatever registers it is bound against: the
    optimized one binds and fits as well, and reads out the same. -/
theorem passes_keep_program (names : List String) (plain : s.passes = [])
    (lowered : s.lower batch = .ok p)
    (measures : ∃ op ∈ p.ops, op.code = "measure" ∧ op.qubits ≠ [])
    (known : ∀ name ∈ names, (Pass.ofName? name).isSome) :
    ∃ q, names.foldlM (fun p name => Pass.runNamed name p) p = .ok q ∧
      ∀ registers b, p.bind registers = .ok b → ∃ b', q.bind registers = .ok b' ∧
        Circuit.measuredBy b'.ops = Circuit.measuredBy b.ops ∧
        ∀ allowed, (Circuit.touched b.ops).size ≤ allowed →
          (Circuit.touched b'.ops).size ≤ allowed ∧
          Circuit.SameReading (Circuit.ofOps allowed b.ops) (Circuit.ofOps allowed b'.ops) ∧
          (registers.Literal → ∃ c, Circuit.ofOps allowed b.ops = .ok c ∧
            c.measured = Circuit.measuredBy b.ops) := by
  rw [Simulator.lower_plain plain] at lowered
  obtain ⟨q, ran, kind, reduces⟩ := Pass.runAll_reduces known p
  refine ⟨q, ran, fun registers b binds => ?_⟩
  obtain ⟨b', binds', _, bound⟩ := Program.bind_of_reduces kind reduces binds
  have playable := Program.playable_bound lowered binds
  have some := Program.measures_bound lowered measures binds
  refine ⟨b', binds', bound.measuredBy, fun allowed few => ⟨bound.touched.trans few,
    Circuit.sameReading_of_reduces bound playable some few, fun held => ?_⟩⟩
  rcases Circuit.ofOps_playable playable some few with ⟨_, c, made⟩ | ⟨⟨op, mem, _, unplayed⟩, _⟩
  · refine ⟨c, made, ?_⟩
    obtain ⟨_, _, _, _, rfl⟩ := Circuit.ofOps_eq_ok.mp made
    exact if_neg (fun none => some (List.isEmpty_iff.mp none))
  · exact absurd (Program.simulable_bound held lowered binds op mem) unplayed

def fencedBatch : List Instruction :=
  [⟨0, "h", [.qubit 0], .quantum⟩, ⟨1, "x", [.qubit 1], .quantum⟩,
    ⟨2, "barrier", [.qubit 1], .quantum⟩, ⟨3, "x", [.qubit 1], .quantum⟩,
    ⟨4, "h", [.qubit 0], .quantum⟩, ⟨5, "x_if", [.reg "r", .qubit 0], .quantum⟩,
    ⟨6, "measure", [.qubit 0], .quantum⟩]

/-- The flip under its guard, and the measurement, are what the passes leave of it. -/
theorem fencedBatch_kept : ∃ p q, (Orchestrator.twinSimulator .quantum []).lower fencedBatch = .ok p ∧
    ["drop-barriers", "cancel-inverses"].foldlM (fun p name => Pass.runNamed name p) p = .ok q ∧
    p.ops.map NativeOp.seq = [0, 1, 2, 3, 4, 5, 6] ∧ q.ops.map NativeOp.seq = [5, 6] ∧
    ∃ b b', p.bind ⟨[("r", .bool true)]⟩ = .ok b ∧ q.bind ⟨[("r", .bool true)]⟩ = .ok b' ∧
      (Circuit.touched b.ops).size = 2 ∧ (Circuit.touched b'.ops).size = 1 ∧
      Circuit.SameReading (Circuit.ofOps 2 b.ops) (Circuit.ofOps 2 b'.ops) := by
  have lowered : (Orchestrator.twinSimulator .quantum []).lower fencedBatch =
      .ok ⟨.quantum, [Lowering.gate 0 "h" [0], Lowering.gate 1 "x" [1],
        Lowering.gate 2 "barrier" [1], Lowering.gate 3 "x" [1], Lowering.gate 4 "h" [0],
        { Lowering.gate 5 "x" [0] with guard := some (.reg "r") },
        Lowering.gate 6 "measure" [0]]⟩ := rfl
  obtain ⟨q, ran, same⟩ := passes_keep_program ["drop-barriers", "cancel-inverses"] rfl lowered
    ⟨Lowering.gate 6 "measure" [0], by simp, rfl, by decide⟩ (by decide)
  obtain ⟨b', binds', _, alike⟩ := same ⟨[("r", .bool true)]⟩ _ rfl
  obtain ⟨_, reading, _⟩ := alike 2 (by decide)
  refine ⟨_, q, lowered, ran, rfl, ?_, _, b', rfl, binds', by decide, ?_, reading⟩
  · cases ran
    rfl
  · cases ran
    cases binds'
    decide

end Single
end LazyCast
