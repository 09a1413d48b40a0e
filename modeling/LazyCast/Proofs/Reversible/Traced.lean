import LazyCast.Proofs.Orchestrator.Batches
import LazyCast.Proofs.Orchestrator.Positions
import LazyCast.Proofs.Reversible.Lowered
/-!
Reversible ledgers split by executor. The evaluator's operations run as they do on bits, and every
operation of the simulator, bound at its place among them, meets the registers it meets there.
-/
namespace LazyCast

/-- The evaluator runs the instruction, whatever kind it was declared for. -/
def Instruction.isEvaluated (i : Instruction) : Bool := evaluatedOpcodes.contains i.opcode

inductive Instruction.OnBits (i : Instruction) : Prop where
  | reversible (opcode : i.opcode ∈ reversibleOpcodes) {ops : List NativeOp}
      (lowered : Lowering.lowerOne i = .ok ops)
  | evaluated (opcode : i.opcode ∈ evaluatedOpcodes) (shaped : Classical.checkOperands i = .ok ())

theorem Instruction.onBits_iff {i : Instruction} : i.OnBits ↔
    i.opcode ∈ reversibleOpcodes ∧ (Lowering.lowerOne i).isOk = true ∨
      i.opcode ∈ evaluatedOpcodes ∧ (Classical.checkOperands i).isOk = true := by
  constructor
  · intro onBits
    cases onBits with
    | reversible opcode lowered => exact Or.inl ⟨opcode, by rw [lowered]; rfl⟩
    | evaluated opcode shaped => exact Or.inr ⟨opcode, by rw [shaped]; rfl⟩
  · rintro (⟨opcode, lowers⟩ | ⟨opcode, shaped⟩)
    · cases lowered : Lowering.lowerOne i with
      | error e =>
        rw [lowered] at lowers
        cases lowers
      | ok ops => exact .reversible opcode lowered
    · cases checked : Classical.checkOperands i with
      | error e =>
        rw [checked] at shaped
        cases shaped
      | ok u => exact .evaluated opcode checked

instance (i : Instruction) : Decidable i.OnBits := decidable_of_iff _ Instruction.onBits_iff.symm

theorem not_evaluated {i : Instruction} (opcode : i.opcode ∈ "measure" :: reversibleOpcodes) :
    i.isEvaluated = false := by
  have apart : ∀ code ∈ "measure" :: reversibleOpcodes, evaluatedOpcodes.contains code = false := by
    decide
  exact apart i.opcode opcode

theorem BitState.step_evaluated {b next : BitState} {i : Instruction}
    (opcode : i.opcode ∈ evaluatedOpcodes) (stepped : b.step i = .ok next) :
    Classical.stepCause (.plain i.seq i.opcode i.operands) b.eval = .ok next.eval ∧
      next.bits = b.bits := by
  have falls : b.step i = (Classical.stepCause (.plain i.seq i.opcode i.operands) b.eval).map
      fun eval => { b with eval := eval } := by
    obtain ⟨seq, code, operands, kind⟩ := i
    simp only [evaluatedOpcodes, List.mem_cons, List.not_mem_nil, or_false] at opcode
    rcases opcode with rfl | rfl | rfl | rfl | rfl | rfl | rfl | rfl | rfl | rfl | rfl | rfl |
      rfl | rfl | rfl <;> rfl
  rw [falls] at stepped
  obtain ⟨eval, evaluated, rfl⟩ := Except.map_eq_ok.mp stepped
  exact ⟨evaluated, rfl⟩

def evaluatorOps (is : List Instruction) : List NativeOp :=
  (is.filter Instruction.isEvaluated).map fun i => .plain i.seq i.opcode i.operands

def gatesFor (i : Instruction) : List NativeOp :=
  match Lowering.lowerOne i with
  | .ok ops => ops
  | .error _ => []

theorem gatesFor_of_lowered {i : Instruction} {ops : List NativeOp}
    (lowered : Lowering.lowerOne i = .ok ops) : gatesFor i = ops := by
  unfold gatesFor
  rw [lowered]

def hostOps (is : List Instruction) : List NativeOp :=
  (is.filter fun i => !i.isEvaluated).flatMap gatesFor

section Splitting
variable {i : Instruction} {is js : List Instruction}

theorem evaluatorOps_cons_evaluated (evaluated : i.isEvaluated = true) (is : List Instruction) :
    evaluatorOps (i :: is) = .plain i.seq i.opcode i.operands :: evaluatorOps is := by
  rw [evaluatorOps, List.filter_cons_of_pos evaluated]
  rfl

theorem evaluatorOps_cons (other : i.isEvaluated = false) (is : List Instruction) :
    evaluatorOps (i :: is) = evaluatorOps is := by
  rw [evaluatorOps, List.filter_cons_of_neg (by simp [other])]
  rfl

theorem hostOps_cons_evaluated (evaluated : i.isEvaluated = true) (is : List Instruction) :
    hostOps (i :: is) = hostOps is := by
  rw [hostOps, List.filter_cons_of_neg (by simp [evaluated])]
  rfl

theorem hostOps_cons (other : i.isEvaluated = false) (is : List Instruction) :
    hostOps (i :: is) = gatesFor i ++ hostOps is := by
  rw [hostOps, List.filter_cons_of_pos (by simp [other]), List.flatMap_cons]
  rfl

theorem hostOps_append (is js : List Instruction) :
    hostOps (is ++ js) = hostOps is ++ hostOps js := by
  rw [hostOps, List.filter_append, List.flatMap_append]
  rfl

theorem evaluatorOps_append (is js : List Instruction) :
    evaluatorOps (is ++ js) = evaluatorOps is ++ evaluatorOps js := by
  rw [evaluatorOps, List.filter_append, List.map_append]
  rfl

theorem mem_evaluatorOps {op : NativeOp} (mem : op ∈ evaluatorOps is) :
    ∃ i ∈ is, i.isEvaluated = true ∧ op.seq = i.seq := by
  obtain ⟨i, among, rfl⟩ := List.mem_map.mp mem
  obtain ⟨among, evaluated⟩ := List.mem_filter.mp among
  exact ⟨i, among, evaluated, rfl⟩

theorem seq_gatesFor {op : NativeOp} (mem : op ∈ gatesFor i) : op.seq = i.seq := by
  unfold gatesFor at mem
  split at mem
  · next lowered => exact Lowering.seq_lowerOne lowered op mem
  · cases mem

theorem mem_hostOps {op : NativeOp} (mem : op ∈ hostOps is) :
    ∃ i ∈ is, i.isEvaluated = false ∧ op ∈ gatesFor i := by
  obtain ⟨i, among, at_op⟩ := List.mem_flatMap.mp mem
  obtain ⟨among, other⟩ := List.mem_filter.mp among
  exact ⟨i, among, by simpa using other, at_op⟩

theorem hostOps_inOrder (order : InOrder is) :
    (hostOps is).Pairwise fun a b => a.seq ≤ b.seq := by
  induction is with
  | nil => exact List.Pairwise.nil
  | cons i rest ih =>
    obtain ⟨first, order⟩ := List.pairwise_cons.mp order
    cases evaluated : i.isEvaluated with
    | true => exact hostOps_cons_evaluated evaluated rest ▸ ih order
    | false =>
      rw [hostOps_cons evaluated, List.pairwise_append]
      refine ⟨List.Pairwise.imp_of_mem (R := fun _ _ => True) ?_
        (List.pairwise_of_forall fun _ _ => trivial), ih order, fun a mem b later => ?_⟩
      · intro a b at_a at_b _
        rw [seq_gatesFor at_a, seq_gatesFor at_b]
      · obtain ⟨j, among, _, at_b⟩ := mem_hostOps later
        rw [seq_gatesFor mem, seq_gatesFor at_b]
        exact Nat.le_of_lt (first j among)

theorem evaluatorOps_inOrder (order : InOrder is) :
    (evaluatorOps is).Pairwise fun a b => a.seq ≤ b.seq :=
  List.pairwise_map.mpr ((order.sublist List.filter_sublist).imp fun less => Nat.le_of_lt less)

end Splitting

namespace Orchestrator

/-- The classical operations before an operation run, and it can be bound against what they
    leave. -/
def Bindable (e : Evaluator) (eval : EvalState) (classical : List NativeOp) (op : NativeOp) :
    Prop :=
  ∃ here x, e.run eval (classical.filter fun c => decide (c.seq < op.seq)) = .ok here ∧
    Program.bindOp here.registers op = .ok x

section Bindable
variable {e : Evaluator} {eval next : EvalState} {c op : NativeOp} {classical : List NativeOp}

theorem Bindable.boundAt (bindable : Bindable e eval classical op) :
    ∃ registers x, Program.bindOp registers op = .ok x ∧
      boundAt e eval classical op = x.toList := by
  obtain ⟨here, x, ran, binds⟩ := bindable
  refine ⟨here.registers, x, binds, ?_⟩
  unfold Orchestrator.boundAt
  rw [ran]
  dsimp only
  rw [binds]

theorem bindable_before (before : c.seq < op.seq) (evaluated : e.step c eval = .ok next) :
    Bindable e eval (c :: classical) op ↔ Bindable e next classical op := by
  unfold Bindable
  rw [run_before before evaluated]

theorem bindable_first {x : Option NativeOp} (first : ∀ c ∈ classical, op.seq < c.seq)
    (binds : Program.bindOp eval.registers op = .ok x) : Bindable e eval classical op :=
  ⟨eval, x, by rw [none_before first]; rfl, binds⟩

theorem bindable_last (after : ∀ c ∈ classical, c.seq < op.seq)
    (ran : e.run eval classical = .ok next) {x : Option NativeOp} (binds : Program.bindOp next.registers op = .ok x) :
    Bindable e eval classical op := by
  have all : classical.filter (fun c => decide (c.seq < op.seq)) = classical := by
    refine List.filter_eq_self.mpr fun c mem => ?_
    simpa using after c mem
  exact ⟨next, x, by rw [all]; exact ran, binds⟩

theorem boundFrom_ok {host : Kind} {ops : List Scheduled} (needed : host.isClassical = false)
    (kinds : ∀ op ∈ ops, op.1 = host ∨ op.1.isClassical = true) (sorted : ops.Pairwise Earlier)
    (ran : e.run eval (classicalOps ops) = .ok next)
    (binds : ∀ op ∈ opsOf host ops, Bindable e eval (classicalOps ops) op) :
    ∃ bound, boundFrom e eval ops = .ok bound := by
  induction ops generalizing eval with
  | nil => exact ⟨[], rfl⟩
  | cons op rest ih =>
    obtain ⟨first, sorted⟩ := List.pairwise_cons.mp sorted
    have kinds' := fun x mem => kinds x (List.mem_cons_of_mem _ mem)
    cases classical : op.1.isClassical with
    | true =>
      rw [classicalOps_cons classical] at ran binds
      rw [opsOf_cons_classical needed classical] at binds
      unfold Evaluator.run at ran
      rw [List.foldlM_cons] at ran
      obtain ⟨after, evaluated, ran⟩ := Except.bind_eq_ok.mp ran
      rw [boundFrom_classical classical, evaluated]
      exact ih kinds' sorted ran fun x mem =>
        (bindable_before (opsOf_later needed classical first x mem) evaluated).mp (binds x mem)
    | false =>
      have ofHost : op.1 = host := by
        rcases kinds op List.mem_cons_self with same | no
        · exact same
        · rw [classical] at no
          cases no
      rw [classicalOps_cons_needed classical] at ran binds
      rw [opsOf_cons ofHost] at binds
      obtain ⟨here, x, before, one⟩ := binds op.2 List.mem_cons_self
      rw [none_before (classicalOps_later classical first)] at before
      cases before
      obtain ⟨bound, later⟩ := ih kinds' sorted ran fun x mem =>
        binds x (List.mem_cons_of_mem _ mem)
      rw [boundFrom_needed classical, Program.bind_single.mpr ⟨x, one, rfl⟩, later]
      exact ⟨_, rfl⟩

end Bindable

end Orchestrator

open Orchestrator

/-- A ledger on bits, split by executor: the evaluator's operations come to the same registers, and
    the others, bound where they stand, move basis states as the ledger changes the bits. -/
structure Traced (e : Evaluator) (b last : BitState) (is : List Instruction) : Prop where
  ran : e.run b.eval (evaluatorOps is) = .ok last.eval
  binds : ∀ op ∈ hostOps is, Bindable e b.eval (evaluatorOps is) op
  moves : ∀ op ∈ (hostOps is).flatMap (boundAt e b.eval (evaluatorOps is)),
    ∃ i ∈ is, i.isEvaluated = false ∧ op.MovesBits i
  shown : ∀ s, b.Shown s →
    last.Shown (movesOf ((hostOps is).flatMap (boundAt e b.eval (evaluatorOps is))) s)

section Tracing
variable {e : Evaluator} {b next last : BitState} {i : Instruction} {rest : List Instruction}

theorem Traced.evaluated (traced : Traced e next last rest) (first : ∀ j ∈ rest, i.seq < j.seq)
    (opcode : i.opcode ∈ evaluatedOpcodes) (stepped : b.step i = .ok next) :
    Traced e b last (i :: rest) := by
  have evaluated : i.isEvaluated = true := by
    simpa [Instruction.isEvaluated] using opcode
  obtain ⟨ran, bits⟩ := BitState.step_evaluated opcode stepped
  have taken : e.step (.plain i.seq i.opcode i.operands) b.eval = .ok next.eval := by
    unfold Evaluator.step
    rw [ran]
    rfl
  have before : ∀ op ∈ hostOps rest, i.seq < op.seq := by
    intro op mem
    obtain ⟨j, among, _, at_op⟩ := mem_hostOps mem
    rw [seq_gatesFor at_op]
    exact first j among
  have same : (hostOps rest).flatMap
      (boundAt e b.eval (.plain i.seq i.opcode i.operands :: evaluatorOps rest)) =
        (hostOps rest).flatMap (boundAt e next.eval (evaluatorOps rest)) :=
    List.flatMap_congr fun op mem => boundAt_before (before op mem) taken _
  constructor
  · rw [evaluatorOps_cons_evaluated evaluated, Evaluator.run, List.foldlM_cons, taken]
    exact traced.ran
  · rw [hostOps_cons_evaluated evaluated, evaluatorOps_cons_evaluated evaluated]
    exact fun op mem => (bindable_before (before op mem) taken).mpr (traced.binds op mem)
  · rw [hostOps_cons_evaluated evaluated, evaluatorOps_cons_evaluated evaluated, same]
    intro op mem
    obtain ⟨j, among, moves⟩ := traced.moves op mem
    exact ⟨j, List.mem_cons_of_mem i among, moves⟩
  · rw [hostOps_cons_evaluated evaluated, evaluatorOps_cons_evaluated evaluated, same]
    exact fun s shown => traced.shown s fun q => (shown q).trans (congrFun bits q).symm

theorem Traced.realized (traced : Traced e next last rest) (first : ∀ j ∈ rest, i.seq < j.seq)
    (other : i.isEvaluated = false) (realizes : Realizes i b next (gatesFor i)) :
    Traced e b last (i :: rest) := by
  obtain ⟨eval, bound, binds, moves, shown⟩ := realizes
  obtain ⟨each, same⟩ := Program.bindOps_each binds
  have after : ∀ op ∈ gatesFor i, ∀ c ∈ evaluatorOps rest, op.seq < c.seq := by
    intro op mem c at_c
    obtain ⟨j, among, _, same⟩ := mem_evaluatorOps at_c
    rw [seq_gatesFor mem, same]
    exact first j among
  have here : (gatesFor i).flatMap (boundAt e b.eval (evaluatorOps rest)) = bound :=
    same _ fun op mem x one => boundAt_first (after op mem) one
  have split : (hostOps (i :: rest)).flatMap (boundAt e b.eval (evaluatorOps (i :: rest))) =
      bound ++ (hostOps rest).flatMap (boundAt e next.eval (evaluatorOps rest)) := by
    rw [hostOps_cons other, evaluatorOps_cons other, List.flatMap_append, here, eval]
  constructor
  · rw [evaluatorOps_cons other, ← eval]
    exact traced.ran
  · rw [hostOps_cons other, evaluatorOps_cons other]
    intro op mem
    rcases List.mem_append.mp mem with here | later
    · obtain ⟨x, one⟩ := each op here
      exact bindable_first (after op here) one
    · rw [← eval]
      exact traced.binds op later
  · rw [split]
    intro op mem
    rcases List.mem_append.mp mem with here | later
    · exact ⟨i, List.mem_cons_self, other, moves op here⟩
    · obtain ⟨j, among, moves⟩ := traced.moves op later
      exact ⟨j, List.mem_cons_of_mem i among, moves⟩
  · intro s start
    rw [split, movesOf_append]
    exact traced.shown _ (shown s start)

theorem traced_of_run {is : List Instruction} (e : Evaluator) (order : InOrder is)
    (accepted : ∀ i ∈ is, i.OnBits) (ran : b.run is = .ok last) : Traced e b last is := by
  induction is generalizing b with
  | nil =>
    cases ran
    exact ⟨rfl, fun _ no => absurd no List.not_mem_nil, fun _ no => absurd no List.not_mem_nil,
      fun _ shown => shown⟩
  | cons i rest ih =>
    obtain ⟨first, order⟩ := List.pairwise_cons.mp order
    obtain ⟨next, stepped, ran⟩ := BitState.run_cons ran
    have traced := ih order (fun j mem => accepted j (List.mem_cons_of_mem i mem)) ran
    cases accepted i List.mem_cons_self with
    | evaluated opcode shaped => exact traced.evaluated first opcode stepped
    | reversible opcode lowered =>
      refine traced.realized first (not_evaluated (List.mem_cons_of_mem _ opcode)) ?_
      rw [gatesFor_of_lowered lowered]
      exact realizes_of_lowered opcode lowered stepped

end Tracing
end LazyCast
