import LazyCast.Proofs.Orchestrator.Routed
/-!
Binding one operation. Registers become literals and a guard that fails takes the operation away;
the qubits stay.
-/
namespace LazyCast

theorem reg?_ofValue (v : Value) : (Operand.ofValue v).reg? = none := by
  unfold Operand.ofValue
  split <;> first | rfl | (split <;> rfl)

theorem reg?_bindOperand {registers : Registers} {o bound : Operand}
    (binds : Program.bindOperand registers o = .ok bound) : bound.reg? = none := by
  cases o with
  | reg name =>
    obtain ⟨v, _, rfl⟩ := Except.map_eq_ok.mp binds
    exact reg?_ofValue v
  | _ =>
    cases binds
    rfl

theorem isBound_bindOp {registers : Registers} {op x : NativeOp}
    (binds : Program.bindOp registers op = .ok (some x)) : Circuit.isBound x = true := by
  unfold Program.bindOp at binds
  obtain ⟨holds, _, binds⟩ := Except.bind_eq_ok.mp binds
  cases holds with
  | false => cases binds
  | true =>
    rw [if_pos rfl] at binds
    obtain ⟨args, each, binds⟩ := Except.bind_eq_ok.mp binds
    cases binds
    simp only [Circuit.isBound, Option.isNone_none, Bool.true_and, List.all_eq_true]
    intro arg mem
    obtain ⟨o, _, bound⟩ := (Except.mapM_eq_ok each).2 arg mem
    rw [reg?_bindOperand bound]
    rfl

theorem qubit?_ofValue (v : Value) : (Operand.ofValue v).qubit? = none := by
  unfold Operand.ofValue
  split <;> first | rfl | (split <;> rfl)

theorem qubitsOf_bound {registers : Registers} {args bound : List Operand}
    (binds : args.mapM (Program.bindOperand registers) = .ok bound) :
    qubitsOf bound = qubitsOf args := by
  induction args generalizing bound with
  | nil =>
    cases binds
    rfl
  | cons o args ih =>
    rw [List.mapM_cons] at binds
    obtain ⟨b, first, binds⟩ := Except.bind_eq_ok.mp binds
    obtain ⟨others, later, binds⟩ := Except.bind_eq_ok.mp binds
    cases binds
    have same : b.qubit? = o.qubit? := by
      cases o with
      | reg name =>
        obtain ⟨v, _, rfl⟩ := Except.map_eq_ok.mp first
        exact qubit?_ofValue v
      | _ =>
        cases first
        rfl
    have rest := ih later
    unfold qubitsOf at rest ⊢
    rw [List.filterMap_cons, List.filterMap_cons, same, rest]

namespace Program

theorem bind_single {kind : Kind} {op : NativeOp} {registers : Registers} {bound : Program} :
    (Program.mk kind [op]).bind registers = .ok bound ↔
      ∃ x, bindOp registers op = .ok x ∧ bound = ⟨kind, x.toList⟩ := by
  unfold Program.bind bindOps bindOps
  cases bindOp registers op with
  | error e =>
    constructor
    · intro binds
      cases binds
    · rintro ⟨_, no, _⟩
      cases no
  | ok x =>
    have whole : (Except.ok (x.toList ++ [])).mapError (Fault.execution kind) =
        .ok x.toList := by
      rw [List.append_nil]
      rfl
    constructor
    · intro binds
      cases binds
      exact ⟨x, rfl, by simp⟩
    · rintro ⟨_, same, rfl⟩
      cases same
      exact congrArg (Except.map (Program.mk kind)) whole

theorem isBound_bind {kind : Kind} {op : NativeOp} {registers : Registers} {bound : Program}
    (binds : (Program.mk kind [op]).bind registers = .ok bound) :
    ∀ x ∈ bound.ops, Circuit.isBound x = true := by
  obtain ⟨x, one, rfl⟩ := bind_single.mp binds
  intro y mem
  rw [Option.mem_toList] at mem
  subst mem
  exact isBound_bindOp one

theorem bindOp_ok {registers : Registers} {op : NativeOp} {x : Option NativeOp}
    (binds : bindOp registers op = .ok x) :
    (op.guard = none → x.isSome = true) ∧
      ∀ b, x = some b → b.code = op.code ∧ b.qubits = op.qubits ∧ b.guard = none := by
  unfold bindOp at binds
  obtain ⟨holds, guard, binds⟩ := Except.bind_eq_ok.mp binds
  cases holds with
  | false =>
    cases binds
    refine ⟨fun unguarded => ?_, fun b no => by cases no⟩
    rw [unguarded] at guard
    cases guard
  | true =>
    rw [if_pos rfl] at binds
    obtain ⟨args, each, binds⟩ := Except.bind_eq_ok.mp binds
    cases binds
    refine ⟨fun _ => rfl, fun b same => ?_⟩
    cases same
    exact ⟨rfl, qubitsOf_bound each, rfl⟩

theorem bindOp_gate (registers : Registers) (seq : Nat) (code : String) (qubits : List Qubit) :
    bindOp registers (Lowering.gate seq code qubits) =
      .ok (some (Lowering.gate seq code qubits)) := by
  have args : (qubits.map Operand.qubit).mapM (bindOperand registers) =
      .ok (qubits.map Operand.qubit) := by
    induction qubits with
    | nil => rfl
    | cons q qubits ih =>
      rw [List.map_cons, List.mapM_cons, ih]
      rfl
  unfold bindOp
  simp only [Lowering.gate, NativeOp.plain, guardHolds, args]
  rfl

theorem bindOps_each {registers : Registers} {ops bound : List NativeOp}
    (binds : bindOps registers ops = .ok bound) :
    (∀ op ∈ ops, ∃ x, bindOp registers op = .ok x) ∧
      ∀ f : NativeOp → List NativeOp,
        (∀ op ∈ ops, ∀ x, bindOp registers op = .ok x → f op = x.toList) →
          ops.flatMap f = bound := by
  induction ops generalizing bound with
  | nil =>
    cases binds
    exact ⟨fun _ no => absurd no List.not_mem_nil, fun _ _ => rfl⟩
  | cons op rest ih =>
    obtain ⟨x, one, binds⟩ := Except.bind_eq_ok.mp binds
    obtain ⟨others, later, binds⟩ := Except.bind_eq_ok.mp binds
    cases binds
    obtain ⟨each, same⟩ := ih later
    refine ⟨List.forall_mem_cons.mpr ⟨⟨x, one⟩, each⟩, fun f said => ?_⟩
    obtain ⟨here, said⟩ := List.forall_mem_cons.mp said
    rw [List.flatMap_cons, here x one, same f said]

end Program

end LazyCast
