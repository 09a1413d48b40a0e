import LazyCast.Proofs.Circuit.Instructions
import LazyCast.Proofs.Reversible.Machine
/-!
Reversible instructions in gates. What an instruction is lowered to and bound to, at the registers
it meets, moves basis states as the instruction changes the bits.
-/
namespace LazyCast
namespace Lowering
variable {operands : List Operand} {qubits : List Qubit}

theorem lowerInit_parts {seq : Nat} {ops : List NativeOp}
    (lowered : lowerInit seq operands = .ok ops) :
    ∃ qubits, ops = flips seq (BitState.literal operands) qubits ∧ qubits.Nodup ∧
      qubitsOf operands = qubits := by
  obtain ⟨o, value, qubits, rfl, unqubit, nodup, _, start, rfl⟩ := lowerInit_operands lowered
  have said : BitState.literal (o :: qubits.map Operand.qubit) = value := by
    cases o with
    | int n =>
      rw [initialValue] at start
      split at start
      · cases start
        rfl
      · cases start
    | bool v =>
      cases start
      cases v <;> rfl
    | _ => cases start
  exact ⟨qubits, by rw [said], nodup, qubitsOf_leading unqubit qubits⟩

theorem lowerOne_init {seq : Nat} {n : Int64} {kind : Kind} (nodup : qubits.Nodup)
    (some : qubits ≠ []) (low : 0 ≤ n.toInt) (fits : n.toInt.toNat < pow2 qubits.length) :
    lowerOne ⟨seq, "init", .int n :: qubits.map Operand.qubit, kind⟩ =
      .ok (flips seq n.toInt.toNat qubits) := by
  have distinct := distinctQubits_map nodup (List.length_pos_iff.mpr some)
  have lowered : lowerInit seq (.int n :: qubits.map Operand.qubit) =
      .ok (flips seq n.toInt.toNat qubits) := by
    simp only [lowerInit, initialValue, if_pos low, List.drop_one, List.tail_cons, distinct, bind,
      Except.bind, Nat.not_le.mpr fits, and_false, if_false]
    rfl
  simp only [lowerOne, ofOpcode?, lowered]
  rfl

end Lowering

inductive Fits : String → List Qubit → Prop where
  | x (q : Qubit) : Fits "x" [q]
  | z (q : Qubit) : Fits "z" [q]
  | cx (p q : Qubit) : Fits "cx" [p, q]
  | cz (p q : Qubit) : Fits "cz" [p, q]
  | swap (p q : Qubit) : Fits "swap" [p, q]
  | barrier (qubits : List Qubit) : Fits "barrier" qubits

section Fitting
variable {code : String} {qubits : List Qubit}

theorem Fits.simulable (fits : Fits code qubits) (seq : Nat) :
    (Lowering.gate seq code qubits).Simulable := by
  cases fits <;> exact ⟨_, rfl⟩

theorem Fits.permuting (fits : Fits code qubits) (seq : Nat) :
    ∀ g, (Lowering.gate seq code qubits).gate? = some g → g.isPermuting = true := by
  intro g found
  cases fits <;> cases found <;> rfl

theorem Fits.silent (fits : Fits code qubits) : code ≠ "measure" := by
  cases fits <;> decide

def NativeOp.MovesBits (i : Instruction) (op : NativeOp) : Prop :=
  ∃ code qubits, Fits code qubits ∧ op = Lowering.gate i.seq code qubits ∧
    ∀ q ∈ qubits, q ∈ i.qubits

end Fitting

/-- What the operations of an instruction are bound to, and that this moves basis states as the
    instruction changes the bits. -/
structure Realizes (i : Instruction) (b next : BitState) (ops : List NativeOp) : Prop where
  eval : next.eval = b.eval
  bound : ∃ bound, Program.bindOps b.eval.registers ops = .ok bound ∧
    (∀ op ∈ bound, op.MovesBits i) ∧ ∀ s, b.Shown s → next.Shown (movesOf bound s)

theorem bindOps_gates {registers : Registers} {ops : List NativeOp}
    (gates : ∀ op ∈ ops, ∃ seq code qubits, op = Lowering.gate seq code qubits) :
    Program.bindOps registers ops = .ok ops := by
  induction ops with
  | nil => rfl
  | cons op rest ih =>
    obtain ⟨seq, code, qubits, rfl⟩ := gates op List.mem_cons_self
    rw [Program.bindOps, Program.bindOp_gate, ih fun op mem => gates op (List.mem_cons_of_mem _ mem)]
    rfl

section Realizing
variable {i : Instruction} {b : BitState}

theorem realizes_gates {next : BitState} {ops : List NativeOp} (eval : next.eval = b.eval)
    (moves : ∀ op ∈ ops, op.MovesBits i) (shown : ∀ s, b.Shown s → next.Shown (movesOf ops s)) :
    Realizes i b next ops := by
  refine ⟨eval, ops, bindOps_gates fun op mem => ?_, moves, shown⟩
  obtain ⟨code, qubits, _, rfl, _⟩ := moves op mem
  exact ⟨i.seq, code, qubits, rfl⟩

theorem movesBits_gate {code : String} {qubits : List Qubit} (fits : Fits code qubits)
    (inside : i.qubits = qubits) : ∀ op ∈ [Lowering.gate i.seq code qubits], op.MovesBits i := by
  intro op mem
  refine ⟨code, qubits, fits, List.mem_singleton.mp mem, fun q mem => ?_⟩
  rwa [inside]

theorem testBit_flips (seq value : Nat) {qubits : List Qubit} (nodup : qubits.Nodup) (o s k : Nat) :
    (movesOf (((qubits.zipIdx o).filter fun q => value.testBit q.2).map fun q =>
        Lowering.gate seq "x" [q.1]) s).testBit k =
      (s.testBit k ^^ (decide (k ∈ qubits) && value.testBit (o + qubits.idxOf k))) := by
  induction qubits generalizing o s with
  | nil => simp [movesOf, gatesOn]
  | cons q rest ih =>
    obtain ⟨fresh, nodup⟩ := List.nodup_cons.mp nodup
    have later : ∀ s, (movesOf (((rest.zipIdx (o + 1)).filter fun q => value.testBit q.2).map
        fun q => Lowering.gate seq "x" [q.1]) s).testBit k =
          (s.testBit k ^^ (decide (k ∈ rest) && value.testBit (o + 1 + rest.idxOf k))) :=
      fun s => ih nodup (o + 1) s
    rw [List.zipIdx_cons]
    by_cases set : value.testBit o = true
    · rw [List.filter_cons_of_pos (by exact set), List.map_cons]
      have first : movesOf [Lowering.gate seq "x" [q]] s = Amplitudes.flip q s := rfl
      rw [← List.singleton_append, movesOf_append, first, later, Amplitudes.testBit_flip]
      by_cases here : k = q
      · subst here
        simp [fresh, set]
      · simp [here, Ne.symm here, List.idxOf_cons_ne _ (Ne.symm here), Nat.add_assoc, Nat.add_comm 1]
    · rw [List.filter_cons_of_neg (by simpa using set), later]
      by_cases here : k = q
      · subst here
        simp [fresh, set]
      · simp [here, List.idxOf_cons_ne _ (Ne.symm here), Nat.add_assoc, Nat.add_comm 1]

theorem realizes_init {ops : List NativeOp}
    (lowered : Lowering.lowerInit i.seq i.operands = .ok ops) :
    Realizes i b (b.flip i.qubits (BitState.literal i.operands)) ops := by
  obtain ⟨qubits, rfl, nodup, inside⟩ := Lowering.lowerInit_parts lowered
  have inside : i.qubits = qubits := inside
  refine realizes_gates rfl (fun op mem => ?_) fun s shown k => ?_
  · obtain ⟨⟨q, n⟩, chosen, rfl⟩ := List.mem_map.mp mem
    refine ⟨"x", [q], .x q, rfl, fun p mem => ?_⟩
    rw [List.mem_singleton.mp mem, inside]
    exact List.fst_mem_of_mem_zipIdx (List.mem_of_mem_filter chosen)
  · rw [Lowering.flips, testBit_flips _ _ nodup, shown k, inside]
    simp [BitState.flip]

theorem guardHolds_eq {o : Operand} (form : Lowering.isCondition o = true) (rest : List Operand) :
    Program.guardHolds b.eval.registers (some o) = b.condition (o :: rest) := by
  cases o with
  | reg name => rfl
  | bool v => rfl
  | int n => rfl
  | _ => cases form

theorem realizes_conditional {next : BitState} {o : Operand} {q : Qubit}
    (form : Lowering.isCondition o = true) (operands : i.operands = [o, .qubit q])
    (stepped : ((b.condition i.operands).map fun holds => if holds then b.flip i.qubits 1 else b) =
      .ok next) :
    Realizes i b next [{ Lowering.gate i.seq "x" [q] with guard := some o }] := by
  obtain ⟨holds, condition, rfl⟩ := Except.map_eq_ok.mp stepped
  have inside : i.qubits = [q] := by
    have unqubit : o.qubit? = none := by
      cases o with
      | qubit p => cases form
      | _ => rfl
    rw [Instruction.qubits, operands, qubitsOf, List.filterMap_cons_none unqubit]
    rfl
  have guard : Program.guardHolds b.eval.registers (some o) = .ok holds := by
    rw [guardHolds_eq form [.qubit q], ← operands]
    exact condition
  have binds : Program.bindOp b.eval.registers
      { Lowering.gate i.seq "x" [q] with guard := some o } =
        .ok (if holds then some (Lowering.gate i.seq "x" [q]) else none) := by
    unfold Program.bindOp
    rw [guard]
    cases holds <;> rfl
  refine ⟨by cases holds <;> rfl, (if holds then some (Lowering.gate i.seq "x" [q]) else none).toList,
    ?_, ?_, ?_⟩
  · rw [Program.bindOps, binds]
    cases holds <;> rfl
  · cases holds with
    | false => exact fun op no => absurd no List.not_mem_nil
    | true => exact movesBits_gate (.x q) inside
  · cases holds with
    | false => exact fun s shown => shown
    | true =>
      intro s shown
      rw [inside]
      exact shown.flip q

theorem realizes_of_lowered {next : BitState} {ops : List NativeOp}
    (opcode : i.opcode ∈ reversibleOpcodes) (lowered : Lowering.lowerOne i = .ok ops)
    (stepped : b.step i = .ok next) : Realizes i b next ops := by
  obtain ⟨seq, code, operands, kind⟩ := i
  simp only [reversibleOpcodes, List.mem_cons, List.not_mem_nil, or_false] at opcode
  rcases opcode with rfl | rfl | rfl | rfl | rfl | rfl | rfl | rfl
  · cases stepped
    exact realizes_init (Lowering.lowerOne_shape rfl lowered)
  · cases stepped
    obtain ⟨qubits, made, rfl⟩ := Except.map_eq_ok.mp (Lowering.lowerOne_shape rfl lowered)
    obtain ⟨q, rfl, rfl⟩ := Lowering.one_qubit made
    exact realizes_gates rfl (movesBits_gate (.x q) rfl) fun s shown => shown.flip q
  · cases stepped
    obtain ⟨qubits, made, rfl⟩ := Except.map_eq_ok.mp (Lowering.lowerOne_shape rfl lowered)
    obtain ⟨p, q, apart, rfl, rfl⟩ := Lowering.two_qubits made
    refine realizes_gates ?_ (movesBits_gate (.cx p q) rfl) fun s shown => shown.controlledFlip apart
    change (b.controlledFlip [p, q]).eval = b.eval
    rw [BitState.controlledFlip]
    split <;> rfl
  · cases stepped
    obtain ⟨qubits, made, rfl⟩ := Except.map_eq_ok.mp (Lowering.lowerOne_shape rfl lowered)
    obtain ⟨p, q, apart, rfl, rfl⟩ := Lowering.two_qubits made
    exact realizes_gates rfl (movesBits_gate (.swap p q) rfl) fun s shown => shown.exchange apart
  · cases stepped
    obtain ⟨qubits, made, rfl⟩ := Except.map_eq_ok.mp (Lowering.lowerOne_shape rfl lowered)
    obtain ⟨q, rfl, rfl⟩ := Lowering.one_qubit made
    exact realizes_gates rfl (movesBits_gate (.z q) rfl) fun s shown => shown
  · cases stepped
    obtain ⟨qubits, made, rfl⟩ := Except.map_eq_ok.mp (Lowering.lowerOne_shape rfl lowered)
    obtain ⟨p, q, _, rfl, rfl⟩ := Lowering.two_qubits made
    exact realizes_gates rfl (movesBits_gate (.cz p q) rfl) fun s shown => shown
  · obtain ⟨o, form, made⟩ := Except.bind_eq_ok.mp (Lowering.lowerOne_shape rfl lowered)
    obtain ⟨qubits, made, guarded⟩ := Except.bind_eq_ok.mp made
    obtain ⟨rest, rfl, fits⟩ := Lowering.leading_eq_ok form
    obtain ⟨q, rfl, rest⟩ := Lowering.one_qubit made
    cases rest
    cases guarded
    exact realizes_conditional fits rfl stepped
  · cases stepped
    obtain ⟨qubits, made, rfl⟩ := Except.map_eq_ok.mp (Lowering.lowerOne_shape rfl lowered)
    obtain ⟨rfl, _⟩ := Lowering.distinctQubits_eq_ok made
    exact realizes_gates rfl (movesBits_gate (.barrier qubits) (Lowering.qubitsOf_map qubits))
      fun s shown => shown

end Realizing
end LazyCast
