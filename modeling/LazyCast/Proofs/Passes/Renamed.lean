import LazyCast.Proofs.Circuit.Renaming
import LazyCast.Proofs.Orchestrator.Substitution
/-!
Sub-compilers on renamed qubits. Lowering asks of qubits only whether two of them are one, passes
whether operands are equal, and binding and evaluation never look at them. So what the built-in
sub-compilers make of instructions under other qubit numbers is what they make of the instructions,
renamed; a fault that names a qubit names the new one.
-/
namespace LazyCast
variable {f : Qubit → Qubit}

theorem Operand.beq_rename (injective : Function.Injective f) (o p : Operand) :
    (o.rename f == p.rename f) = (o == p) := by
  cases o with
  | qubit q =>
    cases p with
    | qubit r => exact decide_eq_decide.mpr injective.eq_iff
    | _ => rfl
  | _ => cases p <;> rfl

theorem Operand.beq_map_rename (injective : Function.Injective f) (os ps : List Operand) :
    (os.map (Operand.rename f) == ps.map (Operand.rename f)) = (os == ps) := by
  induction os generalizing ps with
  | nil => cases ps <;> rfl
  | cons o os ih =>
    cases ps with
    | nil => rfl
    | cons p ps =>
      rw [List.map_cons, List.map_cons, List.cons_beq_cons, List.cons_beq_cons, ih ps,
        beq_rename injective]

def Instruction.rename (f : Qubit → Qubit) (i : Instruction) : Instruction :=
  { i with operands := i.operands.map (Operand.rename f) }

def ExecutionCause.rename (f : Qubit → Qubit) : ExecutionCause → ExecutionCause
  | badTicket o => badTicket (o.rename f)
  | notAValue o => notAValue (o.rename f)
  | cause => cause

def Fault.rename (f : Qubit → Qubit) : Fault → Fault
  | execution kind cause => execution kind (cause.rename f)
  | e => e

def renamed {α β : Type} (f : Qubit → Qubit) (on : α → β) : Except Fault α → Except Fault β
  | .ok a => .ok (on a)
  | .error e => .error (e.rename f)

theorem renamed_of_map {α β : Type} {on : α → β} {r : Except Fault α} {r' : Except Fault β}
    (same : r' = r.map on) (unnamed : ∀ e, r = .error e → e.rename f = e) :
    r' = renamed f on r := by
  rw [same]
  cases r with
  | ok a => rfl
  | error e => exact congrArg Except.error (unnamed e rfl).symm

theorem Except.mapM_map_rename {ε α β γ δ : Type} {g : α → Except ε β} {h : γ → Except ε δ}
    {r : α → γ} {s : β → δ} (each : ∀ a, h (r a) = (g a).map s) (as : List α) :
    (as.map r).mapM h = (as.mapM g).map (List.map s) := by
  induction as with
  | nil => rfl
  | cons a as ih =>
    rw [List.map_cons, List.mapM_cons, List.mapM_cons, ih, each a]
    cases g a with
    | error e => rfl
    | ok b => cases as.mapM g <;> rfl

namespace Lowering
variable {operands : List Operand}

theorem gate_rename (seq : Nat) (code : String) (qs : List Qubit) :
    gate seq code (qs.map f) = (gate seq code qs).rename f := by
  simp [gate, NativeOp.plain, NativeOp.rename, Operand.rename, Function.comp_def]

theorem asQubits_rename (operands : List Operand) :
    asQubits (operands.map (Operand.rename f)) = (asQubits operands).map (List.map f) := by
  induction operands with
  | nil => rfl
  | cons o rest ih =>
    cases o with
    | qubit q =>
      change (asQubits (rest.map (Operand.rename f))).map (f q :: ·) = _
      rw [ih]
      change _ = ((asQubits rest).map (q :: ·)).map (List.map f)
      cases asQubits rest <;> rfl
    | _ => rfl

section Injective
variable (injective : Function.Injective f)
include injective

theorem distinctQubits_rename (least : Nat) (operands : List Operand) :
    distinctQubits least (operands.map (Operand.rename f)) =
      (distinctQubits least operands).map (List.map f) := by
  unfold distinctQubits
  rw [asQubits_rename]
  cases asQubits operands with
  | error e => rfl
  | ok qs =>
    have nodup : (qs.map f).Nodup ↔ qs.Nodup := List.nodup_map_iff injective
    change (if (qs.map f).length < least then _ else _) =
      Except.map (List.map f) (if qs.length < least then _ else _)
    rw [List.length_map]
    simp only [nodup]
    split
    · rfl
    · split <;> rfl

theorem exactQubits_rename (count : Nat) (operands : List Operand) :
    exactQubits count (operands.map (Operand.rename f)) =
      (exactQubits count operands).map (List.map f) := by
  unfold exactQubits
  rw [distinctQubits_rename injective]
  cases distinctQubits count operands with
  | error e => rfl
  | ok qs =>
    change (if (qs.map f).length = count then _ else _) =
      Except.map (List.map f) (if qs.length = count then _ else _)
    rw [List.length_map]
    split <;> rfl

omit injective in
theorem initialValue_rename (operands : List Operand) :
    initialValue (operands.map (Operand.rename f)) = initialValue operands := by
  cases operands with
  | nil => rfl
  | cons o rest => cases o <;> rfl

omit injective in
theorem flips_rename (seq value : Nat) (qs : List Qubit) :
    flips seq value (qs.map f) = (flips seq value qs).map (NativeOp.rename f) := by
  unfold flips
  rw [List.zipIdx_map, List.filter_map, List.map_map, List.map_map]
  apply List.map_congr_left
  intro q _
  exact gate_rename seq "x" [q.1]

theorem lowerInit_rename (seq : Nat) (operands : List Operand) :
    lowerInit seq (operands.map (Operand.rename f)) =
      (lowerInit seq operands).map (List.map (NativeOp.rename f)) := by
  unfold lowerInit
  rw [initialValue_rename, ← List.map_drop, distinctQubits_rename injective]
  cases initialValue operands with
  | error e => rfl
  | ok value =>
    cases distinctQubits 1 (operands.drop 1) with
    | error e => rfl
    | ok qs =>
      change (if (qs.map f).length < 64 ∧ pow2 (qs.map f).length ≤ value then _ else _) =
        Except.map _ (if qs.length < 64 ∧ pow2 qs.length ≤ value then _ else _)
      rw [List.length_map]
      split
      · rfl
      · exact congrArg Except.ok (flips_rename seq value qs)

omit injective in
theorem chain_rename (seq : Nat) (qs : List Qubit) :
    chain seq (qs.map f) = (chain seq qs).map (NativeOp.rename f) := by
  induction qs with
  | nil => rfl
  | cons p rest ih =>
    cases rest with
    | nil => rfl
    | cons q rest =>
      change gate seq "cx" ([p, q].map f) :: chain seq ((q :: rest).map f) = _
      rw [ih, gate_rename]
      rfl

omit injective in
theorem leading_rename {form : Operand → Bool} (qubitless : ∀ q, form (.qubit q) = false)
    (shape : OperandShape) (operands : List Operand) :
    leading form shape (operands.map (Operand.rename f)) =
      (leading form shape operands).map (Operand.rename f) := by
  cases operands with
  | nil => rfl
  | cons o rest =>
    have same : form (o.rename f) = form o := by
      cases o with
      | qubit q => exact (qubitless (f q)).trans (qubitless q).symm
      | _ => rfl
    change (if form (o.rename f) = true then _ else _) =
      Except.map _ (if form o = true then _ else _)
    rw [same]
    split <;> rfl

omit injective in
theorem single_rename {r : Except Malformation (List Qubit)} (seq : Nat) (code : String) :
    (r.map (List.map f)).map (fun qs => [gate seq code qs]) =
      (r.map fun qs => [gate seq code qs]).map (List.map (NativeOp.rename f)) := by
  cases r with
  | error e => rfl
  | ok qs => exact congrArg (fun op => Except.ok [op]) (gate_rename seq code qs)

theorem ofOpcode?_rename (opcode : String) (seq : Nat) (operands : List Operand) :
    ofOpcode? opcode seq (operands.map (Operand.rename f)) =
      (ofOpcode? opcode seq operands).map (Except.map (List.map (NativeOp.rename f))) := by
  have distinct := distinctQubits_rename injective (f := f)
  have exact_ := exactQubits_rename injective (f := f)
  unfold ofOpcode?
  split
  · exact congrArg some (lowerInit_rename injective seq operands)
  · rw [distinct]
    cases distinctQubits 1 operands with
    | error e => rfl
    | ok qs =>
      have each : (qs.map f).map (fun q => gate seq "h" [q]) =
          (qs.map fun q => gate seq "h" [q]).map (NativeOp.rename f) := by
        rw [List.map_map, List.map_map]
        apply List.map_congr_left
        intro q _
        exact gate_rename seq "h" [q]
      exact congrArg (fun ops => some (Except.ok ops)) each
  · rw [distinct]
    cases distinctQubits 2 operands with
    | error e => rfl
    | ok qs =>
      have first : gate seq "h" ((qs.map f).take 1) = (gate seq "h" (qs.take 1)).rename f := by
        rw [← List.map_take, gate_rename]
      change some (Except.ok (gate seq "h" ((qs.map f).take 1) :: chain seq (qs.map f))) = _
      rw [first, chain_rename]
      rfl
  · rw [exact_]
    exact congrArg some (single_rename seq "x")
  · rw [exact_]
    exact congrArg some (single_rename seq "z")
  · rw [exact_]
    exact congrArg some (single_rename seq "h")
  · rw [exact_]
    exact congrArg some (single_rename seq "cx")
  · rw [exact_]
    exact congrArg some (single_rename seq "cz")
  · rw [exact_]
    exact congrArg some (single_rename seq "swap")
  · rw [leading_rename (fun _ => rfl), ← List.map_drop, exact_]
    cases leading isAngle .angle operands with
    | error e => rfl
    | ok angle =>
      cases exactQubits 1 (operands.drop 1) with
      | error e => rfl
      | ok qs =>
        change some (Except.ok [NativeOp.plain seq "ry"
          (angle.rename f :: (qs.map f).map Operand.qubit)]) = _
        rw [List.map_map]
        change _ = some (Except.ok [NativeOp.plain seq "ry"
          ((angle :: qs.map Operand.qubit).map (Operand.rename f))])
        rw [List.map_cons, List.map_map]
        rfl
  · rw [leading_rename (fun _ => rfl), ← List.map_drop, exact_]
    cases leading isCondition .condition operands with
    | error e => rfl
    | ok condition =>
      cases exactQubits 1 (operands.drop 1) with
      | error e => rfl
      | ok qs =>
        change some (Except.ok [{ gate seq "x" (qs.map f) with
          guard := some (condition.rename f) }]) = _
        rw [gate_rename]
        rfl
  · rw [distinct]
    exact congrArg some (single_rename seq "measure")
  · rw [distinct]
    exact congrArg some (single_rename seq "barrier")
  · rfl

theorem lowerOne_rename (i : Instruction) :
    lowerOne (i.rename f) = (lowerOne i).map (List.map (NativeOp.rename f)) := by
  unfold lowerOne Instruction.rename
  dsimp only
  rw [ofOpcode?_rename injective]
  cases ofOpcode? i.opcode i.seq i.operands with
  | none => rfl
  | some lowered => cases lowered <;> rfl

end Injective
end Lowering

namespace Pass
variable (injective : Function.Injective f)
include injective

theorem cancels_rename (a b : NativeOp) : cancels (a.rename f) (b.rename f) = cancels a b := by
  have args := Operand.beq_map_rename injective a.args b.args
  have guard : ∀ op : NativeOp, (op.rename f).guard.isNone = op.guard.isNone :=
    fun op => Option.isNone_map
  unfold cancels
  rw [guard, guard]
  change (selfInverse.contains a.code && a.code == b.code &&
    a.args.map (Operand.rename f) == b.args.map (Operand.rename f) && _ && _) = _
  rw [args]

theorem cancelStep_rename (kept : List NativeOp) (op : NativeOp) :
    cancelStep (kept.map (NativeOp.rename f)) (op.rename f) =
      (cancelStep kept op).map (NativeOp.rename f) := by
  cases kept with
  | nil => rfl
  | cons last rest =>
    change (if cancels (last.rename f) (op.rename f) = true then _ else _) =
      List.map _ (if cancels last op = true then _ else _)
    rw [cancels_rename injective]
    split <;> rfl

theorem cancelPairs_rename (ops : List NativeOp) :
    cancelPairs (ops.map (NativeOp.rename f)) = (cancelPairs ops).map (NativeOp.rename f) := by
  have from_start : ∀ (ops kept : List NativeOp),
      (ops.map (NativeOp.rename f)).foldl cancelStep (kept.map (NativeOp.rename f)) =
        (ops.foldl cancelStep kept).map (NativeOp.rename f) := by
    intro ops
    induction ops with
    | nil => exact fun _ => rfl
    | cons op ops ih =>
      intro kept
      rw [List.map_cons, List.foldl_cons, List.foldl_cons, cancelStep_rename injective, ih]
  unfold cancelPairs
  rw [List.map_reverse]
  exact congrArg List.reverse (from_start ops [])

theorem run_rename (pass : Pass) (p : Program) : pass.run (p.rename f) = (pass.run p).rename f := by
  cases pass with
  | cancelInverses =>
    exact congrArg (Program.mk p.kind) (cancelPairs_rename injective p.ops)
  | dropBarriers =>
    have kept : (p.ops.map (NativeOp.rename f)).filter (fun op => op.code != "barrier") =
        (p.ops.filter fun op => op.code != "barrier").map (NativeOp.rename f) := by
      rw [List.filter_map]
      rfl
    exact congrArg (Program.mk p.kind) kept

theorem runAll_rename (names : List String) (p : Program) :
    names.foldlM (fun p pass => runNamed pass p) (p.rename f) =
      (names.foldlM (fun p pass => runNamed pass p) p).map (Program.rename f) := by
  induction names generalizing p with
  | nil => rfl
  | cons name rest ih =>
    rw [List.foldlM_cons, List.foldlM_cons]
    unfold runNamed
    cases ofName? name with
    | none => rfl
    | some pass =>
      change rest.foldlM _ (pass.run (p.rename f)) = _
      rw [run_rename injective]
      exact ih (pass.run p)

end Pass

theorem Simulator.lower_rename (injective : Function.Injective f) (s : Simulator)
    (is : List Instruction) :
    s.lower (is.map (Instruction.rename f)) = (s.lower is).map (Program.rename f) := by
  have each : ∀ i : Instruction,
      s.lowerOne (i.rename f) = (s.lowerOne i).map (List.map (NativeOp.rename f)) := by
    intro i
    change (if s.capabilities.supports i.opcode = true then Lowering.lowerOne (i.rename f)
      else .error (.unsupportedInstruction i.opcode i.kind)) = _
    unfold lowerOne
    rw [Lowering.lowerOne_rename injective]
    split <;> rfl
  have all : s.lowerAll (is.map (Instruction.rename f)) =
      (s.lowerAll is).map (Program.rename f) := by
    unfold lowerAll
    rw [Except.mapM_map_rename each]
    cases is.mapM s.lowerOne with
    | error e => rfl
    | ok ops =>
      exact congrArg (fun ops => Except.ok (Program.mk s.capabilities.kind ops))
        List.map_flatten.symm
  unfold lower
  rw [all]
  cases s.lowerAll is with
  | error e => rfl
  | ok p => exact Pass.runAll_rename injective s.passes p

namespace Program
variable (registers : Registers)

theorem bindOperand_rename (o : Operand) :
    bindOperand registers (o.rename f) = (bindOperand registers o).map (Operand.rename f) := by
  cases o with
  | reg name =>
    change (readRegister registers name).map Operand.ofValue =
      ((readRegister registers name).map Operand.ofValue).map (Operand.rename f)
    cases readRegister registers name with
    | error e => rfl
    | ok v => exact congrArg Except.ok (Operand.rename_of_not_qubit (qubit?_ofValue v)).symm
  | _ => rfl

theorem guardHolds_rename (guard : Option Operand) :
    guardHolds registers (guard.map (Operand.rename f)) = guardHolds registers guard := by
  cases guard with
  | none => rfl
  | some o => cases o <;> rfl

theorem bindOp_rename (op : NativeOp) :
    bindOp registers (op.rename f) =
      (bindOp registers op).map (Option.map (NativeOp.rename f)) := by
  have guard : guardHolds registers (op.rename f).guard = guardHolds registers op.guard :=
    guardHolds_rename registers op.guard
  have args : (op.rename f).args.mapM (bindOperand registers) =
      (op.args.mapM (bindOperand registers)).map (List.map (Operand.rename f)) :=
    Except.mapM_map_rename (bindOperand_rename registers) op.args
  unfold bindOp
  rw [guard, args]
  cases guardHolds registers op.guard with
  | error e => rfl
  | ok holds =>
    cases holds with
    | false => rfl
    | true => cases op.args.mapM (bindOperand registers) <;> rfl

theorem bindOps_rename (ops : List NativeOp) :
    bindOps registers (ops.map (NativeOp.rename f)) =
      (bindOps registers ops).map (List.map (NativeOp.rename f)) := by
  induction ops with
  | nil => rfl
  | cons op rest ih =>
    rw [List.map_cons, bindOps, bindOps, ih, bindOp_rename]
    cases bindOp registers op with
    | error e => rfl
    | ok first =>
      cases bindOps registers rest with
      | error e => rfl
      | ok others => cases first <;> rfl

theorem bind_rename (p : Program) :
    (p.rename f).bind registers = renamed f (Program.rename f) (p.bind registers) := by
  have same : (p.rename f).bind registers = (p.bind registers).map (Program.rename f) := by
    change ((bindOps registers (p.ops.map (NativeOp.rename f))).mapError _).map _ = _
    rw [bindOps_rename, bind]
    cases bindOps registers p.ops <;> rfl
  apply renamed_of_map same
  intro e failed
  rw [bind_eq] at failed
  split at failed
  · cases failed
  · cases failed
    rfl

end Program

def Sample.rename (f : Qubit → Qubit) : Sample → Sample
  | measured m => measured (m.rename f)
  | deterministic v registers => deterministic v registers

def MemberCast.rename (f : Qubit → Qubit) (c : MemberCast) : MemberCast :=
  { c with qubits := c.qubits.map f }

def EvalState.rename (f : Qubit → Qubit) (s : EvalState) : EvalState :=
  { s with memberCasts := s.memberCasts.map (MemberCast.rename f) }

namespace Classical
variable {registers : Registers}

theorem argument_rename (op : NativeOp) (n : Nat) :
    argument (op.rename f) n = (argument op n).map (Operand.rename f) := by
  have same : (op.rename f).args[n]? = (op.args[n]?).map (Operand.rename f) := List.getElem?_map
  unfold argument
  rw [same]
  cases op.args[n]? <;> rfl

theorem binary_rename (code : String) (left right : Value) :
    (binary code left right).mapError (ExecutionCause.rename f) = binary code left right := by
  have exact_ : ∀ n, (exact left code right n).mapError (ExecutionCause.rename f) =
      exact left code right n := by
    intro n
    unfold exact
    split <;> rfl
  have integers : ∀ x y, (onIntegers left code right x y).mapError (ExecutionCause.rename f) =
      onIntegers left code right x y := by
    intro x y
    unfold onIntegers
    split
    case h_4 =>
      split
      · rfl
      · exact exact_ _
    all_goals first | exact exact_ _ | rfl
  have floats : ∀ x y, (onFloats code x y).mapError (ExecutionCause.rename f) =
      onFloats code x y := by
    intro x y
    unfold onFloats
    split
    case h_4 => split <;> rfl
    all_goals rfl
  unfold binary
  split
  case h_4 =>
    unfold onNumbers
    split
    · exact integers _ _
    · split
      · exact floats _ _
      · rfl
  all_goals rfl

theorem operandValue_rename (op : NativeOp) (n : Nat) :
    operandValue registers (op.rename f) n =
      (operandValue registers op n).mapError (ExecutionCause.rename f) := by
  have value : ∀ o : Operand, valueOf registers (o.rename f) =
      (valueOf registers o).mapError (ExecutionCause.rename f) := by
    intro o
    cases o with
    | reg name =>
      change Program.readRegister registers name =
        (Program.readRegister registers name).mapError (ExecutionCause.rename f)
      unfold Program.readRegister
      cases registers.find? name <;> rfl
    | _ => rfl
  have missing : ∀ e, argument op n = .error e → e.rename f = e := by
    intro e failed
    unfold argument at failed
    split at failed
    · cases failed
    · cases failed
      rfl
  unfold operandValue
  rw [argument_rename]
  cases found : argument op n with
  | error e => exact congrArg Except.error (missing e found).symm
  | ok o => exact value o

theorem result_rename (op : NativeOp) :
    result registers (op.rename f) =
      (result registers op).mapError (ExecutionCause.rename f) := by
  have code : (op.rename f).code = op.code := rfl
  unfold result
  simp only [code, operandValue_rename]
  split
  · rfl
  · rfl
  · cases operandValue registers op 1 <;> rfl
  · cases operandValue registers op 1 with
    | error e => rfl
    | ok left =>
      cases operandValue registers op 2 with
      | error e => rfl
      | ok right => exact (binary_rename _ left right).symm

theorem destination_rename (op : NativeOp) :
    destination (op.rename f) = (destination op).mapError (ExecutionCause.rename f) := by
  unfold destination
  rw [argument_rename]
  unfold argument
  cases op.args[0]? with
  | none => rfl
  | some o => cases o <;> rfl

theorem ticketOf_rename (op : NativeOp) :
    ticketOf (op.rename f) = (ticketOf op).mapError (ExecutionCause.rename f) := by
  unfold ticketOf
  rw [argument_rename]
  unfold argument
  cases op.args[0]? with
  | none => rfl
  | some o =>
    cases o with
    | int t =>
      simp only [Except.map, bind, Except.bind, Operand.rename]
      cases uint32? t.toInt <;> rfl
    | _ => rfl

theorem stepCause_rename (op : NativeOp) (s : EvalState) :
    stepCause (op.rename f) (s.rename f) =
      ((stepCause op s).map (EvalState.rename f)).mapError (ExecutionCause.rename f) := by
  have code : (op.rename f).code = op.code := rfl
  have registers : (s.rename f).registers = s.registers := rfl
  unfold stepCause
  simp only [code, registers, ticketOf_rename, result_rename, destination_rename]
  split
  · rfl
  · cases ticketOf op with
    | error e => rfl
    | ok ticket =>
      have kept : (s.rename f).recordCast ticket (op.rename f).qubits =
          (s.recordCast ticket op.qubits).rename f := by
        simp [EvalState.rename, EvalState.recordCast, MemberCast.rename]
      exact congrArg Except.ok kept
  · cases result s.registers op with
    | error e => rfl
    | ok v => cases destination op <;> rfl

theorem hasShape_rename (shape : OperandShape) (operands : List Operand) :
    hasShape shape (operands.map (Operand.rename f)) = hasShape shape operands := by
  have register : ∀ o : Operand, isRegister (o.rename f) = isRegister o := by
    intro o
    cases o <;> rfl
  have literal : ∀ o : Operand, (o.rename f).literal?.isSome = o.literal?.isSome := by
    intro o
    cases o <;> rfl
  have value : ∀ o : Operand, isValue (o.rename f) = isValue o := by
    intro o
    cases o <;> rfl
  have ticket : ∀ o : Operand, isTicket (o.rename f) = isTicket o := by
    intro o
    cases o <;> rfl
  have qubits : ∀ os : List Operand, (os.map (Operand.rename f)).all isQubit = os.all isQubit := by
    intro os
    rw [List.all_map]
    congr 1
    funext o
    cases o <;> rfl
  match operands with
  | [] => cases shape <;> rfl
  | [a] =>
    cases shape with
    | qubitsOnly => exact qubits [a]
    | ticketAndQubits => exact congrArg (· && true) (ticket a)
    | _ => rfl
  | [a, b] =>
    cases shape with
    | registerAndLiteral => exact congrArg₂ and (register a) (literal b)
    | registerAndValue => exact congrArg₂ and (register a) (value b)
    | qubitsOnly => exact qubits [a, b]
    | ticketAndQubits => exact congrArg₂ and (ticket a) (qubits [b])
    | _ => rfl
  | [a, b, c] =>
    cases shape with
    | registerAndTwoValues =>
      exact congrArg₂ and (congrArg₂ and (register a) (value b)) (value c)
    | qubitsOnly => exact qubits [a, b, c]
    | ticketAndQubits => exact congrArg₂ and (ticket a) (qubits [b, c])
    | _ => rfl
  | a :: b :: c :: d :: rest =>
    cases shape with
    | qubitsOnly => exact qubits (a :: b :: c :: d :: rest)
    | ticketAndQubits => exact congrArg₂ and (ticket a) (qubits (b :: c :: d :: rest))
    | _ => rfl

end Classical

namespace Evaluator
variable (e : Evaluator)

theorem lower_rename (is : List Instruction) :
    e.lower (is.map (Instruction.rename f)) = (e.lower is).map (Program.rename f) := by
  have each : ∀ i : Instruction,
      e.lowerOne (i.rename f) = (e.lowerOne i).map (NativeOp.rename f) := by
    intro i
    unfold lowerOne Classical.checkOperands Instruction.rename
    dsimp only
    rw [Classical.hasShape_rename]
    split
    · split <;> rfl
    · rfl
  unfold lower
  rw [Except.mapM_map_rename each]
  cases is.mapM e.lowerOne <;> rfl

theorem step_rename (op : NativeOp) (s : EvalState) :
    e.step (op.rename f) (s.rename f) = renamed f (EvalState.rename f) (e.step op s) := by
  unfold step
  rw [Classical.stepCause_rename]
  cases Classical.stepCause op s <;> rfl

theorem run_rename (ops : List NativeOp) (s : EvalState) :
    e.run (s.rename f) (ops.map (NativeOp.rename f)) =
      renamed f (EvalState.rename f) (e.run s ops) := by
  unfold run
  induction ops generalizing s with
  | nil => rfl
  | cons op ops ih =>
    rw [List.map_cons, List.foldlM_cons, List.foldlM_cons, step_rename]
    cases e.step op s with
    | error e => rfl
    | ok s => exact ih s

theorem execute_rename (p : Program) :
    e.execute (p.rename f) = renamed f (Sample.rename f) (e.execute p) := by
  have ran := e.run_rename (f := f) p.ops .empty
  unfold execute
  change (e.run (EvalState.empty.rename f) (p.ops.map (NativeOp.rename f))).map _ = _
  rw [ran]
  cases e.run .empty p.ops <;> rfl

end Evaluator

def Attempt.rename (f : Qubit → Qubit) : Attempt → Attempt
  | crash => crash
  | answer delay sampled result => answer delay sampled (renamed f (Sample.rename f) result)

structure SubCompiler.Even (f : Qubit → Qubit) (c : SubCompiler) : Prop where
  lowers : ∀ is, c.lower (is.map (Instruction.rename f)) = renamed f (Program.rename f) (c.lower is)
  executes : ∀ usage p, c.execute usage (p.rename f) = (c.execute usage p).rename f

theorem Evaluator.even (e : Evaluator) : e.subCompiler.Even f where
  lowers is := by
    apply renamed_of_map (e.lower_rename is)
    intro cause failed
    obtain ⟨i, _, failed⟩ := Except.mapM_eq_error (Except.map_eq_error.mp failed)
    unfold lowerOne Classical.checkOperands at failed
    dsimp only at failed
    split at failed
    · split at failed
      · cases failed
      · cases failed
        rfl
    · cases failed
      rfl
  executes usage p := congrArg (Attempt.answer 0 false) (e.execute_rename p)

theorem Circuit.ofOps_rename_cause {allowed : Nat} {ops : List NativeOp} {cause : ExecutionCause}
    (failed : ofOps allowed ops = .error cause) : cause.rename f = cause := by
  have gate : ∀ op qs, Gate.ofOp op qs = .error cause → cause.rename f = cause := by
    intro op qs failed
    unfold Gate.ofOp at failed
    split at failed
    case h_4 =>
      split at failed
      · cases failed
      · cases failed
        rfl
    case h_10 =>
      split at failed
      · cases failed
        rfl
      · split at failed
        · cases failed
          rfl
        · cases failed
          rfl
    all_goals cases failed
  rw [ofOps_eq] at failed
  split at failed
  · split at failed
    · cases failed
      rfl
    · split at failed
      · cases failed
        rfl
      · have failed := Except.map_eq_error.mp failed
        obtain ⟨op, _, failed⟩ := Except.mapM_eq_error (Except.map_eq_error.mp failed)
        exact gate op _ failed
  · cases failed
    rfl

namespace Simulator
variable (s : Simulator)

theorem lower_rename_fault {is : List Instruction} {e : Fault} (failed : s.lower is = .error e) :
    e.rename f = e := by
  have passes : ∀ (names : List String) (p : Program),
      names.foldlM (fun p pass => Pass.runNamed pass p) p = .error e → e.rename f = e := by
    intro names
    induction names with
    | nil => exact fun p no => by cases no
    | cons name rest ih =>
      intro p failed
      rw [List.foldlM_cons] at failed
      unfold Pass.runNamed at failed
      cases named : Pass.ofName? name with
      | none =>
        rw [named] at failed
        cases failed
        rfl
      | some pass =>
        rw [named] at failed
        exact ih (pass.run p) failed
  unfold lower at failed
  cases lowered : s.lowerAll is with
  | ok p =>
    rw [lowered] at failed
    exact passes s.passes p failed
  | error cause =>
    rw [lowered] at failed
    cases failed
    obtain ⟨i, _, failed⟩ := Except.mapM_eq_error (Except.map_eq_error.mp lowered)
    unfold lowerOne Lowering.lowerOne at failed
    split at failed
    · split at failed
      · rename_i lowered _
        cases lowered with
        | ok ops => cases failed
        | error cause =>
          cases failed
          rfl
      · cases failed
        rfl
    · cases failed
      rfl

theorem even (rising : StrictMono f) : s.subCompiler.Even f where
  lowers is := renamed_of_map (s.lower_rename rising.injective is) fun _ => s.lower_rename_fault
  executes usage p := by
    have ran := s.execute_rename usage.samplings p (rising.strictMonoOn _)
    unfold subCompiler
    dsimp only
    rw [ran]
    cases executed : s.execute usage.samplings p with
    | ok m => rfl
    | error e =>
      unfold execute at executed
      cases made : Circuit.ofOps s.maxQubits p.ops with
      | ok c =>
        rw [made] at executed
        cases executed
      | error cause =>
        rw [made] at executed
        cases executed
        have same : cause = cause.rename f := (Circuit.ofOps_rename_cause made).symm
        exact congrArg
          (fun c => Attempt.answer 0 false (.error (.execution s.capabilities.kind c))) same

end Simulator

end LazyCast
