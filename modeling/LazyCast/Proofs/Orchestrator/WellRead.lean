import LazyCast.Proofs.Circuit.Instructions
import LazyCast.Proofs.Orchestrator.Binding
import LazyCast.Proofs.Orchestrator.Piecewise
import LazyCast.Proofs.Orchestrator.Thinning
/-!
Schedules that read what they have written. Registers hold literals, so whatever stands for an angle
is a number; a schedule whose classical operations go through binds to the end, and all that it
binds can be simulated.
-/
namespace LazyCast

def Value.IsLiteral (v : Value) : Prop := ∃ o : Operand, o.literal? = some v

namespace Value.IsLiteral

theorem int (n : Int64) : (Value.int n).IsLiteral := ⟨.int n, rfl⟩

theorem bool (b : Bool) : (Value.bool b).IsLiteral := ⟨.bool b, rfl⟩

theorem float (x : Float) : (Value.float x).IsLiteral := ⟨.float x, rfl⟩

theorem forms {v : Value} (literal : v.IsLiteral) :
    (∃ b, v = .bool b) ∨ (∃ n, v = .int n) ∨ ∃ x, v = .float x := by
  obtain ⟨o, same⟩ := literal
  cases o with
  | int n =>
    cases same
    exact Or.inr (Or.inl ⟨n, rfl⟩)
  | float x =>
    cases same
    exact Or.inr (Or.inr ⟨x, rfl⟩)
  | bool b =>
    cases same
    exact Or.inl ⟨b, rfl⟩
  | _ => cases same

theorem angle {v : Value} (literal : v.IsLiteral) :
    ∃ x, ((Operand.ofValue v).literal?).bind Value.toFloat? = some x := by
  obtain ⟨o, same⟩ := literal
  cases o with
  | int n =>
    cases same
    have low := n.le_toInt
    have high := n.toInt_lt
    have fits : int64? n.toInt = some (Int64.ofInt n.toInt) := by
      unfold int64?
      rw [if_pos (by omega)]
    have back : Operand.ofValue (.int n) = .int (Int64.ofInt n.toInt) := by
      simp only [Operand.ofValue, Value.toInt?, Option.bind_some, fits]
    rw [back]
    exact ⟨_, rfl⟩
  | float x =>
    cases same
    exact ⟨_, rfl⟩
  | bool b =>
    cases same
    exact ⟨_, rfl⟩
  | _ => cases same

end Value.IsLiteral

def Registers.Literal (registers : Registers) : Prop :=
  ∀ name v, registers.find? name = some v → v.IsLiteral

namespace Classical
variable {registers : Registers} {op : NativeOp} {left right v : Value} {code : String}

theorem literal_onIntegers {x y : Int} (made : onIntegers left code right x y = .ok v) :
    v.IsLiteral := by
  have exact_ : ∀ n, exact left code right n = .ok v → v.IsLiteral := by
    intro n made
    unfold exact at made
    split at made
    · cases made
      exact .int _
    · cases made
  unfold onIntegers at made
  split at made
  case h_1 | h_2 | h_3 => exact exact_ _ made
  case h_4 =>
    split at made
    · cases made
    · exact exact_ _ made
  case h_9 => cases made
  all_goals
    cases made
    exact .bool _

theorem literal_onFloats {x y : Float} (made : onFloats code x y = .ok v) : v.IsLiteral := by
  unfold onFloats at made
  split at made
  case h_1 | h_2 | h_3 =>
    cases made
    exact .float _
  case h_4 =>
    split at made
    · cases made
    · cases made
      exact .float _
  case h_9 => cases made
  all_goals
    cases made
    exact .bool _

theorem literal_binary (made : binary code left right = .ok v) : v.IsLiteral := by
  unfold binary at made
  split at made
  case h_4 =>
    unfold onNumbers at made
    split at made
    · exact literal_onIntegers made
    · split at made
      · exact literal_onFloats made
      · cases made
  all_goals
    cases made
    exact .bool _

theorem literal_operandValue (held : registers.Literal) {n : Nat}
    (made : operandValue registers op n = .ok v) : v.IsLiteral := by
  unfold operandValue at made
  cases asked : argument op n with
  | error e =>
    rw [asked] at made
    cases made
  | ok o =>
    rw [asked] at made
    change valueOf registers o = .ok v at made
    unfold valueOf at made
    split at made
    · rename_i name
      unfold Program.readRegister at made
      cases found : registers.find? name with
      | none =>
        rw [found] at made
        cases made
      | some w =>
        rw [found] at made
        cases made
        exact held name _ found
    · split at made
      · next w literal =>
        cases made
        exact ⟨_, literal⟩
      · cases made

theorem literal_result (held : registers.Literal) (made : result registers op = .ok v) :
    v.IsLiteral := by
  unfold result at made
  split at made
  case h_1 | h_2 => exact literal_operandValue held made
  case h_3 =>
    obtain ⟨_, _, rfl⟩ := Except.map_eq_ok.mp made
    exact .bool _
  case h_4 =>
    obtain ⟨_, _, made⟩ := Except.bind_eq_ok.mp made
    obtain ⟨_, _, made⟩ := Except.bind_eq_ok.mp made
    exact literal_binary made

end Classical

theorem Evaluator.step_literal {e : Evaluator} {op : NativeOp} {s s' : EvalState}
    (stepped : e.step op s = .ok s') (held : s.registers.Literal) : s'.registers.Literal := by
  unfold Evaluator.step at stepped
  cases cause : Classical.stepCause op s with
  | error f =>
    rw [cause] at stepped
    cases stepped
  | ok after =>
    rw [cause] at stepped
    cases stepped
    unfold Classical.stepCause at cause
    split at cause
    · cases cause
      exact held
    · obtain ⟨ticket, _, rfl⟩ := Except.map_eq_ok.mp cause
      exact held
    · obtain ⟨v, made, cause⟩ := Except.bind_eq_ok.mp cause
      obtain ⟨name, _, cause⟩ := Except.bind_eq_ok.mp cause
      cases cause
      intro other w found
      by_cases same : other = name
      · subst same
        rw [EvalState.write, Table.find?_insert_self] at found
        cases found
        exact Classical.literal_result held made
      · rw [EvalState.write, Table.find?_insert_of_ne _ _ same] at found
        exact held other w found

theorem Evaluator.run_literal {e : Evaluator} {ops : List NativeOp} {s s' : EvalState}
    (ran : e.run s ops = .ok s') (held : s.registers.Literal) : s'.registers.Literal := by
  induction ops generalizing s with
  | nil =>
    cases ran
    exact held
  | cons op rest ih =>
    obtain ⟨next, stepped, ran⟩ := Except.bind_eq_ok.mp ran
    exact ih ran (step_literal stepped held)

theorem EvalState.literal_empty : EvalState.empty.registers.Literal := fun _ _ none => by cases none

def NativeOp.reads (op : NativeOp) : List Register :=
  (op.guard.toList ++ op.args).filterMap Operand.reg?

namespace Program
variable {registers : Registers} {op b : NativeOp}

theorem bindOperand_written {o : Operand}
    (written : ∀ name, o.reg? = some name → registers.contains name = true) :
    ∃ bound, bindOperand registers o = .ok bound := by
  cases o with
  | reg name =>
    obtain ⟨v, found⟩ := Option.isSome_iff_exists.mp (written name rfl)
    exact ⟨.ofValue v, by simp [bindOperand, readRegister, found, Except.map]⟩
  | _ => exact ⟨_, rfl⟩

theorem guardHolds_written {guard : Option Operand}
    (written : ∀ o name, guard = some o → o.reg? = some name → registers.contains name = true) :
    ∃ holds, guardHolds registers guard = .ok holds := by
  cases guard with
  | none => exact ⟨true, rfl⟩
  | some o =>
    cases o with
    | reg name =>
      obtain ⟨v, found⟩ := Option.isSome_iff_exists.mp (written _ name rfl rfl)
      exact ⟨v.truthy, by simp [guardHolds, readRegister, found, Except.map]⟩
    | _ => exact ⟨_, rfl⟩

theorem bindOp_written (written : ∀ name ∈ op.reads, registers.contains name = true) :
    ∃ x, bindOp registers op = .ok x := by
  have guard : ∃ holds, guardHolds registers op.guard = .ok holds := by
    apply guardHolds_written
    intro o name same read
    refine written name (List.mem_filterMap.mpr ⟨o, ?_, read⟩)
    simp [same]
  have args : ∃ args, op.args.mapM (bindOperand registers) = .ok args := by
    obtain ⟨args, all⟩ : ∃ args, List.Forall₂ (fun o b => bindOperand registers o = .ok b)
        op.args args := by
      apply Orchestrator.forall₂_choose
      intro o mem
      apply bindOperand_written
      intro name read
      exact written name (List.mem_filterMap.mpr ⟨o, List.mem_append_right _ mem, read⟩)
    exact ⟨args, Except.mapM_ok_iff.mpr all⟩
  obtain ⟨holds, guard⟩ := guard
  obtain ⟨args, bound⟩ := args
  unfold bindOp
  rw [guard]
  cases holds with
  | false => exact ⟨none, rfl⟩
  | true =>
    change ∃ x, (op.args.mapM (bindOperand registers) >>= fun args => _) = .ok x
    rw [bound]
    exact ⟨_, rfl⟩

theorem angle_bindOperand (held : registers.Literal) {o bound : Operand}
    (form : Lowering.isAngle o = true) (binds : bindOperand registers o = .ok bound) :
    ∃ x, (bound.literal?).bind Value.toFloat? = some x := by
  cases o with
  | reg name =>
    obtain ⟨v, read, rfl⟩ := Except.map_eq_ok.mp binds
    unfold readRegister at read
    cases found : registers.find? name with
    | none =>
      rw [found] at read
      cases read
    | some w =>
      rw [found] at read
      cases read
      exact (held name _ found).angle
  | int n =>
    cases binds
    exact ⟨_, rfl⟩
  | float x =>
    cases binds
    exact ⟨_, rfl⟩
  | _ => cases form

theorem args_bindOp (binds : bindOp registers op = .ok (some b)) :
    List.Forall₂ (fun o bound => bindOperand registers o = .ok bound) op.args b.args := by
  unfold bindOp at binds
  obtain ⟨holds, _, binds⟩ := Except.bind_eq_ok.mp binds
  cases holds with
  | false => cases binds
  | true =>
    rw [if_pos rfl] at binds
    obtain ⟨args, each, binds⟩ := Except.bind_eq_ok.mp binds
    cases binds
    exact Except.mapM_ok_iff.mp each

theorem simulable_bindOp {i : Instruction} (held : registers.Literal) (stems : op.StemsFrom i)
    (binds : bindOp registers op = .ok (some b)) : b.Simulable := by
  obtain ⟨code, qubits, _⟩ := (bindOp_ok binds).2 b rfl
  rcases stems.plays with ⟨fixed, g, plays⟩ | ⟨turns, angle, q, form, args⟩
  · refine ⟨g, ?_⟩
    rw [Gate.ofOp_congr code fixed, qubits]
    exact plays
  · have each := args_bindOp binds
    rw [args] at each
    obtain ⟨first, rest, bindsAngle, _, same⟩ := List.forall₂_cons_left_iff.mp each
    obtain ⟨x, number⟩ := angle_bindOperand held form bindsAngle
    have one : b.qubits = [q] := by
      rw [qubits, NativeOp.qubits, args]
      cases angle with
      | qubit p => cases form
      | _ => rfl
    refine ⟨some (.ry x q), ?_⟩
    rw [one]
    simp only [Gate.ofOp, code.trans turns, Gate.angleOf?, same, List.head?_cons, Option.bind_some,
      number]

end Program

namespace Orchestrator
variable {e : Evaluator} {eval : EvalState} {ops : List Scheduled}

/-- In order, no classical operation fails, and the others read what has been written. -/
def ReadsWritten (e : Evaluator) : EvalState → List Scheduled → Prop
  | _, [] => True
  | eval, op :: rest =>
    if op.1.isClassical then ∃ next, e.step op.2 eval = .ok next ∧ ReadsWritten e next rest
    else (∀ name ∈ op.2.reads, eval.registers.contains name = true) ∧ ReadsWritten e eval rest

structure Remains (op x : Scheduled) : Prop where
  kind : op.1 = x.1
  needed : op.1.isClassical = false
  qubits : x.2.qubits = op.2.qubits
  simulable : x.2.Simulable

theorem remains_of_bound {bound : List Scheduled} (held : eval.registers.Literal)
    (stems : ∀ op ∈ ops, op.1.isClassical = false → ∃ i, op.2.StemsFrom i)
    (all : boundFrom e eval ops = .ok bound) : ∀ x ∈ bound, ∃ op ∈ ops, Remains op x := by
  induction ops generalizing eval bound with
  | nil =>
    cases all
    intro x none
    cases none
  | cons op rest ih =>
    have stems' := fun x mem => stems x (List.mem_cons_of_mem _ mem)
    intro x mem
    cases needed : op.1.isClassical with
    | true =>
      rw [boundFrom_classical needed] at all
      obtain ⟨next, stepped, later⟩ := Except.bind_eq_ok.mp all
      obtain ⟨y, among, left⟩ := ih (Evaluator.step_literal stepped held) stems' later x mem
      exact ⟨y, List.mem_cons_of_mem _ among, left⟩
    | false =>
      obtain ⟨b, left, binds, later, rfl⟩ := boundFrom_needed_ok needed all
      obtain ⟨y, one, rfl⟩ := Program.bind_single.mp binds
      obtain ⟨i, stem⟩ := stems op List.mem_cons_self needed
      rcases List.mem_append.mp mem with mem | mem
      · obtain ⟨z, at_z, rfl⟩ := List.mem_map.mp mem
        rw [Option.mem_toList] at at_z
        subst at_z
        exact ⟨op, List.mem_cons_self, rfl, needed, ((Program.bindOp_ok one).2 z rfl).2.1,
          Program.simulable_bindOp held stem one⟩
      · obtain ⟨y, among, left⟩ := ih held stems' later x mem
        exact ⟨y, List.mem_cons_of_mem _ among, left⟩

theorem boundFrom_written (reads : ReadsWritten e eval ops) :
    ∃ bound, boundFrom e eval ops = .ok bound := by
  induction ops generalizing eval with
  | nil => exact ⟨[], rfl⟩
  | cons op rest ih =>
    cases needed : op.1.isClassical with
    | true =>
      rw [ReadsWritten, if_pos needed] at reads
      obtain ⟨next, stepped, reads⟩ := reads
      obtain ⟨bound, all⟩ := ih reads
      exact ⟨bound, by rw [boundFrom_classical needed, stepped]; exact all⟩
    | false =>
      rw [ReadsWritten, needed, if_neg Bool.false_ne_true] at reads
      obtain ⟨bound, all⟩ := ih reads.2
      obtain ⟨b, binds⟩ := Program.bindOp_written reads.1
      have one : (Program.mk op.1 [op.2]).bind eval.registers = .ok ⟨op.1, b.toList⟩ :=
        Program.bind_single.mpr ⟨b, binds, rfl⟩
      refine ⟨tagged ⟨op.1, b.toList⟩ ++ bound, ?_⟩
      rw [boundFrom_needed needed, one, all]
      rfl

theorem runsOf_written (reads : ReadsWritten e .empty ops)
    (stems : ∀ op ∈ ops, op.1.isClassical = false → ∃ i, op.2.StemsFrom i) :
    ∃ runs, runsOf e ops = .ok runs ∧
      ∀ p ∈ runs, ∀ x ∈ p.ops, ∃ op ∈ ops, Remains op (p.kind, x) := by
  obtain ⟨bound, all⟩ := boundFrom_written reads
  have remains := remains_of_bound EvalState.literal_empty stems all
  obtain ⟨runs, planned, same⟩ := runs_of_boundFrom all
  refine ⟨runs, planned, fun p among x mem => remains (p.kind, x) ?_⟩
  rw [← same]
  exact List.mem_flatMap.mpr ⟨p, among, List.mem_map_of_mem mem⟩

end Orchestrator
end LazyCast
