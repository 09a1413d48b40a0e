import LazyCast.Proofs.Orchestrator.Destinations
/-!
Stepping what the evaluator lowers. A lowered operation has the operands that its code asks for, and
registers hold numbers, so a step finds fault with nothing but the data: a register never written, a
divisor that is zero, a result beyond 64 bits. Tickets are the exception: lowering asks of a ticket
that it is not negative, and the step that it fits 32 bits besides.
-/
namespace LazyCast

/-- A divisor that nothing is divided by: zero as an integer, or as a float. -/
def Value.Vanishes (v : Value) : Prop := v.toInt? = some 0 ∨ ∃ x, v.toFloat? = some x ∧ x == 0

theorem Value.IsLiteral.number {v : Value} (literal : v.IsLiteral) : ∃ x, v.toFloat? = some x := by
  rcases literal.forms with ⟨b, rfl⟩ | ⟨n, rfl⟩ | ⟨x, rfl⟩ <;> exact ⟨_, rfl⟩

namespace Classical

def numberCodes : List String := ["add", "sub", "mul", "div", "eq", "ne", "lt", "le"]

def binaryCodes : List String := numberCodes ++ ["and", "or", "xor"]

/-- The integer that arithmetic comes to before it is asked to fit. -/
def exactResult? (code : String) (x y : Int) : Option Int :=
  match code with
  | "add" => some (x + y)
  | "sub" => some (x - y)
  | "mul" => some (x * y)
  | "div" => some (x.tdiv y)
  | _ => none

inductive NumberFault (left : Value) (code : String) (right : Value) : ExecutionCause → Prop where
  | zeroDivisor (divides : code = "div") (zero : right.Vanishes) :
      NumberFault left code right .divisionByZero
  | overflow (x y n : Int) (first : left.toInt? = some x) (second : right.toInt? = some y)
      (made : exactResult? code x y = some n)
      (outside : n < -9223372036854775808 ∨ 9223372036854775808 ≤ n) :
      NumberFault left code right (.integerOverflow left code right)

/-- What can be wrong with the data that an operation meets. -/
inductive DataFault (registers : Registers) (op : NativeOp) : ExecutionCause → Prop where
  | unread (name : Register) (reads : .reg name ∈ op.args.tail)
      (never : registers.find? name = none) : DataFault registers op (.readBeforeWrite name)
  | number (left right : Value) (first : operandValue registers op 1 = .ok left)
      (second : operandValue registers op 2 = .ok right) {cause : ExecutionCause}
      (fault : NumberFault left op.code right cause) : DataFault registers op cause

/-- A `cast` with a ticket that 32 bits do not hold. -/
structure Oversized (op : NativeOp) (ticket : Int64) : Prop where
  code : op.code = "cast"
  leads : op.args.head? = some (.int ticket)
  large : 4294967296 ≤ ticket.toInt

section Numbers
variable {left right : Value} {code : String} {x y : Int} {cause : ExecutionCause}

theorem exact_error {n : Int} (failed : exact left code right n = .error cause) :
    (n < -9223372036854775808 ∨ 9223372036854775808 ≤ n) ∧
      cause = .integerOverflow left code right := by
  rw [exact, int128?_bind_int64?, int64?] at failed
  by_cases fits : -9223372036854775808 ≤ n ∧ n < 9223372036854775808
  · rw [if_pos fits] at failed
    cases failed
  · rw [if_neg fits] at failed
    cases failed
    exact ⟨by omega, rfl⟩

theorem onIntegers_error (known : code ∈ numberCodes) (first : left.toInt? = some x)
    (second : right.toInt? = some y) (failed : onIntegers left code right x y = .error cause) :
    NumberFault left code right cause := by
  unfold onIntegers at failed
  split at failed
  case h_1 | h_2 | h_3 =>
    obtain ⟨outside, rfl⟩ := exact_error failed
    exact .overflow x y _ first second rfl outside
  case h_4 =>
    split at failed
    · next zero =>
      cases failed
      exact .zeroDivisor rfl (Or.inl (zero ▸ second))
    · obtain ⟨outside, rfl⟩ := exact_error failed
      exact .overflow x y _ first second rfl outside
  case h_9 => simp_all [numberCodes]
  all_goals cases failed

theorem onFloats_error {x y : Float} (known : code ∈ numberCodes)
    (second : right.toFloat? = some y) (failed : onFloats code x y = .error cause) :
    NumberFault left code right cause := by
  unfold onFloats at failed
  split at failed
  case h_4 =>
    split at failed
    · next zero =>
      cases failed
      exact .zeroDivisor rfl (Or.inr ⟨y, second, zero⟩)
    · cases failed
  case h_9 => simp_all [numberCodes]
  all_goals cases failed

theorem onNumbers_error (known : code ∈ numberCodes) (first : left.IsLiteral)
    (second : right.IsLiteral) (failed : onNumbers code left right = .error cause) :
    NumberFault left code right cause := by
  obtain ⟨a, left_float⟩ := first.number
  obtain ⟨b, right_float⟩ := second.number
  unfold onNumbers at failed
  split at failed
  · next x y left_int right_int => exact onIntegers_error known left_int right_int failed
  · rw [left_float, right_float] at failed
    exact onFloats_error known right_float failed

theorem binary_error (known : code ∈ binaryCodes) (first : left.IsLiteral)
    (second : right.IsLiteral) (failed : binary code left right = .error cause) :
    NumberFault left code right cause := by
  unfold binary at failed
  split at failed
  case h_4 =>
    refine onNumbers_error ?_ first second failed
    simp_all [binaryCodes]
  all_goals cases failed

end Numbers

section Steps
variable {registers : Registers} {op : NativeOp} {s : EvalState} {cause : ExecutionCause}

inductive Shaped (op : NativeOp) : Prop where
  | fence (code : op.code = "barrier")
  | cast (ticket : Int64) (rest : List Operand) (code : op.code = "cast")
      (args : op.args = .int ticket :: rest) (natural : 0 ≤ ticket.toInt)
  | unary (name : Register) (o : Operand) (code : op.code ∈ ["const", "mov", "not"])
      (args : op.args = [.reg name, o]) (value : isValue o = true)
  | binary (name : Register) (a b : Operand) (code : op.code ∈ binaryCodes)
      (args : op.args = [.reg name, a, b]) (first : isValue a = true) (second : isValue b = true)

theorem register_of_isRegister {o : Operand} (is : isRegister o = true) : ∃ name, o = .reg name := by
  cases o with
  | reg name => exact ⟨name, rfl⟩
  | _ => cases is

theorem isValue_of_literal {o : Operand} (literal : o.literal?.isSome = true) :
    isValue o = true := by
  rw [isValue, literal, Bool.or_true]

theorem shape_unary {operands : List Operand}
    (shape : hasShape .registerAndLiteral operands = true ∨
      hasShape .registerAndValue operands = true) :
    ∃ name o, operands = [.reg name, o] ∧ isValue o = true := by
  rcases operands with _ | ⟨dst, _ | ⟨o, _ | ⟨x, rest⟩⟩⟩
  case cons.cons.nil =>
    simp only [hasShape, Bool.and_eq_true] at shape
    rcases shape with ⟨writes, literal⟩ | ⟨writes, value⟩
    · obtain ⟨name, rfl⟩ := register_of_isRegister writes
      exact ⟨name, o, rfl, isValue_of_literal literal⟩
    · obtain ⟨name, rfl⟩ := register_of_isRegister writes
      exact ⟨name, o, rfl, value⟩
  all_goals rcases shape with no | no <;> cases no

theorem shape_binary {operands : List Operand}
    (shape : hasShape .registerAndTwoValues operands = true) :
    ∃ name a b, operands = [.reg name, a, b] ∧ isValue a = true ∧ isValue b = true := by
  rcases operands with _ | ⟨dst, _ | ⟨a, _ | ⟨b, _ | ⟨x, rest⟩⟩⟩⟩
  case cons.cons.cons.nil =>
    simp only [hasShape, Bool.and_eq_true] at shape
    obtain ⟨⟨writes, first⟩, second⟩ := shape
    obtain ⟨name, rfl⟩ := register_of_isRegister writes
    exact ⟨name, a, b, rfl, first, second⟩
  all_goals cases shape

theorem shape_ticket {operands : List Operand}
    (shape : hasShape .ticketAndQubits operands = true) :
    ∃ ticket rest, operands = .int ticket :: rest ∧ 0 ≤ ticket.toInt := by
  cases operands with
  | nil => cases shape
  | cons o rest =>
    simp only [hasShape, Bool.and_eq_true] at shape
    cases o with
    | int t => exact ⟨t, rest, rfl, of_decide_eq_true shape.1⟩
    | _ => cases shape.1

theorem shaped_of_checked (known : InstructionSet.classical.contains op.code = true)
    (shape : hasShape (shapeOf op.code) op.args = true) : Shaped op := by
  have unary (code : op.code ∈ ["const", "mov", "not"])
      (shape : hasShape .registerAndLiteral op.args = true ∨
        hasShape .registerAndValue op.args = true) : Shaped op := by
    obtain ⟨name, o, args, value⟩ := shape_unary shape
    exact .unary name o code args value
  have known := InstructionSet.mem_of_contains known
  unfold shapeOf at shape
  split at shape
  case h_1 code => exact unary (by simp [code]) (Or.inl shape)
  case h_2 code | h_3 code => exact unary (by simp [code]) (Or.inr shape)
  case h_4 code => exact .fence code
  case h_5 code =>
    obtain ⟨ticket, rest, args, natural⟩ := shape_ticket shape
    exact .cast ticket rest code args natural
  case h_6 =>
    obtain ⟨name, a, b, args, first, second⟩ := shape_binary shape
    exact .binary name a b (by simp_all [binaryCodes, numberCodes]) args first second

theorem valueOf_error {o : Operand} (value : isValue o = true)
    (failed : valueOf registers o = .error cause) :
    ∃ name, o = .reg name ∧ registers.find? name = none ∧ cause = .readBeforeWrite name := by
  cases o with
  | reg name =>
    change Program.readRegister registers name = .error cause at failed
    unfold Program.readRegister at failed
    cases found : registers.find? name with
    | none =>
      rw [found] at failed
      cases failed
      exact ⟨name, rfl, found, rfl⟩
    | some v =>
      rw [found] at failed
      cases failed
  | int n => cases failed
  | float x => cases failed
  | bool b => cases failed
  | _ => cases value

theorem operandValue_eq {n : Nat} {o : Operand} (at_n : op.args[n]? = some o) :
    operandValue registers op n = valueOf registers o := by
  rw [operandValue, argument, at_n]
  rfl

theorem operandValue_error {n : Nat} {o : Operand} (at_n : op.args[n + 1]? = some o)
    (value : isValue o = true) (failed : operandValue registers op (n + 1) = .error cause) :
    DataFault registers op cause := by
  rw [operandValue_eq at_n] at failed
  obtain ⟨name, rfl, never, rfl⟩ := valueOf_error value failed
  exact .unread name (List.mem_of_getElem? (by rwa [List.getElem?_tail])) never

theorem result_unary (code : op.code ∈ ["const", "mov", "not"])
    (failed : result registers op = .error cause) : operandValue registers op 1 = .error cause := by
  unfold result at failed
  split at failed
  case h_1 | h_2 => exact failed
  case h_3 => exact Except.map_eq_error.mp failed
  case h_4 => simp_all

theorem result_binary (code : op.code ∈ binaryCodes) : result registers op =
    (operandValue registers op 1).bind fun left =>
      (operandValue registers op 2).bind fun right => binary op.code left right := by
  unfold result
  split
  case h_4 => rfl
  all_goals simp_all [binaryCodes, numberCodes]

theorem stepCause_eq {name : Register} {rest : List Operand}
    (plain : op.code ≠ "barrier" ∧ op.code ≠ "cast") (args : op.args = .reg name :: rest) :
    stepCause op s = (result s.registers op).map (s.write name) := by
  have written : destination op = .ok name := by
    rw [destination, argument, args]
    rfl
  unfold stepCause
  split
  · exact absurd (by assumption) plain.1
  · exact absurd (by assumption) plain.2
  · rw [written]
    cases result s.registers op <;> rfl

theorem ticketOf_eq {ticket : Int64} (leads : op.args.head? = some (.int ticket))
    (natural : 0 ≤ ticket.toInt) : ticketOf op =
      if ticket.toInt < 4294967296 then .ok (UInt32.ofNat ticket.toInt.toNat).toNat
      else .error (.badTicket (.int ticket)) := by
  have first : argument op 0 = .ok (.int ticket) := by
    rw [argument, ← List.head?_eq_getElem?, leads]
  rw [ticketOf, first]
  by_cases fits : ticket.toInt < 4294967296
  · have word : uint32? ticket.toInt = some (UInt32.ofNat ticket.toInt.toNat) :=
      if_pos ⟨natural, fits⟩
    simp only [bind, Except.bind, word, if_pos fits]
    rfl
  · have none : uint32? ticket.toInt = none := if_neg fun both => fits both.2
    simp only [bind, Except.bind, none, if_neg fits]
    rfl

theorem stepCause_error (shaped : Shaped op) (held : s.registers.Literal)
    (failed : stepCause op s = .error cause) :
    DataFault s.registers op cause ∨ ∃ ticket, Oversized op ticket ∧ cause = .badTicket (.int ticket) := by
  cases shaped with
  | fence code =>
    rw [stepCause, code] at failed
    cases failed
  | cast ticket rest code args natural =>
    have leads : op.args.head? = some (.int ticket) := by rw [args]; rfl
    rw [stepCause, code] at failed
    have failed := Except.map_eq_error.mp failed
    rw [ticketOf_eq leads natural] at failed
    split at failed
    · cases failed
    · cases failed
      exact Or.inr ⟨ticket, ⟨code, leads, by omega⟩, rfl⟩
  | unary name o code args value =>
    have plain : op.code ≠ "barrier" ∧ op.code ≠ "cast" := by
      constructor <;> rintro same <;> simp [same] at code
    rw [stepCause_eq plain args] at failed
    have failed := result_unary code (Except.map_eq_error.mp failed)
    exact Or.inl (operandValue_error (by rw [args]; rfl) value failed)
  | binary name a b code args first second =>
    have plain : op.code ≠ "barrier" ∧ op.code ≠ "cast" := by
      constructor <;> rintro same <;> simp [same, binaryCodes, numberCodes] at code
    rw [stepCause_eq plain args] at failed
    have failed := Except.map_eq_error.mp failed
    rw [result_binary code] at failed
    cases left : operandValue s.registers op 1 with
    | error e =>
      rw [left] at failed
      cases failed
      exact Or.inl (operandValue_error (by rw [args]; rfl) first left)
    | ok l =>
      cases right : operandValue s.registers op 2 with
      | error e =>
        rw [left, right] at failed
        cases failed
        exact Or.inl (operandValue_error (by rw [args]; rfl) second right)
      | ok r =>
        rw [left, right] at failed
        exact Or.inl (.number l r left right (binary_error code (literal_operandValue held left)
          (literal_operandValue held right) failed))

theorem stepCause_oversized {ticket : Int64} (wide : Oversized op ticket) (s : EvalState) :
    stepCause op s = .error (.badTicket (.int ticket)) := by
  have large := wide.large
  rw [stepCause, wide.code]
  change (ticketOf op).map _ = _
  rw [ticketOf_eq wide.leads (by omega), if_neg (by omega)]
  rfl

end Steps
end Classical

namespace Evaluator
variable {e : Evaluator} {op : NativeOp} {ops : List NativeOp} {s : EvalState} {f : Fault}

theorem step_error (failed : e.step op s = .error f) : ∃ cause,
    Classical.stepCause op s = .error cause ∧ f = .execution e.capabilities.kind cause := by
  unfold step at failed
  cases because : Classical.stepCause op s with
  | ok next =>
    rw [because] at failed
    cases failed
  | error cause =>
    rw [because] at failed
    cases failed
    exact ⟨cause, rfl, rfl⟩

theorem run_error (failed : e.run s ops = .error f) : ∃ earlier op later s',
    ops = earlier ++ op :: later ∧ e.run s earlier = .ok s' ∧ e.step op s' = .error f := by
  induction ops generalizing s with
  | nil => cases failed
  | cons op rest ih =>
    rw [run, List.foldlM_cons] at failed
    cases stepped : e.step op s with
    | error f' =>
      rw [stepped] at failed
      cases failed
      exact ⟨[], op, rest, s, rfl, rfl, stepped⟩
    | ok next =>
      rw [stepped] at failed
      obtain ⟨earlier, at_fault, later, s', rfl, ran, stops⟩ := ih failed
      refine ⟨op :: earlier, at_fault, later, s', rfl, ?_, stops⟩
      rw [run, List.foldlM_cons, stepped]
      exact ran

/-- A run from no registers stops at an operation, in the state that those before it lead to. -/
structure StopsAt (e : Evaluator) (ops : List NativeOp) (op : NativeOp) (s : EvalState)
    (cause : ExecutionCause) : Prop where
  reached : ∃ earlier later, ops = earlier ++ op :: later ∧ e.run .empty earlier = .ok s
  stops : e.step op s = .error (.execution e.capabilities.kind cause)
  fault : e.run .empty ops = .error (.execution e.capabilities.kind cause)

theorem stopsAt_of_error (failed : e.run .empty ops = .error f) :
    ∃ op ∈ ops, ∃ s cause, e.StopsAt ops op s cause ∧ s.registers.Literal ∧
      Classical.stepCause op s = .error cause := by
  obtain ⟨earlier, op, later, s, rfl, ran, stops⟩ := run_error failed
  obtain ⟨cause, because, rfl⟩ := step_error stops
  exact ⟨op, by simp, s, cause, ⟨⟨earlier, later, rfl, ran⟩, stops, failed⟩,
    run_literal ran EvalState.literal_empty, because⟩

variable {d : Descriptor} {is : List Instruction} {p : Program}

theorem shaped_of_lowered (lowered : (ofDescriptor d).lower is = .ok p) :
    ∀ op ∈ p.ops, Classical.Shaped op := by
  obtain ⟨each, rfl⟩ := lower_eq_ok.mp lowered
  intro op mem
  obtain ⟨i, among, rfl⟩ := List.mem_map.mp mem
  obtain ⟨supports, checked⟩ := each i among
  refine Classical.shaped_of_checked (supports_known supports) ?_
  unfold Classical.checkOperands at checked
  dsimp only at checked
  split at checked
  · assumption
  · cases checked

/-- What is lowered goes through from no registers, or stops for its data, but for a `cast` with a
    ticket beyond 32 bits: that is lowered, and fails wherever it is reached. -/
theorem steps_lowered (lowered : (ofDescriptor d).lower is = .ok p) :
    ((∃ s, (ofDescriptor d).run .empty p.ops = .ok s) ∨
      ∃ op ∈ p.ops, ∃ s cause, (ofDescriptor d).StopsAt p.ops op s cause ∧
        (Classical.DataFault s.registers op cause ∨
          ∃ ticket, Classical.Oversized op ticket ∧ cause = .badTicket (.int ticket))) ∧
    ∀ op ∈ p.ops, ∀ ticket, Classical.Oversized op ticket → ∀ s, (ofDescriptor d).step op s =
      .error (.execution (ofDescriptor d).capabilities.kind (.badTicket (.int ticket))) := by
  constructor
  · cases ran : (ofDescriptor d).run .empty p.ops with
    | ok s => exact Or.inl ⟨s, rfl⟩
    | error f =>
      obtain ⟨op, mem, s, cause, stops, held, failed⟩ := stopsAt_of_error ran
      exact Or.inr ⟨op, mem, s, cause, stops,
        Classical.stepCause_error (shaped_of_lowered lowered op mem) held failed⟩
  · intro op _ ticket wide s
    rw [step, Classical.stepCause_oversized wide s]
    rfl

def divided : List Instruction :=
  [⟨0, "const", [.reg "x", .int 0], .classical⟩, ⟨1, "div", [.reg "y", .int 1, .reg "x"], .classical⟩]

theorem divided_stops : ∃ p, builtin.lower divided = .ok p ∧
    builtin.run .empty p.ops = .error (.execution .classical .divisionByZero) ∧
    ∃ op ∈ p.ops, ∃ s, builtin.StopsAt p.ops op s .divisionByZero ∧
      Classical.DataFault s.registers op .divisionByZero := by
  obtain ⟨p, lowered⟩ : ∃ p, builtin.lower divided = .ok p := ⟨_, rfl⟩
  have failed : builtin.run .empty p.ops = .error (.execution .classical .divisionByZero) := by
    cases lowered
    rfl
  refine ⟨p, lowered, failed, ?_⟩
  rcases (steps_lowered lowered).1 with ⟨s, ran⟩ | ⟨op, mem, s, cause, stops, why⟩
  · cases failed.symm.trans ran
  · obtain rfl : cause = .divisionByZero := by
      cases failed.symm.trans stops.fault
      rfl
    rcases why with fault | ⟨_, _, other⟩
    · exact ⟨op, mem, s, stops, fault⟩
    · cases other

/-- A ticket one beyond 32 bits is lowered, and no data is to blame for its failure. -/
theorem oversized_lowered : ∃ p,
    builtin.lower [⟨0, "cast", [.int 4294967296], .classical⟩] = .ok p ∧
    builtin.run .empty p.ops = .error (.execution .classical (.badTicket (.int 4294967296))) ∧
    ∀ registers op, ¬ Classical.DataFault registers op (.badTicket (.int 4294967296)) := by
  refine ⟨_, rfl, rfl, fun registers op fault => ?_⟩
  cases fault with
  | number _ _ _ _ fault => cases fault

end Evaluator
end LazyCast
