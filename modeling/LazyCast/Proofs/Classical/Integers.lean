import LazyCast.Proofs.Orchestrator.Stepping
import LazyCast.Proofs.Value.Integers
/-!
Steps on integers. Arithmetic comes to the exact integer, or to a fault where no signed 64-bit word
holds it; comparison goes by the order of the integers. A step is carried out in full or not at all,
also when it is made of single changes to a state that nothing takes back.
-/
namespace LazyCast

namespace Classical
variable {kind : Kind} {op : NativeOp} {s s' : EvalState} {a b v : Value} {x y : Int}

structure OnIntegers (op : NativeOp) (s : EvalState) (a b : Value) (x y : Int) : Prop where
  left : operandValue s.registers op 1 = .ok a
  right : operandValue s.registers op 2 = .ok b
  leftInt : a.toInt? = some x
  rightInt : b.toInt? = some y

/-- What a successful step may have changed. -/
inductive Changes (op : NativeOp) (s s' : EvalState) : Prop where
  | nothing (same : s' = s)
  | wrote (name : Register) (v : Value) (named : op.args.head? = some (.reg name))
      (written : s'.registers.find? name = some v)
      (others : ∀ other, other ≠ name → s'.registers.find? other = s.registers.find? other)
      (last : s'.last = some v) (memberCasts : s'.memberCasts = s.memberCasts)
  | recorded (c : MemberCast) (added : s'.memberCasts = s.memberCasts ++ [c])
      (registers : s'.registers = s.registers) (last : s'.last = s.last)

theorem changes_of_stepCause (stepped : stepCause op s = .ok s') : Changes op s s' := by
  by_cases fence : op.code = "barrier"
  · rw [stepCause, fence] at stepped
    cases stepped
    exact .nothing rfl
  by_cases cast : op.code = "cast"
  · rw [stepCause, cast] at stepped
    obtain ⟨ticket, _, rfl⟩ := Except.map_eq_ok.mp stepped
    exact .recorded ⟨ticket, op.qubits⟩ rfl rfl rfl
  · obtain ⟨name, rest, v, args, rfl⟩ := stepCause_writes ⟨fence, cast⟩ stepped
    refine .wrote name v (by rw [args]; rfl) (Table.find?_insert_self _ _ _) ?_ rfl rfl
    intro other ne
    exact Table.find?_insert_of_ne _ _ ne

section InPlace

/-- Changes to a state, one after the other. What was changed before a fault stays changed. -/
abbrev InPlace := ExceptT ExecutionCause (StateM EvalState)

/-- An operation as changes to the state. Whatever can be wrong is found out before the first one. -/
def inPlace (op : NativeOp) : InPlace Unit :=
  match op.code with
  | "barrier" => pure ()
  | "cast" => do
    let ticket ← ofExcept (ticketOf op)
    modify fun s => { s with memberCasts := s.memberCasts ++ [⟨ticket, op.qubits⟩] }
  | _ => do
    let v ← ofExcept (result (← get).registers op)
    let name ← ofExcept (destination op)
    modify fun s => { s with registers := s.registers.insert name v }
    modify fun s => { s with last := some v }

theorem run_get {α : Type} (next : EvalState → InPlace α) (s : EvalState) :
    (do next (← get) : InPlace α).run s = (next s).run s := rfl

theorem run_ofExcept {α β : Type} (r : Except ExecutionCause α) (next : α → InPlace β)
    (s : EvalState) : (do next (← ofExcept r) : InPlace β).run s =
      match r with
      | .ok a => (next a).run s
      | .error cause => (.error cause, s) := by
  cases r <;> rfl

theorem stepCause_plain (plain : op.code ≠ "barrier" ∧ op.code ≠ "cast") :
    stepCause op s = (result s.registers op).bind fun v =>
      (destination op).map fun name => s.write name v := by
  unfold stepCause
  split
  · exact absurd (by assumption) plain.1
  · exact absurd (by assumption) plain.2
  · cases result s.registers op with
    | error cause => rfl
    | ok v => cases destination op <;> rfl

/-- A step made of single changes is the step as a whole: after a fault nothing has changed. -/
theorem inPlace_eq (op : NativeOp) (s : EvalState) : (inPlace op).run s =
    match stepCause op s with
    | .ok s' => (.ok (), s')
    | .error cause => (.error cause, s) := by
  by_cases fence : op.code = "barrier"
  · rw [inPlace, stepCause, fence]
    rfl
  by_cases cast : op.code = "cast"
  · rw [inPlace, stepCause, cast]
    cases ticketOf op <;> rfl
  rw [stepCause_plain ⟨fence, cast⟩, inPlace]
  split
  · exact absurd (by assumption) fence
  · exact absurd (by assumption) cast
  · rw [run_get, run_ofExcept]
    cases result s.registers op with
    | error cause => rfl
    | ok v =>
      dsimp only
      rw [run_ofExcept]
      cases destination op <;> rfl

end InPlace

section OnIntegers

theorem binary_onIntegers {code : String} (known : code ∈ numberCodes) (left : a.toInt? = some x)
    (right : b.toInt? = some y) : binary code a b = onIntegers a code b x y := by
  have numbers : binary code a b = onNumbers code a b := by
    unfold binary
    split
    case h_4 => rfl
    all_goals simp [numberCodes] at known
  rw [numbers, onNumbers, left, right]

theorem OnIntegers.result (on : OnIntegers op s a b x y) (known : op.code ∈ numberCodes) :
    result s.registers op = onIntegers a op.code b x y := by
  have code : op.code ∈ binaryCodes := List.mem_append_left _ known
  rw [result_binary code, on.left, on.right, ← binary_onIntegers known on.leftInt on.rightInt]
  rfl

theorem OnIntegers.destination (on : OnIntegers op s a b x y) : destination op =
    match op.args.head? with
    | some (.reg name) => .ok name
    | _ => .error (.noDestination op.code) := by
  have read := on.left
  unfold Classical.destination
  cases args : op.args with
  | nil =>
    rw [operandValue, argument, args] at read
    cases read
  | cons o rest =>
    have first : argument op 0 = .ok o := by rw [argument, args]; rfl
    rw [first]
    cases o <;> rfl

/-- The value is written to the register that the operation leads with; without one it is lost. -/
def writing (kind : Kind) (op : NativeOp) (s : EvalState) (v : Value) : Except Fault EvalState :=
  match op.args.head? with
  | some (.reg name) => .ok (s.write name v)
  | _ => .error (.execution kind (.noDestination op.code))

theorem exact_holds {n : Int} (code : String) (inside : Holds "int" n) :
    ∃ w : Int64, w.toInt = n ∧ exact a code b n = .ok (.int w) := by
  obtain ⟨w, made, same⟩ := int64?_of_holds inside
  refine ⟨w, same, ?_⟩
  rw [exact, int128?_bind_int64?, made]

theorem exact_outside {n : Int} {code : String} (outside : ¬ Holds "int" n) :
    exact a code b n = .error (.integerOverflow a code b) := by
  rw [exact, int128?_bind_int64?, int64?_eq_none outside]

end OnIntegers
end Classical

open LazyCast.Classical

namespace Evaluator
variable {e : Evaluator} {op : NativeOp} {ops : List NativeOp} {s s' : EvalState} {a b v : Value}
  {x y n : Int} {f : Fault}

def perform (e : Evaluator) (op : NativeOp) : ExceptT Fault (StateM EvalState) Unit :=
  ExceptT.adapt (.execution e.capabilities.kind) (inPlace op)

theorem perform_eq (e : Evaluator) (op : NativeOp) (s : EvalState) : (e.perform op).run s =
    match e.step op s with
    | .ok s' => (.ok (), s')
    | .error f => (.error f, s) := by
  have whole := inPlace_eq op s
  unfold step
  change (match (inPlace op).run s with
    | (r, after) => (r.mapError (Fault.execution e.capabilities.kind), after)) = _
  rw [whole]
  cases stepCause op s <;> rfl

/-- The step of an operation that comes to the integer `n`. -/
structure Yields (e : Evaluator) (op : NativeOp) (s : EvalState) (a b : Value) (n : Int) : Prop where
  fits : Holds "int" n →
    ∃ w : Int64, w.toInt = n ∧ e.step op s = writing e.capabilities.kind op s (.int w)
  overflows : ¬ Holds "int" n →
    e.step op s = .error (.execution e.capabilities.kind (.integerOverflow a op.code b))

structure StepsOnIntegers (e : Evaluator) (op : NativeOp) (s : EvalState) (a b : Value) (x y : Int) :
    Prop where
  add : op.code = "add" → Yields e op s a b (x + y)
  sub : op.code = "sub" → Yields e op s a b (x - y)
  mul : op.code = "mul" → Yields e op s a b (x * y)
  div : op.code = "div" → y ≠ 0 → Yields e op s a b (x.tdiv y)
  zeroDivisor : op.code = "div" → y = 0 →
    e.step op s = .error (.execution e.capabilities.kind .divisionByZero)
  eq : op.code = "eq" → e.step op s = writing e.capabilities.kind op s (.bool (decide (x = y)))
  ne : op.code = "ne" → e.step op s = writing e.capabilities.kind op s (.bool (decide (x ≠ y)))
  lt : op.code = "lt" → e.step op s = writing e.capabilities.kind op s (.bool (decide (x < y)))
  le : op.code = "le" → e.step op s = writing e.capabilities.kind op s (.bool (decide (x ≤ y)))

/-- Comparison finds just one of three: the first is less, they are equal, the second is less. -/
def Compares (a b : Value) : Prop :=
  ∃ less equal greater, binary "lt" a b = .ok (.bool less) ∧ binary "eq" a b = .ok (.bool equal) ∧
    binary "lt" b a = .ok (.bool greater) ∧ [less, equal, greater].count true = 1

theorem compares (left : a.toInt? = some x) (right : b.toInt? = some y) : Compares a b := by
  refine ⟨decide (x < y), decide (x = y), decide (y < x),
    binary_onIntegers (by simp [numberCodes]) left right,
    binary_onIntegers (by simp [numberCodes]) left right,
    binary_onIntegers (by simp [numberCodes]) right left, ?_⟩
  rcases Int.lt_trichotomy x y with less | rfl | greater
  · have apart : x ≠ y ∧ ¬ y < x := by omega
    simp [less, apart]
  · simp
  · have apart : x ≠ y ∧ ¬ x < y := by omega
    simp [greater, apart]

theorem step_onIntegers (on : OnIntegers op s a b x y) (known : op.code ∈ numberCodes) :
    e.step op s =
      match onIntegers a op.code b x y with
      | .ok v => writing e.capabilities.kind op s v
      | .error cause => .error (.execution e.capabilities.kind cause) := by
  have plain : op.code ≠ "barrier" ∧ op.code ≠ "cast" := by
    constructor <;> intro same <;> simp [same, numberCodes] at known
  rw [step, stepCause_plain plain, on.result known, on.destination, ← on.result known]
  cases Classical.result s.registers op with
  | error cause => rfl
  | ok v =>
    unfold writing
    rcases op.args.head? with _ | o
    · rfl
    · cases o <;> rfl

theorem yields (on : OnIntegers op s a b x y) (known : op.code ∈ numberCodes)
    (comes : onIntegers a op.code b x y = exact a op.code b n) : Yields e op s a b n := by
  constructor
  · intro inside
    obtain ⟨w, same, made⟩ := exact_holds (a := a) (b := b) op.code inside
    refine ⟨w, same, ?_⟩
    rw [step_onIntegers on known, comes, made]
  · intro outside
    rw [step_onIntegers on known, comes, exact_outside outside]

theorem stepsOnIntegers (e : Evaluator) (on : OnIntegers op s a b x y) :
    StepsOnIntegers e op s a b x y := by
  constructor
  case add | sub | mul =>
    intro code
    refine yields on (by simp [code, numberCodes]) ?_
    rw [code]
    rfl
  case div =>
    intro code nonzero
    refine yields on (by simp [code, numberCodes]) ?_
    rw [code]
    exact if_neg nonzero
  case zeroDivisor =>
    rintro code rfl
    rw [step_onIntegers on (by simp [code, numberCodes]), code]
    rfl
  case eq | lt | le =>
    intro code
    rw [step_onIntegers on (by simp [code, numberCodes]), code]
    rfl
  case ne =>
    intro code
    rw [step_onIntegers on (by simp [code, numberCodes]), code, decide_not]
    rfl

/-- A step on integers is exact or fails, comparison is total and single-valued, a step that fails
    leaves the state as it was, and one that succeeds changes a register and the last value, or adds
    one member cast, or nothing. -/
theorem step_exact (e : Evaluator) (op : NativeOp) (s : EvalState) :
    (∀ a b x y, OnIntegers op s a b x y → StepsOnIntegers e op s a b x y ∧ Compares a b) ∧
    (∀ f, e.step op s = .error f → (e.perform op).run s = (.error f, s)) ∧
    (∀ s', e.step op s = .ok s' → (e.perform op).run s = (.ok (), s') ∧ Changes op s s') := by
  refine ⟨?_, ?_, ?_⟩
  · intro a b x y on
    exact ⟨stepsOnIntegers e on, compares on.leftInt on.rightInt⟩
  · intro f failed
    rw [perform_eq, failed]
  · intro s' stepped
    refine ⟨?_, changes_of_stepCause (step_cause.mp stepped)⟩
    rw [perform_eq, stepped]

def brimful : EvalState :=
  (EvalState.empty.write "a" (.u64 18446744073709551615)).write "b" (.u64 18446744073709551615)

/-- Their product is beyond 128 bits, and the registers stay as they are. -/
theorem brimful_product : ∃ f,
    Evaluator.builtin.step (.plain 0 "mul" [.reg "p", .reg "a", .reg "b"]) brimful = .error f ∧
    (Evaluator.builtin.perform (.plain 0 "mul" [.reg "p", .reg "a", .reg "b"])).run brimful =
      (.error f, brimful) := by
  obtain ⟨exact, untouched, _⟩ :=
    step_exact Evaluator.builtin (.plain 0 "mul" [.reg "p", .reg "a", .reg "b"]) brimful
  have on : OnIntegers (.plain 0 "mul" [.reg "p", .reg "a", .reg "b"]) brimful
      (.u64 18446744073709551615) (.u64 18446744073709551615)
      18446744073709551615 18446744073709551615 := ⟨rfl, rfl, rfl, rfl⟩
  have overflows := ((exact _ _ _ _ on).1.mul rfl).overflows (by simp [Holds])
  exact ⟨_, overflows, untouched _ overflows⟩

end Evaluator
end LazyCast
