import LazyCast.Instruction
import LazyCast.Text.Duration
/-!
Why a cast, an append or a run fails. Each fault names its cause; the wording is a function of the
cause, so that a statement about faults need not speak about text.
-/
namespace LazyCast

inductive OperandShape where
  | registerAndLiteral
  | registerAndValue
  | registerAndTwoValues
  | qubitsOnly
  | ticketAndQubits
  | nonNegativeLiteral
  | angle
  | condition
  deriving DecidableEq

def OperandShape.text : OperandShape → String
  | registerAndLiteral => "a destination register and a literal"
  | registerAndValue => "a destination register and one value"
  | registerAndTwoValues => "a destination register and two values"
  | qubitsOnly => "qubit operands only"
  | ticketAndQubits => "a ticket followed by qubits"
  | nonNegativeLiteral => "a non-negative literal"
  | angle => "an angle"
  | condition => "a condition"

/-- What is wrong with an instruction whose opcode is supported. -/
inductive Malformation where
  | expected (shape : OperandShape)
  | doesNotFit (value : Nat) (qubits : Nat)
  | notAQubit (operand : Operand)
  | tooFewQubits (least : Nat)
  | repeatedQubit
  | wrongQubitCount (needed : Nat) (given : Nat)
  | memberOutside (member : String)

def Malformation.text : Malformation → String
  | expected shape => "expected " ++ shape.text
  | doesNotFit value qubits => s!"{value} does not fit in {qubits} qubit(s)"
  | notAQubit operand => operand.text ++ " is not a qubit"
  | tooFewQubits least => s!"expected at least {least} qubit(s)"
  | repeatedQubit => "repeated qubit"
  | wrongQubitCount needed given => s!"expected {needed} qubit(s), got {given}"
  | memberOutside member => "member " ++ member ++ " lies outside its root"

inductive ExecutionCause where
  | readBeforeWrite (register : Register)
  | missingOperand (code : String) (index : Nat)
  | badTicket (operand : Operand)
  | notAValue (operand : Operand)
  | noDestination (code : String)
  | integerOverflow (left : Value) (code : String) (right : Value)
  | divisionByZero
  | notNumeric (code : String)
  | unknownOpcode (code : String)
  | unboundRegisters
  | nothingMeasured
  | tooManyQubits (used : Nat) (allowed : Nat)
  | missingQubits (code : String) (needed : Nat)
  | angleNotNumeric
  | unknownGate (code : String)
  | nothingStaged (session : Nat)
  | timedOut (milliseconds : Nat)
  | unexpectedReply (request : String) (reply : String)
  /-- A device's own report, with its word on whether trying again may help. -/
  | reported (message : String) (transient : Bool)

namespace ExecutionCause

def text : ExecutionCause → String
  | readBeforeWrite register => "register %" ++ register ++ " read before write"
  | missingOperand code index => s!"'{code}' is missing operand {index}"
  | badTicket operand => "bad ticket " ++ operand.text
  | notAValue operand => "operand " ++ operand.text ++ " is not a value"
  | noDestination code => s!"'{code}' must write a register"
  | integerOverflow left code right =>
    "integer overflow in " ++ left.text ++ " " ++ code ++ " " ++ right.text
  | divisionByZero => "division by zero"
  | notNumeric code => s!"operands of '{code}' are not numeric"
  | unknownOpcode code => s!"unknown classical opcode '{code}'"
  | unboundRegisters => "program has unbound registers"
  | nothingMeasured => "program measures no qubits"
  | tooManyQubits used allowed => s!"program uses {used} qubits, backend allows {allowed}"
  | missingQubits code needed => s!"'{code}' expects {needed} qubit(s)"
  | angleNotNumeric => "ry angle is not numeric"
  | unknownGate code => s!"cannot simulate '{code}'"
  | nothingStaged session => s!"nothing staged for session {session}"
  | timedOut milliseconds => "execution timed out after " ++ Text.duration milliseconds
  | unexpectedReply request reply => s!"unexpected reply to {request}: {reply}"
  | reported message _ => message

/-- Time may help with a time-out, and with what a device calls transient. -/
def isTransient : ExecutionCause → Bool
  | timedOut _ => true
  | reported _ transient => transient
  | _ => false

end ExecutionCause

inductive ReadingCause where
  | noPolicy
  | noValue
  | noShots
  | badWidth (qubits : Nat)
  | malformedOutcome (outcome : String) (qubits : Nat)
  | badOutcome (outcome : String)
  | unreadableOutcomes
  | severalOutcomes (count : Nat)
  | notCastable (value : Value)
  | uncoveredQubits
  | memberNotRun (ticket : Nat)
  /-- The word of a cast function from outside this library. -/
  | stated (message : String)

def ReadingCause.text : ReadingCause → String
  | noPolicy => "no interpretation policy registered"
  | noValue => "deterministic sample carries no value"
  | noShots => "sample has no shots"
  | badWidth qubits => s!"sample covers {qubits} qubits"
  | malformedOutcome outcome qubits => s!"malformed outcome '{outcome}' for {qubits} qubit(s)"
  | badOutcome outcome => s!"bad outcome '{outcome}'"
  | unreadableOutcomes => "unreadable outcomes"
  | severalOutcomes count => s!"{count} distinct outcomes; direct reading needs one"
  | notCastable value => "cannot cast " ++ value.text ++ " (" ++ value.typeName ++ ")"
  | uncoveredQubits => "sample does not cover the value's qubits"
  | memberNotRun ticket => s!"member cast {ticket} did not run"
  | stated message => message

inductive ConfigurationCause where
  | noModule (backend : String)
  | unknownPassRequested (backend : String) (pass : String)
  | duplicateDescriptor
  | classicalMissing
  | classicalNotAtBottom
  | unreadableDocument
  | unknownModule (backend : String) (module : String)
  | shotsOutOfRange (backend : String)
  | qubitLimitOutOfRange (backend : String)
  | unknownPass (pass : String)
  | stated (message : String)

def ConfigurationCause.text : ConfigurationCause → String
  | noModule backend => s!"backend '{backend}' has no module"
  | unknownPassRequested backend pass => s!"backend '{backend}' requests unknown pass '{pass}'"
  | duplicateDescriptor => "duplicate backend descriptor"
  | classicalMissing => "a 'classical' backend is required as universal fallback"
  | classicalNotAtBottom => "the classical backend must have level 0"
  | unreadableDocument => "invalid backend config"
  | unknownModule backend module => s!"backend '{backend}' references unknown module '{module}'"
  | shotsOutOfRange backend => s!"backend '{backend}': shots must be between 1 and 4294967295"
  | qubitLimitOutOfRange backend => s!"backend '{backend}': max_qubits must be between 1 and 24"
  | unknownPass pass => s!"unknown optimization pass '{pass}'"
  | stated message => message

inductive Fault where
  | noCastFunction (source : TypeName) (target : TypeName)
  | unsupportedInstruction (opcode : String) (kind : Kind)
  | unsupportedCast (source : TypeName) (target : TypeName)
  | unknownBackend (name : String)
  | unknownType (name : TypeName)
  | notLazy (name : TypeName)
  | malformed (opcode : String) (cause : Malformation)
  | doubleCast (ledger : Nat)
  | frozenLedger (ledger : Nat)
  | execution (kind : Kind) (cause : ExecutionCause)
  | crashed (kind : Kind)
  | reading (target : TypeName) (cause : ReadingCause)
  | overflow (value : Value) (target : TypeName)
  | configuration (cause : ConfigurationCause)

namespace Fault

def message : Fault → String
  | noCastFunction source target => s!"No cast function from {source} to {target}"
  | unsupportedInstruction opcode kind =>
    s!"Unsupported instruction '{opcode}' for backend kind " ++ kind.name
  | unsupportedCast source target => s!"Unsupported cast from {source} to {target}"
  | unknownBackend name => s!"Unknown backend: {name}"
  | unknownType name => s!"Unknown type: {name}"
  | notLazy name => s!"Type {name} is classical-kind and evaluates eagerly"
  | malformed opcode cause => s!"Malformed instruction '{opcode}': " ++ cause.text
  | doubleCast ledger => s!"Lazy value already cast (ledger {ledger})"
  | frozenLedger ledger => s!"Ledger {ledger} is frozen"
  | execution kind cause => "Backend " ++ kind.name ++ " execution failed: " ++ cause.text
  | crashed kind => "Sub-compiler for " ++ kind.name ++ " crashed"
  | reading target cause => s!"Cannot interpret sample as {target}: " ++ cause.text
  | overflow value target => "Value " ++ value.text ++ " overflows " ++ target
  | configuration cause => "Configuration error: " ++ cause.text

/-- The fault lies in the program and shows before anything runs. -/
def isCompileTime : Fault → Bool
  | noCastFunction _ _ => true
  | unsupportedInstruction _ _ => true
  | unsupportedCast _ _ => true
  | unknownBackend _ => true
  | unknownType _ => true
  | notLazy _ => true
  | malformed _ _ => true
  | _ => false

/-- Trying again may succeed. -/
def isTransient : Fault → Bool
  | execution _ cause => cause.isTransient
  | _ => false

def isFatal : Fault → Bool
  | crashed _ => true
  | configuration _ => true
  | _ => false

end Fault

/-- A value's number, unique in a session. -/
abbrev ValueId := Nat

/-- Reports that are not faults. -/
inductive Diagnostic where
  /-- A ledger was dropped without a cast, with the instructions pending in it. -/
  | unusedValues (owners : List ValueId) (instructions : Nat)
  deriving DecidableEq

namespace Diagnostic

def message : Diagnostic → String
  | unusedValues owners instructions =>
    "lazy value(s) [" ++ ", ".intercalate (owners.map toString) ++
      s!"] never cast; {instructions} pending instruction(s) discarded"

def text (d : Diagnostic) : String := "Warning: " ++ d.message

end Diagnostic
end LazyCast
