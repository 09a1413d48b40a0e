import LazyCast.Cast.Builtin
import LazyCast.Cast.Plan
import LazyCast.Ledger.Interaction
import LazyCast.Orchestrator
import LazyCast.Reading
/-!
A session: the lazy values of one compilation unit, their ledgers and the sub-compilers that run
them. Instructions are appended to values, values may interact, and values that go out of scope
without a cast are reported.
-/
namespace LazyCast

/-- A value of a non-classical kind, backed by a ledger. -/
structure LazyValue where
  id : ValueId
  type : TypeName
  kind : Kind
  ledger : Handle
  /-- Least significant bit first. -/
  qubits : List Qubit
  deriving DecidableEq

namespace LazyValue

def width (v : LazyValue) : Nat := v.qubits.length

def qubitOperands (v : LazyValue) : List Operand := v.qubits.map Operand.qubit

def qubit? (v : LazyValue) (bit : Nat) : Option Operand := (v.qubits[bit]?).map Operand.qubit

end LazyValue

structure Allocator where
  nextValue : Nat
  nextQubit : Nat
  deriving DecidableEq

/-- A member cast that waits for its root, with how to read it. -/
structure PendingMember where
  chain : CastChain
  qubits : List Qubit

structure Session where
  types : TypeTable
  casts : CastTable
  interpreter : Interpreter
  orchestrator : Orchestrator
  arena : Arena
  allocator : Allocator
  nextTicket : Nat
  /-- Member casts by ticket, until their ledger is triggered. -/
  pending : Table Nat PendingMember
  /-- What came of member casts whose ledger was triggered. -/
  settled : Table Nat (Except Fault Value)
  diagnostics : List Diagnostic

structure SessionSetup where
  registry : Registry
  types : TypeTable
  casts : CastTable
  interpreter : Interpreter
  modules : ModuleTable
  policy : SupervisionPolicy
  /-- Names of the kinds that the program refers to; none for every registered kind. -/
  kinds : Option (List String)

namespace SessionSetup

/-- Built-in types, casts, policies and modules, every registered kind running. -/
def ofRegistry (r : Registry) : SessionSetup :=
  ⟨r, .builtin, .builtin, .builtin, .builtin, .escalate, none⟩

def plan (s : SessionSetup) : Except Fault SpawnPlan :=
  match s.kinds with
  | some names => do
    let referenced ← names.mapM s.registry.kindNamed
    SpawnPlan.compute s.registry referenced
  | none => .ok (.all s.registry)

def start (s : SessionSetup) : Except Fault Session := do
  let plan ← s.plan
  let orchestrator ← Orchestrator.start s.registry s.modules plan s.policy
  return {
    types := s.types
    casts := s.casts
    interpreter := s.interpreter
    orchestrator := orchestrator
    arena := .empty
    allocator := ⟨0, 0⟩
    nextTicket := 0
    pending := Table.empty
    settled := Table.empty
    diagnostics := [] }

end SessionSetup

namespace Session

def plan (s : Session) : SpawnPlan := s.orchestrator.plan

def withArena (s : Session) (a : Arena) : Session := { s with arena := a }

def defineComposite (s : Session) (name : TypeName) (members : List (String × TypeName)) :
    Outcome Session Unit :=
  match s.types.defineComposite name members with
  | .ok (_, types) => (.ok (), { s with types := types })
  | .error e => (.error e, s)

/-- A new lazy value with a ledger and qubits of its own. -/
def allocate (s : Session) (type : TypeName) (kind : Kind) (width : Nat) : LazyValue × Session :=
  let id := s.allocator.nextValue
  let (ledger, arena) := s.arena.create id
  (⟨id, type, kind, ledger, List.range' s.allocator.nextQubit width⟩,
    { s with arena := arena, allocator := ⟨id + 1, s.allocator.nextQubit + width⟩ })

/-- The definition of a type whose values are lazy and whose kind is running. -/
def lazyType (s : Session) (type : TypeName) : Except Fault TypeDef := do
  let d ← s.types.require type
  if d.kind.isClassical then throw (.notLazy type)
  if !s.plan.contains d.kind then throw (.unknownBackend d.kind.name)
  return d

def lazyValue (s : Session) (type : TypeName) : Outcome Session LazyValue :=
  match s.lazyType type with
  | .ok d =>
    let (v, s) := s.allocate type d.kind d.width
    (.ok v, s)
  | .error e => (.error e, s)

def append (s : Session) (ledger : Handle) (i : Instruction) : Outcome Session Nat :=
  (s.arena.append ledger i).within s.withArena

/-- Appends an instruction of a given kind, such as classical arithmetic in a quantum ledger. -/
def applyWith (s : Session) (v : LazyValue) (kind : Kind) (opcode : String)
    (operands : List Operand) : Outcome Session Nat :=
  if s.plan.contains kind then s.append v.ledger ⟨0, opcode, operands, kind⟩
  else (.error (.unknownBackend kind.name), s)

def apply (s : Session) (v : LazyValue) (opcode : String) (operands : List Operand) :
    Outcome Session Nat :=
  s.applyWith v v.kind opcode operands

/-- Reports an interaction and answers whether ledgers were pooled. -/
def interact (s : Session) (how : Interaction) (values : List LazyValue) (independent : Bool) :
    Outcome Session Bool :=
  ((s.arena.interact how (values.map LazyValue.ledger) independent).within s.withArena).map
    Option.isSome

def state (s : Session) (v : LazyValue) : LedgerState := s.arena.state v.ledger

def ledger? (s : Session) (v : LazyValue) : Option Ledger := s.arena.find? v.ledger

def dropValue (s : Session) (v : LazyValue) : Session :=
  let (report, arena) := s.arena.dropOwner v.ledger v.id
  { s with arena := arena, diagnostics := s.diagnostics ++ report.toList }

/-- Ends the session: all reports, those of ledgers never cast last. -/
def finish (s : Session) : List Diagnostic × Session :=
  let (swept, arena) := s.arena.sweep
  let all := s.diagnostics ++ swept
  (all, { s with arena := arena, diagnostics := all })

end Session
end LazyCast
