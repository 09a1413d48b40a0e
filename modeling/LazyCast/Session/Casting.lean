import LazyCast.Arithmetic
import LazyCast.Session
/-!
Evaluating casts. A strict value goes straight through its cast functions. A lazy value triggers its
ledger: the ledger runs, is freed, and every member cast recorded in it is settled with it. A member
of a composite is deferred, and its ticket redeemed once the root has been cast. Encoding a classical
value makes a new lazy value.
-/
namespace LazyCast

inductive CastSource where
  | strict (value : Value)
  | deferred (value : LazyValue)
  | member (root : LazyValue) (name : String)

/-- What a member cast hands out: the right to its value. -/
structure MemberTicket where
  ticket : Nat
  root : ValueId
  member : String
  target : TypeName
  deriving DecidableEq

inductive CastOutcome where
  | value (v : Value)
  | encoded (v : LazyValue)
  | ticket (t : MemberTicket)

/-- The type that a source is cast from; a member is named with its root's type. -/
def CastSource.type : CastSource → TypeName
  | .strict v => v.typeName
  | .deferred v => v.type
  | .member root name => root.type ++ "." ++ name

def CastSource.isMember : CastSource → Bool
  | .member _ _ => true
  | _ => false

def CastOutcome.value? : CastOutcome → Option Value
  | .value v => some v
  | _ => none

def CastOutcome.encoded? : CastOutcome → Option LazyValue
  | .encoded v => some v
  | _ => none

def CastOutcome.ticket? : CastOutcome → Option MemberTicket
  | .ticket t => some t
  | _ => none

namespace Session

def compileCast (s : Session) (source target : TypeName) : Except Fault CastPlan :=
  CastPlan.compile s.types s.casts s.plan source target

/-- The part of a sample that covers some qubits, read and then cast. -/
def readSample (s : Session) (sample : Sample) (qubits : List Qubit) (chain : CastChain) :
    Except Fault Value := do
  let target := chain.firstTarget
  match sample with
  | .measured m =>
    match m.project qubits with
    | some part =>
      let v ← s.interpreter.interpret (.measured part) target
      chain.apply v
    | none => throw (.reading target .uncoveredQubits)
  | .deterministic v registers =>
    let v ← s.interpreter.interpret (.deterministic v registers) target
    chain.apply v

def ticketOf? (i : Instruction) : Option Nat :=
  if i.opcode = "cast" then
    match i.operands with
    | .int t :: _ => (uint32? t.toInt).map UInt32.toNat
    | _ => none
  else none

def memberTickets (l : FrozenLedger) : List Nat := l.instructions.filterMap ticketOf?

def settle (s : Session) (ticket : Nat) (result : Except Fault Value) : Session :=
  { s with pending := s.pending.erase ticket, settled := s.settled.insert ticket result }

/-- What a member cast comes to after its ledger ran. -/
def memberResult (s : Session) (output : RunOutput) (ticket : Nat) (m : PendingMember) :
    Except Fault Value :=
  if output.memberCasts.any fun c => decide (c.ticket = ticket) then
    s.readSample output.sample m.qubits m.chain
  else .error (.reading m.chain.firstTarget (.memberNotRun ticket))

def settleMembers (s : Session) (output : RunOutput) (tickets : List Nat) : Session :=
  tickets.foldl (fun s ticket =>
    match s.pending.find? ticket with
    | some m => s.settle ticket (s.memberResult output ticket m)
    | none => s) s

/-- Settles all of some tickets with a fault. -/
def failMembers (s : Session) (e : Fault) (tickets : List Nat) : Session :=
  tickets.foldl (fun s ticket => s.settle ticket (.error e)) s

def measurement (v : LazyValue) : Instruction := ⟨0, "measure", v.qubitOperands, v.kind⟩

/-- Appends the measurement of a value; one without qubits measures nothing. -/
def appendMeasurement (s : Session) (v : LazyValue) : Outcome Session Unit :=
  if v.qubits.isEmpty then (.ok (), s)
  else (s.append v.ledger (measurement v)).map fun _ => ()

def trigger (s : Session) (v : LazyValue) : Outcome Session FrozenLedger :=
  (s.arena.trigger v.ledger).within s.withArena

def runLedger (s : Session) (v : LazyValue) (l : FrozenLedger) :
    Except Fault RunOutput × Session :=
  let (result, orchestrator) := s.orchestrator.run l
  (result, { s with orchestrator := orchestrator, arena := (s.arena.release v.ledger).2 })

/-- Casts a lazy value: measures it, runs its ledger and settles the member casts in it. -/
def castLazy (s : Session) (v : LazyValue) (chain : CastChain) : Outcome Session Value :=
  if s.arena.isSpent v.ledger then (.error (.doubleCast v.ledger.index), s)
  else
    (s.appendMeasurement v).andThen fun _ s =>
      (s.trigger v).andThen fun frozen s =>
        let tickets := memberTickets frozen
        match s.runLedger v frozen with
        | (.error e, s) => (.error e, s.failMembers e tickets)
        | (.ok output, s) =>
          let s := s.settleMembers output tickets
          (s.readSample output.sample v.qubits chain, s)

/-- The slice of the root's qubits that a member covers. -/
def memberQubits? (root : LazyValue) (m : Member) : Option (List Qubit) :=
  if m.offset + m.width ≤ root.qubits.length then
    some ((root.qubits.drop m.offset).take m.width)
  else none

def memberOf (s : Session) (root : LazyValue) (name : String) : Except Fault Member := do
  let d ← s.types.require root.type
  match d.member? name with
  | some m => return m
  | none => throw (.unknownType (root.type ++ "." ++ name))

/-- A member cast as an instruction of its root's ledger. -/
def memberCastInstruction (ticket : Nat) (qubits : List Qubit) : Instruction :=
  ⟨0, "cast", .int (Int64.ofNat ticket) :: qubits.map Operand.qubit, .classical⟩

/-- What a member cast needs before it may be deferred: the qubits it will read. -/
def deferrable (s : Session) (root : LazyValue) (name : String) (source target : TypeName) :
    Except Fault (List Qubit) := do
  let m ← s.memberOf root name
  if m.type ≠ source then throw (.noCastFunction m.type target)
  if s.arena.isSpent root.ledger then throw (.doubleCast root.ledger.index)
  match memberQubits? root m with
  | some qubits => return qubits
  | none => throw (.malformed "cast" (.memberOutside name))

/-- Records a member cast in its root's ledger and hands out a ticket for it. -/
def deferMember (s : Session) (root : LazyValue) (name : String) (source target : TypeName)
    (chain : CastChain) : Outcome Session MemberTicket :=
  match s.deferrable root name source target with
  | .error e => (.error e, s)
  | .ok qubits =>
    let ticket := s.nextTicket
    (s.append root.ledger (memberCastInstruction ticket qubits)).andThen fun _ s =>
      (.ok ⟨ticket, root.id, name, target⟩, { s with
        nextTicket := ticket + 1
        pending := s.pending.insert ticket ⟨chain, qubits⟩ })

/-- A value as the number that `width` qubits start with. No integer view has more than 64 bits. -/
def encodable (v : Value) (target : TypeName) (width : Nat) : Except Fault Int64 :=
  match v.toInt? with
  | some n =>
    if 0 ≤ n ∧ n < (pow2 (min width 64) : Int) then
      match int64? n with
      | some w => .ok w
      | none => .error (.overflow v target)
    else .error (.overflow v target)
  | none => .error (.overflow v target)

/-- Makes a lazy value that starts as a classical one. -/
def encodeValue (s : Session) (v : Value) (target : TypeName) (kind : Kind) (width : Nat) :
    Outcome Session LazyValue :=
  match encodable v target width with
  | .error e => (.error e, s)
  | .ok literal =>
    let (q, s) := s.allocate target kind width
    (s.append q.ledger ⟨0, "init", .int literal :: q.qubitOperands, kind⟩).map fun _ => q

def dispatch (s : Session) (plan : CastPlan) (source : CastSource) : Outcome Session CastOutcome :=
  match plan, source with
  | .encode _ target kind width, .strict v =>
    (s.encodeValue v target kind width).map .encoded
  | .encode from_ target _ _, _ => (.error (.unsupportedCast from_ target), s)
  | .convert from_ target chain, .strict v =>
    if v.typeName = from_ then ((chain.apply v).map .value, s)
    else (.error (.noCastFunction v.typeName target), s)
  | .convert from_ target chain, .deferred v =>
    if v.type = from_ then (s.castLazy v chain).map .value
    else (.error (.noCastFunction v.type target), s)
  | .convert from_ target chain, .member root name =>
    (s.deferMember root name from_ target chain).map .ticket

/-- Dispatches a compiled cast and keeps one sort of outcome; the others are refused. -/
def dispatchAs {α : Type} (s : Session) (plan : CastPlan) (source : CastSource)
    (refusal : Fault) (keep : CastOutcome → Option α) : Outcome Session α :=
  (s.dispatch plan source).andThen fun outcome s =>
    match keep outcome with
    | some a => (.ok a, s)
    | none => (.error refusal, s)

/-- Casts a value to a classical type. Quantum targets and members are refused before any ledger is
    touched. -/
def cast (s : Session) (source : CastSource) (target : TypeName) : Outcome Session Value :=
  let refusal : Fault := .unsupportedCast source.type target
  if source.isMember then (.error refusal, s)
  else
    match s.compileCast source.type target with
    | .error e => (.error e, s)
    | .ok plan =>
      if plan.isEncode then (.error refusal, s)
      else s.dispatchAs plan source refusal CastOutcome.value?

/-- Casts a member of a composite value; the ticket is good once the root is cast. -/
def castMember (s : Session) (root : LazyValue) (name : String) (target : TypeName) :
    Outcome Session MemberTicket :=
  match s.memberOf root name with
  | .error e => (.error e, s)
  | .ok m =>
    match s.compileCast m.type target with
    | .error e => (.error e, s)
    | .ok plan =>
      s.dispatchAs plan (.member root name) (.unsupportedCast m.type target) CastOutcome.ticket?

def encode (s : Session) (v : Value) (target : TypeName) : Outcome Session LazyValue :=
  match s.compileCast v.typeName target with
  | .error e => (.error e, s)
  | .ok plan =>
    s.dispatchAs plan (.strict v) (.unsupportedCast v.typeName target) CastOutcome.encoded?

/-- Takes what a member cast was settled with; nothing before its root is cast, and nothing the
    second time. -/
def redeem (s : Session) (t : MemberTicket) : Option (Except Fault Value) × Session :=
  (s.settled.find? t.ticket, { s with settled := s.settled.erase t.ticket })

end Session
end LazyCast
