import LazyCast.Outcome
import LazyCast.Ledger
import LazyCast.Routing
import LazyCast.Supervision
/-!
Running a frozen ledger. Its instructions are routed, lowered by executor and put back in ledger
order. Classical operations run in process; the others are bound against the registers of the
moment, staged with their worker and executed when an operation of another worker follows or the
schedule ends. The sample of the host's last run is the sample of the ledger.
-/
namespace LazyCast

/-- The kinds to start workers for, lowest first. -/
abbrev SpawnPlan := OrderedSet Kind

namespace SpawnPlan

/-- Adds a registered kind and all kinds above it, where its instructions may escalate to. -/
def reach (r : Registry) (plan : SpawnPlan) (kind : Kind) : Except Fault SpawnPlan :=
  (r.require kind).map fun _ =>
    ((r.kinds.elems.filter fun k => k.isAbove kind).foldl OrderedSet.insert plan).insert kind

/-- The plan of a program that refers to some kinds. The classical kind is always part of it. -/
def compute (r : Registry) (referenced : List Kind) : Except Fault SpawnPlan :=
  referenced.foldlM (reach r) (OrderedSet.empty.insert r.classical.kind)

def all (r : Registry) : SpawnPlan := r.kinds

end SpawnPlan

/-- A request and what it led to. -/
structure Exchange where
  kind : Kind
  request : Request
  /-- The program that ran because of it. -/
  ran : Option Program
  answer : Except Fault Response

structure Orchestrator where
  plan : SpawnPlan
  classical : Evaluator
  capabilities : CapabilityTable
  workers : Table Kind Worker
  policy : SupervisionPolicy
  nextSession : SessionId
  /-- All exchanges with the workers so far, in order. -/
  transcript : List Exchange

structure RunOutput where
  sample : Sample
  memberCasts : List MemberCast

namespace Orchestrator

/-- A worker for each kind of the plan but the classical one, in the plan's order. -/
def startWorkers (r : Registry) (modules : ModuleTable) :
    List Kind → Except Fault (List (Kind × SubCompiler))
  | [] => .ok []
  | kind :: rest => do
    let d ← r.require kind
    let compiler ← modules.instantiate d
    let others ← startWorkers r modules rest
    return (kind, compiler) :: others

def start (r : Registry) (modules : ModuleTable) (plan : SpawnPlan)
    (policy : SupervisionPolicy) : Except Fault Orchestrator := do
  let compilers ← startWorkers r modules (plan.elems.filter fun k => !k.isClassical)
  let classical := Evaluator.ofDescriptor r.classical
  return {
    plan := plan
    classical := classical
    capabilities := .ofList (compilers.map fun c => { c.2.capabilities with kind := c.1 })
      classical.capabilities
    workers := Table.ofList (compilers.map fun c => (c.1, .start c.1 c.2))
    policy := policy
    nextSession := 0
    transcript := [] }

/-- Sends a request to a worker and takes down what came of it. -/
def call (o : Orchestrator) (kind : Kind) (r : Request) : Outcome Orchestrator Response :=
  match o.workers.find? kind with
  | none => (.error (.unknownBackend kind.name), o)
  | some w =>
    let served := w.serve r
    (served.answer, { o with
      workers := o.workers.insert kind served.worker
      transcript := o.transcript ++ [⟨kind, r, served.ran, served.answer⟩] })

def lower (o : Orchestrator) (kind : Kind) (batch : List Instruction) :
    Outcome Orchestrator Program :=
  if kind.isClassical then (o.classical.lower batch, o)
  else
    (o.call kind (.lower batch)).andThen fun r o =>
      match r with
      | .lowered p => (.ok p, o)
      | r => (.error (.execution kind (.unexpectedReply "lower" r.text)), o)

def lowerAll (o : Orchestrator) : List (Kind × List Instruction) → Outcome Orchestrator (List Program)
  | [] => (.ok [], o)
  | (kind, batch) :: rest =>
    (o.lower kind batch).andThen fun p o =>
      (lowerAll o rest).map fun ps => p :: ps

/-- An operation with the kind that executes it. -/
abbrev Scheduled := Kind × NativeOp

def tagged (p : Program) : List Scheduled := p.ops.map fun op => (p.kind, op)

/-- Lowered programs as one stream in ledger order. Operations of one instruction keep their order. -/
def schedule (programs : List Program) : List Scheduled :=
  (programs.flatMap tagged).mergeSort fun a b => decide (a.2.seq ≤ b.2.seq)

/-- How far a schedule has been driven. -/
structure Drive where
  orchestrator : Orchestrator
  session : SessionId
  eval : EvalState
  /-- Operations of one kind that are not staged yet. -/
  segment : Option Program
  /-- The kind that has work to execute. -/
  pending : Option Kind
  /-- In execution order. -/
  samples : List (Kind × Sample)
  /-- Kinds that were sent something to stage. -/
  staged : List Kind

namespace Drive

def begin (o : Orchestrator) (session : SessionId) : Drive :=
  ⟨o, session, .empty, none, none, [], []⟩

def withOrchestrator (d : Drive) (o : Orchestrator) : Drive := { d with orchestrator := o }

def markStaged (d : Drive) (kind : Kind) : Drive :=
  if kind ∈ d.staged then d else { d with staged := d.staged ++ [kind] }

/-- Binds a segment against the registers as they are and hands it to its worker. -/
def stage (d : Drive) (p : Program) : Outcome Drive Unit :=
  match p.bind d.eval.registers with
  | .error e => (.error e, d)
  | .ok bound =>
    if d.orchestrator.workers.contains p.kind then
      let d := d.markStaged p.kind
      ((d.orchestrator.call p.kind (.stage d.session bound)).within d.withOrchestrator).andThen
        fun r d =>
          match r with
          | .staged _ => (.ok (), d)
          | r => (.error (.execution p.kind (.unexpectedReply "stage" r.text)), d)
    else (.error (.unknownBackend p.kind.name), d)

def flush (d : Drive) : Outcome Drive Unit :=
  match d.segment with
  | some p => { d with segment := none }.stage p
  | none => (.ok (), d)

/-- Runs what a kind has staged, under supervision. -/
def execute (d : Drive) (kind : Kind) : Outcome Drive Unit :=
  if d.orchestrator.workers.contains kind then
    let done := d.orchestrator.policy.execute kind d.session
      (fun o r => o.call kind r) d.orchestrator
    let d := d.withOrchestrator done.link
    match done.result with
    | .ok s => (.ok (), { d with samples := d.samples ++ [(kind, s)] })
    | .error e => (.error e, d)
  else (.error (.unknownBackend kind.name), d)

/-- Executes pending work of any kind but `next`. -/
def executeBefore (d : Drive) (next : Kind) : Outcome Drive Unit :=
  match d.pending with
  | some previous =>
    if previous = next then (.ok (), d) else { d with pending := none }.execute previous
  | none => (.ok (), d)

def openSegment (d : Drive) (kind : Kind) : Outcome Drive Unit :=
  if (d.segment.map Program.kind) = some kind then (.ok (), d)
  else
    d.flush.andThen fun _ d =>
      (d.executeBefore kind).andThen fun _ d =>
        (.ok (), { d with pending := some kind, segment := some (.empty kind) })

def classicalStep (d : Drive) (op : NativeOp) : Outcome Drive Unit :=
  d.flush.andThen fun _ d =>
    match d.orchestrator.classical.step op d.eval with
    | .ok eval => (.ok (), { d with eval := eval })
    | .error e => (.error e, d)

def step (d : Drive) (op : Scheduled) : Outcome Drive Unit :=
  if op.1.isClassical then d.classicalStep op.2
  else
    (d.openSegment op.1).andThen fun _ d =>
      (.ok (), { d with segment := d.segment.map fun p => p.push op.2 })

/-- Stages and executes what is left at the end of the schedule. -/
def finish (d : Drive) : Outcome Drive Unit :=
  d.flush.andThen fun _ d =>
    match d.pending with
    | some last => { d with pending := none }.execute last
    | none => (.ok (), d)

/-- Drives a schedule to its end, or to the first fault. -/
def run (d : Drive) : List Scheduled → Outcome Drive Unit
  | [] => d.finish
  | op :: rest => (d.step op).andThen fun _ d => run d rest

end Drive

/-- Makes the workers of some kinds forget a session, as far as they are there to do it. -/
def closeAll (o : Orchestrator) (session : SessionId) (kinds : List Kind) : Orchestrator :=
  kinds.foldl (fun o kind => (o.call kind (.close session)).2) o

/-- The last sample of the host, else the last sample of any kind. -/
def hostSample? (host : Kind) (samples : List (Kind × Sample)) : Option Sample :=
  match samples.reverse.find? fun s => decide (s.1 = host) with
  | some s => some s.2
  | none => samples.getLast?.map Prod.snd

def outputOf (host : Kind) (d : Drive) : RunOutput :=
  ⟨(hostSample? host d.samples).getD d.eval.toSample, d.eval.memberCasts⟩

/-- Drives a schedule in a session of its own, which is closed whatever comes of it. -/
def execute (o : Orchestrator) (host : Kind) (ops : List Scheduled) :
    Outcome Orchestrator RunOutput :=
  let session := o.nextSession
  let (result, d) := (Drive.begin { o with nextSession := session + 1 } session).run ops
  (result.map fun _ => outputOf host d, d.orchestrator.closeAll session d.staged)

/-- Routes, lowers, schedules and executes a frozen ledger. -/
def run (o : Orchestrator) (ledger : FrozenLedger) : Outcome Orchestrator RunOutput :=
  let host := ledger.dominantKind
  match ledger.kinds.elems.find? fun k => !o.plan.contains k with
  | some missing => (.error (.unknownBackend missing.name), o)
  | none =>
    match o.capabilities.plan host ledger.instructions with
    | .error e => (.error e, o)
    | .ok routing =>
      (o.lowerAll (routing.partition ledger.instructions).entries).andThen fun programs o =>
        o.execute host (schedule programs)

end Orchestrator
end LazyCast
