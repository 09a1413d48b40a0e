import LazyCast.Fault
import LazyCast.InstructionSet
/-!
Which sub-compiler executes each instruction of a ledger. An instruction may be embedded in the
ledger's host, run by its own kind, escalate to a higher kind or fall back to the universal
evaluator; it never moves sideways.
-/
namespace LazyCast

/-- How an instruction found its executor. -/
inductive Route where
  | embedded
  | native
  | escalated
  | universal
  deriving DecidableEq

structure Assignment where
  seq : Nat
  opcode : String
  declared : Kind
  executor : Kind
  route : Route
  deriving DecidableEq

structure RoutingPlan where
  host : Kind
  /-- In the order of the instructions. -/
  assignments : List Assignment
  deriving DecidableEq

namespace CapabilityTable

def kindSupports (t : CapabilityTable) (kind : Kind) (opcode : String) : Bool :=
  match t.find? kind with
  | some c => c.supports opcode
  | none => false

/-- The executor of an instruction in a ledger hosted by `host`. -/
def resolve (t : CapabilityTable) (host : Kind) (i : Instruction) : Except Fault (Kind × Route) :=
  if host.isAbove i.kind && t.kindSupports host i.opcode then .ok (host, .embedded)
  else if t.kindSupports i.kind i.opcode then .ok (i.kind, .native)
  else
    match (t.above i.kind).find? fun c => c.supports i.opcode with
    | some higher => .ok (higher.kind, .escalated)
    | none =>
      if t.universal.supports i.opcode then .ok (t.universal.kind, .universal)
      else .error (.unsupportedInstruction i.opcode i.kind)

def assign (t : CapabilityTable) (host : Kind) (i : Instruction) : Except Fault Assignment :=
  (t.resolve host i).map fun (executor, route) => ⟨i.seq, i.opcode, i.kind, executor, route⟩

/-- Routes every instruction of a ledger, up to the first that finds no executor. -/
def plan (t : CapabilityTable) (host : Kind) (instructions : List Instruction) :
    Except Fault RoutingPlan :=
  (instructions.mapM (t.assign host)).map fun assignments => ⟨host, assignments⟩

end CapabilityTable

namespace RoutingPlan

/-- The instructions by executor, in order of kinds; each group keeps the order of the ledger. -/
def partition (p : RoutingPlan) (instructions : List Instruction) :
    Table Kind (List Instruction) :=
  (instructions.zip p.assignments).foldl
    (fun groups e => groups.update e.2.executor fun group => group.getD [] ++ [e.1]) Table.empty

def fallbacks (p : RoutingPlan) : Nat :=
  p.assignments.countP fun a => !decide (a.executor = a.declared)

end RoutingPlan
end LazyCast
