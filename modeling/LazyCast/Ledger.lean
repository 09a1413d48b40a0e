import LazyCast.Fault
/-!
Ledgers: the operations deferred on lazy values, in the order they will run. Values that come to
depend on each other share one ledger. A ledger triggered by a cast is frozen and handed out.
-/
namespace LazyCast

/-- Life of a ledger. A ledger that is not yet triggered is open. -/
inductive LedgerState where
  | accumulating
  | merged
  | triggered
  | resolved
  deriving DecidableEq

def LedgerState.isOpen : LedgerState → Bool
  | accumulating => true
  | merged => true
  | _ => false

structure Ledger where
  instructions : List Instruction
  /-- Kinds of the instructions. -/
  kinds : OrderedSet Kind
  owners : OrderedSet ValueId
  /-- Slots merged into this ledger, its own included. -/
  members : List Nat
  /-- Pooled with at least one other ledger. -/
  pooled : Bool

namespace Ledger

def fresh (owner : ValueId) (slot : Nat) : Ledger :=
  ⟨[], .empty, OrderedSet.empty.insert owner, [slot], false⟩

def state (l : Ledger) : LedgerState := if l.pooled then .merged else .accumulating

def length (l : Ledger) : Nat := l.instructions.length

/-- Puts an instruction at the end, numbered by its position. -/
def push (l : Ledger) (i : Instruction) : Ledger :=
  { l with
    instructions := l.instructions ++ [{ i with seq := l.length }]
    kinds := l.kinds.insert i.kind }

/-- The instructions of `other` after ours, numbered anew. -/
def absorb (l other : Ledger) : Ledger :=
  let joined := other.instructions.foldl push l
  { joined with
    owners := joined.owners.union other.owners
    members := joined.members ++ other.members
    pooled := true }

end Ledger

/-- A ledger drained by a cast. -/
structure FrozenLedger where
  id : Nat
  instructions : List Instruction
  kinds : OrderedSet Kind
  owners : OrderedSet ValueId

namespace FrozenLedger

/-- The kind whose sample the cast reads: the greatest one in the ledger. Other kinds of its level
    still run their own instructions. -/
def dominantKind (l : FrozenLedger) : Kind := Kind.dominant l.kinds.elems

end FrozenLedger
end LazyCast
