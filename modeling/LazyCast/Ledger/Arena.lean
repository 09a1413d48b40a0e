import LazyCast.Ledger
import LazyCast.Outcome
/-!
All ledgers of a session. A handle names a slot and the generation it was made in. Merging leaves
a forwarding entry in the absorbed slot; freeing a ledger frees every slot merged into it and moves
their generations on, so that old handles find nothing instead of a later ledger.
-/
namespace LazyCast

structure Handle where
  index : Nat
  generation : UInt32
  deriving DecidableEq

inductive Entry where
  | live (ledger : Ledger)
  | forward (parent : Nat)
  | triggered (members : List Nat)
  | vacant

structure Slot where
  generation : UInt32
  entry : Entry

structure Arena where
  slots : List Slot
  /-- Vacant slots, the next one to be used first. -/
  free : List Nat

inductive Lookup where
  | live (root : Nat)
  | triggered (root : Nat)
  | gone
  deriving DecidableEq

namespace Arena

def empty : Arena := ⟨[], []⟩

def entryAt? (a : Arena) (index : Nat) : Option Entry := (a.slots[index]?).map Slot.entry

def ledgerAt? (a : Arena) (index : Nat) : Option Ledger :=
  match a.entryAt? index with
  | some (.live l) => some l
  | _ => none

def setEntry (a : Arena) (index : Nat) (e : Entry) : Arena :=
  { a with slots := a.slots.modify index fun s => { s with entry := e } }

def handleOf (a : Arena) (index : Nat) : Handle :=
  ⟨index, match a.slots[index]? with
    | some s => s.generation
    | none => 0⟩

/-- Follows forwarding entries from a slot. Without a cycle there are fewer of them than slots. -/
def walk (a : Arena) : Nat → Nat → Lookup
  | 0, _ => .gone
  | fuel + 1, index =>
    match a.entryAt? index with
    | some (.forward parent) => a.walk fuel parent
    | some (.live _) => .live index
    | some (.triggered _) => .triggered index
    | some .vacant => .gone
    | none => .gone

/-- A handle of an earlier generation leads nowhere. -/
def lookup (a : Arena) (h : Handle) : Lookup :=
  match a.slots[h.index]? with
  | some s => if s.generation = h.generation then a.walk a.slots.length h.index else .gone
  | none => .gone

/-- Points every forwarding entry on the way to `root` straight at it. -/
def compress (root : Nat) : Nat → Nat → Arena → Arena
  | 0, _, a => a
  | fuel + 1, index, a =>
    if index = root then a
    else
      match a.entryAt? index with
      | some (.forward parent) => compress root fuel parent (a.setEntry index (.forward root))
      | _ => a

def openRoot (a : Arena) (h : Handle) : Outcome Arena Nat :=
  match a.lookup h with
  | .live root => (.ok root, compress root a.slots.length h.index a)
  | _ => (.error (.frozenLedger h.index), a)

/-- An empty ledger, in the slot freed last or else in a new one. -/
def create (a : Arena) (owner : ValueId) : Handle × Arena :=
  match a.free with
  | index :: rest =>
    let a := { a with free := rest }.setEntry index (.live (.fresh owner index))
    (a.handleOf index, a)
  | [] =>
    let index := a.slots.length
    let a := { a with slots := a.slots ++ [⟨0, .live (.fresh owner index)⟩] }
    (a.handleOf index, a)

/-- Changes the open ledger behind a handle; answers with the ledger as it was. -/
def change (a : Arena) (h : Handle) (f : Ledger → Ledger) : Outcome Arena Ledger :=
  (a.openRoot h).andThen fun root a =>
    match a.ledgerAt? root with
    | some l => (.ok l, a.setEntry root (.live (f l)))
    | none => (.error (.frozenLedger h.index), a)

def append (a : Arena) (h : Handle) (i : Instruction) : Outcome Arena Nat :=
  (a.change h fun l => l.push i).map Ledger.length

def addOwner (a : Arena) (h : Handle) (owner : ValueId) : Outcome Arena Unit :=
  (a.change h fun l => { l with owners := l.owners.insert owner }).map fun _ => ()

/-- Merges two roots: the first ledger takes up the second one. -/
def join (a : Arena) (ra rb : Nat) (ha hb : Handle) : Outcome Arena Handle :=
  match a.ledgerAt? rb with
  | none => (.error (.frozenLedger hb.index), a)
  | some absorbed =>
    let a := a.setEntry rb (.forward ra)
    match a.ledgerAt? ra with
    | none => (.error (.frozenLedger ha.index), a)
    | some target =>
      let a := a.setEntry ra (.live (target.absorb absorbed))
      (.ok (a.handleOf ra), a)

/-- Merges the ledger behind `hb` into the one behind `ha`: its instructions come after. -/
def merge (a : Arena) (ha hb : Handle) : Outcome Arena Handle :=
  (a.openRoot ha).andThen fun ra a =>
    (a.openRoot hb).andThen fun rb a =>
      if ra = rb then (.ok (a.handleOf ra), a) else a.join ra rb ha hb

def find? (a : Arena) (h : Handle) : Option Ledger :=
  match a.lookup h with
  | .live root => a.ledgerAt? root
  | _ => none

/-- Handles into freed ledgers report them as resolved. -/
def state (a : Arena) (h : Handle) : LedgerState :=
  match a.lookup h with
  | .live root =>
    match a.ledgerAt? root with
    | some l => l.state
    | none => .resolved
  | .triggered _ => .triggered
  | .gone => .resolved

def isSpent (a : Arena) (h : Handle) : Bool := !(a.state h).isOpen

def sameLedger (a : Arena) (h k : Handle) : Bool :=
  match a.lookup h, a.lookup k with
  | .live x, .live y => decide (x = y)
  | .triggered x, .triggered y => decide (x = y)
  | _, _ => false

def trigger (a : Arena) (h : Handle) : Outcome Arena FrozenLedger :=
  match a.lookup h with
  | .live root =>
    match a.ledgerAt? root with
    | some l =>
      (.ok ⟨root, l.instructions, l.kinds, l.owners⟩, a.setEntry root (.triggered l.members))
    | none => (.error (.doubleCast h.index), a)
  | _ => (.error (.doubleCast h.index), a)

def freeSlot (a : Arena) (index : Nat) : Arena :=
  { slots := a.slots.modify index fun s => ⟨s.generation + 1, .vacant⟩
    free := index :: a.free }

def freeSlots (a : Arena) (members : List Nat) : Arena := members.foldl freeSlot a

/-- Frees a triggered ledger and returns how many slots it held; others are left as they are. -/
def release (a : Arena) (h : Handle) : Nat × Arena :=
  match a.lookup h with
  | .triggered root =>
    match a.entryAt? root with
    | some (.triggered members) => (members.length, a.freeSlots members)
    | _ => (0, a)
  | _ => (0, a)

def discard (a : Arena) (root : Nat) (owners : List ValueId) : Option Diagnostic × Arena :=
  match a.ledgerAt? root with
  | some l => (some (.unusedValues owners l.length), a.freeSlots l.members)
  | none => (none, a)

/-- Strikes an owner off. The last owner takes the ledger along. -/
def dropOwner (a : Arena) (h : Handle) (owner : ValueId) : Option Diagnostic × Arena :=
  match a.lookup h with
  | .live root =>
    match a.ledgerAt? root with
    | some l =>
      let left := { l with owners := l.owners.erase owner }
      let a := a.setEntry root (.live left)
      if left.owners.isEmpty then a.discard root [owner] else (none, a)
    | none => (none, a)
  | _ => (none, a)

def liveRoots (a : Arena) : List Nat :=
  (List.range a.slots.length).filter fun i => (a.ledgerAt? i).isSome

def sweepStep (done : List Diagnostic × Arena) (root : Nat) : List Diagnostic × Arena :=
  match done.2.ledgerAt? root with
  | some l =>
    let (report, a) := done.2.discard root l.owners.elems
    (done.1 ++ report.toList, a)
  | none => done

def sweep (a : Arena) : List Diagnostic × Arena := a.liveRoots.foldl sweepStep ([], a)

def live (a : Arena) : Nat := a.liveRoots.length

end Arena
end LazyCast
