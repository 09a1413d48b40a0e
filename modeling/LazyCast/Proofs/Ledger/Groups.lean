import LazyCast.Proofs.Ledger.Commands
import Mathlib.Data.List.Sort
/-!
A plain account of ledgers, without slots, generations or forwarding. Every handle that is not
spent belongs to exactly one group; the groups stand in the order of the handles they are named by.
-/
namespace LazyCast

structure Group where
  /-- The handle the group is named by: the one that its oldest ledger was created with. -/
  lead : Handle
  handles : List Handle
  instructions : List Instruction
  owners : OrderedSet ValueId
  state : LedgerState

def renumber (instructions : List Instruction) : List Instruction :=
  instructions.mapIdx fun n i => { i with seq := n }

def Numbered (instructions : List Instruction) : Prop :=
  instructions.map Instruction.seq = List.range instructions.length

def kindsOf (instructions : List Instruction) : OrderedSet Kind :=
  .ofList (instructions.map Instruction.kind)

namespace Group

def view (g : Group) : LedgerView := ⟨g.instructions, kindsOf g.instructions, g.owners, g.state⟩

def report (g : Group) : Diagnostic := .unusedValues g.owners.elems g.instructions.length

/-- The group of `g` and `k`: the instructions of `g` come first. -/
def join (g k : Group) : Group where
  lead := g.lead
  handles := g.handles ++ k.handles
  instructions := renumber (g.instructions ++ k.instructions)
  owners := g.owners.union k.owners
  state := .merged

end Group

abbrev Groups := List Group

namespace Groups

def groupOf? (gs : Groups) (h : Handle) : Option Group := gs.find? fun g => decide (h ∈ g.handles)

def open? (gs : Groups) (h : Handle) : Option Group := (gs.groupOf? h).filter fun g => g.state.isOpen

def put (gs : Groups) (g : Group) : Groups := gs.map fun old => if old.lead = g.lead then g else old

def dissolve (gs : Groups) (g : Group) : Groups := gs.filter fun old => old.lead ≠ g.lead

/-- A group of one handle comes to the others, in the order of slots. -/
def create (gs : Groups) (name : Handle) (owner : ValueId) : Groups :=
  gs.orderedInsert (fun g k => g.lead.index < k.lead.index)
    ⟨name, [name], [], OrderedSet.empty.insert owner, .accumulating⟩

theorem mem_create {gs : Groups} {name : Handle} {owner : ValueId} {g : Group} :
    g ∈ gs.create name owner ↔
      g = ⟨name, [name], [], OrderedSet.empty.insert owner, .accumulating⟩ ∨ g ∈ gs :=
  List.mem_orderedInsert _

/-- Changes an open group; answers with the group as it was. -/
def change (gs : Groups) (h : Handle) (f : Group → Group) : Outcome Groups Group :=
  match gs.open? h with
  | some g => (.ok g, gs.put (f g))
  | none => (.error (.frozenLedger h.index), gs)

def append (gs : Groups) (h : Handle) (i : Instruction) : Outcome Groups Nat :=
  (gs.change h fun g =>
    { g with instructions := g.instructions ++ [{ i with seq := g.instructions.length }] }).map
      fun g => g.instructions.length

def addOwner (gs : Groups) (h : Handle) (owner : ValueId) : Outcome Groups Unit :=
  (gs.change h fun g => { g with owners := g.owners.insert owner }).map fun _ => ()

def merge (gs : Groups) (h k : Handle) : Outcome Groups Handle :=
  match gs.open? h, gs.open? k with
  | some g, some l =>
    if g.lead = l.lead then (.ok g.lead, gs) else (.ok g.lead, (gs.dissolve l).put (g.join l))
  | some _, none => (.error (.frozenLedger k.index), gs)
  | none, _ => (.error (.frozenLedger h.index), gs)

def mergeAll (gs : Groups) (h : Handle) : List Handle → Outcome Groups Handle
  | [] => (.ok h, gs)
  | next :: rest => (gs.merge h next).andThen fun h gs => mergeAll gs h rest

def interact (gs : Groups) (values : List Handle) (independent : Bool) :
    Outcome Groups (Option Handle) :=
  match values with
  | first :: second :: rest =>
    if independent then (.ok none, gs) else (gs.mergeAll first (second :: rest)).map some
  | _ => (.ok none, gs)

def state (gs : Groups) (h : Handle) : LedgerState :=
  match gs.groupOf? h with
  | some g => g.state
  | none => .resolved

def sameGroup (gs : Groups) (h k : Handle) : Bool :=
  match gs.groupOf? h, gs.groupOf? k with
  | some g, some l => decide (g.lead = l.lead)
  | _, _ => false

def trigger (gs : Groups) (h : Handle) : Outcome Groups FrozenLedger :=
  match gs.open? h with
  | some g =>
    (.ok ⟨g.lead.index, g.instructions, kindsOf g.instructions, g.owners⟩,
      gs.put { g with instructions := [], owners := .empty, state := .triggered })
  | none => (.error (.doubleCast h.index), gs)

def release (gs : Groups) (h : Handle) : Nat × Groups :=
  match gs.groupOf? h with
  | some g => if g.state.isOpen then (0, gs) else (g.handles.length, gs.dissolve g)
  | none => (0, gs)

def dropOwner (gs : Groups) (h : Handle) (owner : ValueId) : Option Diagnostic × Groups :=
  match gs.open? h with
  | some g =>
    let left := g.owners.erase owner
    if left.isEmpty then (some (.unusedValues [owner] g.instructions.length), gs.dissolve g)
    else (none, gs.put { g with owners := left })
  | none => (none, gs)

def sweep (gs : Groups) : List Diagnostic × Groups :=
  ((gs.filter fun g => g.state.isOpen).map Group.report, gs.filter fun g => !g.state.isOpen)

def live (gs : Groups) : Nat := (gs.filter fun g => g.state.isOpen).length

/-- Answers a call; `name` is the handle of the group that `create` makes. -/
def perform (gs : Groups) (name : Handle) : Command → Reply × Groups
  | .create owner => (.handle (.ok name), gs.create name owner)
  | .append h i => (.position (gs.append h i).1, (gs.append h i).2)
  | .merge h k => (.handle (gs.merge h k).1, (gs.merge h k).2)
  | .interact _ values independent =>
    (.pooled (gs.interact values independent).1, (gs.interact values independent).2)
  | .addOwner h owner => (.done (gs.addOwner h owner).1, (gs.addOwner h owner).2)
  | .state h => (.state (gs.state h), gs)
  | .find h => (.ledger ((gs.open? h).map Group.view), gs)
  | .sameLedger h k => (.truth (gs.sameGroup h k), gs)
  | .trigger h => (.frozen (gs.trigger h).1, (gs.trigger h).2)
  | .release h => (.count (gs.release h).1, (gs.release h).2)
  | .dropOwner h owner => (.report (gs.dropOwner h owner).1, (gs.dropOwner h owner).2)
  | .sweep => (.reports gs.sweep.1, gs.sweep.2)
  | .live => (.count gs.live, gs)

/-- A handle that can name a new group: it was not handed out before, and no handle in a group has
    its slot. -/
structure Free (issued : List Handle) (gs : Groups) (name : Handle) : Prop where
  unissued : name ∉ issued
  slot : ∀ g ∈ gs, ∀ h ∈ g.handles, h.index ≠ name.index

/-- The replies to some calls made one after another. All that is left open is which of the free
    handles names a new group. -/
inductive Answers : List Handle → Groups → List Command → List Reply → Groups → Prop where
  | done (issued : List Handle) (gs : Groups) : Answers issued gs [] [] gs
  | call {issued : List Handle} {gs after : Groups} {c : Command} {rest : List Command}
      {replies : List Reply} (name : Handle) (free : c.isCreate = true → Free issued gs name)
      (tail : Answers (issued ++ (gs.perform name c).1.handles) (gs.perform name c).2 rest
        replies after) :
      Answers issued gs (c :: rest) ((gs.perform name c).1 :: replies) after

/-- The open groups of some handles, each once, in order of first occurrence. -/
def distinctOpen (gs : Groups) : List Handle → List Group
  | [] => []
  | h :: rest =>
    match gs.open? h with
    | some g => g :: (gs.distinctOpen rest).filter fun l => l.lead ≠ g.lead
    | none => gs.distinctOpen rest

end Groups
end LazyCast
