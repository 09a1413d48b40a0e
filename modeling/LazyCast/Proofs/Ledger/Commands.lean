import LazyCast.Ledger.Interaction
/-!
Calls on an arena as data, so that one can speak of all sequences of them. The handles they name
are any: current ones, stale ones, and ones never handed out.
-/
namespace LazyCast

inductive Command where
  | create (owner : ValueId)
  | append (h : Handle) (i : Instruction)
  | merge (a b : Handle)
  | interact (how : Interaction) (values : List Handle) (independent : Bool)
  | addOwner (h : Handle) (owner : ValueId)
  | state (h : Handle)
  | find (h : Handle)
  | sameLedger (a b : Handle)
  | trigger (h : Handle)
  | release (h : Handle)
  | dropOwner (h : Handle) (owner : ValueId)
  | sweep
  | live

structure LedgerView where
  instructions : List Instruction
  kinds : OrderedSet Kind
  owners : OrderedSet ValueId
  state : LedgerState

def Ledger.view (l : Ledger) : LedgerView := ⟨l.instructions, l.kinds, l.owners, l.state⟩

inductive Reply where
  | handle (answer : Except Fault Handle)
  | position (answer : Except Fault Nat)
  | pooled (answer : Except Fault (Option Handle))
  | done (answer : Except Fault Unit)
  | state (s : LedgerState)
  | ledger (found : Option LedgerView)
  | truth (b : Bool)
  | frozen (answer : Except Fault FrozenLedger)
  | count (n : Nat)
  | report (d : Option Diagnostic)
  | reports (ds : List Diagnostic)

namespace Command

def isCreate : Command → Bool
  | create _ => true
  | _ => false

end Command

namespace Reply

def handles : Reply → List Handle
  | handle (.ok h) => [h]
  | pooled (.ok (some h)) => [h]
  | _ => []

def instructions : Reply → List Instruction
  | ledger (some v) => v.instructions
  | frozen (.ok l) => l.instructions
  | _ => []

end Reply

namespace Arena

def perform (a : Arena) : Command → Reply × Arena
  | .create owner => (.handle (.ok (a.create owner).1), (a.create owner).2)
  | .append h i => (.position (a.append h i).1, (a.append h i).2)
  | .merge h k => (.handle (a.merge h k).1, (a.merge h k).2)
  | .interact how values independent =>
    (.pooled (a.interact how values independent).1, (a.interact how values independent).2)
  | .addOwner h owner => (.done (a.addOwner h owner).1, (a.addOwner h owner).2)
  | .state h => (.state (a.state h), a)
  | .find h => (.ledger ((a.find? h).map Ledger.view), a)
  | .sameLedger h k => (.truth (a.sameLedger h k), a)
  | .trigger h => (.frozen (a.trigger h).1, (a.trigger h).2)
  | .release h => (.count (a.release h).1, (a.release h).2)
  | .dropOwner h owner => (.report (a.dropOwner h owner).1, (a.dropOwner h owner).2)
  | .sweep => (.reports a.sweep.1, a.sweep.2)
  | .live => (.count a.live, a)

def run (a : Arena) : List Command → List Reply × Arena
  | [] => ([], a)
  | c :: rest =>
    let (reply, a) := a.perform c
    let (replies, a) := a.run rest
    (reply :: replies, a)

def inUse (a : Arena) (i : Nat) : Bool :=
  match a.entryAt? i with
  | none => false
  | some .vacant => false
  | some _ => true

/-- How often a slot goes out of use in the course of some calls. -/
def timesFreed (i : Nat) (a : Arena) : List Command → Nat
  | [] => 0
  | c :: rest =>
    (if a.inUse i && !(a.perform c).2.inUse i then 1 else 0) +
      timesFreed i (a.perform c).2 rest

theorem timesFreed_le_length (i : Nat) (a : Arena) (commands : List Command) :
    timesFreed i a commands ≤ commands.length := by
  induction commands generalizing a with
  | nil => exact Nat.le_refl _
  | cons c rest ih =>
    have tail := ih (a.perform c).2
    simp only [timesFreed, List.length_cons]
    split <;> omega

theorem run_append (a : Arena) (earlier later : List Command) :
    a.run (earlier ++ later) = ((a.run earlier).1 ++ ((a.run earlier).2.run later).1,
      ((a.run earlier).2.run later).2) := by
  induction earlier generalizing a with
  | nil => rfl
  | cons c rest ih => simp only [List.cons_append, run, ih]

theorem timesFreed_append (i : Nat) (a : Arena) (earlier later : List Command) :
    timesFreed i a (earlier ++ later) =
      timesFreed i a earlier + timesFreed i (a.run earlier).2 later := by
  induction earlier generalizing a with
  | nil => simp [timesFreed, run]
  | cons c rest ih => simp only [List.cons_append, timesFreed, run, ih, Nat.add_assoc]

end Arena
end LazyCast
