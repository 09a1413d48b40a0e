import LazyCast.Arithmetic
import LazyCast.Fault
/-!
Cast functions by signature, and the chains of them that a cast site compiles to. Without a direct
function a table may allow a chain: the shortest one, and among the shortest the one whose types
come first by name.
-/
namespace LazyCast

abbrev CastFunction := Value → Except Fault Value

/-- What replaces a missing direct function. -/
inductive Transitivity where
  | strict
  | chained (maxHops : Nat)
  deriving DecidableEq

/-- Cast functions to run one after the other, each with the type it leads to. -/
structure CastChain where
  source : TypeName
  steps : List (TypeName × CastFunction)

namespace CastChain

/-- Types visited, source first. -/
def path (c : CastChain) : List TypeName := c.source :: c.steps.map Prod.fst

def hops (c : CastChain) : Nat := c.steps.length

def firstTarget (c : CastChain) : TypeName :=
  match c.steps with
  | [] => c.source
  | s :: _ => s.1

def apply (c : CastChain) (v : Value) : Except Fault Value :=
  c.steps.foldlM (fun v s => s.2 v) v

end CastChain

structure CastTable where
  /-- By source type, then by target type. -/
  functions : Table TypeName (Table TypeName CastFunction)
  transitivity : Transitivity

namespace CastTable

def empty : CastTable := ⟨Table.empty, .strict⟩

/-- Casts out of a type, in order of their targets' names. -/
def outgoing (t : CastTable) (source : TypeName) : List (TypeName × CastFunction) :=
  match t.functions.find? source with
  | some targets => targets.entries
  | none => []

def find? (t : CastTable) (source target : TypeName) : Option CastFunction :=
  (t.functions.find? source).bind fun targets => targets.find? target

/-- A later function for a signature replaces an earlier one. -/
def register (t : CastTable) (source target : TypeName) (f : CastFunction) : CastTable :=
  { t with functions := t.functions.update source fun targets =>
      (targets.getD Table.empty).insert target f }

def contains (t : CastTable) (source target : TypeName) : Bool := (t.find? source target).isSome

def size (t : CastTable) : Nat := sumOf (t.functions.values.map Table.size)

/-- Steps taken from the source so far, the last one first, and the type they lead to. -/
structure Trail where
  here : TypeName
  taken : List (TypeName × CastFunction)

/-- One more step along each cast out of a trail's end that leads to a type not yet seen. -/
def extend (seen : List TypeName) (trail : Trail) :
    List (TypeName × CastFunction) → List TypeName × List Trail
  | [] => (seen, [])
  | (target, f) :: rest =>
    if target ∈ seen then extend seen trail rest
    else
      let (seen, trails) := extend (target :: seen) trail rest
      (seen, ⟨target, (target, f) :: trail.taken⟩ :: trails)

/-- The trails one step longer than those of a layer, each type reached once. -/
def nextLayer (t : CastTable) (seen : List TypeName) : List Trail → List TypeName × List Trail
  | [] => (seen, [])
  | trail :: rest =>
    let (seen, first) := extend seen trail (t.outgoing trail.here)
    let (seen, others) := nextLayer t seen rest
    (seen, first ++ others)

/-- Breadth-first search, layer by layer, at most `hops` layers deep. -/
def search (t : CastTable) (target : TypeName) :
    Nat → List TypeName → List Trail → Option Trail
  | 0, _, _ => none
  | hops + 1, seen, layer =>
    let (seen, next) := t.nextLayer seen layer
    match next.find? fun trail => decide (trail.here = target) with
    | some trail => some trail
    | none => search t target hops seen next

/-- A shortest chain visits no type twice, so its hops never outnumber the functions. -/
def shortestChain? (t : CastTable) (source target : TypeName) (maxHops : Nat) :
    Option CastChain :=
  (t.search target (min maxHops t.size) [source] [⟨source, []⟩]).map fun trail =>
    ⟨source, trail.taken.reverse⟩

/-- Resolves the functions of a cast site. A direct function is taken under every policy. -/
def compile (t : CastTable) (source target : TypeName) : Except Fault CastChain :=
  match t.find? source target with
  | some f => .ok ⟨source, [(target, f)]⟩
  | none =>
    match t.transitivity with
    | .strict => .error (.noCastFunction source target)
    | .chained maxHops =>
      match t.shortestChain? source target maxHops with
      | some chain => .ok chain
      | none => .error (.noCastFunction source target)

end CastTable
end LazyCast
