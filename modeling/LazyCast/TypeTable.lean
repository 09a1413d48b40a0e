import LazyCast.Arithmetic
import LazyCast.Fault
/-!
Types as far as casts need them: which kind owns a type and how wide it is. The members of a
composite lie back to back, so a member is a slice of its root's bits or qubits.
-/
namespace LazyCast

structure Member where
  name : String
  type : TypeName
  /-- First bit or qubit of the member inside its root. -/
  offset : Nat
  width : Nat
  deriving DecidableEq

inductive Layout where
  | scalar (width : Nat)
  | composite (members : List Member)

structure TypeDef where
  name : TypeName
  kind : Kind
  layout : Layout

namespace TypeDef

def width (d : TypeDef) : Nat :=
  match d.layout with
  | .scalar width => width
  | .composite members => sumOf (members.map Member.width)

def members (d : TypeDef) : List Member :=
  match d.layout with
  | .scalar _ => []
  | .composite members => members

def member? (d : TypeDef) (name : String) : Option Member :=
  d.members.find? fun m => decide (m.name = name)

def isComposite (d : TypeDef) : Bool :=
  match d.layout with
  | .scalar _ => false
  | .composite _ => true

end TypeDef

abbrev TypeTable := Table TypeName TypeDef

namespace TypeTable

def define (t : TypeTable) (d : TypeDef) : TypeTable := t.insert d.name d

def require (t : TypeTable) (name : TypeName) : Except Fault TypeDef :=
  match t.find? name with
  | some d => .ok d
  | none => .error (.unknownType name)

/-- The classical scalars with their widths; a frequency table has none. -/
def classicalScalars : List (TypeName × Nat) :=
  [("bool", 1), ("int", 64), ("float", 64), ("u32", 32), ("u64", 64), ("i32", 32), ("i64", 64),
   ("f32", 32), ("f64", 64), ("sample", 0)]

def quantumScalars : List (TypeName × Nat) := [("@bool", 1), ("@u2", 2), ("@u3", 3), ("@u4", 4)]

def withScalars (t : TypeTable) (kind : Kind) (scalars : List (TypeName × Nat)) : TypeTable :=
  scalars.foldl (fun t s => define t ⟨s.1, kind, .scalar s.2⟩) t

def builtin : TypeTable :=
  withScalars (withScalars Table.empty .classical classicalScalars) .quantum quantumScalars

def resolve (t : TypeTable) : List (String × TypeName) → Except Fault (List (String × TypeDef))
  | [] => .ok []
  | (name, type) :: rest => do
    let d ← require t type
    let others ← resolve t rest
    return (name, d) :: others

/-- Lays members out back to back from `offset` on. -/
def layOut (offset : Nat) : List (String × TypeDef) → List Member
  | [] => []
  | (name, d) :: rest => ⟨name, d.name, offset, d.width⟩ :: layOut (offset + d.width) rest

/-- The highest kind among some types; classical when none is above it. -/
def joinedKind (types : List (String × TypeDef)) : Kind :=
  types.foldl (fun kind t => kind.join t.2.kind) .classical

/-- Adds a composite type; nothing is added when a member's type is unknown. -/
def defineComposite (t : TypeTable) (name : TypeName) (members : List (String × TypeName)) :
    Except Fault (TypeDef × TypeTable) := do
  let types ← resolve t members
  let d : TypeDef := ⟨name, joinedKind types, .composite (layOut 0 types)⟩
  return (d, define t d)

end TypeTable
end LazyCast
