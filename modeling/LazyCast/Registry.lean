import LazyCast.InstructionSet
import LazyCast.Json
import LazyCast.Program.Pass
import LazyCast.Text.Blank
/-!
The table of backends that a program may use. It always holds the classical backend, at the bottom
of the hierarchy; every other backend is named by its kind.
-/
namespace LazyCast

def classicalModule : String := "builtin:classical"

def stateVectorModule : String := "builtin:statevector"

structure Descriptor where
  name : String
  level : Nat
  instructions : InstructionSet
  /-- Names the sub-compiler that serves this backend. -/
  module : String
  /-- Optimization passes, in the order they run after lowering. -/
  passes : List String
  /-- Settings of the backend. -/
  metadata : Json

namespace Descriptor

def classical : Descriptor :=
  ⟨"classical", 0, .classical, classicalModule, [], .null⟩

def stateVector : Descriptor :=
  ⟨"quantum", 1, .stateVector, stateVectorModule, ["cancel-inverses"],
    .object [(some "shots", .ofNat 1024), (some "seed", .ofNat 7), (some "max_qubits", .ofNat 16)]⟩

def kind (d : Descriptor) : Kind := ⟨d.name, d.level⟩

/-- An unsigned integer among the settings. -/
def setting? (d : Descriptor) (key : String) : Option UInt64 :=
  (d.metadata.field? key).bind Json.uint64?

def validate (d : Descriptor) : Except ConfigurationCause Unit :=
  if Text.isBlank d.module then .error (.noModule d.name)
  else
    match d.passes.find? fun p => (Pass.ofName? p).isNone with
    | some pass => .error (.unknownPassRequested d.name pass)
    | none => .ok ()

end Descriptor

structure Registry where
  descriptors : Table String Descriptor
  /-- The universal fallback. -/
  classical : Descriptor
  classical_found : descriptors.find? "classical" = some classical

namespace Registry

/-- Adds descriptors in order, each of them valid and of a new name. -/
def addAll (known : Table String Descriptor) :
    List Descriptor → Except ConfigurationCause (Table String Descriptor)
  | [] => .ok known
  | d :: rest => do
    d.validate
    if known.contains d.name then throw .duplicateDescriptor
    else addAll (known.insert d.name d) rest

/-- A table with a classical backend at level 0 is a registry. -/
def ofTable (descriptors : Table String Descriptor) : Except ConfigurationCause Registry :=
  match h : descriptors.find? "classical" with
  | none => .error .classicalMissing
  | some classical =>
    if classical.level = 0 then .ok ⟨descriptors, classical, h⟩ else .error .classicalNotAtBottom

def ofDescriptors (ds : List Descriptor) : Except Fault Registry :=
  ((addAll Table.empty ds).bind ofTable).mapError .configuration

def builtin : Registry :=
  ⟨⟨[("classical", .classical), ("quantum", .stateVector)]⟩, .classical, rfl⟩

def find? (r : Registry) (name : String) : Option Descriptor := r.descriptors.find? name

def kindNamed (r : Registry) (name : String) : Except Fault Kind :=
  match r.find? name with
  | some d => .ok d.kind
  | none => .error (.unknownBackend name)

/-- The descriptor of a kind; a kind of another level is unknown. -/
def require (r : Registry) (kind : Kind) : Except Fault Descriptor :=
  match r.find? kind.name with
  | some d => if d.level = kind.level then .ok d else .error (.unknownBackend kind.name)
  | none => .error (.unknownBackend kind.name)

/-- All kinds, lowest first. -/
def kinds (r : Registry) : OrderedSet Kind :=
  .ofList (r.descriptors.values.map Descriptor.kind)

end Registry
end LazyCast
