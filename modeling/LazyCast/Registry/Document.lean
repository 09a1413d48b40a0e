import LazyCast.Json.Reader
import LazyCast.Registry
/-!
Registries written as JSON documents. A record may be an object or an array of its fields in order;
in an object unknown fields are skipped and a known field stands at most once. Backends are named by
their keys, and of two with one key the later counts.
-/
namespace LazyCast.Registry.Document

def record (fields : List String) : Json → Option (List (Option Json))
  | .object members =>
    if members.all (fun m => m.1.isSome) &&
        fields.all (fun f => decide (members.countP (fun m => decide (m.1 = some f)) ≤ 1)) then
      some (fields.map fun f => Json.field? f (.object members))
    else none
  | .array items =>
    if items.length ≤ fields.length then
      some (items.map some ++ List.replicate (fields.length - items.length) none)
    else none
  | _ => none

def strings? (j : Json) : Option (List String) := j.items?.bind fun items => items.mapM Json.string?

/-- What is read from a field, or a default when there is none. -/
def orElse {α : Type} (default : α) (read : Json → Option α) : Option Json → Option α
  | none => some default
  | some j => read j

def instructionSet? (j : Json) : Option InstructionSet :=
  match record ["opcodes", "native"] j with
  | some [some opcodes, native] => do
    let opcodes ← strings? opcodes
    let native ← orElse [] strings? native
    return ⟨.ofList opcodes, .ofList native⟩
  | _ => none

/-- A level is an integer of thirty-two bits. -/
def level? (j : Json) : Option Nat :=
  j.int?.bind fun n => if 0 ≤ n ∧ n < 4294967296 then some n.toNat else none

/-- A document nests at most 127 deep, and settings stand inside three levels of it. -/
def settingsDepth : Nat := 124

def settings? (j : Json) : Option Json := if j.readable settingsDepth then some j else none

/-- The descriptor under a key. A name of its own must be text, and is not used. -/
def descriptor? (key : String) (j : Json) : Option Descriptor :=
  match record ["name", "level", "instructions", "module", "passes", "metadata"] j with
  | some [name, some level, some instructions, some module, passes, metadata] => do
    let _ ← orElse "" Json.string? name
    let level ← level? level
    let instructions ← instructionSet? instructions
    let module ← module.string?
    let passes ← orElse [] strings? passes
    let metadata ← orElse .null settings? metadata
    return ⟨key, level, instructions, module, passes, metadata⟩
  | _ => none

def backends? : Json → Option (List (String × Descriptor))
  | .object members => members.mapM fun m => do
    let key ← m.1
    let d ← descriptor? key m.2
    return (key, d)
  | _ => none

def read? (text : String) : Option (List Descriptor) := do
  let j ← Json.parse? text
  match record ["backends"] j with
  | some [some backends] =>
    let entries ← backends? backends
    return (Table.ofList entries).values
  | _ => none

end Document

/-- Reads a registry and checks it, its backends in order of their names. -/
def ofJson (text : String) : Except Fault Registry :=
  match Document.read? text with
  | some ds => ofDescriptors ds
  | none => .error (.configuration .unreadableDocument)

end LazyCast.Registry
