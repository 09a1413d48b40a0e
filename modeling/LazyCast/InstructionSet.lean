import LazyCast.Kind
/-!
What sub-compilers can do: the opcodes each of them recognizes, and which of those take a single
native operation. An empty native list means that all of them do.
-/
namespace LazyCast

structure InstructionSet where
  opcodes : OrderedSet String
  native : OrderedSet String
  deriving DecidableEq

namespace InstructionSet

def ofOpcodes (opcodes : List String) : InstructionSet := ⟨.ofList opcodes, .empty⟩

def withNative (s : InstructionSet) (native : List String) : InstructionSet :=
  { s with native := .ofList native }

def contains (s : InstructionSet) (opcode : String) : Bool := s.opcodes.contains opcode

def isNative (s : InstructionSet) (opcode : String) : Bool :=
  if s.native.isEmpty then s.contains opcode else s.native.contains opcode

/-- Keeps the opcodes of `b`. -/
def intersect (a b : InstructionSet) : InstructionSet :=
  ⟨a.opcodes.inter b.opcodes, a.native.inter b.opcodes⟩

def classical : InstructionSet :=
  ofOpcodes ["const", "mov", "add", "sub", "mul", "div", "eq", "ne", "lt", "le", "not", "and",
    "or", "xor", "barrier", "cast"]

/-- `init`, `redim` and `sync` decompose into gates; `barrier` is a classical opcode that the
    simulator takes along. -/
def stateVector : InstructionSet :=
  (ofOpcodes ["init", "redim", "sync", "x", "z", "h", "cx", "cz", "swap", "ry", "x_if", "measure",
    "barrier"]).withNative
    ["x", "z", "h", "cx", "cz", "swap", "ry", "x_if", "measure", "barrier"]

end InstructionSet

structure Capabilities where
  kind : Kind
  instructions : InstructionSet
  /-- Runs are simulated, not made on a device. -/
  isSimulator : Bool
  deriving DecidableEq

def Capabilities.supports (c : Capabilities) (opcode : String) : Bool :=
  c.instructions.contains opcode

/-- What all sub-compilers offer, in order of kinds. The universal evaluator is kept apart: it is
    the last resort of every kind. -/
structure CapabilityTable where
  entries : List Capabilities
  universal : Capabilities
  deriving DecidableEq

namespace CapabilityTable

/-- Places an entry behind all lower kinds; of two entries of one kind the earlier one stays. -/
def place (c : Capabilities) : List Capabilities → List Capabilities
  | [] => [c]
  | d :: ds =>
    if c.kind = d.kind then d :: ds
    else if Key.before c.kind d.kind then c :: d :: ds
    else d :: place c ds

def ofList (entries : List Capabilities) (universal : Capabilities) : CapabilityTable :=
  ⟨entries.foldl (fun placed c => place c placed) [], universal⟩

/-- The universal evaluator answers for its own kind. -/
def find? (t : CapabilityTable) (kind : Kind) : Option Capabilities :=
  if kind = t.universal.kind then some t.universal
  else t.entries.find? fun c => decide (c.kind = kind)

/-- The entries strictly above a kind, lowest level first. -/
def above (t : CapabilityTable) (kind : Kind) : List Capabilities :=
  t.entries.filter fun c => c.kind.isAbove kind

end CapabilityTable
end LazyCast
