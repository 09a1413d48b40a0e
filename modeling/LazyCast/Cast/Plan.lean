import LazyCast.Cast.Table
import LazyCast.TypeTable
/-!
Cast sites. A site is compiled before anything runs: into cast functions for a classical target,
into an encoding for a quantum one. Casts between quantum types do not exist.
-/
namespace LazyCast

structure CallSite where
  id : Nat
  location : Option String
  deriving DecidableEq

def CallSite.text (s : CallSite) : String :=
  match s.location with
  | some location => s!"#{s.id} ({location})"
  | none => s!"#{s.id}"

inductive CastPlan where
  /-- Run cast functions on a value, or on what a sample is read as. -/
  | convert (source : TypeName) (target : TypeName) (chain : CastChain)
  /-- Make a new lazy value that starts as a classical one. -/
  | encode (source : TypeName) (target : TypeName) (kind : Kind) (width : Nat)

namespace CastPlan

def isEncode : CastPlan → Bool
  | encode _ _ _ _ => true
  | convert _ _ _ => false

/-- Compiles the cast between two types whose kinds are among those running. -/
def compile (types : TypeTable) (casts : CastTable) (running : OrderedSet Kind)
    (source target : TypeName) : Except Fault CastPlan := do
  let s ← types.require source
  let t ← types.require target
  if !running.contains s.kind then throw (.unknownBackend s.kind.name)
  if !running.contains t.kind then throw (.unknownBackend t.kind.name)
  if t.kind.isClassical then
    let chain ← casts.compile source target
    return .convert source target chain
  else if s.kind.isClassical then return .encode source target t.kind t.width
  else throw (.unsupportedCast source target)

end CastPlan
end LazyCast
