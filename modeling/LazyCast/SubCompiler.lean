import LazyCast.Classical
import LazyCast.Simulator
/-!
Sub-compilers: what serves a backend kind. Lowering is a function of the instructions alone; an
execution may also depend on how often the sub-compiler ran before, and may take time or crash.
-/
namespace LazyCast

structure Usage where
  /-- Executions begun. -/
  attempts : Nat
  /-- Executions that went as far as drawing samples. -/
  samplings : Nat
  deriving DecidableEq

inductive Attempt where
  /-- The sub-compiler dies at once. -/
  | crash
  /-- An answer after a delay in milliseconds; `sampled` when samples were drawn for it. -/
  | answer (delay : Nat) (sampled : Bool) (result : Except Fault Sample)

structure SubCompiler where
  name : String
  capabilities : Capabilities
  lower : List Instruction → Except Fault Program
  /-- Runs a bound program, given what the sub-compiler has been through before. -/
  execute : Usage → Program → Attempt

def Evaluator.subCompiler (e : Evaluator) : SubCompiler where
  name := e.name
  capabilities := e.capabilities
  lower := e.lower
  execute _ p := .answer 0 false (e.execute p)

def Simulator.subCompiler (s : Simulator) : SubCompiler where
  name := s.name
  capabilities := s.capabilities
  lower := s.lower
  execute usage p :=
    match s.execute usage.samplings p with
    | .ok sample => .answer 0 true (.ok (.measured sample))
    | .error e => .answer 0 false (.error e)

abbrev SubCompilerFactory := Descriptor → Except Fault SubCompiler

/-- Makers of sub-compilers, by the module that a descriptor names. -/
abbrev ModuleTable := Table String SubCompilerFactory

namespace ModuleTable

def builtin : ModuleTable :=
  Table.ofList
    [(classicalModule, fun d => .ok (Evaluator.ofDescriptor d).subCompiler),
     (stateVectorModule, fun d => (Simulator.ofDescriptor d).map Simulator.subCompiler)]

def instantiate (t : ModuleTable) (d : Descriptor) : Except Fault SubCompiler :=
  match t.find? d.module with
  | some make => make d
  | none => .error (.configuration (.unknownModule d.name d.module))

end ModuleTable
end LazyCast
