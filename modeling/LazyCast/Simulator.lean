import LazyCast.Circuit
import LazyCast.Circuit.Lowering
import LazyCast.Circuit.Qasm
import LazyCast.Random.ChaCha
import LazyCast.Registry
/-!
The state-vector sub-compiler: lowers quantum instructions to gates and runs them on real
amplitudes, sampling with a generator seeded by the descriptor and the number of the run.
-/
namespace LazyCast

structure Simulator where
  name : String
  capabilities : Capabilities
  passes : List String
  shots : Nat
  seed : UInt64
  maxQubits : Nat

namespace Simulator

def defaultShots : UInt64 := 1024

def defaultSeed : UInt64 := 7

def defaultMaxQubits : UInt64 := 16

/-- The limit of the simulator, whatever a descriptor asks for. -/
def qubitLimit : Nat := 24

def ofDescriptor (d : Descriptor) : Except Fault Simulator :=
  let shots := ((d.setting? "shots").getD defaultShots).toNat
  let maxQubits := ((d.setting? "max_qubits").getD defaultMaxQubits).toNat
  if shots = 0 ∨ 4294967296 ≤ shots then .error (.configuration (.shotsOutOfRange d.name))
  else if maxQubits = 0 ∨ qubitLimit < maxQubits then
    .error (.configuration (.qubitLimitOutOfRange d.name))
  else
    .ok ⟨d.name, ⟨d.kind, d.instructions.intersect .stateVector, true⟩, d.passes, shots,
      (d.setting? "seed").getD defaultSeed, maxQubits⟩

def lowerOne (s : Simulator) (i : Instruction) : Except Fault (List NativeOp) :=
  if s.capabilities.supports i.opcode then Lowering.lowerOne i
  else .error (.unsupportedInstruction i.opcode i.kind)

def lowerAll (s : Simulator) (instructions : List Instruction) : Except Fault Program :=
  (instructions.mapM s.lowerOne).map fun ops => ⟨s.capabilities.kind, ops.flatten⟩

def lower (s : Simulator) (instructions : List Instruction) : Except Fault Program := do
  let p ← s.lowerAll instructions
  s.passes.foldlM (fun p pass => Pass.runNamed pass p) p

/-- Basis states at most this probable are never drawn. -/
def threshold : Float := Float.ofBits 0x3CB0000000000000

/-- The seed of a run, counting the runs of this simulator from zero. -/
def seedOf (s : Simulator) (run : Nat) : UInt64 := s.seed + UInt64.ofNat run

/-- Samples a circuit in a run of the given number. -/
def sample (s : Simulator) (run : Nat) (ops : List NativeOp) (c : Circuit) : MeasuredSample :=
  let sums := Amplitudes.runningSums threshold 0 0 (c.amplitudes floatTrigonometry).toList
  let seed := s.seedOf run
  { counts := c.tally sums (Random.draws seed s.shots)
    shots := s.shots
    qubits := c.measured
    provenance := some ⟨s.name, seed, Qasm.render ops c.dense c.measured⟩ }

/-- Runs a bound program; `run` counts the earlier executions that reached sampling. -/
def execute (s : Simulator) (run : Nat) (p : Program) : Except Fault MeasuredSample :=
  ((Circuit.ofOps s.maxQubits p.ops).mapError (.execution s.capabilities.kind)).map
    (s.sample run p.ops)

end Simulator
end LazyCast
