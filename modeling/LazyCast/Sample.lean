import LazyCast.Arithmetic
import LazyCast.Instruction
/-!
What running a program yields. In an outcome the rightmost bit belongs to the first of the
measured qubits: over qubits 4 and 9, the outcome `01` means that qubit 4 was measured as 1.
When a sample was taken and how long it took is left out, since nothing is read off it. Counts have
no order of their own; they are kept in the order of the outcomes like any other table.
-/
namespace LazyCast

/-- How often each outcome was seen. -/
abbrev Counts := Table String Nat

namespace Counts

/-- Counts of one outcome add up. -/
def add (c : Counts) (outcome : String) (count : Nat) : Counts :=
  c.update outcome fun seen => seen.getD 0 + count

def ofPairs (pairs : List (String × Nat)) : Counts :=
  pairs.foldl (fun c p => add c p.1 p.2) Table.empty

def count (c : Counts) (outcome : String) : Nat := (c.find? outcome).getD 0

def total (c : Counts) : Nat := sumOf c.values

/-- What a scan of entries is left with that goes over to those it takes. -/
def scan (takes : String × Nat → String × Nat → Bool) :
    List (String × Nat) → Option (String × Nat)
  | [] => none
  | e :: rest => some (rest.foldl (fun kept next => if takes kept next then next else kept) e)

/-- The greatest entry by its count; of several the one with the least outcome. -/
def mostFrequent? (c : Counts) : Option (String × Nat) :=
  scan (fun a b => (compare a.2 b.2).then (compare b.1 a.1) != .gt) c.entries

/-- The least entry by its count; of several the one with the least outcome. -/
def leastFrequent? (c : Counts) : Option (String × Nat) :=
  scan (fun a b => (compare a.2 b.2).then (compare a.1 b.1) == .gt) c.entries

end Counts

/-- The number that binary digits write, the last of them the least significant. -/
def binaryValue? : Nat → List Char → Option Nat
  | acc, [] => some acc
  | acc, '0' :: rest => binaryValue? (2 * acc) rest
  | acc, '1' :: rest => binaryValue? (2 * acc + 1) rest
  | _, _ => none

/-- An outcome of one to sixty-four bytes as a number. A leading plus sign is allowed in front of
    at least one digit. -/
def outcomeValue? (outcome : String) : Option Nat :=
  if outcome.utf8ByteSize = 0 ∨ 64 < outcome.utf8ByteSize then none
  else
    match outcome.toList with
    | '+' :: [] => none
    | '+' :: digits => binaryValue? 0 digits
    | digits => binaryValue? 0 digits

structure Provenance where
  backend : String
  seed : UInt64
  qasm : String
  deriving DecidableEq

structure MeasuredSample where
  counts : Counts
  shots : Nat
  qubits : List Qubit
  provenance : Option Provenance
  deriving DecidableEq

namespace MeasuredSample

/-- The positions of some qubits among others; the first one counts. -/
def positions? (qubits targets : List Qubit) : Option (List Nat) :=
  targets.mapM fun t => qubits.findIdx? fun q => decide (q = t)

/-- Reads the bits at some positions, counted from the right, as an outcome of their own. -/
def pick (positions : List Nat) (outcome : String) : String :=
  let bytes := outcome.toUTF8.toList.reverse
  String.ofList (positions.reverse.map fun i => Char.ofNat ((bytes[i]?.getD 0).toNat))

/-- The sample as seen on some of its qubits. None when a qubit was not measured, or an outcome
    does not have one byte per qubit. -/
def project (s : MeasuredSample) (targets : List Qubit) : Option MeasuredSample := do
  let positions ← positions? s.qubits targets
  if s.counts.entries.all fun e => decide (e.1.utf8ByteSize = s.qubits.length) then
    let counts := Counts.ofPairs (s.counts.entries.map fun e => (pick positions e.1, e.2))
    return { s with counts := counts, qubits := targets }
  else none

/-- Counts by outcome number. None when an outcome is not a number. -/
def histogram? (s : MeasuredSample) : Option Histogram := do
  let entries ← s.counts.entries.mapM fun e => (outcomeValue? e.1).map fun v => (v, e.2)
  return entries.foldl (fun h e => h.update e.1 fun seen => seen.getD 0 + e.2) Table.empty

end MeasuredSample

abbrev Registers := Table Register Value

inductive Sample where
  | measured (sample : MeasuredSample)
  /-- The final state of a run that measures nothing. -/
  | deterministic (value : Option Value) (registers : Registers)

end LazyCast
