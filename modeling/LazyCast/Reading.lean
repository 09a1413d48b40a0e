import LazyCast.Arithmetic
import LazyCast.Fault
import LazyCast.Sample
/-!
Reading a sample as a type. Each type that can be read has a policy; a deterministic sample passes
its value through under every policy.
-/
namespace LazyCast

inductive ReadingPolicy where
  | majorityVote
  | leastFrequent
  | histogram
  | expectation
  | direct
  deriving DecidableEq

def ReadingPolicy.name : ReadingPolicy → String
  | majorityVote => "MajorityVote"
  | leastFrequent => "LeastFrequent"
  | histogram => "Histogram"
  | expectation => "Expectation"
  | direct => "Direct"

/-- The policy of each type that can be read. -/
abbrev Interpreter := Table TypeName ReadingPolicy

namespace Interpreter

def register (i : Interpreter) (type : TypeName) (policy : ReadingPolicy) : Interpreter :=
  i.insert type policy

/-- Integers and truth values take the most frequent outcome, floats the mean outcome. -/
def builtin : Interpreter :=
  Table.ofList <|
    (["bool", "int", "u32", "u64", "i32", "i64"].map fun t => (t, ReadingPolicy.majorityVote)) ++
    (["f32", "f64", "float"].map fun t => (t, ReadingPolicy.expectation)) ++
    [("sample", ReadingPolicy.histogram)]

/-- One character per measured qubit, each 0 or 1. -/
def wellFormedOutcome (outcome : String) (width : Nat) : Bool :=
  decide (outcome.utf8ByteSize = width) && outcome.toList.all fun c => c == '0' || c == '1'

/-- What is wrong with a sample. Of several malformed outcomes any may be named; here it is the first
    of the table. -/
def flaw? (s : MeasuredSample) : Option ReadingCause :=
  let width := s.qubits.length
  if s.counts.total = 0 then some .noShots
  else if width = 0 ∨ 64 < width then some (.badWidth width)
  else (s.counts.keys.find? fun o => !wellFormedOutcome o width).map (.malformedOutcome · width)

def bitsOf (outcome : String) (width : Nat) : Except ReadingCause Value :=
  match outcomeValue? outcome with
  | some n => .ok (.bits (UInt64.ofNat n) width)
  | none => .error (.badOutcome outcome)

/-- Outcomes weighted with their counts, least outcome first. -/
def mean (h : Histogram) : Float :=
  (h.entries.map fun e => Float.ofNat e.1 * Float.ofNat e.2).foldl (· + ·) 0 /
    Float.ofNat (sumOf h.values)

def readMeasured (policy : ReadingPolicy) (s : MeasuredSample) : Except ReadingCause Value :=
  let width := s.qubits.length
  let chosen (entry : Option (String × Nat)) : Except ReadingCause Value :=
    match entry with
    | some e => bitsOf e.1 width
    | none => .error .noShots
  match policy with
  | .majorityVote => chosen s.counts.mostFrequent?
  | .leastFrequent => chosen s.counts.leastFrequent?
  | .histogram =>
    match s.histogram? with
    | some h => .ok (.histogram h)
    | none => .error .unreadableOutcomes
  | .expectation =>
    match s.histogram? with
    | some h => .ok (.f64 (mean h))
    | none => .error .unreadableOutcomes
  | .direct =>
    if s.counts.size = 1 then chosen s.counts.mostFrequent?
    else .error (.severalOutcomes s.counts.size)

def read (i : Interpreter) (target : TypeName) : Sample → Except ReadingCause Value
  | sample =>
    match i.find? target with
    | none => .error .noPolicy
    | some policy =>
      match sample with
      | .deterministic (some v) _ => .ok v
      | .deterministic none _ => .error .noValue
      | .measured s =>
        match flaw? s with
        | some cause => .error cause
        | none => readMeasured policy s

def interpret (i : Interpreter) (sample : Sample) (target : TypeName) : Except Fault Value :=
  (i.read target sample).mapError (.reading target)

end Interpreter
end LazyCast
