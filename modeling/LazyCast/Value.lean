import LazyCast.Ordered
import LazyCast.Decimal.Positional
/-!
Classical values: what every cast ends in, and what a sample is read as on the way there. A value
may have an integer view, a float view, both or neither; conversions and conditions go through them.
-/
namespace LazyCast

/-- Name of a type. Names of quantum types start with `@`. -/
abbrev TypeName := String

def isQuantumName (t : TypeName) : Bool := t.toList.head? == some '@'

/-- Measured integer outcomes and how often each occurred. -/
abbrev Histogram := Table Nat Nat

inductive Value where
  | bool (b : Bool)
  /-- An untyped integer literal. -/
  | int (n : Int64)
  /-- An untyped float literal. -/
  | float (x : Float)
  | u32 (n : UInt32)
  | u64 (n : UInt64)
  | i32 (n : Int32)
  | i64 (n : Int64)
  | f32 (x : Float32)
  | f64 (x : Float)
  /-- Raw measured bits; the least significant one is the first qubit of the value. -/
  | bits (outcome : UInt64) (width : Nat)
  | histogram (table : Histogram)
  | record (type : TypeName) (fields : List (String × Value))
  deriving Inhabited

namespace Value

def typeName : Value → TypeName
  | bool _ => "bool"
  | int _ => "int"
  | float _ => "float"
  | u32 _ => "u32"
  | u64 _ => "u64"
  | i32 _ => "i32"
  | i64 _ => "i64"
  | f32 _ => "f32"
  | f64 _ => "f64"
  | bits _ _ => "bits"
  | histogram _ => "sample"
  | record type _ => type

def toInt? : Value → Option Int
  | bool b => some (if b then 1 else 0)
  | int n => some n.toInt
  | i64 n => some n.toInt
  | u32 n => some n.toNat
  | u64 n => some n.toNat
  | i32 n => some n.toInt
  | bits outcome _ => some outcome.toNat
  | _ => none

/-- The float view; integers are rounded to the nearest float. -/
def toFloat? : Value → Option Float
  | float x => some x
  | f64 x => some x
  | f32 x => some x.toFloat
  | v => v.toInt?.map Float.ofInt

/-- What a condition makes of a value. A value that is not a number holds when it is not empty. -/
def truthy : Value → Bool
  | bool b => b
  | histogram table => !table.isEmpty
  | record _ fields => !fields.isEmpty
  | v => match v.toFloat? with
    | some x => x != 0
    | none => false

def field? (v : Value) (name : String) : Option Value :=
  match v with
  | record _ fields => fields.findSome? fun f => if f.1 = name then some f.2 else none
  | _ => none

end Value

/-- Each outcome with its count, in increasing order of outcomes. -/
def Histogram.text (h : Histogram) : String :=
  "\x7b" ++ ", ".intercalate (h.entries.map fun e => toString e.1 ++ ": " ++ toString e.2) ++ "\x7d"

namespace Value

mutual

def text : Value → String
  | bool b => if b then "true" else "false"
  | int n => toString n.toInt
  | i64 n => toString n.toInt
  | float x => Decimal.floatText x
  | f64 x => Decimal.floatText x
  | u32 n => toString n.toNat
  | u64 n => toString n.toNat
  | i32 n => toString n.toInt
  | f32 x => Decimal.float32Text x
  | bits outcome width => Text.binary width outcome.toNat
  | histogram table => table.text
  | record type fields => type ++ "(" ++ ", ".intercalate (fieldTexts fields) ++ ")"

def fieldTexts : List (String × Value) → List String
  | [] => []
  | (name, v) :: rest => (name ++ ": " ++ v.text) :: fieldTexts rest

end

end Value

/-- The words of a signed 64-bit range, when the integer is one of them. -/
def int64? (n : Int) : Option Int64 :=
  if -9223372036854775808 ≤ n ∧ n < 9223372036854775808 then some (Int64.ofInt n) else none

def int32? (n : Int) : Option Int32 :=
  if -2147483648 ≤ n ∧ n < 2147483648 then some (Int32.ofInt n) else none

/-- The integer itself, when a signed 128-bit word holds it. -/
def int128? (n : Int) : Option Int :=
  if -170141183460469231731687303715884105728 ≤ n ∧ n < 170141183460469231731687303715884105728 then
    some n
  else none

/-- The integer of a signed 128-bit word nearest to the given one. -/
def saturate128 (n : Int) : Int :=
  max (-170141183460469231731687303715884105728) (min n 170141183460469231731687303715884105727)

def uint64? (n : Int) : Option UInt64 :=
  if 0 ≤ n ∧ n < 18446744073709551616 then some (UInt64.ofNat n.toNat) else none

def uint32? (n : Int) : Option UInt32 :=
  if 0 ≤ n ∧ n < 4294967296 then some (UInt32.ofNat n.toNat) else none

/-- What sixty-four bits hold has passed through 128 bits unharmed. -/
theorem int128?_bind_int64? (n : Int) : (int128? n).bind int64? = int64? n := by
  unfold int128?
  split
  · rfl
  · next outside =>
    have outside : ¬ (-9223372036854775808 ≤ n ∧ n < 9223372036854775808) := by omega
    exact (if_neg outside).symm

end LazyCast
