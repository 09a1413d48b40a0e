import LazyCast.Fault
/-!
Conversion of a value into a primitive type. Integer targets take the integer view, or a finite
float cut off toward zero, and refuse what lies outside their range; nothing wraps or saturates
into it.
-/
namespace LazyCast

/-- The floating-point word of a value. One of 32 bits is read as it stands: widening is exact. -/
def Value.reading? : Value → Option Decimal.Reading
  | .float x => some (Decimal.ofFloat x)
  | .f64 x => some (Decimal.ofFloat x)
  | .f32 x => some (Decimal.ofFloat32 x)
  | _ => none

/-- The integer a value stands for when it is converted to `target`. Floats saturate at 128 bits,
    which is outside the range of every target. -/
def Value.integerFor (v : Value) (target : TypeName) : Except Fault Int :=
  match v.toInt? with
  | some n => .ok n
  | none =>
    match v.reading? with
    | none => .error (.reading target (.notCastable v))
    | some r =>
      match Decimal.truncate? r with
      | some n => .ok (saturate128 n)
      | none => .error (.overflow v target)

/-- The integer fitted into a range, or an overflow. -/
def Value.fitted (v : Value) (target : TypeName) (fit : Int → Option Value) : Except Fault Value :=
  (v.integerFor target).bind fun n =>
    match fit n with
    | some w => .ok w
    | none => .error (.overflow v target)

def Value.floatFor (v : Value) (target : TypeName) : Except Fault Float :=
  match v.toFloat? with
  | some x => .ok x
  | none => .error (.reading target (.notCastable v))

def Value.convert (v : Value) (target : TypeName) : Except Fault Value :=
  match target with
  | "bool" => .ok (.bool v.truthy)
  | "int" => v.fitted target fun n => (int64? n).map .int
  | "u32" => v.fitted target fun n => (uint32? n).map .u32
  | "u64" => v.fitted target fun n => (uint64? n).map .u64
  | "i32" => v.fitted target fun n => (int32? n).map .i32
  | "i64" => v.fitted target fun n => (int64? n).map .i64
  | "f32" => (v.floatFor target).map fun x => .f32 x.toFloat32
  | "f64" => (v.floatFor target).map .f64
  | "float" => (v.floatFor target).map .float
  | _ => .error (.reading target (.notCastable v))

end LazyCast
