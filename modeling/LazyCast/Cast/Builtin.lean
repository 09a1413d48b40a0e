import LazyCast.Cast.Table
import LazyCast.Value.Convert
/-!
The casts that every table starts from: between the classical primitive types, and from the quantum
unsigned types, whose sources arrive as what the sample was read as.
-/
namespace LazyCast.CastTable

def convertTo (target : TypeName) : CastFunction := fun v => v.convert target

/-- A frequency table stays what it is. -/
def keepHistogram : CastFunction
  | .histogram h => .ok (.histogram h)
  | v => .error (.reading "sample" (.notCastable v))

def classicalCasts : List (TypeName × List TypeName) :=
  [("bool", ["int", "u32", "i32", "u64", "i64", "f32", "f64", "float"]),
   ("int", ["bool", "u32", "i32", "u64", "i64", "f32", "f64", "float"]),
   ("u32", ["int", "u64", "i64", "f32", "f64", "float"]),
   ("u64", ["int", "u32", "f32", "f64"]),
   ("i32", ["int", "i64", "f32", "f64"]),
   ("i64", ["int", "i32", "f32", "f64"]),
   ("f32", ["f64"]),
   ("f64", ["f32"]),
   ("float", ["bool", "int"])]

def quantumSources : List TypeName := ["@bool", "@u2", "@u3", "@u4"]

/-- Primitive targets of every quantum source. -/
def quantumTargets : List TypeName := ["bool", "int", "u32", "u64", "i64", "f64", "float"]

def registerConversions (t : CastTable) (source : TypeName) (targets : List TypeName) :
    CastTable :=
  targets.foldl (fun t target => t.register source target (convertTo target)) t

def builtin : CastTable :=
  let classical := classicalCasts.foldl (fun t c => t.registerConversions c.1 c.2) empty
  quantumSources.foldl
    (fun t source => (t.registerConversions source quantumTargets).register source "sample" keepHistogram)
    classical

end LazyCast.CastTable
