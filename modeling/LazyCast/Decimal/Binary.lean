import LazyCast.Arithmetic
/-!
Binary floating-point words read as exact numbers. A finite word stands for `± m · 2 ^ q`; what is
done with it afterwards is arithmetic on natural numbers.
-/
namespace LazyCast.Decimal

structure BinaryFormat where
  fractionBits : Nat
  exponentBits : Nat

def binary64 : BinaryFormat := ⟨52, 11⟩

def binary32 : BinaryFormat := ⟨23, 8⟩

/-- A non-negative finite number `mantissa · 2 ^ exponent`, with what rounds to it. -/
structure Magnitude where
  mantissa : Nat
  exponent : Int
  /-- The numbers below lie twice as close as those above: the least mantissa of a binade. -/
  closerBelow : Bool
  deriving DecidableEq

inductive Reading where
  | nan
  | infinite (negative : Bool)
  | finite (negative : Bool) (magnitude : Magnitude)
  deriving DecidableEq

namespace BinaryFormat

/-- The exponent of the last place of the subnormal numbers. -/
def leastExponent (f : BinaryFormat) : Int :=
  2 - (pow2 (f.exponentBits - 1) : Int) - (f.fractionBits : Int)

def read (f : BinaryFormat) (bits : Nat) : Reading :=
  let fraction := bits % pow2 f.fractionBits
  let biased := bits / pow2 f.fractionBits % pow2 f.exponentBits
  let negative := decide (bits / pow2 (f.fractionBits + f.exponentBits) % 2 = 1)
  if biased = pow2 f.exponentBits - 1 then
    if fraction = 0 then .infinite negative else .nan
  else if biased = 0 then
    .finite negative ⟨fraction, f.leastExponent, false⟩
  else
    .finite negative ⟨fraction + pow2 f.fractionBits, f.leastExponent + (biased : Int) - 1,
      decide (fraction = 0) && decide (1 < biased)⟩

end BinaryFormat

namespace Magnitude

def floor (m : Magnitude) : Nat :=
  if 0 ≤ m.exponent then m.mantissa * pow2 m.exponent.toNat
  else m.mantissa / pow2 (-m.exponent).toNat

end Magnitude

def ofFloat (x : Float) : Reading := binary64.read x.toBits.toNat

def ofFloat32 (x : Float32) : Reading := binary32.read x.toBits.toNat

/-- A finite number with its fraction cut off. -/
def truncate? : Reading → Option Int
  | .finite negative m => some (if negative then -(m.floor : Int) else m.floor)
  | _ => none

end LazyCast.Decimal
