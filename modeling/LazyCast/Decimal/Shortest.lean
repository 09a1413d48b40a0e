import LazyCast.Decimal.Binary
/-!
The shortest decimal that rounds to a given binary number. Lengths are tried from one digit on; at
each length only the two neighbours of the number on that decimal grid can hit the interval of
reals that round to it. All arithmetic is exact, on natural numbers over one common denominator.
-/
namespace LazyCast.Decimal

/-- The reals that round to a number, as fractions `lower/scale`, `value/scale`, `upper/scale`.
    The ends belong to it when ties go to this number. -/
structure RoundingInterval where
  lower : Nat
  value : Nat
  upper : Nat
  scale : Nat
  closed : Bool

/-- Quarter units of the last place are enough to name both ends. -/
def Magnitude.interval (m : Magnitude) : RoundingInterval :=
  let q := m.exponent - 2
  let unit := if 0 ≤ q then pow2 q.toNat else 1
  { lower := (4 * m.mantissa - if m.closerBelow then 1 else 2) * unit
    value := 4 * m.mantissa * unit
    upper := (4 * m.mantissa + 2) * unit
    scale := if 0 ≤ q then 1 else pow2 (-q).toNat
    closed := decide (m.mantissa % 2 = 0) }

/-- The decimal `digits · 10 ^ exponent`. -/
structure Scientific where
  digits : Nat
  exponent : Int
  deriving DecidableEq

/-- One trailing zero moved into the exponent, as when `9.9…` rounds up to `10`. -/
def Scientific.reduced (d : Scientific) : Scientific :=
  if d.digits % 10 = 0 then ⟨d.digits / 10, d.exponent + 1⟩ else d

def digitCount (n : Nat) : Nat := (Nat.toDigits 10 n).length

namespace RoundingInterval

/-- The least `d` with `value / scale < 10 ^ d`, for a positive value. -/
def magnitude10 (r : RoundingInterval) : Int :=
  if r.scale ≤ r.value then digitCount (r.value / r.scale)
  else 1 - (digitCount ((r.scale - 1) / r.value) : Int)

/-- The interval counted in units of `10 ^ e`. -/
def inUnits (r : RoundingInterval) (e : Int) : RoundingInterval :=
  if 0 ≤ e then { r with scale := r.scale * pow10 e.toNat }
  else
    let p := pow10 (-e).toNat
    { r with lower := r.lower * p, value := r.value * p, upper := r.upper * p }

def holds (r : RoundingInterval) (n : Nat) : Bool :=
  if r.closed then decide (r.lower ≤ n * r.scale) && decide (n * r.scale ≤ r.upper)
  else decide (r.lower < n * r.scale) && decide (n * r.scale < r.upper)

/-- The integer of the interval nearest to its value among the value's two neighbours; of two
    equally near ones the greater. -/
def nearest? (r : RoundingInterval) : Option Nat :=
  let below := r.value / r.scale
  let above := below + 1
  match r.holds below, r.holds above with
  | true, true => some (if r.value - below * r.scale < above * r.scale - r.value then below else above)
  | true, false => some below
  | false, true => some above
  | false, false => none

/-- Tries `count` digits, then one more, `fuel` times. -/
def search (r : RoundingInterval) : Nat → Nat → Scientific
  | 0, _ => ⟨0, 0⟩
  | fuel + 1, count =>
    let e := r.magnitude10 - count
    match (r.inUnits e).nearest? with
    | some n => Scientific.reduced ⟨n, e⟩
    | none => r.search fuel (count + 1)

end RoundingInterval

/-- Seventeen digits always suffice for sixty-four bits, and zero takes one. -/
def Magnitude.shortest (m : Magnitude) : Scientific :=
  if m.mantissa = 0 then ⟨0, 0⟩ else m.interval.search 18 1

end LazyCast.Decimal
