import LazyCast.Decimal.Binary
import Mathlib.Algebra.Order.Floor.Ring
import Mathlib.Data.Rat.Floor
import Mathlib.Tactic.Ring
/-!
Floats as numbers. The word of a float stands for the number that its sign, significand and exponent
make, and cutting it off leaves what lies between that number and zero.
-/
namespace LazyCast.Decimal

open Float.Model (Format UnpackedFloat)
open Float.Model.UnpackedFloat

def towardZero (q : ℚ) : Int := if 0 ≤ q then ⌊q⌋ else ⌈q⌉

/-- The number that a float is, if it is finite. -/
def valueOf? : UnpackedFloat → Option ℚ
  | .notANumber => none
  | .infinity _ => none
  | .zero _ => some 0
  | .finite .positive mantissa exponent _ => some (mantissa * 2 ^ exponent)
  | .finite .negative mantissa exponent _ => some (-(mantissa * 2 ^ exponent))

def Magnitude.number (m : Magnitude) : ℚ := m.mantissa * 2 ^ m.exponent

def Reading.number? : Reading → Option ℚ
  | .finite negative m => some (if negative then -m.number else m.number)
  | _ => none

theorem valueOf?_isSome (u : UnpackedFloat) : (valueOf? u).isSome = u.isFinite := by
  cases u with
  | finite s m e positive => cases s <;> rfl
  | _ => rfl

section Floors
variable {m : Magnitude}

theorem Magnitude.number_nonneg (m : Magnitude) : 0 ≤ m.number :=
  mul_nonneg (Nat.cast_nonneg _) (zpow_nonneg (by norm_num) _)

theorem Magnitude.floor_eq (m : Magnitude) : ⌊m.number⌋ = (m.floor : Int) := by
  unfold Magnitude.number Magnitude.floor pow2
  by_cases whole : 0 ≤ m.exponent
  · obtain ⟨e, same⟩ := Int.eq_ofNat_of_zero_le whole
    rw [if_pos whole, same]
    have integral : (m.mantissa : ℚ) * 2 ^ (e : Int) = ((m.mantissa * 2 ^ e : Nat) : ℚ) := by
      push_cast
      rfl
    rw [integral, Int.floor_natCast]
    rfl
  · obtain ⟨e, same⟩ := Int.eq_ofNat_of_zero_le (show 0 ≤ -m.exponent by omega)
    have below : m.exponent = -(e : Int) := by omega
    have divided : (m.mantissa : ℚ) * 2 ^ m.exponent = (m.mantissa : ℚ) / ((2 ^ e : Nat) : ℚ) := by
      rw [below, zpow_neg, div_eq_mul_inv]
      push_cast
      rfl
    rw [if_neg whole, divided, same, Rat.floor_natCast_div_natCast]
    rfl

theorem truncate?_eq (r : Reading) : truncate? r = r.number?.map towardZero := by
  cases r with
  | nan => rfl
  | infinite negative => rfl
  | finite negative m =>
    have nonneg := m.number_nonneg
    cases negative with
    | false =>
      change some (m.floor : Int) = some (towardZero m.number)
      rw [towardZero, if_pos nonneg, m.floor_eq]
    | true =>
      change some (-(m.floor : Int)) = some (towardZero (-m.number))
      rw [towardZero, Int.ceil_neg, m.floor_eq]
      split
      · next zero =>
        have vanishes : m.number = 0 := by linarith
        have floor := m.floor_eq
        rw [vanishes, Int.floor_zero] at floor
        rw [vanishes, ← floor]
        rfl
      · rfl

end Floors

section Words
variable {spec : Format} (b : BitVec spec.numBits)

def ofFormat (spec : Format) : BinaryFormat := ⟨spec.mantissaBitsWithoutImplicit, spec.exponentBits⟩

theorem toNat_unpackMantissa :
    (unpackMantissa b).toNat = b.toNat % pow2 spec.mantissaBitsWithoutImplicit := by
  have width : spec.mantissaBitsWithoutImplicit - 1 - 0 + 1 = spec.mantissaBitsWithoutImplicit := by
    have := spec.hm
    omega
  change (BitVec.extractLsb (spec.mantissaBitsWithoutImplicit - 1) 0 b).toNat = _
  rw [BitVec.extractLsb_toNat, width]
  rfl

theorem toNat_unpackExponent : (unpackExponent b).toNat =
    b.toNat / pow2 spec.mantissaBitsWithoutImplicit % pow2 spec.exponentBits := by
  have width : spec.mantissaBitsWithoutImplicit + spec.exponentBits - 1 -
      spec.mantissaBitsWithoutImplicit + 1 = spec.exponentBits := by
    have := spec.he
    omega
  change (BitVec.extractLsb (spec.mantissaBitsWithoutImplicit + spec.exponentBits - 1)
    spec.mantissaBitsWithoutImplicit b).toNat = _
  rw [BitVec.extractLsb_toNat, width, Nat.shiftRight_eq_div_pow]
  rfl

theorem toNat_unpackSign : (unpackSign b).toNat =
    b.toNat / pow2 (spec.mantissaBitsWithoutImplicit + spec.exponentBits) % 2 := by
  change (BitVec.extractLsb (spec.mantissaBitsWithoutImplicit + spec.exponentBits)
    (spec.mantissaBitsWithoutImplicit + spec.exponentBits) b).toNat = _
  rw [BitVec.extractLsb_toNat, Nat.sub_self, Nat.shiftRight_eq_div_pow]
  rfl

theorem toNat_implicit {n : Nat} (m : BitVec n) : (1#1 ++ m).toNat = m.toNat + pow2 n := by
  rw [BitVec.toNat_append, ← Nat.shiftLeft_add_eq_or_of_lt m.isLt, Nat.shiftLeft_eq]
  exact (Nat.add_comm _ _).trans (congrArg (m.toNat + ·) (Nat.one_mul _))

theorem exponentBias_eq (spec : Format) : (spec.exponentBias : Int) = pow2 (spec.exponentBits - 1) - 1 := by
  have positive := pow2_pos (spec.exponentBits - 1)
  change ((pow2 (spec.exponentBits - 1) - 1 : Nat) : Int) = _
  omega

theorem eq_zero_iff {n : Nat} {v : BitVec n} : v = 0#n ↔ v.toNat = 0 := by
  rw [← BitVec.toNat_inj]
  rfl

theorem eq_ones_iff {n : Nat} {v : BitVec n} : v = -1#n ↔ v.toNat = pow2 n - 1 := by
  rw [BitVec.neg_one_eq_allOnes, ← BitVec.toNat_inj, BitVec.toNat_allOnes]
  rfl

theorem valueOf?_finite (s : BitVec 1) {mantissa : Nat} {exponent e : Int} (positive : 0 < mantissa)
    (same : e = exponent) (closer : Bool) :
    valueOf? (.finite (Sign.ofBitVec s) mantissa e positive) =
      (Reading.finite (decide (s.toNat = 1)) ⟨mantissa, exponent, closer⟩).number? := by
  subst same
  rcases BitVec.eq_zero_or_eq_one s with rfl | rfl <;> rfl

theorem number?_zero (negative closer : Bool) (exponent : Int) :
    (Reading.finite negative ⟨0, exponent, closer⟩).number? = some 0 := by
  cases negative <;> simp [Reading.number?, Magnitude.number]

theorem number?_read (spec : Format) (b : BitVec spec.numBits) :
    ((ofFormat spec).read b.toNat).number? = valueOf? (unpack spec b) := by
  have bias := exponentBias_eq spec
  unfold BinaryFormat.read unpack ofFormat BinaryFormat.leastExponent
  dsimp only
  rw [← toNat_unpackMantissa b, ← toNat_unpackExponent b, ← toNat_unpackSign b]
  by_cases ones : unpackExponent b = -1#_
  · rw [if_pos ones, if_pos (eq_ones_iff.mp ones)]
    by_cases zero : unpackMantissa b = 0#_
    · rw [if_pos zero, if_pos (eq_zero_iff.mp zero)]
      rfl
    · rw [if_neg zero, if_neg fun none => zero (eq_zero_iff.mpr none)]
      rfl
  rw [if_neg ones, if_neg fun all => ones (eq_ones_iff.mpr all)]
  by_cases least : unpackExponent b = 0#_
  · rw [if_pos least, if_pos (eq_zero_iff.mp least)]
    by_cases zero : unpackMantissa b = 0#_
    · rw [dif_pos zero, eq_zero_iff.mp zero, number?_zero]
      rfl
    · rw [dif_neg zero]
      refine (valueOf?_finite _ _ ?_ false).symm
      rw [eq_zero_iff.mp least]
      omega
  · rw [if_neg least, if_neg fun none => least (eq_zero_iff.mpr none), ← toNat_implicit]
    refine (valueOf?_finite _ _ ?_ _).symm
    omega

end Words

theorem number?_ofFloat (x : Float) : (ofFloat x).number? = valueOf? x.toModel.unpack :=
  number?_read .binary64 x.toBits.toBitVec

theorem number?_ofFloat32 (x : Float32) : (ofFloat32 x).number? = valueOf? x.toModel.unpack :=
  number?_read .binary32 x.toBits.toBitVec

end LazyCast.Decimal
