import LazyCast.Proofs.Decimal.Truncation
import Mathlib.Algebra.Order.Field.Power
import Mathlib.Tactic.Linarith
import Mathlib.Tactic.Positivity
/-!
Rounding to the nearest binary64 number, a tie to the even significand. A float keeps its magnitude at
one exponent, so its neighbours are known, and what lies no further from it than halfway to them
rounds to it.
-/
namespace LazyCast.Decimal

def Binary (y : ℚ) : Prop :=
  ∃ (k : Nat) (e : Int), k < 2 ^ 53 ∧ -1074 ≤ e ∧ y = k * 2 ^ e

namespace Magnitude

structure Canonical (m : Magnitude) : Prop where
  small : m.mantissa < 2 ^ 53
  least : -1074 ≤ m.exponent
  full : 2 ^ 52 ≤ m.mantissa ∨ m.exponent = -1074
  closer : m.closerBelow = true ↔ m.mantissa = 2 ^ 52 ∧ -1074 < m.exponent

/-- A number rounds to the magnitude: no other is nearer, and if one is as near, this one is even. -/
structure Rounds (m : Magnitude) (q : ℚ) : Prop where
  nearest : ∀ y, Binary y → |q - m.number| ≤ |q - y|
  even : ∀ y, Binary y → y ≠ m.number → |q - y| = |q - m.number| → m.mantissa % 2 = 0

def halfAbove (m : Magnitude) : ℚ := 2 ^ m.exponent / 2

def halfBelow (m : Magnitude) : ℚ := if m.closerBelow then 2 ^ m.exponent / 4 else 2 ^ m.exponent / 2

structure Around (m : Magnitude) (q : ℚ) : Prop where
  low : m.number - m.halfBelow ≤ q
  high : q ≤ m.number + m.halfAbove
  tie : q = m.number - m.halfBelow ∨ q = m.number + m.halfAbove → m.mantissa % 2 = 0

end Magnitude

section Neighbours
variable {m : Magnitude} {y : ℚ}

theorem onGrid {e : Int} (k : Nat) {f : Int} (le : e ≤ f) :
    ∃ j : Nat, (k : ℚ) * 2 ^ f = j * 2 ^ e := by
  obtain ⟨d, same⟩ := Int.eq_ofNat_of_zero_le (show 0 ≤ f - e by omega)
  refine ⟨k * 2 ^ d, ?_⟩
  rw [show f = e + d by omega, zpow_add₀ (by norm_num), zpow_natCast]
  push_cast
  ring

/-- Numbers at a smaller exponent stay a step of it short of where fewer bits would do. -/
theorem belowGrid {k : Nat} {e f : Int} (small : k < 2 ^ 53) (less : e < f) :
    (k : ℚ) * 2 ^ e ≤ 2 ^ 52 * 2 ^ f - 2 ^ f / 2 := by
  have bits : (k : ℚ) ≤ 2 ^ 53 - 1 := by
    have : k + 1 ≤ 2 ^ 53 := small
    have : (k : ℚ) + 1 ≤ 2 ^ 53 := by exact_mod_cast this
    linarith
  have step : (2 : ℚ) ^ e ≤ 2 ^ f / 2 := by
    have le : (2 : ℚ) ^ e ≤ 2 ^ (f - 1) := zpow_le_zpow_right₀ (by norm_num) (by omega)
    rwa [zpow_sub_one₀ (by norm_num), ← div_eq_mul_inv] at le
  calc (k : ℚ) * 2 ^ e ≤ (2 ^ 53 - 1) * (2 ^ f / 2) :=
        mul_le_mul bits step (by positivity) (by norm_num)
    _ = 2 ^ 52 * 2 ^ f - 2 ^ f / 2 := by ring

theorem Magnitude.Canonical.above (canonical : m.Canonical) (binary : Binary y)
    (more : m.number < y) : m.number + 2 * m.halfAbove ≤ y := by
  obtain ⟨k, e, small, least, rfl⟩ := binary
  have unit : (0 : ℚ) < 2 ^ m.exponent := by positivity
  unfold Magnitude.number Magnitude.halfAbove at *
  rcases lt_or_ge e m.exponent with less | le
  · -- A finer number is no more than any that needs all bits.
    have full : 2 ^ 52 ≤ m.mantissa := canonical.full.resolve_right (by omega)
    have bits : (2 ^ 52 : ℚ) ≤ m.mantissa := by exact_mod_cast full
    have bound := belowGrid small less
    have scaled := mul_le_mul_of_nonneg_right bits unit.le
    linarith
  · obtain ⟨j, same⟩ := onGrid k le
    rw [same] at more ⊢
    have next : m.mantissa + 1 ≤ j := by
      have := lt_of_mul_lt_mul_right more unit.le
      exact_mod_cast this
    have next : (m.mantissa : ℚ) + 1 ≤ j := by exact_mod_cast next
    have scaled := mul_le_mul_of_nonneg_right next unit.le
    linarith

theorem Magnitude.Canonical.below (canonical : m.Canonical) (binary : Binary y)
    (less : y < m.number) : y ≤ m.number - 2 * m.halfBelow := by
  obtain ⟨k, e, small, least, rfl⟩ := binary
  have unit : (0 : ℚ) < 2 ^ m.exponent := by positivity
  unfold Magnitude.number Magnitude.halfBelow at *
  rcases lt_or_ge e m.exponent with finer | le
  · have full : 2 ^ 52 ≤ m.mantissa := canonical.full.resolve_right (by omega)
    have bound := belowGrid small finer
    by_cases first : m.mantissa = 2 ^ 52
    · rw [if_pos (canonical.closer.mpr ⟨first, by omega⟩), first]
      push_cast
      linarith
    · rw [if_neg fun closer => first (canonical.closer.mp closer).1]
      have bits : (2 ^ 52 + 1 : ℚ) ≤ m.mantissa := by
        exact_mod_cast (show 2 ^ 52 + 1 ≤ m.mantissa by omega)
      have scaled := mul_le_mul_of_nonneg_right bits unit.le
      linarith
  · obtain ⟨j, same⟩ := onGrid k le
    rw [same] at less ⊢
    have next : j + 1 ≤ m.mantissa := by
      have := lt_of_mul_lt_mul_right less unit.le
      exact_mod_cast this
    have next : (j : ℚ) + 1 ≤ m.mantissa := by exact_mod_cast next
    have scaled := mul_le_mul_of_nonneg_right next unit.le
    split <;> linarith

end Neighbours

namespace Magnitude
variable {m : Magnitude} {q : ℚ}

theorem Around.rounds (around : m.Around q) (canonical : m.Canonical) : m.Rounds q := by
  have low := around.low
  have high := around.high
  constructor
  · intro y binary
    rcases lt_trichotomy y m.number with less | rfl | more
    · have gap := canonical.below binary less
      rw [abs_of_nonneg (show 0 ≤ q - y by linarith), abs_le]
      constructor <;> linarith
    · exact le_refl _
    · have gap := canonical.above binary more
      rw [abs_of_nonpos (show q - y ≤ 0 by linarith), abs_le]
      constructor <;> linarith
  · intro y binary other tie
    apply around.tie
    rcases lt_or_gt_of_ne other with less | more
    · have gap := canonical.below binary less
      rw [abs_of_nonneg (show 0 ≤ q - y by linarith)] at tie
      left
      rcases abs_cases (q - m.number) with ⟨same, _⟩ | ⟨same, _⟩ <;> linarith
    · have gap := canonical.above binary more
      rw [abs_of_nonpos (show q - y ≤ 0 by linarith)] at tie
      right
      rcases abs_cases (q - m.number) with ⟨same, _⟩ | ⟨same, _⟩ <;> linarith

theorem Rounds.number_eq (rounds : m.Rounds q) (binary : Binary q) : m.number = q := by
  have nearest := rounds.nearest q binary
  rw [sub_self, abs_zero] at nearest
  have zero : q - m.number = 0 := abs_eq_zero.mp (le_antisymm nearest (abs_nonneg _))
  linarith

end Magnitude

theorem canonical_of_read {bits : Nat} {negative : Bool} {m : Magnitude}
    (read : binary64.read bits = .finite negative m) : m.Canonical := by
  have fraction : bits % pow2 52 < 2 ^ 52 := Nat.mod_lt _ (pow2_pos 52)
  have implicit : pow2 52 = 2 ^ 52 := rfl
  have least : binary64.leastExponent = -1074 := rfl
  have fields : binary64.fractionBits = 52 := rfl
  unfold BinaryFormat.read at read
  dsimp only at read
  rw [fields, least] at read
  by_cases ones : bits / pow2 52 % pow2 binary64.exponentBits = pow2 binary64.exponentBits - 1
  · rw [if_pos ones] at read
    by_cases zero : bits % pow2 52 = 0
    · rw [if_pos zero] at read
      cases read
    · rw [if_neg zero] at read
      cases read
  rw [if_neg ones] at read
  by_cases lowest : bits / pow2 52 % pow2 binary64.exponentBits = 0
  · rw [if_pos lowest] at read
    cases read
    exact ⟨by dsimp only; omega, le_refl _, Or.inr rfl,
      iff_of_false Bool.false_ne_true fun both => by dsimp only at both; omega⟩
  · rw [if_neg lowest] at read
    cases read
    refine ⟨by dsimp only; omega, by dsimp only; omega, Or.inl (by dsimp only; omega), ?_⟩
    dsimp only
    rw [Bool.and_eq_true, decide_eq_true_iff, decide_eq_true_iff]
    constructor <;> rintro ⟨first, later⟩ <;> constructor <;> omega

theorem canonical_ofFloat {x : Float} {negative : Bool} {m : Magnitude}
    (read : ofFloat x = .finite negative m) : m.Canonical :=
  canonical_of_read read

end LazyCast.Decimal
