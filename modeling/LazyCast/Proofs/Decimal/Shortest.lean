import LazyCast.Decimal.Shortest
import LazyCast.Proofs.Decimal.Rounding
import Mathlib.Tactic.FieldSimp
/-!
The shortest digits of a float. A decimal that hits the interval of a magnitude rounds back to it, and
eighteen digits always hit: their grid is finer than half a step of the float's own.
-/
namespace LazyCast.Decimal

def Scientific.number (d : Scientific) : ℚ := d.digits * 10 ^ d.exponent

theorem Scientific.number_reduced (d : Scientific) : d.reduced.number = d.number := by
  unfold reduced
  split
  · next last =>
    have ten : d.digits = 10 * (d.digits / 10) := by omega
    have split : (d.digits : ℚ) = 10 * ((d.digits / 10 : Nat) : ℚ) := by exact_mod_cast ten
    unfold number
    rw [split, zpow_add_one₀ (by norm_num)]
    ring
  · rfl

namespace RoundingInterval
variable {r : RoundingInterval} {q : ℚ} {n : Nat} {e : Int}

/-- The number lies in the interval, at an end only if the ends belong to it. -/
structure Contains (r : RoundingInterval) (q : ℚ) : Prop where
  low : r.lower ≤ q * r.scale
  high : q * r.scale ≤ r.upper
  ends : q * r.scale = r.lower ∨ q * r.scale = r.upper → r.closed = true

theorem contains_of_holds (held : r.holds n = true) : r.Contains n := by
  unfold holds at held
  cases closed : r.closed with
  | true =>
    rw [if_pos closed, Bool.and_eq_true, decide_eq_true_iff, decide_eq_true_iff] at held
    obtain ⟨low, high⟩ := held
    exact ⟨by exact_mod_cast low, by exact_mod_cast high, fun _ => closed⟩
  | false =>
    rw [if_neg (by rw [closed]; exact Bool.false_ne_true), Bool.and_eq_true, decide_eq_true_iff,
      decide_eq_true_iff] at held
    obtain ⟨low, high⟩ := held
    have low : (r.lower : ℚ) < n * r.scale := by exact_mod_cast low
    have high : (n * r.scale : ℚ) < r.upper := by exact_mod_cast high
    refine ⟨low.le, high.le, ?_⟩
    rintro (at_low | at_high)
    · exact absurd at_low low.ne'
    · exact absurd at_high high.ne

theorem pow10_cast (e : Int) (le : 0 ≤ e) : ((pow10 e.toNat : Nat) : ℚ) = 10 ^ e := by
  obtain ⟨k, rfl⟩ := Int.eq_ofNat_of_zero_le le
  rw [Int.toNat_natCast, zpow_natCast]
  exact_mod_cast rfl

theorem contains_inUnits : (r.inUnits e).Contains q ↔ r.Contains (q * 10 ^ e) := by
  unfold inUnits
  by_cases le : 0 ≤ e
  · have power := pow10_cast e le
    have same : q * ((r.scale * pow10 e.toNat : Nat) : ℚ) = q * 10 ^ e * r.scale := by
      push_cast
      rw [power]
      ring
    rw [if_pos le]
    exact ⟨fun ⟨low, high, ends⟩ => ⟨same ▸ low, same ▸ high, same ▸ ends⟩,
      fun ⟨low, high, ends⟩ => ⟨same ▸ low, same ▸ high, same ▸ ends⟩⟩
  · have power := pow10_cast (-e) (by omega)
    have unit : (0 : ℚ) < 10 ^ (-e) := by positivity
    have scaled : ∀ n : Nat, ((n * pow10 (-e).toNat : Nat) : ℚ) = n * 10 ^ (-e) := fun n => by
      push_cast
      rw [power]
    have same : q * r.scale = q * 10 ^ e * r.scale * 10 ^ (-e) := by
      rw [zpow_neg]
      field_simp
    rw [if_neg le]
    constructor
    · rintro ⟨low, high, ends⟩
      dsimp only at low high ends
      rw [scaled, same] at low high ends
      rw [scaled] at ends
      exact ⟨le_of_mul_le_mul_right low unit, le_of_mul_le_mul_right high unit, fun at_end =>
        ends (at_end.imp (fun h => by rw [h]) fun h => by rw [h])⟩
    · rintro ⟨low, high, ends⟩
      refine ⟨?_, ?_, fun at_end => ends ?_⟩
      · rw [scaled, same]
        exact mul_le_mul_of_nonneg_right low unit.le
      · rw [scaled, same]
        exact mul_le_mul_of_nonneg_right high unit.le
      · dsimp only at at_end
        rw [scaled, scaled, same] at at_end
        exact at_end.imp (mul_right_cancel₀ unit.ne') (mul_right_cancel₀ unit.ne')

theorem holds_of_nearest? (found : r.nearest? = some n) : r.holds n = true := by
  unfold nearest? at found
  dsimp only at found
  split at found
  · next below above =>
    split at found
    · cases found
      exact below
    · cases found
      exact above
  · next below _ =>
    cases found
    exact below
  · next above =>
    cases found
    exact above
  · cases found

theorem nearest?_of_wide (scale : 0 < r.scale) (below : r.lower < r.value)
    (wide : r.value + r.scale < r.upper) : r.nearest? ≠ none := by
  have quotient := Nat.div_add_mod r.value r.scale
  have rest := Nat.mod_lt r.value scale
  have above : r.holds (r.value / r.scale + 1) = true := by
    have product : (r.value / r.scale + 1) * r.scale = r.value - r.value % r.scale + r.scale := by
      rw [Nat.add_mul, Nat.one_mul, Nat.mul_comm]
      omega
    unfold holds
    rw [product]
    split
    · rw [Bool.and_eq_true, decide_eq_true_iff, decide_eq_true_iff]
      omega
    · rw [Bool.and_eq_true, decide_eq_true_iff, decide_eq_true_iff]
      omega
  unfold nearest?
  dsimp only
  rw [above]
  split <;> simp_all

theorem search_hits {fuel count last : Nat} (from_ : count ≤ last) (within : last < count + fuel)
    (hit : (r.inUnits (r.magnitude10 - last)).nearest? ≠ none) : ∃ n e,
      (r.inUnits e).nearest? = some n ∧ r.search fuel count = Scientific.reduced ⟨n, e⟩ := by
  induction fuel generalizing count with
  | zero => omega
  | succ fuel ih =>
    rw [search]
    cases found : (r.inUnits (r.magnitude10 - count)).nearest? with
    | some n => exact ⟨n, _, found, rfl⟩
    | none =>
      have other : count ≠ last := by
        rintro rfl
        exact hit found
      exact ih (by omega) (by omega)

theorem pow_digitCount_le (pos : 0 < n) : 10 ^ (digitCount n - 1) ≤ n := by
  rcases Nat.eq_zero_or_pos (digitCount n - 1) with zero | more
  · rw [zero]
    omega
  · by_contra less
    have few := (Nat.length_toDigits_le_iff (by decide) more).mpr (Nat.lt_of_not_le less)
    have count : digitCount n = (Nat.toDigits 10 n).length := rfl
    omega

theorem lt_pow_digitCount (n : Nat) : n < 10 ^ digitCount n :=
  (Nat.length_toDigits_le_iff (by decide) Nat.length_toDigits_pos).mp (le_refl _)

theorem magnitude10_le (scale : 0 < r.scale) (value : 0 < r.value) :
    (10 : ℚ) ^ (r.magnitude10 - 1) ≤ r.value / r.scale := by
  have positive : (0 : ℚ) < r.scale := by exact_mod_cast scale
  rw [le_div_iff₀ positive]
  unfold magnitude10
  by_cases whole : r.scale ≤ r.value
  · have digits := pow_digitCount_le (Nat.div_pos whole scale)
    have count : 0 < digitCount (r.value / r.scale) := Nat.length_toDigits_pos
    rw [if_pos whole, show ((digitCount (r.value / r.scale) : Nat) : Int) - 1 =
      ((digitCount (r.value / r.scale) - 1 : Nat) : Int) by omega, zpow_natCast]
    exact_mod_cast (Nat.mul_le_mul_right r.scale digits).trans (Nat.div_mul_le_self _ _)
  · have digits := lt_pow_digitCount ((r.scale - 1) / r.value)
    have product := (Nat.div_lt_iff_lt_mul value).mp digits
    have enough : (r.scale : ℚ) ≤ 10 ^ digitCount ((r.scale - 1) / r.value) * r.value := by
      exact_mod_cast (show r.scale ≤ 10 ^ digitCount ((r.scale - 1) / r.value) * r.value by omega)
    rw [if_neg whole, show (1 - (digitCount ((r.scale - 1) / r.value) : Int)) - 1 =
      -((digitCount ((r.scale - 1) / r.value) : Nat) : Int) by omega, zpow_neg, zpow_natCast,
      inv_mul_le_iff₀ (by positivity)]
    exact enough

theorem nearest?_inUnits (scale : 0 < r.scale) (below : r.lower < r.value)
    (wide : (10 : ℚ) ^ e * r.scale < (r.upper : ℚ) - r.value) : (r.inUnits e).nearest? ≠ none := by
  unfold inUnits
  by_cases le : 0 ≤ e
  · rw [if_pos le]
    apply nearest?_of_wide
    · exact Nat.mul_pos scale (pow10_pos _)
    · exact below
    · have sum : ((r.value + r.scale * pow10 e.toNat : Nat) : ℚ) < r.upper := by
        push_cast
        rw [pow10_cast e le]
        linarith
      exact_mod_cast sum
  · have unit : (0 : ℚ) < 10 ^ (-e) := by positivity
    have one : (10 : ℚ) ^ e * 10 ^ (-e) = 1 := by
      rw [zpow_neg]
      field_simp
    rw [if_neg le]
    apply nearest?_of_wide
    · exact scale
    · exact Nat.mul_lt_mul_of_pos_right below (pow10_pos _)
    · have sum : ((r.value * pow10 (-e).toNat + r.scale : Nat) : ℚ) <
          (r.upper * pow10 (-e).toNat : Nat) := by
        push_cast
        rw [pow10_cast (-e) (by omega)]
        have scaled := mul_lt_mul_of_pos_right wide unit
        rw [mul_right_comm, one, one_mul, sub_mul] at scaled
        linarith
      exact_mod_cast sum

end RoundingInterval

namespace Magnitude
variable {m : Magnitude} {q : ℚ}

theorem unit_interval (m : Magnitude) :
    ((if 0 ≤ m.exponent - 2 then pow2 (m.exponent - 2).toNat else 1 : Nat) : ℚ) =
      2 ^ m.exponent / 4 * m.interval.scale := by
  have quarter : (2 : ℚ) ^ m.exponent / 4 = 2 ^ (m.exponent - 2) := by
    rw [zpow_sub₀ (by norm_num)]
    norm_num
  rw [quarter]
  unfold interval
  dsimp only
  split
  · next le =>
    obtain ⟨k, same⟩ := Int.eq_ofNat_of_zero_le le
    rw [same, Int.toNat_natCast, zpow_natCast, Nat.cast_one, mul_one]
    exact_mod_cast rfl
  · next less =>
    obtain ⟨k, same⟩ := Int.eq_ofNat_of_zero_le (show 0 ≤ -(m.exponent - 2) by omega)
    have power : ((pow2 k : Nat) : ℚ) = 2 ^ k := by exact_mod_cast rfl
    rw [same, Int.toNat_natCast, power, show m.exponent - 2 = -(k : Int) by omega, zpow_neg,
      zpow_natCast, Nat.cast_one]
    exact (inv_mul_cancel₀ (by positivity)).symm

theorem scale_interval (m : Magnitude) : 0 < m.interval.scale := by
  unfold interval
  dsimp only
  split
  · exact Nat.one_pos
  · exact pow2_pos _

theorem value_interval (m : Magnitude) : (m.interval.value : ℚ) = m.number * m.interval.scale := by
  have unit := unit_interval m
  have value : m.interval.value = 4 * m.mantissa *
    if 0 ≤ m.exponent - 2 then pow2 (m.exponent - 2).toNat else 1 := rfl
  rw [value]
  push_cast at unit ⊢
  rw [unit]
  unfold number
  ring

theorem upper_interval (m : Magnitude) :
    (m.interval.upper : ℚ) = (m.number + m.halfAbove) * m.interval.scale := by
  have unit := unit_interval m
  have upper : m.interval.upper = (4 * m.mantissa + 2) *
    if 0 ≤ m.exponent - 2 then pow2 (m.exponent - 2).toNat else 1 := rfl
  rw [upper]
  push_cast at unit ⊢
  rw [unit]
  unfold number halfAbove
  ring

theorem lower_interval (pos : 0 < m.mantissa) :
    (m.interval.lower : ℚ) = (m.number - m.halfBelow) * m.interval.scale := by
  have unit := unit_interval m
  have lower : m.interval.lower = (4 * m.mantissa - if m.closerBelow then 1 else 2) *
    if 0 ≤ m.exponent - 2 then pow2 (m.exponent - 2).toNat else 1 := rfl
  have less : (if m.closerBelow then 1 else 2) ≤ 4 * m.mantissa := by split <;> omega
  rw [lower, Nat.cast_mul, Nat.cast_sub less]
  push_cast at unit ⊢
  rw [unit]
  unfold number halfBelow
  split <;> ring

theorem around_of_contains (pos : 0 < m.mantissa) (contains : m.interval.Contains q) :
    m.Around q := by
  have scale : (0 : ℚ) < m.interval.scale := by exact_mod_cast m.scale_interval
  obtain ⟨low, high, ends⟩ := contains
  rw [lower_interval pos] at low ends
  rw [upper_interval] at high ends
  refine ⟨le_of_mul_le_mul_right low scale, le_of_mul_le_mul_right high scale, fun tie => ?_⟩
  have closed := ends (tie.imp (congrArg (· * _)) (congrArg (· * _)))
  exact of_decide_eq_true closed

/-- At eighteen digits the grid is finer than half a step. -/
theorem eighteen_digits (canonical : m.Canonical) (pos : 0 < m.mantissa) :
    (m.interval.inUnits (m.interval.magnitude10 - (18 : Nat))).nearest? ≠ none := by
  have scale : (0 : ℚ) < m.interval.scale := by exact_mod_cast m.scale_interval
  have unit : (0 : ℚ) < 2 ^ m.exponent := by positivity
  have half : 0 < m.halfBelow := by
    unfold halfBelow
    split <;> positivity
  have below : (m.interval.lower : ℚ) < m.interval.value := by
    rw [lower_interval pos, value_interval]
    exact mul_lt_mul_of_pos_right (by linarith) scale
  have above : (m.interval.value : ℚ) = m.number * m.interval.scale := value_interval m
  have some : (0 : ℚ) < m.mantissa := by exact_mod_cast pos
  have value : (0 : ℚ) < m.interval.value := by
    rw [above]
    exact mul_pos (mul_pos some unit) scale
  have digits := RoundingInterval.magnitude10_le m.scale_interval (by exact_mod_cast value)
  have bits : (m.mantissa : ℚ) < 2 ^ 53 := by exact_mod_cast canonical.small
  apply RoundingInterval.nearest?_inUnits m.scale_interval (by exact_mod_cast below)
  rw [upper_interval, above, ← sub_mul]
  apply mul_lt_mul_of_pos_right _ scale
  rw [above, mul_div_cancel_right₀ _ scale.ne'] at digits
  have fine : (10 : ℚ) ^ (m.interval.magnitude10 - (18 : Nat)) * 10 ^ 17 ≤ m.number := by
    refine le_trans (le_of_eq ?_) digits
    rw [← zpow_natCast, ← zpow_add₀ (by norm_num)]
    congr 1
    push_cast
    ring
  have most : m.number < 2 ^ 53 * 2 ^ m.exponent := mul_lt_mul_of_pos_right bits unit
  unfold halfAbove
  generalize (10 : ℚ) ^ (m.interval.magnitude10 - (18 : Nat)) = g at fine ⊢
  linarith

theorem rounds_shortest (canonical : m.Canonical) : m.Rounds m.shortest.number := by
  unfold shortest
  split
  · next zero =>
    have none : m.number = 0 := by simp [number, zero]
    have same : (Scientific.mk 0 0).number = 0 := by simp [Scientific.number]
    rw [same]
    exact ⟨fun y _ => by rw [none, sub_zero, abs_zero]; exact abs_nonneg _,
      fun _ _ _ _ => by rw [zero]⟩
  · next some =>
    have pos := Nat.pos_of_ne_zero some
    obtain ⟨n, e, found, same⟩ := @RoundingInterval.search_hits m.interval 18 1 18 (by decide)
      (by decide) (eighteen_digits canonical pos)
    have contains := RoundingInterval.contains_inUnits.mp
      (RoundingInterval.contains_of_holds (RoundingInterval.holds_of_nearest? found))
    rw [same, Scientific.number_reduced]
    exact (around_of_contains pos contains).rounds canonical

end Magnitude
end LazyCast.Decimal
