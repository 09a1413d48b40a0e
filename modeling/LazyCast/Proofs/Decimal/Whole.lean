import LazyCast.Proofs.Decimal.Numeral
import Mathlib
/-!
Whole numbers as floats. A float made of a whole number is the one that the number rounds to, so its
digits denote it.
-/
namespace LazyCast.Decimal

open Float.Model (Format UnpackedFloat totalExponent)
open Float.Model.UnpackedFloat

section Shifting
variable {m i : Nat} {em : ExtendedMantissa}

/-- What a mantissa and its two residual bits are after a shift from an exact one. -/
structure Shifted (m i : Nat) (em : ExtendedMantissa) : Prop where
  mantissa : em.mantissa = m / 2 ^ i
  roundBit : em.roundBit = true ↔ 2 ^ i ≤ 2 * (m % 2 ^ i)
  stickyBit : em.stickyBit = true ↔ m % 2 ^ i ≠ 0 ∧ 2 * (m % 2 ^ i) ≠ 2 ^ i

theorem Shifted.step (shifted : Shifted m i em) : Shifted m (i + 1) em.shiftRightOne := by
  have power : 0 < 2 ^ i := Nat.two_pow_pos i
  have rest : m % 2 ^ i < 2 ^ i := Nat.mod_lt m power
  have split : m % 2 ^ (i + 1) = m % 2 ^ i + 2 ^ i * (m / 2 ^ i % 2) := by
    rw [Nat.pow_succ, Nat.mod_mul]
  have double : 2 ^ (i + 1) = 2 * 2 ^ i := Nat.pow_succ'
  have lost : em.roundBit = true ∨ em.stickyBit = true ↔ m % 2 ^ i ≠ 0 := by
    rw [shifted.roundBit, shifted.stickyBit]
    omega
  rcases Nat.mod_two_eq_zero_or_one (m / 2 ^ i) with even | odd
  · rw [even, Nat.mul_zero] at split
    refine ⟨?_, ?_, ?_⟩
    · rw [ExtendedMantissa.shiftRightOne, shifted.mantissa, Nat.div_div_eq_div_mul, Nat.pow_succ]
    · rw [ExtendedMantissa.shiftRightOne, shifted.mantissa, even]
      simp only [bne_self_eq_false, Bool.false_eq_true, false_iff]
      omega
    · rw [ExtendedMantissa.shiftRightOne, Bool.or_eq_true, lost]
      omega
  · rw [odd, Nat.mul_one] at split
    refine ⟨?_, ?_, ?_⟩
    · rw [ExtendedMantissa.shiftRightOne, shifted.mantissa, Nat.div_div_eq_div_mul, Nat.pow_succ]
    · rw [ExtendedMantissa.shiftRightOne, shifted.mantissa, odd]
      refine iff_of_true rfl ?_
      omega
    · rw [ExtendedMantissa.shiftRightOne, Bool.or_eq_true, lost]
      omega

theorem shifted_exact (m i : Nat) :
    Shifted m i ((ExtendedMantissa.ofMantissaAndAccuracy m .exact) >>> i) := by
  induction i with
  | zero =>
    have same : (ExtendedMantissa.ofMantissaAndAccuracy m .exact) >>> 0 = ⟨m, false, false⟩ := rfl
    rw [same]
    exact ⟨by simp, by simp [Nat.mod_one], by simp [Nat.mod_one]⟩
  | succ i ih => exact ih.step

/-- A whole number of steps no further than half a step off, even if just half. -/
structure Nearby (m i r : Nat) : Prop where
  least : m / 2 ^ i ≤ r
  most : r ≤ m / 2 ^ i + 1
  low : 2 * (r * 2 ^ i) ≤ 2 * m + 2 ^ i
  high : 2 * m ≤ 2 * (r * 2 ^ i) + 2 ^ i
  tie : 2 * (r * 2 ^ i) = 2 * m + 2 ^ i ∨ 2 * m = 2 * (r * 2 ^ i) + 2 ^ i → r % 2 = 0

theorem Shifted.nearby (shifted : Shifted m i em) : Nearby m i em.roundedMantissa := by
  have rest : m % 2 ^ i < 2 ^ i := Nat.mod_lt m (Nat.two_pow_pos i)
  have whole : 2 ^ i * (m / 2 ^ i) + m % 2 ^ i = m := Nat.div_add_mod m (2 ^ i)
  obtain ⟨mantissa, round, sticky⟩ := em
  obtain ⟨rfl, roundBit, stickyBit⟩ := shifted
  dsimp only at roundBit stickyBit
  have next : (m / 2 ^ i + 1) * 2 ^ i = 2 ^ i * (m / 2 ^ i) + 2 ^ i := by ring
  have here : m / 2 ^ i * 2 ^ i = 2 ^ i * (m / 2 ^ i) := by ring
  unfold ExtendedMantissa.roundedMantissa ExtendedMantissa.accuracy Accuracy.roundToNearestEven
  cases round <;> cases sticky <;> dsimp only <;>
    simp only [Bool.false_eq_true, false_iff, true_iff, not_le] at roundBit stickyBit
  · exact ⟨le_refl _, by omega, by rw [here]; omega, by rw [here]; omega, by rw [here]; omega⟩
  · exact ⟨le_refl _, by omega, by rw [here]; omega, by rw [here]; omega, by rw [here]; omega⟩
  · rcases Nat.mod_two_eq_zero_or_one (m / 2 ^ i) with even | odd
    · rw [even, Nat.add_zero]
      exact ⟨le_refl _, by omega, by rw [here]; omega, by rw [here]; omega, fun _ => even⟩
    · rw [odd]
      exact ⟨by omega, le_refl _, by rw [next]; omega, by rw [next]; omega, fun _ => by omega⟩
  · exact ⟨by omega, le_refl _, by rw [next]; omega, by rw [next]; omega, by rw [next]; omega⟩

end Shifting

section Rounding
variable {s : Sign} {m : Nat} {e : Int}

theorem targetExponent_eq (t : Int) : Format.binary64.targetExponent t = max (t - 53) (-1074) := rfl

theorem shiftToTarget_long (long : 2 ^ 52 ≤ m) (least : -1074 ≤ e) :
    shiftToTargetExponent .binary64 m e .exact =
      ((ExtendedMantissa.ofMantissaAndAccuracy m .exact) >>> (m.log2 - 52), e + (m.log2 - 52 : Nat)) := by
  have bits : 52 ≤ m.log2 := (Nat.le_log2 (by omega)).mpr long
  have amount : (Format.binary64.targetExponent (totalExponent m e) - e).toNat = m.log2 - 52 := by
    rw [targetExponent_eq, totalExponent]
    omega
  unfold shiftToTargetExponent shiftToExponent
  dsimp only
  rw [amount]

/-- A mantissa that rounding has carried into one bit more loses it again. -/
def settle (s : Sign) (r : Nat) (e : Int) : UnpackedFloat :=
  if full : 2 ^ 52 ≤ r then
    if r < 2 ^ 53 then .finite s r e (by omega) else .finite s (2 ^ 52) (e + 1) (by decide)
  else .zero s

theorem roundWithAccuracy_long (long : 2 ^ 52 ≤ m) (least : -1074 ≤ e) :
    ∃ r, Nearby m (m.log2 - 52) r ∧
      (2 ^ 52 ≤ m / 2 ^ (m.log2 - 52) ∧ m / 2 ^ (m.log2 - 52) < 2 ^ 53) ∧
      2 ^ 52 ≤ r ∧ r ≤ 2 ^ 53 ∧ roundWithAccuracy .binary64 s m e .exact = settle s r (e + (m.log2 - 52 : Nat)) := by
  have bits : 52 ≤ m.log2 := (Nat.le_log2 (by omega)).mpr long
  have power : 0 < 2 ^ (m.log2 - 52) := Nat.two_pow_pos _
  have near := (shifted_exact m (m.log2 - 52)).nearby
  have full : 2 ^ 52 ≤ m / 2 ^ (m.log2 - 52) := by
    rw [Nat.le_div_iff_mul_le power, ← Nat.pow_add, show 52 + (m.log2 - 52) = m.log2 by omega]
    exact Nat.log2_self_le (by omega)
  have small : m / 2 ^ (m.log2 - 52) < 2 ^ 53 := by
    rw [Nat.div_lt_iff_lt_mul power, ← Nat.pow_add, show 53 + (m.log2 - 52) = m.log2 + 1 by omega]
    exact Nat.lt_log2_self
  unfold roundWithAccuracy
  rw [shiftToTarget_long long least]
  dsimp only
  generalize ExtendedMantissa.roundedMantissa _ = r at near ⊢
  have low : 2 ^ 52 ≤ r := full.trans near.least
  have high : r ≤ 2 ^ 53 := near.most.trans small
  refine ⟨r, near, ⟨full, small⟩, low, high, ?_⟩
  rw [shiftToTarget_long low (by omega), settle, dif_pos low]
  by_cases carried : r < 2 ^ 53
  · have none : r.log2 - 52 = 0 := by
      have := (Nat.log2_lt (by omega)).mpr carried
      omega
    rw [if_pos carried, none]
    have kept : ((ExtendedMantissa.ofMantissaAndAccuracy r .exact) >>> 0).mantissa = r := rfl
    simp only [kept, Nat.cast_zero, add_zero]
    exact dif_neg (by omega)
  · obtain rfl : r = 2 ^ 53 := by omega
    have one : (2 ^ 53).log2 - 52 = 1 := by rw [Nat.log2_two_pow]
    rw [if_neg carried, one]
    rfl

theorem unpack_pack {spec : Format} {b : Nat} (positive : 0 < m)
    (bits : m.log2 + 1 = spec.mantissaBits)
    (biased : e + spec.exponentBias + spec.mantissaBitsWithoutImplicit = b) (normal : 0 < b)
    (small : b + 1 < 2 ^ spec.exponentBits) :
    unpack spec (pack spec (.finite s m e positive)) = .finite s m e positive := by
  have full : m.log2 = spec.mantissaBitsWithoutImplicit := by
    rw [Format.mantissaBits] at bits
    omega
  have components : pack spec (.finite s m e positive) =
      packComponents spec s (BitVec.ofNat _ b) (BitVec.ofNat _ m) := by
    unfold pack
    dsimp only
    rw [biased, Int.toNat_natCast, if_neg (by omega), if_pos bits]
  have exponent : (BitVec.ofNat spec.exponentBits b).toNat = b := by
    rw [BitVec.toNat_ofNat, Nat.mod_eq_of_lt (by omega)]
  have mantissa : (BitVec.ofNat spec.mantissaBitsWithoutImplicit m).toNat =
      m - 2 ^ spec.mantissaBitsWithoutImplicit := by
    have low := Nat.log2_self_le positive.ne'
    have high : m < 2 ^ (m.log2 + 1) := Nat.lt_log2_self
    rw [full] at low high
    rw [Nat.pow_succ] at high
    rw [BitVec.toNat_ofNat, Nat.mod_eq_sub_mod low, Nat.mod_eq_of_lt (by omega)]
  have notOnes : BitVec.ofNat spec.exponentBits b ≠ -1#_ := by
    intro ones
    have ones := eq_ones_iff.mp ones
    rw [exponent, pow2, Nat.pow_eq] at ones
    omega
  have notZero : BitVec.ofNat spec.exponentBits b ≠ 0#_ := by
    intro zero
    have zero := eq_zero_iff.mp zero
    omega
  rw [components]
  unfold unpack
  dsimp only
  rw [unpackExponent_packComponents, if_neg notOnes, if_neg notZero]
  congr 1
  · rw [unpackSign_packComponents, Sign.ofBitVec_toBitVec]
  · have low := Nat.log2_self_le positive.ne'
    rw [full] at low
    rw [unpackMantissa_packComponents, toNat_implicit, mantissa, pow2, Nat.pow_eq]
    omega
  · rw [exponent]
    omega

section Around
variable {r : Magnitude} {k : Nat}

theorem unit_shifted (e : Int) (k : Nat) : (2 : ℚ) ^ (e + k) = (2 ^ k : Nat) * 2 ^ e := by
  rw [zpow_add₀ (by norm_num), zpow_natCast]
  push_cast
  ring

theorem around_of_nearby (canonical : r.Canonical) (full : 2 ^ 52 ≤ m / 2 ^ k)
    (near : Nearby m k r.mantissa) (exponent : r.exponent = e + k) : r.Around (m * 2 ^ e) := by
  have unit : (0 : ℚ) < 2 ^ e := by positivity
  have steps : (0 : ℚ) < (2 ^ k : Nat) := by exact_mod_cast Nat.two_pow_pos k
  have half : (2 ^ k : Nat) * (2 : ℚ) ^ e = 2 * r.halfAbove := by
    rw [Magnitude.halfAbove, exponent, unit_shifted]
    ring
  have number : r.number = (r.mantissa * 2 ^ k : Nat) * 2 ^ e := by
    rw [Magnitude.number, exponent, unit_shifted]
    push_cast
    ring
  have low : (2 * (r.mantissa * 2 ^ k : Nat) : ℚ) ≤ 2 * m + (2 ^ k : Nat) := by
    exact_mod_cast near.low
  have high : (2 * m : ℚ) ≤ 2 * (r.mantissa * 2 ^ k : Nat) + (2 ^ k : Nat) := by
    exact_mod_cast near.high
  have low' := mul_le_mul_of_nonneg_right low unit.le
  have high' := mul_le_mul_of_nonneg_right high unit.le
  have above : (m : ℚ) * 2 ^ e = r.number + r.halfAbove → r.mantissa % 2 = 0 := by
    intro tie
    apply near.tie
    right
    have same : (2 * m : ℚ) * 2 ^ e = (2 * (r.mantissa * 2 ^ k : Nat) + (2 ^ k : Nat)) * 2 ^ e := by
      linarith
    exact_mod_cast mul_right_cancel₀ unit.ne' same
  by_cases first : r.closerBelow = true
  · -- The least mantissa of a binade is never rounded up to.
    have least : r.mantissa * 2 ^ k ≤ m := by
      have same : r.mantissa = m / 2 ^ k := by
        have := near.least
        have := (canonical.closer.mp first).1
        omega
      rw [same]
      exact Nat.div_mul_le_self m _
    have least : ((r.mantissa * 2 ^ k : Nat) : ℚ) ≤ m := by exact_mod_cast least
    have least' := mul_le_mul_of_nonneg_right least unit.le
    have below : 0 < r.halfBelow := by
      rw [Magnitude.halfBelow, if_pos first]
      positivity
    refine ⟨by linarith, by linarith, ?_⟩
    rintro (tie | tie)
    · linarith
    · exact above tie
  · have below : r.halfBelow = r.halfAbove := by
      rw [Magnitude.halfBelow, if_neg first]
      rfl
    rw [← below] at half above
    refine ⟨by linarith, by linarith, ?_⟩
    rintro (tie | tie)
    · apply near.tie
      left
      have same : (2 * (r.mantissa * 2 ^ k : Nat) : ℚ) * 2 ^ e = (2 * m + (2 ^ k : Nat)) * 2 ^ e := by
        linarith
      exact_mod_cast mul_right_cancel₀ unit.ne' same
    · exact above (below ▸ tie)

theorem around_of_carried (canonical : r.Canonical) (small : m / 2 ^ k < 2 ^ 53)
    (near : Nearby m k (2 ^ 53)) (mantissa : r.mantissa = 2 ^ 52) (exponent : r.exponent = e + k + 1)
    (least : -1074 < r.exponent) : r.Around (m * 2 ^ e) := by
  have unit : (0 : ℚ) < 2 ^ e := by positivity
  have shifted : (2 : ℚ) ^ r.exponent = 2 * ((2 ^ k : Nat) * 2 ^ e) := by
    rw [exponent, zpow_add_one₀ (by norm_num), unit_shifted]
    ring
  have number : r.number = (2 ^ 53 * 2 ^ k : Nat) * 2 ^ e := by
    rw [Magnitude.number, shifted, mantissa]
    push_cast
    ring
  have below : r.halfBelow = (2 ^ k : Nat) * 2 ^ e / 2 := by
    rw [Magnitude.halfBelow, if_pos (canonical.closer.mpr ⟨mantissa, least⟩), shifted]
    ring
  have above : 0 < r.halfAbove := by
    rw [Magnitude.halfAbove]
    positivity
  have less : m ≤ 2 ^ 53 * 2 ^ k := by
    have := (Nat.div_lt_iff_lt_mul (Nat.two_pow_pos k)).mp small
    omega
  have less : (m : ℚ) ≤ (2 ^ 53 * 2 ^ k : Nat) := by exact_mod_cast less
  have low : (2 * (2 ^ 53 * 2 ^ k : Nat) : ℚ) ≤ 2 * m + (2 ^ k : Nat) := by exact_mod_cast near.low
  have less' := mul_le_mul_of_nonneg_right less unit.le
  have low' := mul_le_mul_of_nonneg_right low unit.le
  exact ⟨by linarith, by linarith, fun _ => by rw [mantissa]; norm_num⟩

end Around

structure Keeps (s : Sign) (q : ℚ) (x : Float.Model) : Prop where
  shape : ∃ m e positive, x.unpack = .finite s m e positive ∧ 2 ^ 52 ≤ m ∧ m < 2 ^ 53 ∧
    -1074 < e ∧ e ≤ 971 ∧ ∀ r : Magnitude, r.Canonical → r.mantissa = m → r.exponent = e → r.Rounds q

theorem unpack_pack_double {m : Nat} {e : Int} (full : 2 ^ 52 ≤ m) (small : m < 2 ^ 53)
    (least : -1074 ≤ e) (most : e ≤ 971) (positive : 0 < m) :
    (Float.Model.pack (.finite s m e positive)).unpack = .finite s m e positive := by
  have bits : m.log2 = 52 := (Nat.log2_eq_iff (by omega)).mpr ⟨full, small⟩
  have width : Format.binary64.mantissaBitsWithoutImplicit = 52 := rfl
  have bias : Format.binary64.exponentBias = 1023 := rfl
  refine @unpack_pack s m e .binary64 (e + 1075).toNat positive ?_ ?_ (by omega) ?_
  · rw [bits]
    rfl
  · rw [bias, width]
    omega
  · change (e + 1075).toNat + 1 < 2048
    omega

theorem keeps_round (s : Sign) (long : 2 ^ 52 ≤ m) (least : -1074 < e) (most : e + m.log2 ≤ 1000) :
    Keeps s (m * 2 ^ e) (Float.Model.pack (roundWithAccuracy .binary64 s m e .exact)) := by
  have bits : 52 ≤ m.log2 := (Nat.le_log2 (by omega)).mpr long
  obtain ⟨r, near, inside, low, high, rounded⟩ := roundWithAccuracy_long (s := s) long least.le
  rw [rounded, settle, dif_pos low]
  by_cases carried : r < 2 ^ 53
  · rw [if_pos carried]
    refine ⟨r, _, _, unpack_pack_double low carried (by omega) (by omega) _, low, carried, by omega,
      by omega, ?_⟩
    rintro ⟨mantissa, exponent, closer⟩ canonical rfl rfl
    exact (around_of_nearby canonical inside.1 near rfl).rounds canonical
  · obtain rfl : r = 2 ^ 53 := by omega
    rw [if_neg carried]
    refine ⟨2 ^ 52, _, _, unpack_pack_double (le_refl _) (by norm_num) (by omega) (by omega) _,
      le_refl _, by norm_num, by omega, by omega, ?_⟩
    rintro ⟨mantissa, exponent, closer⟩ canonical rfl rfl
    exact (around_of_carried canonical inside.2 near rfl rfl (by dsimp only; omega)).rounds canonical

end Rounding

section Words

theorem exists_closer {negative negative' c : Bool} {m m' : Nat} {e e' : Int}
    (sign : negative = negative') (mantissa : m = m') (exponent : e = e') : ∃ closer,
      Reading.finite negative ⟨m, e, c⟩ = .finite negative' ⟨m', e', closer⟩ := by
  subst sign mantissa exponent
  exact ⟨c, rfl⟩

theorem read_of_unpack {spec : Format} {b : BitVec spec.numBits} {s : Sign} {m : Nat} {e : Int}
    {positive : 0 < m} (given : unpack spec b = .finite s m e positive) :
    ∃ closer, (ofFormat spec).read b.toNat = .finite (s == .negative) ⟨m, e, closer⟩ := by
  have bias := exponentBias_eq spec
  have sign : ∀ v : BitVec 1, decide (v.toNat = 1) = (Sign.ofBitVec v == .negative) := by
    intro v
    rcases BitVec.eq_zero_or_eq_one v with rfl | rfl <;> rfl
  unfold unpack at given
  unfold BinaryFormat.read ofFormat BinaryFormat.leastExponent
  dsimp only at given ⊢
  rw [← toNat_unpackMantissa b, ← toNat_unpackExponent b, ← toNat_unpackSign b]
  by_cases ones : unpackExponent b = -1#_
  · rw [if_pos ones] at given
    split at given <;> cases given
  rw [if_neg ones] at given
  rw [if_neg fun all => ones (eq_ones_iff.mpr all)]
  by_cases least : unpackExponent b = 0#_
  · rw [if_pos least] at given
    rw [if_pos (eq_zero_iff.mp least)]
    by_cases zero : unpackMantissa b = 0#_
    · rw [dif_pos zero] at given
      cases given
    · rw [dif_neg zero] at given
      cases given
      refine exists_closer (sign _) rfl ?_
      rw [eq_zero_iff.mp least]
      omega
  · rw [if_neg least] at given
    rw [if_neg fun none => least (eq_zero_iff.mpr none)]
    cases given
    exact exists_closer (sign _) (toNat_implicit _).symm (by omega)

end Words

section Naturals
variable {s : Sign} {q : ℚ} {n : Nat}

theorem Keeps.read {x : Float} (keeps : Keeps s q x.toModel) :
    ∃ m, ofFloat x = .finite (s == .negative) m ∧ m.Rounds q := by
  obtain ⟨m, e, positive, unpacked, _, _, _, _, rounds⟩ := keeps.shape
  obtain ⟨closer, read⟩ := @read_of_unpack .binary64 x.toBits.toBitVec s m e positive unpacked
  exact ⟨_, read, rounds _ (canonical_of_read read) rfl rfl⟩

theorem Keeps.neg {x : Float.Model} (keeps : Keeps s q x) : Keeps (-s) q x.neg := by
  obtain ⟨m, e, positive, unpacked, full, small, least, most, rounds⟩ := keeps.shape
  refine ⟨m, e, positive, ?_, full, small, least, most, rounds⟩
  unfold Float.Model.neg
  rw [unpacked]
  exact unpack_pack_double full small least.le most positive

theorem binary_natCast (small : n < 2 ^ 53) : Binary n := ⟨n, 0, small, by decide, by simp⟩

theorem Keeps.exact {x : Float.Model} (keeps : Keeps s n x) (positive : 0 < n)
    (small : n < 2 ^ 53) : ∃ m e positive, x.unpack = .finite s m e positive ∧ 2 ^ 52 ≤ m ∧
      m < 2 ^ 53 ∧ -53 < e ∧ e ≤ 0 ∧ (m : ℚ) * 2 ^ e = n := by
  obtain ⟨m, e, positive', unpacked, full, less, least, _, rounds⟩ := keeps.shape
  have canonical : (Magnitude.mk m e (decide (m = 2 ^ 52))).Canonical :=
    ⟨less, least.le, Or.inl full, by simp [least]⟩
  have same : (m : ℚ) * 2 ^ e = n := (rounds _ canonical rfl rfl).number_eq (binary_natCast small)
  have one : (1 : ℚ) ≤ n := by exact_mod_cast positive
  have bound : (n : ℚ) < 2 ^ 53 := by exact_mod_cast small
  have bits : (2 ^ 52 : ℚ) ≤ m := by exact_mod_cast full
  have bits' : (m : ℚ) < 2 ^ 53 := by exact_mod_cast less
  refine ⟨m, e, positive', unpacked, full, less, ?_, ?_, same⟩
  · by_contra few
    have tiny : (2 : ℚ) ^ e ≤ 2 ^ (-53 : Int) := zpow_le_zpow_right₀ (by norm_num) (by omega)
    have product : (m : ℚ) * 2 ^ e < 2 ^ 53 * 2 ^ (-53 : Int) :=
      mul_lt_mul bits' tiny (by positivity) (by positivity)
    rw [same] at product
    norm_num at product
    linarith
  · by_contra more
    have two : (2 : ℚ) ^ (1 : Int) ≤ 2 ^ e := zpow_le_zpow_right₀ (by norm_num) (by omega)
    have product : (2 ^ 52 : ℚ) * 2 ^ (1 : Int) ≤ m * 2 ^ e :=
      mul_le_mul bits two (by positivity) (by positivity)
    rw [same] at product
    norm_num at product bound
    linarith

theorem shiftLeft_down (n k : Nat) : ((n <<< k : Nat) : ℚ) * 2 ^ (-(k : Int)) = n := by
  rw [Nat.shiftLeft_eq, zpow_neg, zpow_natCast]
  push_cast
  field_simp

theorem log2_shiftLeft (positive : 0 < n) (k : Nat) : (n <<< k).log2 = n.log2 + k := by
  have low := Nat.log2_self_le positive.ne'
  have high : n < 2 ^ (n.log2 + 1) := Nat.lt_log2_self
  rw [Nat.shiftLeft_eq]
  apply (Nat.log2_eq_iff (Nat.mul_pos positive (Nat.two_pow_pos k)).ne').mpr
  rw [Nat.pow_add, show n.log2 + k + 1 = n.log2 + 1 + k by omega, Nat.pow_add]
  exact ⟨Nat.mul_le_mul_right _ low, Nat.mul_lt_mul_of_pos_right high (Nat.two_pow_pos k)⟩

theorem keeps_toFloat (positive : 0 < n) (small : n < 2 ^ 53) :
    Keeps .positive n n.toUInt64.toFloat.toModel := by
  have bits : n.log2 < 53 := (Nat.log2_lt positive.ne').mpr small
  have word : n.toUInt64.toNat = n := by
    rw [Nat.toUInt64_eq, UInt64.toNat_ofNat']
    exact Nat.mod_eq_of_lt (by omega)
  have lifted : UnpackedFloat.ofUInt64 .binary64 n.toUInt64 =
      roundWithAccuracy .binary64 .positive (n <<< (52 - n.log2)) (-(52 - n.log2 : Nat)) .exact := by
    have gt : compare (n : Int) 0 = .gt := by
      rw [Int.compare_eq_gt]
      omega
    have amount : (0 - Format.binary64.targetExponent (totalExponent n 0)).toNat = 52 - n.log2 := by
      rw [targetExponent_eq, totalExponent]
      omega
    unfold UnpackedFloat.ofUInt64 UnpackedFloat.ofNat UnpackedFloat.ofInt UnpackedFloat.normalize
    rw [word, gt]
    unfold UnpackedFloat.round decreaseExponent
    dsimp only
    rw [Int.toNat_natCast, amount, Int.zero_sub]
  have long : 2 ^ 52 ≤ n <<< (52 - n.log2) := by
    have low := Nat.log2_self_le (Nat.shiftLeft_eq n (52 - n.log2) ▸
      (Nat.mul_pos positive (Nat.two_pow_pos _)).ne')
    rwa [log2_shiftLeft positive, show n.log2 + (52 - n.log2) = 52 by omega] at low
  have keeps := @keeps_round (n <<< (52 - n.log2)) (-(52 - n.log2 : Nat)) .positive long (by omega)
    (by rw [log2_shiftLeft positive]; omega)
  rw [shiftLeft_down, ← lifted] at keeps
  exact keeps

theorem ofScientific_zero {spec : Format} (positive : 0 < n) : ofScientific spec n 0 =
    roundWithAccuracy spec .positive (n <<< spec.mantissaBits) (-spec.mantissaBits) .exact := by
  have power : (0 : Int) < 2 ^ spec.exponentBits := by positivity
  unfold ofScientific
  rw [dif_neg positive.ne', if_neg (by omega), if_neg (by omega), if_pos (le_refl _)]
  simp only [mul, Int.toNat_zero, Nat.pow_zero, Nat.mul_one, Int.add_zero]
  rfl

theorem keeps_ofNat (positive : 0 < n) (bits : n.log2 ≤ 900) :
    Keeps .positive n (Float.ofNat n).toModel := by
  have unfolded : Float.ofNat n = Float.ofScientific n false 0 := rfl
  rw [unfolded]
  unfold Float.ofScientific
  by_cases small : n < 2 ^ 53
  · obtain ⟨m, e, positive', unpacked, full, less, least, most, same⟩ :=
      (keeps_toFloat positive small).exact positive small
    have log : m.log2 = 52 := (Nat.log2_eq_iff (by omega)).mpr ⟨full, less⟩
    have product : (n.toUInt64.toFloat * Float.exactlyRepresentablePowersOfTen[0]).toModel =
        Float.Model.pack (roundWithAccuracy .binary64 .positive (m <<< 52) (e - 52) .exact) := by
      change Float.Model.pack (UnpackedFloat.mul .binary64 n.toUInt64.toFloat.toModel.unpack
        (.finite .positive (2 ^ 52) (-52) (by decide))) = _
      rw [unpacked, Nat.shiftLeft_eq]
      rfl
    have keeps := @keeps_round (m <<< 52) (e - 52) .positive (by rw [Nat.shiftLeft_eq]; omega)
      (by omega) (by rw [log2_shiftLeft positive']; omega)
    have number : ((m <<< 52 : Nat) : ℚ) * 2 ^ (e - 52) = n := by
      have down := shiftLeft_down m 52
      rw [sub_eq_add_neg, add_comm, zpow_add₀ (by norm_num), ← mul_assoc]
      exact (congrArg (· * (2 : ℚ) ^ e) down).trans same
    rw [dif_pos ⟨small, by decide⟩]
    rw [number, ← product] at keeps
    exact keeps
  · have keeps := @keeps_round (n <<< 53) (-53) .positive (by rw [Nat.shiftLeft_eq]; omega)
      (by omega) (by rw [log2_shiftLeft positive]; omega)
    have number : ((n <<< 53 : Nat) : ℚ) * 2 ^ (-53 : Int) = n := shiftLeft_down n 53
    have slow : Float.Model.ofScientific n (Int.ofNat 0) =
        Float.Model.pack (roundWithAccuracy .binary64 .positive (n <<< 53) (-53) .exact) :=
      congrArg Float.Model.pack (@ofScientific_zero n .binary64 positive)
    rw [dif_neg fun both => small both.1]
    rw [number, ← slow] at keeps
    exact keeps

theorem denotes_ofInt (n : Int) (bits : n.natAbs.log2 ≤ 900) :
    Denotes (toString n) (Float.ofInt n) := by
  cases n with
  | ofNat n =>
    have same : Float.ofInt (.ofNat n) = Float.ofNat n := rfl
    rw [same]
    have text := numeral?_signed false (unsigned?_repr n)
    rcases Nat.eq_zero_or_pos n with rfl | positive
    · refine ⟨false, (0 : Nat), ⟨0, -1074, false⟩, text, by decide +kernel, ?_⟩
      exact ⟨fun y _ => by simp [Magnitude.number], fun _ _ _ _ => rfl⟩
    · obtain ⟨m, read, rounds⟩ := @Keeps.read .positive n (Float.ofNat n) (keeps_ofNat positive bits)
      exact ⟨false, n, m, text, read, rounds⟩
  | negSucc n =>
    have same : Float.ofInt (.negSucc n) = (Float.ofNat (n + 1)).neg := rfl
    rw [same]
    have text := numeral?_signed true (unsigned?_repr (n + 1))
    obtain ⟨m, read, rounds⟩ := @Keeps.read .negative (n + 1 : Nat) (Float.ofNat (n + 1)).neg
      (keeps_ofNat n.succ_pos bits).neg
    exact ⟨true, (n + 1 : Nat), m, text, read, rounds⟩

end Naturals
end LazyCast.Decimal
