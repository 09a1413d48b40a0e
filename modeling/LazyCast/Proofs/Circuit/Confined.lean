import LazyCast.Proofs.Circuit.Definite
/-!
Where a wave of floats can be other than zero. A finite float times a zero is a zero, whatever its
sign, so the zeros of a wave stay exact as long as gates take finite numbers. A gate mixes a state
only with the one that it pairs it with, so what is possible after it came from what was possible
before.
-/
namespace LazyCast.Gate
open Amplitudes
open Float.Model (UnpackedFloat Format)

section Zeros

theorem isFinite_unpack {b : BitVec Format.binary64.numBits}
    (low : UnpackedFloat.unpackExponent b ≠ -1#_) :
    (UnpackedFloat.unpack Format.binary64 b).isFinite = true := by
  unfold UnpackedFloat.unpack
  dsimp only
  rw [if_neg low]
  by_cases least : UnpackedFloat.unpackExponent b = 0#_
  · rw [if_pos least]
    by_cases zero : UnpackedFloat.unpackMantissa b = 0#_
    · rw [dif_pos zero]
      rfl
    · rw [dif_neg zero]
      rfl
  · rw [if_neg least]
    rfl

theorem isFinite_packComponents (sign : UnpackedFloat.Sign)
    {exponent : BitVec Format.binary64.exponentBits}
    (mantissa : BitVec Format.binary64.mantissaBitsWithoutImplicit) (low : exponent ≠ -1#_) :
    (UnpackedFloat.unpack Format.binary64
      (UnpackedFloat.packComponents Format.binary64 sign exponent mantissa)).isFinite = true := by
  apply isFinite_unpack
  rwa [UnpackedFloat.unpackExponent_packComponents]

theorem biased_lt {b : BitVec Format.binary64.numBits} {sign : UnpackedFloat.Sign} {m : Nat}
    {e : Int} {pos : 0 < m} (given : UnpackedFloat.unpack Format.binary64 b = .finite sign m e pos) :
    (e + Format.binary64.exponentBias + Format.binary64.mantissaBitsWithoutImplicit).toNat + 1 <
      2 ^ Format.binary64.exponentBits := by
  have most : (UnpackedFloat.unpackExponent b).toNat < 2 ^ Format.binary64.exponentBits :=
    (UnpackedFloat.unpackExponent b).isLt
  have power : 2 ^ Format.binary64.exponentBits = 2048 := rfl
  have width : Format.binary64.mantissaBitsWithoutImplicit = 52 := rfl
  unfold UnpackedFloat.unpack at given
  dsimp only at given
  by_cases ones : UnpackedFloat.unpackExponent b = -1#_
  · rw [if_pos ones] at given
    by_cases zero : UnpackedFloat.unpackMantissa b = 0#_
    · rw [if_pos zero] at given
      cases given
    · rw [if_neg zero] at given
      cases given
  · rw [if_neg ones] at given
    have less : (UnpackedFloat.unpackExponent b).toNat ≠ 2047 := by
      intro same
      exact ones (BitVec.eq_of_toNat_eq same)
    by_cases least : UnpackedFloat.unpackExponent b = 0#_
    · rw [if_pos least] at given
      by_cases zero : UnpackedFloat.unpackMantissa b = 0#_
      · rw [dif_pos zero] at given
        cases given
      · rw [dif_neg zero] at given
        cases given
        rw [least]
        decide
    · rw [if_neg least] at given
      cases given
      omega

theorem pack_finite (sign : UnpackedFloat.Sign) {m : Nat} {e : Int} (pos : 0 < m)
    (small : (e + Format.binary64.exponentBias + Format.binary64.mantissaBitsWithoutImplicit).toNat +
      1 < 2 ^ Format.binary64.exponentBits) :
    ∃ exponent mantissa, exponent ≠ -1#_ ∧
      UnpackedFloat.pack Format.binary64 (.finite sign m e pos) =
        UnpackedFloat.packComponents Format.binary64 sign exponent mantissa := by
  have components : UnpackedFloat.pack Format.binary64 (.finite sign m e pos) =
      if m.log2 + 1 = Format.binary64.mantissaBits then
        UnpackedFloat.packComponents Format.binary64 sign (BitVec.ofNat _
          (e + Format.binary64.exponentBias + Format.binary64.mantissaBitsWithoutImplicit).toNat)
          (BitVec.ofNat _ m)
      else UnpackedFloat.packComponents Format.binary64 sign 0#_ (BitVec.ofNat _ m) :=
    if_neg (Nat.not_le.mpr small)
  rw [components]
  split
  · refine ⟨_, _, ?_, rfl⟩
    intro same
    have nat := congrArg BitVec.toNat same
    rw [BitVec.toNat_ofNat, Nat.mod_eq_of_lt (Nat.lt_of_succ_lt small)] at nat
    rw [nat] at small
    exact absurd small (by decide)
  · exact ⟨_, _, by decide, rfl⟩

theorem isFinite_neg {c : Float} (finite : c.isFinite = true) : (-c).isFinite = true := by
  have packed : (-c).isFinite = (UnpackedFloat.unpack Format.binary64
      (UnpackedFloat.pack Format.binary64 c.toModel.unpack.neg)).isFinite := rfl
  have unpacked : c.toModel.unpack.isFinite = true := finite
  rw [packed]
  cases given : c.toModel.unpack with
  | zero sign => exact isFinite_packComponents _ _ (by decide)
  | finite sign m e pos =>
    obtain ⟨exponent, mantissa, low, components⟩ := pack_finite (-sign) pos (biased_lt given)
    change (UnpackedFloat.unpack Format.binary64
      (UnpackedFloat.pack Format.binary64 (.finite (-sign) m e pos))).isFinite = true
    rw [components]
    exact isFinite_packComponents _ _ low
  | infinity sign =>
    rw [given] at unpacked
    cases unpacked
  | notANumber =>
    rw [given] at unpacked
    cases unpacked

theorem impossible_packed (sign : UnpackedFloat.Sign) :
    Impossible ⟨Float.Model.pack (.zero sign)⟩ := by
  cases sign with
  | positive => exact Or.inl (by decide +kernel)
  | negative => exact Or.inr (by decide +kernel)

theorem Impossible.unpacked {a : Float} (impossible : Impossible a) :
    ∃ sign, a.toModel.unpack = .zero sign := by
  rcases impossible with rfl | rfl
  · exact ⟨.positive, rfl⟩
  · exact ⟨.negative, rfl⟩

theorem Impossible.mul {a c : Float} (impossible : Impossible a) (finite : c.isFinite = true) :
    Impossible (c * a) := by
  obtain ⟨sign, zero⟩ := impossible.unpacked
  have model : c * a = ⟨Float.Model.pack
      (UnpackedFloat.mul .binary64 c.toModel.unpack a.toModel.unpack)⟩ := rfl
  have unpacked : c.toModel.unpack.isFinite = true := finite
  rw [model, zero]
  cases given : c.toModel.unpack with
  | zero sign' => exact impossible_packed (sign' * sign)
  | finite sign' mantissa exponent pos => exact impossible_packed (sign' * sign)
  | infinity sign' =>
    rw [given] at unpacked
    cases unpacked
  | notANumber =>
    rw [given] at unpacked
    cases unpacked

theorem Impossible.add {a b : Float} (first : Impossible a) (second : Impossible b) :
    Impossible (a + b) := by
  rcases first with rfl | rfl <;> rcases second with rfl | rfl
  · exact Or.inl (by decide +kernel)
  · exact Or.inl (by decide +kernel)
  · exact Or.inl (by decide +kernel)
  · exact Or.inr (by decide +kernel)

end Zeros

section Waves
variable {t : Trigonometry Float} {g : Gate} {ψ : Nat → Float} {P P' : Nat → Prop}

/-- The states whose amplitudes a gate makes that of a state from. -/
def sources : Gate → Nat → List Nat
  | h k, i => [i, flip k i]
  | ry _ k, i => [i, flip k i]
  | g, i => [g.moves i]

def Finite (t : Trigonometry Float) : Gate → Prop
  | h _ => t.diagonal.isFinite = true
  | ry angle _ => (t.sine angle).isFinite = true ∧ (t.cosine angle).isFinite = true
  | _ => True

theorem impossible_turn {k i : Nat} {a b c d : Float} (fa : a.isFinite = true)
    (fb : b.isFinite = true) (fc : c.isFinite = true) (fd : d.isFinite = true)
    (here : Impossible (ψ i)) (there : Impossible (ψ (flip k i))) :
    Impossible (turn k a b c d ψ i) := by
  unfold turn
  split
  · exact (there.mul fc).add (here.mul fd)
  · exact (here.mul fa).add (there.mul fb)

theorem impossible_wave (finite : g.Finite t) {i : Nat}
    (all : ∀ j ∈ g.sources i, Impossible (ψ j)) : Impossible (g.wave t ψ i) := by
  have moved : g.isPermuting = true → Impossible (ψ (g.moves i)) →
      Impossible (g.wave t ψ i) := by
    intro permuting impossible
    rcases wave_moves t permuting ψ i with same | negated
    · rwa [same]
    · rw [negated]
      exact impossible.neg
  cases g with
  | h k =>
    have here := all i List.mem_cons_self
    have there := all (flip k i) (List.mem_cons_of_mem _ List.mem_cons_self)
    exact impossible_turn finite finite finite (isFinite_neg finite) here there
  | ry angle k =>
    obtain ⟨sine, cosine⟩ := finite
    have here := all i List.mem_cons_self
    have there := all (flip k i) (List.mem_cons_of_mem _ List.mem_cons_self)
    exact impossible_turn cosine (isFinite_neg sine) sine cosine here there
  | x k => exact moved rfl (all _ List.mem_cons_self)
  | z k => exact moved rfl (all _ List.mem_cons_self)
  | cx control target => exact moved rfl (all _ List.mem_cons_self)
  | cz p q => exact moved rfl (all _ List.mem_cons_self)
  | swap p q => exact moved rfl (all _ List.mem_cons_self)

theorem testBit_sources {q : Nat} (outside : q ∉ g.qubits) {i j : Nat} (source : j ∈ g.sources i) :
    j.testBit q = i.testBit q := by
  have turned : ∀ k, k ≠ q → ∀ j ∈ [i, flip k i], j.testBit q = i.testBit q := by
    intro k other j mem
    rcases List.mem_pair.mp mem with rfl | rfl
    · rfl
    · simp [testBit_flip, other]
  have moved : ∀ j ∈ [g.moves i], j.testBit q = i.testBit q := by
    intro j mem
    rw [List.mem_singleton.mp mem]
    exact testBit_moves outside i
  cases g with
  | h k => exact turned k (fun same => outside (by simp [qubits, same])) j source
  | ry angle k => exact turned k (fun same => outside (by simp [qubits, same])) j source
  | x k => exact moved j source
  | z k => exact moved j source
  | cx control target => exact moved j source
  | cz p r => exact moved j source
  | swap p r => exact moved j source

def Confined (P : Nat → Prop) (ψ : Nat → Float) : Prop := ∀ i, ¬ P i → Impossible (ψ i)

theorem Confined.wave (confined : Confined P ψ) (finite : g.Finite t)
    (step : ∀ i, ∀ j ∈ g.sources i, P j → P' i) : Confined P' (g.wave t ψ) := by
  intro i outside
  apply impossible_wave finite
  intro j source
  apply confined
  intro inside
  exact outside (step i j source inside)

end Waves
end LazyCast.Gate
