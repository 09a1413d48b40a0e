import LazyCast.Program.Pass
import LazyCast.Proofs.Circuit.Waves
import Mathlib.Data.ZMod.Defs
import Mathlib.Logic.Equiv.Basic
/-!
The loops over a vector of amplitudes, entry by entry. Each moves, negates or mixes the entries of the
basis states that its name says, for any number of qubits and any of them; so the gates that passes
take for their own inverses are.
-/
namespace LazyCast.Amplitudes
variable {α : Type} {n k p q i : Nat}

def exchange (p q i : Nat) : Nat := if i.testBit p = i.testBit q then i else flip q (flip p i)

theorem testBit_exchange (p q i j : Nat) :
    (exchange p q i).testBit j = i.testBit (Equiv.swap p q j) := by
  unfold exchange
  rw [Equiv.swap_apply_def]
  by_cases same : i.testBit p = i.testBit q
  · rw [if_pos same]
    split
    · next at_p => rw [at_p, same]
    · split
      · next at_q => rw [at_q, same]
      · rfl
  · have differ : i.testBit p = !i.testBit q := by simpa [Bool.eq_not] using same
    have apart : p ≠ q := fun one => same (one ▸ rfl)
    rw [if_neg same, testBit_flip, testBit_flip]
    split
    · next at_p => simp [at_p, differ, apart.symm]
    · next not_p =>
      split
      · next at_q => simp [at_q, differ, apart]
      · next not_q => simp [Ne.symm not_p, Ne.symm not_q]

theorem flip_lt_iff (bit : k < n) : flip k i < pow2 n ↔ i < pow2 n :=
  ⟨fun inside => flip_flip k i ▸ flip_lt bit inside, flip_lt bit⟩

theorem exchange_lt_iff (first : p < n) (second : q < n) : exchange p q i < pow2 n ↔ i < pow2 n := by
  unfold exchange
  split
  · rfl
  · rw [flip_lt_iff second, flip_lt_iff first]

theorem exists_ofFunction [Zero α] {v : Amplitudes α} (size : v.size = n) :
    ∃ f, v = ofFunction n f := by
  refine ⟨fun i => v[i]?.getD 0, Array.ext (by rw [size, size_ofFunction]) fun i inside _ => ?_⟩
  simp [ofFunction, inside]

theorem getElem?_reordered {f : Nat → α} (σ : Nat → Nat) (within : σ i < n ↔ i < n) :
    (ofFunction n fun i => f (σ i))[i]? = (ofFunction n f)[σ i]? := by
  by_cases inside : i < n
  · rw [getElem?_ofFunction inside, getElem?_ofFunction (within.mpr inside)]
  · rw [Array.getElem?_eq_none (by rw [size_ofFunction]; omega),
      Array.getElem?_eq_none (by rw [size_ofFunction]; omega)]

theorem getElem?_negated [Neg α] {f : Nat → α} (chosen : Nat → Bool) :
    (ofFunction n fun i => if chosen i then -f i else f i)[i]? =
      (ofFunction n f)[i]?.map fun a => if chosen i then -a else a := by
  by_cases inside : i < n
  · rw [getElem?_ofFunction inside, getElem?_ofFunction inside]
    rfl
  · rw [Array.getElem?_eq_none (by rw [size_ofFunction]; omega),
      Array.getElem?_eq_none (by rw [size_ofFunction]; omega)]
    rfl

structure Entries [CommRing α] (n : Nat) (v : Amplitudes α) : Prop where
  x : ∀ k, k < n → ∀ i : Nat, (v.x k)[i]? = v[i ^^^ 2 ^ k]?
  cx : ∀ control target, control < n → target < n → control ≠ target → ∀ i : Nat,
    (v.cx control target)[i]? = if i.testBit control then v[i ^^^ 2 ^ target]? else v[i]?
  swap : ∀ p q, p < n → q < n → p ≠ q → ∀ i : Nat, ∃ j : Nat,
    (∀ bit, j.testBit bit = i.testBit (Equiv.swap p q bit)) ∧ (v.swap p q)[i]? = v[j]?
  z : ∀ k, k < n → ∀ i : Nat, (v.z k)[i]? = v[i]?.map fun a => if i.testBit k then -a else a
  cz : ∀ p q, p < n → q < n → p ≠ q → ∀ i : Nat,
    (v.cz p q)[i]? = v[i]?.map fun a => if i.testBit p && i.testBit q then -a else a
  rotate : ∀ k, k < n → ∀ a b c d, (v.rotate k a b c d).size = v.size ∧
    ∀ i : Nat, i < 2 ^ n → i.testBit k = false → ∃ low high,
      v[i]? = some low ∧ v[i ^^^ 2 ^ k]? = some high ∧
      (v.rotate k a b c d)[i]? = some (a * low + b * high) ∧
      (v.rotate k a b c d)[i ^^^ 2 ^ k]? = some (c * low + d * high)

section Loops
variable {f : Nat → α}

theorem getElem?_x (bit : k < n) (i : Nat) :
    ((ofFunction (pow2 n) f).x k)[i]? = (ofFunction (pow2 n) f)[flip k i]? := by
  rw [Gate.x_ofFunction bit]
  exact getElem?_reordered (flip k) (flip_lt_iff bit)

theorem getElem?_cx {control target : Nat} (bit : target < n) (apart : control ≠ target) (i : Nat) :
    ((ofFunction (pow2 n) f).cx control target)[i]? =
      if i.testBit control then (ofFunction (pow2 n) f)[flip target i]?
      else (ofFunction (pow2 n) f)[i]? := by
  have moved : (fun i => if i.testBit control ∧ control ≠ target then f (flip target i) else f i) =
      fun i => f (if i.testBit control then flip target i else i) := by
    funext j
    cases j.testBit control <;> simp [apart]
  rw [Gate.cx_ofFunction bit, moved, getElem?_reordered (i := i)
    (fun i => if i.testBit control then flip target i else i)]
  · split <;> rfl
  · split
    · exact flip_lt_iff bit
    · rfl

theorem getElem?_swap (first : p < n) (second : q < n) (i : Nat) :
    ((ofFunction (pow2 n) f).swap p q)[i]? = (ofFunction (pow2 n) f)[exchange p q i]? := by
  have moved : (fun i => if i.testBit p = i.testBit q then f i else f (flip q (flip p i))) =
      fun i => f (exchange p q i) := by
    funext j
    unfold exchange
    split <;> rfl
  rw [Gate.swap_ofFunction first second, moved]
  exact getElem?_reordered (exchange p q) (exchange_lt_iff first second)

theorem entries_ofFunction [CommRing α] (n : Nat) (f : Nat → α) : Entries n (ofFunction (pow2 n) f) where
  x k bit i := getElem?_x bit i
  cx control target _ bit apart i := getElem?_cx bit apart i
  swap p q first second _ i := ⟨exchange p q i, testBit_exchange p q i, getElem?_swap first second i⟩
  z k _ i := by
    have loop : (ofFunction (pow2 n) f).z k = _ := Gate.negates_ofFunction fun i => i.testBit k
    rw [loop]
    exact getElem?_negated fun i => i.testBit k
  cz p q _ _ _ i := by
    have loop : (ofFunction (pow2 n) f).cz p q = _ :=
      Gate.negates_ofFunction fun i => i.testBit p && i.testBit q
    rw [loop]
    exact getElem?_negated fun i => i.testBit p && i.testBit q
  rotate k bit a b c d := by
    rw [Gate.rotate_ofFunction bit]
    refine ⟨by rw [size_ofFunction, size_ofFunction], fun i inside low => ?_⟩
    have inside' : flip k i < pow2 n := flip_lt bit inside
    have high : (flip k i).testBit k = true := by simp [testBit_flip, low]
    refine ⟨f i, f (flip k i), getElem?_ofFunction inside, getElem?_ofFunction inside',
      (getElem?_ofFunction inside).trans ?_, (getElem?_ofFunction inside').trans ?_⟩
    · simp [Gate.turn, low]
    · simp [Gate.turn, high, flip_flip]

end Loops

theorem isInvolution_of_selfInverse {op : NativeOp} (listed : op.code ∈ Pass.selfInverse)
    {qubits : List Nat} {g : Gate} (made : Gate.ofOp op qubits = .ok (some g)) :
    g.isInvolution = true := by
  simp only [Pass.selfInverse, List.mem_cons, List.not_mem_nil, or_false] at listed
  rcases listed with c | c | c | c | c | c <;> rcases qubits with _ | ⟨p, _ | ⟨q, rest⟩⟩ <;>
    simp [Gate.ofOp, c] at made <;> subst made <;> rfl

/-- On a vector of amplitudes over any number of qubits each loop is the gate that it is named for,
    and a gate that passes cancel in pairs leaves the vector as it was when it is applied twice. -/
theorem loops_as_named [CommRing α] (n : Nat) (v : Amplitudes α) (size : v.size = 2 ^ n) :
    Entries n v ∧
    ∀ t : Trigonometry α, t.diagonal * t.diagonal * 2 = 1 →
      ∀ op : NativeOp, op.code ∈ Pass.selfInverse →
      ∀ qubits g, Gate.ofOp op qubits = .ok (some g) → (∀ k ∈ g.qubits, k < n) →
        g.apply t (g.apply t v) = v := by
  obtain ⟨f, rfl⟩ := exists_ofFunction size
  refine ⟨entries_ofFunction n f, fun t unit op listed qubits g made inside => ?_⟩
  have unit : 2 * t.diagonal * t.diagonal = 1 := by linear_combination unit
  have twice : g.apply t (g.apply t (ofFunction (pow2 n) f)) = ofFunction (pow2 n) f := by
    rw [Gate.apply_ofFunction t inside, Gate.apply_ofFunction t inside,
      Gate.wave_wave unit (isInvolution_of_selfInverse listed made)]
  exact twice

/-- Four amplitudes over the integers modulo seven, where two is one over the square root of two. -/
def fourAmplitudes : Amplitudes (ZMod 7) := #[3, 1, 4, 5]

theorem fourAmplitudes_as_named : fourAmplitudes.size = 2 ^ 2 ∧ Entries 2 fourAmplitudes ∧
    (2 * 2 * 2 : ZMod 7) = 1 ∧ "h" ∈ Pass.selfInverse ∧
    fourAmplitudes.rotate 1 2 2 2 (-2) = #[0, 5, 5, 6] ∧
    (fourAmplitudes.rotate 1 2 2 2 (-2)).rotate 1 2 2 2 (-2) = fourAmplitudes := by
  have named := loops_as_named 2 fourAmplitudes rfl
  have twice := named.2 ⟨2, fun _ => 0, fun _ => 0⟩ (by decide) (.plain 0 "h" []) (by decide) [1]
    (.h 1) rfl (by decide)
  exact ⟨rfl, named.1, by decide, by decide, by decide, twice⟩

end LazyCast.Amplitudes
