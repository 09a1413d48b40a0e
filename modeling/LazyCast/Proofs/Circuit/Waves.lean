import LazyCast.Proofs.Circuit.Sweeping
import Mathlib.Tactic.LinearCombination
/-!
Gates as maps of wave functions. A wave gives every set of qubits, as the number with these bits,
its amplitude; a gate acts on it by the numbers of its qubits, however many other qubits there are.
-/
namespace LazyCast.Gate
open Amplitudes
variable {α : Type}

def qubits : Gate → List Nat
  | x k => [k]
  | z k => [k]
  | h k => [k]
  | ry _ k => [k]
  | cx control target => [control, target]
  | cz p q => [p, q]
  | swap p q => [p, q]

def rename (f : Nat → Nat) : Gate → Gate
  | x k => x (f k)
  | z k => z (f k)
  | h k => h (f k)
  | ry angle k => ry angle (f k)
  | cx control target => cx (f control) (f target)
  | cz p q => cz (f p) (f q)
  | swap p q => swap (f p) (f q)

/-- The matrix `[[a, b], [c, d]]` on one qubit. -/
def turn [Add α] [Mul α] (k : Nat) (a b c d : α) (f : Nat → α) (i : Nat) : α :=
  if i.testBit k then c * f (flip k i) + d * f i else a * f i + b * f (flip k i)

def wave [Add α] [Mul α] [Neg α] (t : Trigonometry α) : Gate → (Nat → α) → Nat → α
  | x k, f => fun i => f (flip k i)
  | z k, f => fun i => if i.testBit k then -f i else f i
  | h k, f => turn k t.diagonal t.diagonal t.diagonal (-t.diagonal) f
  | ry angle k, f => turn k (t.cosine angle) (-(t.sine angle)) (t.sine angle) (t.cosine angle) f
  | cx control target, f => fun i =>
    if i.testBit control ∧ control ≠ target then f (flip target i) else f i
  | cz p q, f => fun i => if i.testBit p && i.testBit q then -f i else f i
  | swap p q, f => fun i => if i.testBit p = i.testBit q then f i else f (flip q (flip p i))

section Loops
variable {n : Nat} {f : Nat → α}

theorem swaps_ofFunction (chosen : Nat → Bool) {partner : Nat → Nat}
    (back : ∀ i, partner (partner i) = i)
    (once : ∀ i, chosen i = true → chosen (partner i) = false)
    (within : ∀ i, i < n → partner i < n) :
    (ofFunction n f).sweep (fun w i => if chosen i then w.swapIfInBounds i (partner i) else w) =
      ofFunction n fun i => if chosen i || chosen (partner i) then f (partner i) else f i := by
  rw [sweep_ofFunction (fun f i => if chosen i then
    Function.update (Function.update f i (f (partner i))) (partner i) (f i) else f)]
  · refine ofFunction_congr fun i inside => ?_
    refine (visits_pairs chosen partner (fun _ b => b) (fun a _ => a) back once within
      inside).trans ?_
    cases chosen i <;> simp
  · intro f i inside
    split
    · exact swapIfInBounds_ofFunction inside (within i inside)
    · rfl

theorem negates_ofFunction [Neg α] (chosen : Nat → Bool) :
    (ofFunction n f).sweep (fun w i => if chosen i then w.modify i (fun a => -a) else w) =
      ofFunction n fun i => if chosen i then -f i else f i := by
  rw [sweep_ofFunction (fun f i => if chosen i then Function.update f i (-f i) else f)]
  · exact ofFunction_congr fun i inside => visits_single chosen (fun a => -a) inside
  · intro f i inside
    split
    · exact modify_ofFunction _
    · rfl

theorem x_ofFunction {k : Nat} (bit : k < n) :
    Amplitudes.x k (ofFunction (pow2 n) f) = ofFunction (pow2 n) fun i => f (flip k i) := by
  have swaps := swaps_ofFunction (n := pow2 n) (f := f) (fun i => !i.testBit k)
    (Amplitudes.flip_flip k) (by simp [testBit_flip]) fun i => flip_lt bit
  have loop : Amplitudes.x k (ofFunction (pow2 n) f) = (ofFunction (pow2 n) f).sweep fun w i =>
      if !i.testBit k then w.swapIfInBounds i (flip k i) else w := by
    unfold Amplitudes.x
    congr 1
    funext w i
    cases i.testBit k <;> rfl
  rw [loop, swaps]
  refine ofFunction_congr fun i _ => ?_
  cases low : i.testBit k <;> simp [testBit_flip, low]

theorem rotate_ofFunction [Add α] [Mul α] {k : Nat} (bit : k < n) (a b c d : α) :
    rotate k a b c d (ofFunction (pow2 n) f) = ofFunction (pow2 n) (turn k a b c d f) := by
  unfold rotate
  rw [sweep_ofFunction (fun f i => if !i.testBit k then
    Function.update (Function.update f i (a * f i + b * f (flip k i))) (flip k i)
      (c * f i + d * f (flip k i)) else f)]
  · refine ofFunction_congr fun i inside => ?_
    refine (visits_pairs (fun i => !i.testBit k) (flip k)
      (fun x y => a * x + b * y) (fun x y => c * x + d * y)
      (Amplitudes.flip_flip k) (by simp [testBit_flip]) (fun i => flip_lt bit) inside).trans ?_
    cases low : i.testBit k <;> simp [turn, testBit_flip, low]
  · intro f i inside
    rw [getElem?_ofFunction inside, getElem?_ofFunction (flip_lt bit inside)]
    cases i.testBit k with
    | true => rfl
    | false =>
      simp only [Bool.false_eq_true, if_false, Bool.not_false, if_true, setIfInBounds_ofFunction]

theorem cx_ofFunction {control target : Nat} (bit : target < n) :
    Amplitudes.cx control target (ofFunction (pow2 n) f) = ofFunction (pow2 n) fun i =>
      if i.testBit control ∧ control ≠ target then f (flip target i) else f i := by
  have once : ∀ i, (i.testBit control && !i.testBit target) = true →
      ((flip target i).testBit control && !(flip target i).testBit target) = false := by
    intro i on
    simp only [Bool.and_eq_true, Bool.not_eq_true'] at on
    simp [testBit_flip, on.2]
  refine (swaps_ofFunction _ (Amplitudes.flip_flip target) once fun i => flip_lt bit).trans ?_
  refine ofFunction_congr fun i _ => ?_
  by_cases same : control = target
  · subst same
    simp [testBit_flip]
  · cases set : i.testBit control <;> cases low : i.testBit target <;>
      simp [testBit_flip, set, low, same, Ne.symm same]

theorem swap_ofFunction {p q : Nat} (first : p < n) (second : q < n) :
    Amplitudes.swap p q (ofFunction (pow2 n) f) = ofFunction (pow2 n) fun i =>
      if i.testBit p = i.testBit q then f i else f (flip q (flip p i)) := by
  have back : ∀ i, flip q (flip p (flip q (flip p i))) = i := by
    intro i
    rw [flip_comm p q, Amplitudes.flip_flip, Amplitudes.flip_flip]
  have once : ∀ i, (i.testBit p && !i.testBit q) = true →
      ((flip q (flip p i)).testBit p && !(flip q (flip p i)).testBit q) = false := by
    intro i on
    simp only [Bool.and_eq_true, Bool.not_eq_true'] at on
    have ne : q ≠ p := by
      intro same
      rw [same, on.1] at on
      cases on.2
    simp [testBit_flip, on.1, ne]
  refine (swaps_ofFunction _ back once fun i inside =>
    flip_lt second (flip_lt first inside)).trans ?_
  refine ofFunction_congr fun i _ => ?_
  by_cases same : p = q
  · subst same
    simp [Amplitudes.flip_flip]
  · cases set : i.testBit p <;> cases low : i.testBit q <;>
      simp [testBit_flip, set, low, same, Ne.symm same]

end Loops

theorem apply_ofFunction [Add α] [Mul α] [Neg α] (t : Trigonometry α) {g : Gate} {n : Nat}
    (inside : ∀ k ∈ g.qubits, k < n) (f : Nat → α) :
    g.apply t (ofFunction (pow2 n) f) = ofFunction (pow2 n) (g.wave t f) := by
  cases g with
  | x k => exact x_ofFunction (inside k (by simp [qubits]))
  | z k => exact negates_ofFunction fun i => i.testBit k
  | h k => exact rotate_ofFunction (inside k (by simp [qubits])) _ _ _ _
  | ry angle k => exact rotate_ofFunction (inside k (by simp [qubits])) _ _ _ _
  | cx control target => exact cx_ofFunction (inside target (by simp [qubits]))
  | cz p q => exact negates_ofFunction fun i => i.testBit p && i.testBit q
  | swap p q => exact swap_ofFunction (inside p (by simp [qubits])) (inside q (by simp [qubits]))

/-- A map of basis states that takes the bits of some qubits to the places `f` gives them. -/
structure Spreads (s : Nat → Nat) (f : Nat → Nat) (qubits : List Nat) : Prop where
  injective : ∀ p ∈ qubits, ∀ q ∈ qubits, f p = f q → p = q
  testBit : ∀ q ∈ qubits, ∀ i, (s i).testBit q = i.testBit (f q)
  flip : ∀ q ∈ qubits, ∀ i, s (Amplitudes.flip (f q) i) = Amplitudes.flip q (s i)

/-- A gate on a wave seen through such a map is the gate with its qubits placed. -/
theorem wave_rename [Add α] [Mul α] [Neg α] (t : Trigonometry α) {g : Gate} {s f : Nat → Nat}
    (spreads : Spreads s f g.qubits) (ψ : Nat → α) :
    ((g.rename f).wave t fun i => ψ (s i)) = fun i => g.wave t ψ (s i) := by
  funext i
  cases g with
  | x k => simp [rename, wave, spreads.flip k (by simp [qubits])]
  | z k => simp [rename, wave, spreads.testBit k (by simp [qubits])]
  | h k =>
    simp [rename, wave, turn, spreads.testBit k (by simp [qubits]),
      spreads.flip k (by simp [qubits])]
  | ry angle k =>
    simp [rename, wave, turn, spreads.testBit k (by simp [qubits]),
      spreads.flip k (by simp [qubits])]
  | cx control target =>
    have same : f control = f target ↔ control = target :=
      ⟨spreads.injective _ (by simp [qubits]) _ (by simp [qubits]), congrArg f⟩
    simp [rename, wave, same, spreads.testBit control (by simp [qubits]),
      spreads.flip target (by simp [qubits])]
  | cz p q =>
    simp [rename, wave, spreads.testBit p (by simp [qubits]),
      spreads.testBit q (by simp [qubits])]
  | swap p q =>
    simp [rename, wave, spreads.testBit p (by simp [qubits]),
      spreads.testBit q (by simp [qubits]), spreads.flip p (by simp [qubits]),
      spreads.flip q (by simp [qubits])]

def isInvolution : Gate → Bool
  | ry _ _ => false
  | _ => true

theorem wave_wave [CommRing α] {t : Trigonometry α} (unit : 2 * t.diagonal * t.diagonal = 1)
    {g : Gate} (involution : g.isInvolution = true) (ψ : Nat → α) :
    g.wave t (g.wave t ψ) = ψ := by
  funext i
  cases g with
  | x k => simp [wave, Amplitudes.flip_flip]
  | z k => by_cases set : i.testBit k <;> simp [wave, set]
  | h k =>
    cases set : i.testBit k <;> simp only [wave, turn, testBit_flip, set, Amplitudes.flip_flip] <;>
      simp <;> linear_combination (ψ i) * unit
  | ry angle k => cases involution
  | cx control target =>
    by_cases same : control = target
    · simp [wave, same]
    · cases set : i.testBit control <;>
        simp [wave, same, set, testBit_flip, Ne.symm same, Amplitudes.flip_flip]
  | cz p q => cases set : i.testBit p <;> cases low : i.testBit q <;> simp [wave, set, low]
  | swap p q =>
    have back : flip q (flip p (flip q (flip p i))) = i := by
      rw [flip_comm p q, Amplitudes.flip_flip, Amplitudes.flip_flip]
    by_cases same : p = q
    · simp [wave, same]
    · cases set : i.testBit p <;> cases low : i.testBit q <;>
        simp [wave, set, low, same, Ne.symm same, testBit_flip, back]

def Within [Zero α] (qubits : List Nat) (ψ : Nat → α) : Prop :=
  ∀ i q, i.testBit q = true → q ∉ qubits → ψ i = 0

theorem Within.wave [CommRing α] {t : Trigonometry α} {g : Gate} {qubits : List Nat}
    (inside : ∀ q ∈ g.qubits, q ∈ qubits) {ψ : Nat → α} (within : Within qubits ψ) :
    Within qubits (g.wave t ψ) := by
  intro i q set outside
  have here : ψ i = 0 := within i q set outside
  have apart : ∀ k ∈ qubits, k ≠ q := fun k mem same => outside (same ▸ mem)
  have flipped : ∀ k ∈ qubits, ∀ j, j.testBit q = true → (flip k j).testBit q = true := by
    intro k mem j set
    simp [testBit_flip, set, apart k mem]
  have there : ∀ k ∈ qubits, ψ (flip k i) = 0 := fun k mem =>
    within _ q (flipped k mem i set) outside
  cases g with
  | x k => exact there k (inside k (by simp [Gate.qubits]))
  | z k => simp [Gate.wave, here]
  | h k => simp [Gate.wave, turn, here, there k (inside k (by simp [Gate.qubits]))]
  | ry angle k => simp [Gate.wave, turn, here, there k (inside k (by simp [Gate.qubits]))]
  | cx control target => simp [Gate.wave, here, there target (inside target (by simp [Gate.qubits]))]
  | cz p q => simp [Gate.wave, here]
  | swap p r =>
    have both : ψ (flip r (flip p i)) = 0 := by
      refine within _ q ?_ outside
      exact flipped r (inside r (by simp [Gate.qubits])) _
        (flipped p (inside p (by simp [Gate.qubits])) i set)
    simp [Gate.wave, here, both]

end LazyCast.Gate
