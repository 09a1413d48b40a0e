import LazyCast.Proofs.Circuit.Definite
import LazyCast.Proofs.Circuit.Readout
import LazyCast.Proofs.Shuffling
import Mathlib.Algebra.BigOperators.Intervals
import Mathlib.Data.Real.Basic
import Mathlib.Tactic.LinearCombination
import Mathlib.Tactic.Linarith
import Mathlib.Tactic.Ring
/-!
Gates on other qubits. A gate mixes the amplitude of each basis state with that of one partner, which
differs from it in the gate's own bits; so gates on different qubits can be applied in either order,
and a gate changes no sum of squares whose weights do not depend on its qubits. The probabilities of
outcomes on some qubits are such sums.
-/
namespace LazyCast

/-- Sines and cosines are those of angles, and two halves make a whole. -/
structure Trigonometry.Unitary {α : Type} [CommRing α] (t : Trigonometry α) : Prop where
  diagonal : 2 * t.diagonal * t.diagonal = 1
  angle : ∀ x, t.cosine x ^ 2 + t.sine x ^ 2 = 1

namespace Gate
open Amplitudes

/-- The basis state whose amplitude a gate mixes with that of a state. -/
def partner : Gate → Nat → Nat
  | h k, i => flip k i
  | ry _ k, i => flip k i
  | g, i => g.moves i

section Mixing
variable {α : Type} [CommRing α] (t : Trigonometry α)

def stay : Gate → Nat → α
  | z k, i => if i.testBit k then -1 else 1
  | cz p q, i => if i.testBit p && i.testBit q then -1 else 1
  | h k, i => if i.testBit k then -t.diagonal else t.diagonal
  | ry angle _, _ => t.cosine angle
  | _, _ => 0

def cross : Gate → Nat → α
  | h _, _ => t.diagonal
  | ry angle k, i => if i.testBit k then t.sine angle else -t.sine angle
  | z _, _ => 0
  | cz _ _, _ => 0
  | _, _ => 1

theorem wave_eq (g : Gate) (ψ : Nat → α) (i : Nat) :
    g.wave t ψ i = g.stay t i * ψ i + g.cross t i * ψ (g.partner i) := by
  cases g with
  | x k => simp [wave, stay, cross, partner, moves]
  | z k =>
    simp only [wave, stay, cross]
    split <;> ring
  | h k =>
    simp only [wave, turn, stay, cross, partner]
    split <;> ring
  | ry angle k =>
    simp only [wave, turn, stay, cross, partner]
    split <;> ring
  | cx control target =>
    simp only [wave, stay, cross, partner, moves]
    split <;> ring
  | cz p q =>
    simp only [wave, stay, cross]
    split <;> ring
  | swap p q =>
    simp only [wave, stay, cross, partner, moves]
    split <;> ring

end Mixing

theorem partner_partner (g : Gate) (i : Nat) : g.partner (g.partner i) = i := by
  cases g with
  | h k => exact flip_flip k i
  | ry angle k => exact flip_flip k i
  | x k => exact moves_moves (.x k) i
  | z k => exact moves_moves (.z k) i
  | cx control target => exact moves_moves (.cx control target) i
  | cz p q => exact moves_moves (.cz p q) i
  | swap p q => exact moves_moves (.swap p q) i

theorem testBit_partner {g : Gate} {k : Nat} (outside : k ∉ g.qubits) (i : Nat) :
    (g.partner i).testBit k = i.testBit k := by
  cases g with
  | h q =>
    have apart : q ≠ k := by simpa [qubits, eq_comm] using outside
    simp [partner, testBit_flip, apart]
  | ry angle q =>
    have apart : q ≠ k := by simpa [qubits, eq_comm] using outside
    simp [partner, testBit_flip, apart]
  | x q => exact testBit_moves (g := .x q) outside i
  | z q => exact testBit_moves (g := .z q) outside i
  | cx control target => exact testBit_moves (g := .cx control target) outside i
  | cz p q => exact testBit_moves (g := .cz p q) outside i
  | swap p q => exact testBit_moves (g := .swap p q) outside i

theorem mixing_congr {α : Type} [CommRing α] (t : Trigonometry α) {g : Gate} {i j : Nat}
    (same : ∀ k ∈ g.qubits, i.testBit k = j.testBit k) :
    g.stay t i = g.stay t j ∧ g.cross t i = g.cross t j ∧
      ∀ k ∈ g.qubits, (g.partner i).testBit k = (g.partner j).testBit k := by
  cases g with
  | cx control target =>
    have first := same control (by simp [qubits])
    refine ⟨rfl, rfl, fun k mem => ?_⟩
    have here := same k mem
    simp only [partner, moves, first]
    split <;> simp [testBit_flip, here]
  | swap p q =>
    have first := same p (by simp [qubits])
    have second := same q (by simp [qubits])
    refine ⟨rfl, rfl, fun k mem => ?_⟩
    have here := same k mem
    simp only [partner, moves, first, second]
    split <;> simp [testBit_flip, here]
  | cz p q =>
    have first := same p (by simp [qubits])
    have second := same q (by simp [qubits])
    exact ⟨by simp [stay, first, second], rfl, same⟩
  | z q =>
    have here := same q (by simp [qubits])
    exact ⟨by simp [stay, here], rfl, same⟩
  | x q | h q | ry angle q =>
    have here := same q (by simp [qubits])
    refine ⟨by simp [stay, here], by simp [cross, here], fun k mem => ?_⟩
    have here := same k mem
    simp [partner, moves, testBit_flip, here]

theorem partner_comm {g g' : Gate} (apart : ∀ k ∈ g.qubits, k ∉ g'.qubits) (i : Nat) :
    g.partner (g'.partner i) = g'.partner (g.partner i) := by
  -- Which numbers the gates have for coefficients does not matter here.
  let t : Trigonometry Int := ⟨0, fun _ => 0, fun _ => 0⟩
  refine Nat.eq_of_testBit_eq fun k => ?_
  by_cases mem : k ∈ g.qubits
  · have other := apart k mem
    have agree : ∀ k ∈ g.qubits, (g'.partner i).testBit k = i.testBit k :=
      fun k mem => testBit_partner (apart k mem) i
    rw [(mixing_congr t agree).2.2 k mem, testBit_partner other]
  · rw [testBit_partner mem]
    by_cases mem' : k ∈ g'.qubits
    · have agree : ∀ k ∈ g'.qubits, (g.partner i).testBit k = i.testBit k :=
        fun k mem' => testBit_partner (fun mem => apart k mem mem') i
      rw [(mixing_congr t agree).2.2 k mem']
    · rw [testBit_partner mem', testBit_partner mem', testBit_partner mem]

theorem wave_comm {α : Type} [CommRing α] (t : Trigonometry α) {g g' : Gate}
    (apart : ∀ k ∈ g.qubits, k ∉ g'.qubits) (ψ : Nat → α) :
    g.wave t (g'.wave t ψ) = g'.wave t (g.wave t ψ) := by
  funext i
  have here : ∀ k ∈ g.qubits, (g'.partner i).testBit k = i.testBit k :=
    fun k mem => testBit_partner (apart k mem) i
  have there : ∀ k ∈ g'.qubits, (g.partner i).testBit k = i.testBit k :=
    fun k mem' => testBit_partner (fun mem => apart k mem mem') i
  obtain ⟨stays, crosses, _⟩ := mixing_congr t here
  obtain ⟨stays', crosses', _⟩ := mixing_congr t there
  simp only [wave_eq, stays, crosses, stays', crosses', partner_comm apart]
  ring

theorem partner_lt {g : Gate} {n i : Nat} (inside : ∀ k ∈ g.qubits, k < n) (small : i < pow2 n) :
    g.partner i < pow2 n := by
  refine Nat.lt_pow_two_of_testBit _ fun k high => ?_
  have outside : k ∉ g.qubits := fun mem => absurd (inside k mem) (Nat.not_lt.mpr high)
  rw [testBit_partner outside]
  exact Nat.testBit_eq_false_of_lt (Nat.lt_of_lt_of_le small (Nat.pow_le_pow_right (by decide) high))

section Weights
variable {t : Trigonometry ℝ}

theorem mixing_unitary (unitary : t.Unitary) (g : Gate) (i : Nat) :
    g.stay t i ^ 2 + g.cross t (g.partner i) ^ 2 = 1 ∧
      g.stay t i * g.cross t i + g.stay t (g.partner i) * g.cross t (g.partner i) = 0 := by
  have half := unitary.diagonal
  cases g with
  | h k =>
    simp only [stay, cross, partner, testBit_flip]
    cases i.testBit k <;> constructor <;> simp <;> linear_combination half
  | ry angle k =>
    have whole := unitary.angle angle
    simp only [stay, cross, partner, testBit_flip]
    cases i.testBit k <;> constructor <;> simp <;> linear_combination whole
  | z k =>
    simp only [stay, cross]
    constructor <;> split <;> norm_num
  | cz p q =>
    simp only [stay, cross]
    constructor <;> split <;> norm_num
  | _ => simp [stay, cross]

theorem pair_wave (unitary : t.Unitary) (g : Gate) (ψ : Nat → ℝ) (i : Nat) :
    g.wave t ψ i ^ 2 + g.wave t ψ (g.partner i) ^ 2 = ψ i ^ 2 + ψ (g.partner i) ^ 2 := by
  obtain ⟨column, mixed⟩ := mixing_unitary unitary g i
  obtain ⟨column', _⟩ := mixing_unitary unitary g (g.partner i)
  rw [partner_partner] at column'
  rw [wave_eq, wave_eq, partner_partner]
  linear_combination (ψ i ^ 2) * column + (ψ (g.partner i) ^ 2) * column' +
    (2 * ψ i * ψ (g.partner i)) * mixed

theorem sum_partner {g : Gate} {n : Nat} (inside : ∀ k ∈ g.qubits, k < n) (f : Nat → ℝ) :
    ∑ i ∈ Finset.range (pow2 n), f (g.partner i) = ∑ i ∈ Finset.range (pow2 n), f i := by
  have stays : ∀ i ∈ Finset.range (pow2 n), g.partner i ∈ Finset.range (pow2 n) :=
    fun i mem => Finset.mem_range.mpr (partner_lt inside (Finset.mem_range.mp mem))
  exact Finset.sum_nbij' g.partner g.partner stays stays (fun i _ => partner_partner g i)
    (fun i _ => partner_partner g i) fun _ _ => rfl

theorem sum_wave (unitary : t.Unitary) {g : Gate} {n : Nat} (inside : ∀ k ∈ g.qubits, k < n)
    {w : Nat → ℝ} (blind : ∀ i, w (g.partner i) = w i) (ψ : Nat → ℝ) :
    ∑ i ∈ Finset.range (pow2 n), w i * g.wave t ψ i ^ 2 =
      ∑ i ∈ Finset.range (pow2 n), w i * ψ i ^ 2 := by
  have pairs : ∑ i ∈ Finset.range (pow2 n),
        (w i * g.wave t ψ i ^ 2 + w (g.partner i) * g.wave t ψ (g.partner i) ^ 2) =
      ∑ i ∈ Finset.range (pow2 n), (w i * ψ i ^ 2 + w (g.partner i) * ψ (g.partner i) ^ 2) := by
    refine Finset.sum_congr rfl fun i _ => ?_
    rw [blind]
    linear_combination w i * pair_wave unitary g ψ i
  rw [Finset.sum_add_distrib, Finset.sum_add_distrib,
    sum_partner inside fun i => w i * g.wave t ψ i ^ 2,
    sum_partner inside fun i => w i * ψ i ^ 2] at pairs
  linarith

end Weights
end Gate

section Lists
variable {α : Type} [CommRing α] {t : Trigonometry α} {gs : List Gate}

theorem foldl_wave_comm {g : Gate} (apart : ∀ g' ∈ gs, ∀ k ∈ g'.qubits, k ∉ g.qubits)
    (ψ : Nat → α) : gs.foldl (fun ψ g => g.wave t ψ) (g.wave t ψ) =
      g.wave t (gs.foldl (fun ψ g => g.wave t ψ) ψ) := by
  induction gs generalizing ψ with
  | nil => rfl
  | cons g' gs ih =>
    rw [List.foldl_cons, List.foldl_cons, Gate.wave_comm t (apart g' List.mem_cons_self)]
    exact ih (fun h mem => apart h (List.mem_cons_of_mem g' mem)) _

/-- Of two lists of gates on different qubits the second may wait for the first to end. -/
theorem foldl_wave_shuffled {xs ys zs : List Gate} (shuffled : Shuffles Eq xs ys zs)
    (apart : ∀ g ∈ xs, ∀ g' ∈ ys, ∀ k ∈ g.qubits, k ∉ g'.qubits) (ψ : Nat → α) :
    zs.foldl (fun ψ g => g.wave t ψ) ψ =
      ys.foldl (fun ψ g => g.wave t ψ) (xs.foldl (fun ψ g => g.wave t ψ) ψ) := by
  induction shuffled generalizing ψ with
  | nil => rfl
  | @left x z xs ys zs same _ ih =>
    subst same
    exact ih (fun g mem => apart g (List.mem_cons_of_mem x mem)) _
  | @right y z xs ys zs same _ ih =>
    subst same
    have waits : xs.foldl (fun ψ g => g.wave t ψ) (y.wave t ψ) =
        y.wave t (xs.foldl (fun ψ g => g.wave t ψ) ψ) :=
      foldl_wave_comm (fun g mem => apart g mem y List.mem_cons_self) ψ
    rw [List.foldl_cons, List.foldl_cons, ← waits]
    exact ih (fun g mem g' mem' => apart g mem g' (List.mem_cons_of_mem y mem')) _

theorem sum_foldl_wave {t : Trigonometry ℝ} (unitary : t.Unitary) {n : Nat}
    (inside : ∀ g ∈ gs, ∀ k ∈ g.qubits, k < n) {w : Nat → ℝ}
    (blind : ∀ g ∈ gs, ∀ i, w (g.partner i) = w i) (ψ : Nat → ℝ) :
    ∑ i ∈ Finset.range (pow2 n), w i * (gs.foldl (fun ψ g => g.wave t ψ) ψ) i ^ 2 =
      ∑ i ∈ Finset.range (pow2 n), w i * ψ i ^ 2 := by
  induction gs generalizing ψ with
  | nil => rfl
  | cons g gs ih =>
    rw [List.foldl_cons, ih (fun h mem => inside h (List.mem_cons_of_mem g mem))
      fun h mem => blind h (List.mem_cons_of_mem g mem)]
    exact Gate.sum_wave unitary (inside g List.mem_cons_self) (blind g List.mem_cons_self) ψ

end Lists

namespace Circuit
variable {ops : List NativeOp} {c : Circuit} {allowed : Nat}

theorem label_congr {targets : List Qubit} {i j : Nat}
    (same : ∀ q ∈ targets, i.testBit q = j.testBit q) : label targets i = label targets j := by
  unfold label
  congr 1
  refine List.map_congr_left fun q mem => ?_
  rw [same q (List.mem_reverse.mp mem)]

/-- The probability that some of the measured qubits read as an outcome. -/
def probabilityOn {α : Type} [CommRing α] (t : Trigonometry α) (c : Circuit) (targets : List Qubit)
    (outcome : String) : α :=
  match MeasuredSample.positions? c.measured targets with
  | some positions => ∑ i ∈ Finset.range (c.amplitudes t).size,
      if MeasuredSample.pick positions (c.outcome i) = outcome then
        ((c.amplitudes t)[i]?.getD 0) ^ 2
      else 0
  | none => 0

theorem probabilityOn_eq {α : Type} [CommRing α] {t : Trigonometry α} (made : ofOps allowed ops = .ok c)
    {targets : List Qubit} (measured : ∀ q ∈ targets, q ∈ readout ops) {n : Nat}
    (inside : ∀ q ∈ (touched ops).elems, q < n) (outcome : String) :
    c.probabilityOn t targets outcome = ∑ s ∈ Finset.range (pow2 n),
      (if label targets s = outcome then 1 else 0) * waveOf t ops s ^ 2 := by
  have read : c.measured = readout ops := by
    obtain ⟨_, _, _, _, rfl⟩ := ofOps_eq_ok.mp made
    rfl
  have positions := positions?_eq measured
  unfold probabilityOn
  rw [read, positions]
  dsimp only
  rw [sum_outcomes made inside fun o => MeasuredSample.pick _ o = outcome]
  refine Finset.sum_congr rfl fun s _ => ?_
  rw [pick_label measured, ite_mul, one_mul, zero_mul]

theorem probabilityOn_shuffled {t : Trigonometry ℝ} (unitary : t.Unitary)
    {ops' xs ys zs : List NativeOp} {c' : Circuit} {allowed' : Nat}
    (made : ofOps allowed ops = .ok c) (made' : ofOps allowed' ops' = .ok c')
    (alone : waveOf t ops = waveOf t xs) (beside : waveOf t ops' = waveOf t zs)
    (shuffled : Shuffles Eq (gatesOn xs) (gatesOn ys) (gatesOn zs))
    (apart : ∀ x ∈ xs, ∀ y ∈ ys, ∀ q ∈ x.qubits, q ∉ y.qubits) {targets : List Qubit}
    (clear : ∀ q ∈ targets, ∀ y ∈ ys, q ∉ y.qubits) (measured : ∀ q ∈ targets, q ∈ readout ops)
    (measured' : ∀ q ∈ targets, q ∈ readout ops') (outcome : String) :
    c.probabilityOn t targets outcome = c'.probabilityOn t targets outcome := by
  have onOwn : ∀ {ops : List NativeOp} {g : Gate}, g ∈ gatesOn ops →
      ∀ q ∈ g.qubits, ∃ op ∈ ops, q ∈ op.qubits :=
    fun mem q at_q => (mem_touched _ q).mp (qubits_gatesOn mem q at_q)
  obtain ⟨n, all⟩ :=
    exists_bound ((touched ops).elems ++ (touched ops').elems ++ (touched ys).elems)
  rw [probabilityOn_eq made measured (n := n) fun q mem => all q (by simp [mem]),
    probabilityOn_eq made' measured' (n := n) fun q mem => all q (by simp [mem]), beside, alone]
  have waits : waveOf t zs = (gatesOn ys).foldl (fun ψ g => g.wave t ψ) (waveOf t xs) := by
    refine foldl_wave_shuffled shuffled (fun g mem g' mem' q at_q at_q' => ?_) _
    obtain ⟨x, among, inside⟩ := onOwn mem q at_q
    obtain ⟨y, among', inside'⟩ := onOwn mem' q at_q'
    exact apart x among y among' q inside inside'
  rw [waits]
  refine (sum_foldl_wave unitary (fun g mem q at_q => ?_) (fun g mem i => ?_) _).symm
  · exact all q (by simp [qubits_gatesOn mem q at_q])
  · have same : label targets (g.partner i) = label targets i := by
      refine label_congr fun q asked => Gate.testBit_partner (fun at_q => ?_) i
      obtain ⟨y, among, inside⟩ := onOwn mem q at_q
      exact clear q asked y among inside
    rw [same]

end Circuit
end LazyCast
