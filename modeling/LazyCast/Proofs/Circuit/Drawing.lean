import LazyCast.Proofs.Circuit.Distribution
import LazyCast.Proofs.Circuit.Locality
import Mathlib.Algebra.Order.BigOperators.Group.Finset
/-!
Draws, exactly. The running sums that a draw is looked up in are those of the states above a threshold,
in order, so the draw picks the first one of them whose sum exceeds it, and the last one when none does.
There is one of them whenever the probabilities make more than the threshold at every state would, and
gates on the qubits of a vector leave the probabilities at a sum of one.
-/
namespace LazyCast

namespace Amplitudes

noncomputable def weight (v : Amplitudes ℝ) (i : Nat) : ℝ := (v[i]?.getD 0) ^ 2

noncomputable def total (v : Amplitudes ℝ) : ℝ := ∑ i ∈ Finset.range v.size, weight v i

/-- The probability of a state as it is counted: none where it is not above the threshold. -/
noncomputable def counted (θ a : ℝ) : ℝ := if θ < a ^ 2 then a ^ 2 else 0

noncomputable def reached (θ : ℝ) (v : Amplitudes ℝ) (i : Nat) : ℝ :=
  ∑ j ∈ Finset.range (i + 1), counted θ (v[j]?.getD 0)

/-- What is drawn at `r`: a state above the threshold, the first whose running sum exceeds `r`, or the
    last one above the threshold when none does. -/
structure Draws (θ : ℝ) (v : Amplitudes ℝ) (r : ℝ) (i : Nat) : Prop where
  inside : i < v.size
  possible : θ < weight v i
  first : (r < reached θ v i ∧ ∀ j < i, reached θ v j ≤ r) ∨
    ((∀ j < v.size, reached θ v j ≤ r) ∧ ∀ j < v.size, i < j → weight v j ≤ θ)

section Sums
variable {θ sum r : ℝ} {as : List ℝ} {v : Amplitudes ℝ} {i : Nat}

theorem mem_runningSums_iff {e : Nat × ℝ} : e ∈ runningSums θ sum i as ↔
    ∃ k < as.length, θ < (as[k]?.getD 0) ^ 2 ∧
      e = (i + k, sum + ∑ j ∈ Finset.range (k + 1), counted θ (as[j]?.getD 0)) := by
  induction as generalizing sum i with
  | nil => simp [runningSums]
  | cons a rest ih =>
    -- The states of the rest, seen from the first one.
    have later : e ∈ runningSums θ (sum + counted θ a) (i + 1) rest ↔ ∃ k < rest.length,
        θ < ((a :: rest)[k + 1]?.getD 0) ^ 2 ∧ e = (i + (k + 1),
          sum + ∑ j ∈ Finset.range (k + 1 + 1), counted θ ((a :: rest)[j]?.getD 0)) := by
      rw [ih]
      refine exists_congr fun k => and_congr_right fun _ => and_congr Iff.rfl ?_
      rw [Finset.sum_range_succ' _ (k + 1)]
      simp only [List.getElem?_cons_succ, List.getElem?_cons_zero, Option.getD_some]
      rw [show i + 1 + k = i + (k + 1) by omega, add_assoc, add_comm (counted θ a)]
    rw [List.length_cons, Nat.exists_lt_succ_left, ← later, runningSums, ← pow_two]
    by_cases low : a ^ 2 ≤ θ
    · have skipped : counted θ a = 0 := if_neg (not_lt.mpr low)
      rw [if_pos low, skipped, add_zero]
      simp [not_lt.mpr low]
    · have kept : counted θ a = a ^ 2 := if_pos (not_le.mp low)
      rw [if_neg low, List.mem_cons, kept]
      simp [not_le.mp low, kept]

theorem pairwise_runningSums (θ sum : ℝ) (i : Nat) (as : List ℝ) :
    (runningSums θ sum i as).Pairwise fun e e' => e.1 < e'.1 := by
  induction as generalizing sum i with
  | nil => exact .nil
  | cons a rest ih =>
    rw [runningSums]
    split
    · exact ih sum (i + 1)
    · refine .cons (fun e mem => ?_) (ih _ (i + 1))
      obtain ⟨k, _, _, rfl⟩ := mem_runningSums_iff.mp mem
      dsimp only
      omega

theorem mem_sums {e : Nat × ℝ} : e ∈ runningSums θ 0 0 v.toList ↔
    ∃ k < v.size, θ < weight v k ∧ e = (k, reached θ v k) := by
  rw [mem_runningSums_iff]
  simp only [Array.length_toList, Array.getElem?_toList, zero_add]
  rfl

theorem reached_le {n : Nat} (nonneg : 0 ≤ r)
    (high : ∀ j < n, θ < weight v j → reached θ v j ≤ r) : ∀ j < n, reached θ v j ≤ r := by
  intro j inside
  induction j with
  | zero =>
    by_cases above : θ < weight v 0
    · exact high 0 inside above
    · have skipped : counted θ (v[0]?.getD 0) = 0 := if_neg above
      rw [reached, Finset.sum_range_one, skipped]
      exact nonneg
  | succ j ih =>
    by_cases above : θ < weight v (j + 1)
    · exact high (j + 1) inside above
    · have skipped : counted θ (v[j + 1]?.getD 0) = 0 := if_neg above
      rw [reached, Finset.sum_range_succ, skipped, add_zero]
      exact ih (Nat.lt_of_succ_lt inside)

theorem draws_of_find {e : Nat × ℝ} (nonneg : 0 ≤ r)
    (found : (runningSums θ 0 0 v.toList).find? (fun s => decide (r < s.2)) = some e) :
    Draws θ v r e.1 := by
  obtain ⟨exceeds, before, after, parts, short⟩ := List.find?_eq_some_iff_append.mp found
  obtain ⟨k, inside, above, rfl⟩ := mem_sums.mp (List.mem_of_find?_eq_some found)
  refine ⟨inside, above, Or.inl ⟨of_decide_eq_true exceeds, reached_le nonneg ?_⟩⟩
  intro j (less : j < k) high
  have mem := mem_sums.mpr ⟨j, less.trans inside, high, rfl⟩
  have ordered := pairwise_runningSums θ 0 0 v.toList
  rw [parts] at mem ordered
  -- A state before the one found is not listed after it.
  rcases List.mem_append.mp mem with mem | mem
  · simpa using short _ mem
  · rcases List.mem_cons.mp mem with same | mem
    · cases same
      exact absurd less (Nat.lt_irrefl _)
    · have later := (List.pairwise_cons.mp (List.pairwise_append.mp ordered).2.1).1 _ mem
      exact absurd later (Nat.lt_asymm less)

theorem draws_of_getLast {e : Nat × ℝ} (nonneg : 0 ≤ r)
    (short : (runningSums θ 0 0 v.toList).find? (fun s => decide (r < s.2)) = none)
    (ended : (runningSums θ 0 0 v.toList).getLast? = some e) : Draws θ v r e.1 := by
  obtain ⟨before, parts⟩ := List.getLast?_eq_some_iff.mp ended
  obtain ⟨k, inside, above, rfl⟩ := mem_sums.mp (List.mem_of_getLast? ended)
  refine ⟨inside, above, Or.inr ⟨reached_le nonneg fun j within high => ?_, ?_⟩⟩
  · have mem := mem_sums.mpr ⟨j, within, high, rfl⟩
    simpa using List.find?_eq_none.mp short _ mem
  · intro j within (later : k < j)
    by_contra high
    have mem := mem_sums.mpr ⟨j, within, not_le.mp high, rfl⟩
    have ordered := pairwise_runningSums θ 0 0 v.toList
    rw [parts] at mem ordered
    rcases List.mem_append.mp mem with mem | mem
    · have less := (List.pairwise_append.mp ordered).2.2 _ mem _ (List.mem_singleton_self _)
      exact absurd later (Nat.lt_asymm less)
    · cases List.mem_singleton.mp mem
      exact absurd later (Nat.lt_irrefl _)

theorem draws_pick (some : ∃ k < v.size, θ < weight v k) (nonneg : 0 ≤ r) :
    Draws θ v r (pick (runningSums θ 0 0 v.toList) r) := by
  unfold pick
  cases found : (runningSums θ 0 0 v.toList).find? fun s => decide (r < s.2) with
  | some e => exact draws_of_find nonneg found
  | none =>
    cases ended : (runningSums θ 0 0 v.toList).getLast? with
    | some e => exact draws_of_getLast nonneg found ended
    | none =>
      obtain ⟨k, inside, above⟩ := some
      have mem := mem_sums.mpr ⟨k, inside, above, rfl⟩
      rw [List.getLast?_eq_none_iff.mp ended] at mem
      cases mem

/-- Some state is above a threshold that all states together could not make up. -/
theorem exists_possible (short : v.size * θ < total v) : ∃ k < v.size, θ < weight v k := by
  by_contra none
  push Not at none
  have bound := Finset.sum_le_card_nsmul (Finset.range v.size) (weight v) θ
    fun k mem => none k (Finset.mem_range.mp mem)
  rw [Finset.card_range, nsmul_eq_mul] at bound
  exact absurd short (not_lt.mpr bound)

end Sums

section Norm
variable {t : Trigonometry ℝ} {n : Nat} {gs : List Gate}

theorem foldl_apply_ofFunction {α : Type} [Add α] [Mul α] [Neg α] {t : Trigonometry α}
    (inside : ∀ g ∈ gs, ∀ k ∈ g.qubits, k < n) (ψ : Nat → α) :
    gs.foldl (fun v g => g.apply t v) (ofFunction (pow2 n) ψ) =
      ofFunction (pow2 n) (gs.foldl (fun ψ g => g.wave t ψ) ψ) := by
  induction gs generalizing ψ with
  | nil => rfl
  | cons g gs ih =>
    obtain ⟨here, inside⟩ := List.forall_mem_cons.mp inside
    rw [List.foldl_cons, List.foldl_cons, Gate.apply_ofFunction t here, ih inside]

theorem total_ofFunction (n : Nat) (f : Nat → ℝ) :
    total (ofFunction n f) = ∑ i ∈ Finset.range n, f i ^ 2 := by
  unfold total weight
  rw [size_ofFunction]
  refine Finset.sum_congr rfl fun i mem => ?_
  rw [getElem?_ofFunction (Finset.mem_range.mp mem), Option.getD_some]

theorem total_foldl_apply (unitary : t.Unitary) (inside : ∀ g ∈ gs, ∀ k ∈ g.qubits, k < n) :
    total (gs.foldl (fun v g => g.apply t v) (zeroState n)) = 1 := by
  have kept := sum_foldl_wave (w := fun _ => 1) unitary inside (fun _ _ _ => rfl) vacuum
  simp only [one_mul] at kept
  rw [Circuit.zeroState_eq, foldl_apply_ofFunction inside, total_ofFunction, kept,
    Finset.sum_eq_single 0]
  · simp [vacuum]
  · intro i _ other
    simp [vacuum, other]
  · intro outside
    exact absurd (Finset.mem_range.mpr (pow2_pos n)) outside

end Norm

end Amplitudes

end LazyCast
