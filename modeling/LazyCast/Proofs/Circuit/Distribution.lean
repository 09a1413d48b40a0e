import LazyCast.Proofs.Circuit.Dense
/-!
Probabilities of outcomes, exactly. Only the wave and the qubits read out matter: a qubit that is in
use for nothing changes no probability.
-/
namespace LazyCast.Circuit
variable {α : Type} {ops : List NativeOp} {c : Circuit} {allowed : Nat}

/-- A basis state as an outcome on some qubits, the first one rightmost. -/
def label (qubits : List Qubit) (s : Nat) : String :=
  String.ofList (qubits.reverse.map fun q => if s.testBit q then '1' else '0')

theorem outcome_eq (made : ofOps allowed ops = .ok c) (i : Nat) :
    c.outcome i = label (readout ops) (spread (touched ops).elems i) := by
  obtain ⟨_, _, _, _, rfl⟩ := ofOps_eq_ok.mp made
  unfold outcome label
  congr 1
  refine List.map_congr_left fun q mem => ?_
  have inside := readout_touched ops q (List.mem_reverse.mp mem)
  rw [testBit_spread (nodup_touched ops), denseOf_denseNumbers inside]
  simp [inside]

theorem zeroState_eq [Zero α] [One α] (n : Nat) :
    (Amplitudes.zeroState n : Amplitudes α) = Amplitudes.ofFunction (pow2 n) vacuum := by
  have zeros : Array.replicate (pow2 n) (0 : α) = Amplitudes.ofFunction (pow2 n) fun _ => 0 :=
    Array.ext (by simp [Amplitudes.ofFunction]) fun i _ _ => by simp [Amplitudes.ofFunction]
  rw [Amplitudes.zeroState, zeros, Amplitudes.setIfInBounds_ofFunction]
  exact Amplitudes.ofFunction_congr fun i _ => Function.update_apply _ _ _ _

theorem amplitudes_eq [Zero α] [One α] [Add α] [Mul α] [Neg α] {t : Trigonometry α}
    (made : ofOps allowed ops = .ok c) :
    c.amplitudes t = Amplitudes.ofFunction (pow2 (touched ops).size) fun i =>
      waveOf t ops (spread (touched ops).elems i) := by
  obtain ⟨_, _, _, _, rfl⟩ := ofOps_eq_ok.mp made
  have nodup := nodup_touched ops
  have steps : ∀ (gs : List Gate) (ψ : Nat → α),
      (∀ g ∈ gs, ∀ q ∈ g.qubits, q ∈ (touched ops).elems) →
      (gs.map (Gate.rename (denseOf (denseNumbers (touched ops))))).foldl
          (fun v g => g.apply t v) (Amplitudes.ofFunction (pow2 (touched ops).size) fun i =>
            ψ (spread (touched ops).elems i)) =
        Amplitudes.ofFunction (pow2 (touched ops).size) fun i =>
          gs.foldl (fun ψ g => g.wave t ψ) ψ (spread (touched ops).elems i) := by
    intro gs
    induction gs with
    | nil => exact fun _ _ => rfl
    | cons g gs ih =>
      intro ψ inside
      have here := inside g List.mem_cons_self
      have dense : g.rename (denseOf (denseNumbers (touched ops))) =
          g.rename (touched ops).elems.idxOf :=
        Gate.rename_congr fun q mem => denseOf_denseNumbers (here q mem)
      have placed : ∀ k ∈ (g.rename (touched ops).elems.idxOf).qubits,
          k < (touched ops).size := by
        intro k mem
        rw [Gate.qubits_rename] at mem
        obtain ⟨q, at_q, rfl⟩ := List.mem_map.mp mem
        exact List.idxOf_lt_length_of_mem (here q at_q)
      rw [List.map_cons, List.foldl_cons, List.foldl_cons, dense,
        Gate.apply_ofFunction t placed, Gate.wave_rename t (spreads nodup here)]
      exact ih _ fun g mem => inside g (List.mem_cons_of_mem _ mem)
  have start : (Amplitudes.zeroState (denseNumbers (touched ops)).size : Amplitudes α) =
      Amplitudes.ofFunction (pow2 (touched ops).size) fun i =>
        vacuum (spread (touched ops).elems i) := by
    have size : (denseNumbers (touched ops)).size = (touched ops).size := by
      simp [Table.size, denseNumbers, OrderedSet.size]
    rw [size, zeroState_eq]
    refine Amplitudes.ofFunction_congr fun i inside => ?_
    have zero : spread (touched ops).elems i = 0 ↔ i = 0 := by
      constructor
      · intro zero
        rw [← spread_zero (touched ops).elems] at zero
        exact spread_injective nodup inside (pow2_pos _) zero
      · rintro rfl
        exact spread_zero _
    simp only [vacuum, zero]
  unfold amplitudes
  rw [start]
  exact steps _ _ fun g mem => qubits_gatesOn mem

variable [CommRing α] {t : Trigonometry α}

/-- The probability of an outcome under a circuit. -/
def probability (t : Trigonometry α) (c : Circuit) (outcome : String) : α :=
  ∑ i ∈ Finset.range (c.amplitudes t).size,
    if c.outcome i = outcome then ((c.amplitudes t)[i]?.getD 0) ^ 2 else 0

theorem waveOf_within (t : Trigonometry α) (ops : List NativeOp) :
    Gate.Within (touched ops).elems (waveOf t ops) := by
  have steps : ∀ (gs : List Gate) (ψ : Nat → α),
      (∀ g ∈ gs, ∀ q ∈ g.qubits, q ∈ (touched ops).elems) →
      Gate.Within (touched ops).elems ψ →
        Gate.Within (touched ops).elems (gs.foldl (fun ψ g => g.wave t ψ) ψ) := by
    intro gs
    induction gs with
    | nil => exact fun _ _ within => within
    | cons g gs ih =>
      exact fun ψ inside within => ih _ (fun g mem => inside g (List.mem_cons_of_mem _ mem))
        (within.wave (inside g List.mem_cons_self))
  refine steps _ _ (fun g mem => qubits_gatesOn mem) fun i q set _ => ?_
  have some : i ≠ 0 := by
    rintro rfl
    simp at set
  exact if_neg some

theorem sum_spread {β : Type} [AddCommMonoid β] {qs : List Qubit} (nodup : qs.Nodup) {n : Nat}
    (inside : ∀ q ∈ qs, q < n) {f : Nat → β}
    (within : ∀ s q, s.testBit q = true → q ∉ qs → f s = 0) :
    ∑ i ∈ Finset.range (pow2 qs.length), f (spread qs i) = ∑ s ∈ Finset.range (pow2 n), f s := by
  have injective : Set.InjOn (spread qs) (Finset.range (pow2 qs.length)) :=
    fun i hi j hj same => spread_injective nodup (Finset.mem_range.mp (Finset.mem_coe.mp hi))
      (Finset.mem_range.mp (Finset.mem_coe.mp hj)) same
  rw [← Finset.sum_image injective]
  refine Finset.sum_subset (fun s mem => ?_) fun s _ outside => ?_
  · obtain ⟨i, _, rfl⟩ := Finset.mem_image.mp mem
    refine Finset.mem_range.mpr (Nat.lt_pow_two_of_testBit _ fun k high => ?_)
    have out : k ∉ qs := fun mem => absurd (inside k mem) (Nat.not_lt.mpr high)
    simp [testBit_spread nodup, out]
  · by_cases held : ∀ k, s.testBit k = true → k ∈ qs
    · refine absurd (Finset.mem_image.mpr ⟨gather qs s, Finset.mem_range.mpr (gather_lt qs s),
        spread_gather nodup held⟩) outside
    · push Not at held
      obtain ⟨k, set, out⟩ := held
      exact within s k set out

theorem sum_outcomes (made : ofOps allowed ops = .ok c) {n : Nat}
    (inside : ∀ q ∈ (touched ops).elems, q < n) (counted : String → Prop) [DecidablePred counted] :
    ∑ i ∈ Finset.range (c.amplitudes t).size,
        (if counted (c.outcome i) then ((c.amplitudes t)[i]?.getD 0) ^ 2 else 0) =
      ∑ s ∈ Finset.range (pow2 n),
        if counted (label (readout ops) s) then waveOf t ops s ^ 2 else 0 := by
  have within : ∀ s q, s.testBit q = true → q ∉ (touched ops).elems →
      (if counted (label (readout ops) s) then waveOf t ops s ^ 2 else 0) = 0 := by
    intro s q set out
    rw [waveOf_within t ops s q set out]
    simp
  rw [← sum_spread (nodup_touched ops) inside within, amplitudes_eq made, Amplitudes.size_ofFunction]
  refine Finset.sum_congr rfl fun i mem => ?_
  have small : i < pow2 (touched ops).size := Finset.mem_range.mp mem
  rw [outcome_eq made, Amplitudes.getElem?_ofFunction small, Option.getD_some]

theorem exists_bound (qs : List Nat) : ∃ n, ∀ q ∈ qs, q < n := by
  induction qs with
  | nil => exact ⟨0, fun q none => by cases none⟩
  | cons q qs ih =>
    obtain ⟨n, all⟩ := ih
    refine ⟨q + 1 + n, fun p mem => ?_⟩
    rcases List.mem_cons.mp mem with rfl | mem
    · omega
    · have less := all p mem
      omega

theorem probability_congr {ops' : List NativeOp} {c' : Circuit} {allowed' : Nat}
    (made : ofOps allowed ops = .ok c) (made' : ofOps allowed' ops' = .ok c')
    (read : readout ops = readout ops') (same : waveOf t ops = waveOf t ops') (outcome : String) :
    c.probability t outcome = c'.probability t outcome := by
  obtain ⟨n, all⟩ := exists_bound ((touched ops).elems ++ (touched ops').elems)
  unfold probability
  rw [sum_outcomes made (fun q mem => all q (List.mem_append_left _ mem)) (· = outcome),
    sum_outcomes made' (fun q mem => all q (List.mem_append_right _ mem)) (· = outcome), read, same]

end LazyCast.Circuit
