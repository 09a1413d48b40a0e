import LazyCast.Circuit
import Mathlib.Data.Nat.Bitwise
/-!
Loops over the basis states. Every visit of a loop writes its own entries, so the vector that is
left has at each entry what the one visit that wrote it made of the entries before the loop.
-/
namespace LazyCast.Amplitudes
variable {α : Type}

def ofFunction (n : Nat) (f : Nat → α) : Amplitudes α := Array.ofFn fun i : Fin n => f i

def visits (n : Nat) (visit : (Nat → α) → Nat → Nat → α) (f : Nat → α) : Nat → α :=
  (List.range n).foldl visit f

section Functions
variable {n : Nat} {f g : Nat → α}

theorem size_ofFunction (n : Nat) (f : Nat → α) : (ofFunction n f).size = n := Array.size_ofFn

theorem getElem?_ofFunction {i : Nat} (inside : i < n) : (ofFunction n f)[i]? = some (f i) := by
  simp [ofFunction, inside]

theorem ofFunction_congr (same : ∀ i, i < n → f i = g i) : ofFunction n f = ofFunction n g := by
  unfold ofFunction
  congr 1
  funext i
  exact same i i.isLt

theorem setIfInBounds_ofFunction {i : Nat} (a : α) :
    (ofFunction n f).setIfInBounds i a = ofFunction n (Function.update f i a) := by
  refine Array.ext (by simp [ofFunction]) fun j inside _ => ?_
  have inside : j < (ofFunction n f).size := by simpa using inside
  rw [Array.getElem_setIfInBounds inside]
  simp only [ofFunction, Array.getElem_ofFn, Function.update_apply, eq_comm]

theorem modify_ofFunction {i : Nat} (h : α → α) :
    (ofFunction n f).modify i h = ofFunction n (Function.update f i (h (f i))) := by
  refine Array.ext (by simp [ofFunction]) fun j _ _ => ?_
  simp only [ofFunction, Array.getElem_modify, Array.getElem_ofFn, Function.update_apply, eq_comm]
  split
  · rename_i same
    rw [same]
  · rfl

theorem swapIfInBounds_ofFunction {i j : Nat} (hi : i < n) (hj : j < n) :
    (ofFunction n f).swapIfInBounds i j =
      ofFunction n (Function.update (Function.update f i (f j)) j (f i)) := by
  unfold Array.swapIfInBounds
  rw [dif_pos (by simpa [ofFunction] using hi), dif_pos (by simpa [ofFunction] using hj)]
  refine Array.ext (by simp [ofFunction]) fun k _ _ => ?_
  simp only [ofFunction, Array.getElem_swap, Array.getElem_ofFn, Function.update_apply]
  split_ifs with first second
  all_goals simp_all

theorem sweep_ofFunction {visit : Amplitudes α → Nat → Amplitudes α}
    (visit' : (Nat → α) → Nat → Nat → α)
    (follows : ∀ f i, i < n → visit (ofFunction n f) i = ofFunction n (visit' f i)) :
    (ofFunction n f).sweep visit = ofFunction n (visits n visit' f) := by
  unfold sweep visits
  rw [size_ofFunction]
  have upto : ∀ m, m ≤ n → (List.range m).foldl visit (ofFunction n f) =
      ofFunction n ((List.range m).foldl visit' f) := by
    intro m
    induction m with
    | zero => exact fun _ => rfl
    | succ m ih =>
      intro le
      rw [List.range_succ, List.foldl_append, List.foldl_append, ih (Nat.le_of_succ_le le)]
      exact follows _ m le
  exact upto n (Nat.le_refl n)

theorem visits_apart {visit : (Nat → α) → Nat → Nat → α} (touches : Nat → Nat → Prop)
    (goal : Nat → α) (apart : ∀ i j k, touches i k → touches j k → i = j)
    (keeps : ∀ g i k, ¬ touches i k → visit g i k = g k)
    (writes : ∀ g i k, touches i k → (∀ l, touches i l → g l = f l) → visit g i k = goal k)
    (rest : ∀ k, k < n → (∀ i, i < n → ¬ touches i k) → goal k = f k) {k : Nat} (inside : k < n) :
    visits n visit f k = goal k := by
  have upto : ∀ m, m ≤ n → ∀ k,
      ((∃ i, i < m ∧ touches i k) → (List.range m).foldl visit f k = goal k) ∧
        ((∀ i, i < m → ¬ touches i k) → (List.range m).foldl visit f k = f k) := by
    intro m
    induction m with
    | zero =>
      exact fun _ k => ⟨fun ⟨i, lt, _⟩ => absurd lt (Nat.not_lt_zero i), fun _ => rfl⟩
    | succ m ih =>
      intro le k
      have before := ih (Nat.le_of_succ_le le)
      rw [List.range_succ, List.foldl_append]
      refine ⟨?_, fun untouched => ?_⟩
      · rintro ⟨i, lt, written⟩
        by_cases now : touches m k
        · refine writes _ m k now fun l also => (before l).2 fun j earlier other => ?_
          exact Nat.ne_of_lt earlier (apart j m l other also)
        · have earlier : i < m := by
            rcases Nat.lt_succ_iff_lt_or_eq.mp lt with earlier | same
            · exact earlier
            · exact absurd (same ▸ written) now
          exact (keeps _ m k now).trans ((before k).1 ⟨i, earlier, written⟩)
      · refine (keeps _ m k (untouched m (Nat.lt_succ_self m))).trans ?_
        exact (before k).2 fun i earlier => untouched i (Nat.lt_succ_of_lt earlier)
  -- An entry that no visit touches is already what it should become.
  by_cases written : ∃ i, i < n ∧ touches i k
  · exact (upto n (Nat.le_refl n) k).1 written
  · have untouched : ∀ i, i < n → ¬ touches i k := fun i lt now => written ⟨i, lt, now⟩
    rw [rest k inside untouched]
    exact (upto n (Nat.le_refl n) k).2 untouched

theorem visits_single (chosen : Nat → Bool) (h : α → α) {k : Nat} (inside : k < n) :
    visits n (fun f i => if chosen i then Function.update f i (h (f i)) else f) f k =
      if chosen k then h (f k) else f k := by
  refine visits_apart (fun i k => chosen i = true ∧ k = i)
    (fun k => if chosen k then h (f k) else f k) ?_ ?_ ?_ ?_ inside
  · rintro i j k ⟨_, rfl⟩ ⟨_, same⟩
    exact same
  · intro g i k untouched
    by_cases now : chosen i = true
    · rw [if_pos now]
      exact Function.update_of_ne (fun same => untouched ⟨now, same⟩) _ _
    · rw [if_neg now]
  · rintro g i k ⟨now, rfl⟩ before
    simp only [now, if_true, Function.update_self, before k ⟨now, rfl⟩]
  · intro k inside untouched
    exact if_neg fun now => untouched k inside ⟨now, rfl⟩

theorem visits_pairs (chosen : Nat → Bool) (partner : Nat → Nat) (low high : α → α → α)
    (back : ∀ i, partner (partner i) = i)
    (once : ∀ i, chosen i = true → chosen (partner i) = false)
    (within : ∀ i, i < n → partner i < n) {k : Nat} (inside : k < n) :
    visits n (fun f i => if chosen i then Function.update (Function.update f i
        (low (f i) (f (partner i)))) (partner i) (high (f i) (f (partner i))) else f) f k =
      if chosen k then low (f k) (f (partner k))
      else if chosen (partner k) then high (f (partner k)) (f k) else f k := by
  refine visits_apart (fun i k => chosen i = true ∧ (k = i ∨ k = partner i))
    (fun k => if chosen k then low (f k) (f (partner k))
      else if chosen (partner k) then high (f (partner k)) (f k) else f k) ?_ ?_ ?_ ?_ inside
  · rintro i j k ⟨first, at_i⟩ ⟨second, at_j⟩
    have other := once j second
    have another := once i first
    rcases at_i with rfl | rfl <;> rcases at_j with same | same
    · exact same
    · rw [← same, first] at other
      cases other
    · rw [same, second] at another
      cases another
    · rw [← back i, same, back]
  · intro g i k untouched
    by_cases now : chosen i = true
    · have ne : k ≠ i := fun same => untouched ⟨now, Or.inl same⟩
      have ne' : k ≠ partner i := fun same => untouched ⟨now, Or.inr same⟩
      rw [if_pos now, Function.update_of_ne ne', Function.update_of_ne ne]
    · rw [if_neg now]
  · rintro g i k ⟨now, at_k⟩ before
    have other := once i now
    have ne : i ≠ partner i := by
      intro same
      rw [← same, now] at other
      cases other
    have here := before i ⟨now, Or.inl rfl⟩
    have there := before (partner i) ⟨now, Or.inr rfl⟩
    rcases at_k with rfl | rfl
    · simp only [now, if_true, Function.update_of_ne ne, Function.update_self, here, there]
    · simp only [now, other, if_true, Bool.false_eq_true, if_false, Function.update_self, back,
        here, there]
  · intro k inside untouched
    have first : ¬ chosen k = true := fun now => untouched k inside ⟨now, Or.inl rfl⟩
    have second : ¬ chosen (partner k) = true := fun now =>
      untouched (partner k) (within k inside) ⟨now, Or.inr (back k).symm⟩
    rw [if_neg first, if_neg second]

end Functions

section Flipping

theorem testBit_flip (k i j : Nat) : (flip k i).testBit j = (i.testBit j ^^ decide (k = j)) := by
  rw [flip, pow2, Nat.testBit_xor]
  congr 1
  exact Nat.testBit_two_pow

theorem flip_flip (k i : Nat) : flip k (flip k i) = i := by
  rw [flip, flip, Nat.xor_assoc, Nat.xor_self, Nat.xor_zero]

theorem flip_comm (j k i : Nat) : flip j (flip k i) = flip k (flip j i) := by
  rw [flip, flip, flip, flip, Nat.xor_assoc, Nat.xor_assoc, Nat.xor_comm (pow2 k)]

theorem flip_lt {k n i : Nat} (bit : k < n) (inside : i < pow2 n) : flip k i < pow2 n :=
  Nat.xor_lt_two_pow inside (Nat.pow_lt_pow_right (by decide) bit)

end Flipping
end LazyCast.Amplitudes
