import Mathlib.Algebra.BigOperators.Group.Finset.Piecewise
import LazyCast.Proofs.KeyOrder
import LazyCast.Sample
/-!
Tallies. Folding pairs into a table adds up the amounts of each key, so nothing is lost and nothing
is counted twice: under any test of the keys, the table holds what it held plus what the pairs bring.
-/
namespace LazyCast

section Amounts
variable {κ μ : Type}

/-- What some pairs hold under the keys that pass a test. -/
def amountWhere (p : κ → Bool) (es : List (κ × Nat)) : Nat :=
  sumOf ((es.filter fun e => p e.1).map Prod.snd)

theorem amountWhere_cons (p : κ → Bool) (e : κ × Nat) (es : List (κ × Nat)) :
    amountWhere p (e :: es) = (if p e.1 then e.2 else 0) + amountWhere p es := by
  unfold amountWhere
  rw [List.filter_cons]
  split
  · rw [List.map_cons, sumOf_cons]
  · rw [Nat.zero_add]

theorem amountWhere_all (es : List (κ × Nat)) :
    amountWhere (fun _ => true) es = sumOf (es.map Prod.snd) := by
  rw [amountWhere, List.filter_eq_self.mpr fun _ _ => rfl]

theorem amountWhere_absent {p : κ → Bool} {es : List (κ × Nat)}
    (absent : ∀ e ∈ es, ¬ p e.1 = true) : amountWhere p es = 0 := by
  rw [amountWhere, List.filter_eq_nil_iff.mpr absent]
  rfl

theorem amountWhere_map (f : κ → μ) (p : μ → Bool) (es : List (κ × Nat)) :
    amountWhere p (es.map fun e => (f e.1, e.2)) = amountWhere (fun k => p (f k)) es := by
  unfold amountWhere
  rw [List.filter_map, List.map_map]
  rfl

theorem amountWhere_congr {p q : κ → Bool} {es : List (κ × Nat)}
    (same : ∀ e ∈ es, p e.1 = q e.1) : amountWhere p es = amountWhere q es := by
  rw [amountWhere, amountWhere, List.filter_congr same]

theorem amountWhere_perm {p : κ → Bool} {es es' : List (κ × Nat)} (perm : es.Perm es') :
    amountWhere p es = amountWhere p es' := sumOf_perm ((perm.filter _).map _)

theorem amountWhere_self [DecidableEq κ] {es : List (κ × Nat)} {e : κ × Nat}
    (distinct : (es.map Prod.fst).Nodup) (mem : e ∈ es) :
    amountWhere (fun k => decide (k = e.1)) es = e.2 := by
  induction es with
  | nil => cases mem
  | cons x es ih =>
    obtain ⟨fresh, distinct⟩ := List.nodup_cons.mp distinct
    rw [amountWhere_cons]
    rcases List.mem_cons.mp mem with rfl | mem
    · rw [amountWhere_absent, if_pos (decide_eq_true rfl), Nat.add_zero]
      intro y among same
      exact fresh (of_decide_eq_true same ▸ List.mem_map_of_mem among)
    · have other : x.1 ≠ e.1 := fun same => fresh (same ▸ List.mem_map_of_mem mem)
      rw [ih distinct mem, if_neg (by simpa using other), Nat.zero_add]

theorem sum_amountWhere (p : Nat → Prop) [DecidablePred p] {n : Nat} {es : List (Nat × Nat)}
    (below : ∀ e ∈ es, e.1 < n) :
    ∑ v ∈ (Finset.range n).filter p, amountWhere (fun k => decide (k = v)) es =
      amountWhere (fun k => decide (p k)) es := by
  induction es with
  | nil => exact Finset.sum_const_zero
  | cons e es ih =>
    -- The first pair counts at its own key alone.
    have own : (∑ v ∈ (Finset.range n).filter p, if decide (e.1 = v) = true then e.2 else 0) =
        if decide (p e.1) = true then e.2 else 0 := by
      simp only [decide_eq_true_eq, Finset.sum_ite_eq, Finset.mem_filter, Finset.mem_range,
        below e List.mem_cons_self, true_and]
    simp only [amountWhere_cons]
    rw [Finset.sum_add_distrib, own, ih fun x mem => below x (List.mem_cons_of_mem e mem)]

end Amounts

namespace Table
variable {κ : Type} [DecidableEq κ] [Key κ]

def tally (t : Table κ Nat) (pairs : List (κ × Nat)) : Table κ Nat :=
  pairs.foldl (fun t e => t.update e.1 fun seen => seen.getD 0 + e.2) t

theorem tally_cons (t : Table κ Nat) (e : κ × Nat) (pairs : List (κ × Nat)) :
    t.tally (e :: pairs) = (t.update e.1 fun seen => seen.getD 0 + e.2).tally pairs := rfl

theorem amountWhere_update (p : κ → Bool) (t : Table κ Nat) (k : κ) (n : Nat) :
    amountWhere p (t.update k fun seen => seen.getD 0 + n).entries =
      amountWhere p t.entries + if p k then n else 0 := by
  unfold update
  dsimp only
  induction t.entries with
  | nil => simp [updateEntry, amountWhere_cons, Nat.add_comm]
  | cons e es ih =>
    obtain ⟨l, seen⟩ := e
    rw [updateEntry]
    split
    · rename_i same
      subst same
      simp only [amountWhere_cons, Option.getD_some]
      split <;> omega
    · split
      · simp only [amountWhere_cons, Option.getD_none, Nat.zero_add]
        omega
      · rw [amountWhere_cons, amountWhere_cons, ih]
        omega

theorem amountWhere_tally (p : κ → Bool) (t : Table κ Nat) (pairs : List (κ × Nat)) :
    amountWhere p (t.tally pairs).entries = amountWhere p t.entries + amountWhere p pairs := by
  induction pairs generalizing t with
  | nil => rfl
  | cons e pairs ih =>
    rw [tally_cons, ih, amountWhere_update, amountWhere_cons, Nat.add_assoc]

theorem sumOf_tally (pairs : List (κ × Nat)) :
    sumOf ((empty : Table κ Nat).tally pairs).values = sumOf (pairs.map Prod.snd) := by
  have all := amountWhere_tally (fun _ => true) (empty : Table κ Nat) pairs
  rw [amountWhere_all, amountWhere_all, amountWhere_all] at all
  exact all.trans (Nat.zero_add _)

theorem mem_keys_tally {t : Table κ Nat} {pairs : List (κ × Nat)} {e : κ × Nat}
    (mem : e ∈ (t.tally pairs).entries) : e.1 ∈ t.keys ∨ ∃ x ∈ pairs, x.1 = e.1 := by
  induction pairs generalizing t with
  | nil => exact .inl (List.mem_map_of_mem mem)
  | cons x pairs ih =>
    rcases ih mem with old | ⟨y, among, same⟩
    · obtain ⟨entry, mem, same⟩ := List.mem_map.mp old
      have here : ∃ y ∈ x :: pairs, y.1 = x.1 := ⟨x, List.mem_cons_self, rfl⟩
      rcases mem_update mem with old | rfl | ⟨a, old, rfl⟩
      · exact .inl (same ▸ List.mem_map_of_mem old)
      · exact .inr (same ▸ here)
      · exact .inr (same ▸ here)
    · exact .inr ⟨y, List.mem_cons_of_mem x among, same⟩

section Ordered
variable [LawfulKey κ]

theorem Ascending.tally {t : Table κ Nat} (ascending : t.Ascending) (pairs : List (κ × Nat)) :
    (t.tally pairs).Ascending := by
  induction pairs generalizing t with
  | nil => exact ascending
  | cons e pairs ih => exact ih (ascending.update _ _)

theorem Ascending.getD_find? {t : Table κ Nat} (ascending : t.Ascending) (k : κ) :
    (t.find? k).getD 0 = amountWhere (fun l => decide (l = k)) t.entries := by
  obtain ⟨es⟩ := t
  unfold Ascending at ascending
  unfold find?
  dsimp only at ascending ⊢
  induction es with
  | nil => rfl
  | cons e es ih =>
    obtain ⟨first, rest⟩ := List.pairwise_cons.mp ascending
    obtain ⟨l, n⟩ := e
    rw [findEntry, amountWhere_cons]
    by_cases same : l = k
    · have absent : ∀ e ∈ es, ¬ decide (e.1 = k) = true := by
        intro e mem again
        have before := first e mem
        rw [of_decide_eq_true again, same] at before
        exact LawfulKey.irrefl k before
      simp [same, amountWhere_absent (p := fun l => decide (l = k)) absent]
    · simp [same, ih rest]

theorem Ascending.find?_tally {t : Table κ Nat} (ascending : t.Ascending)
    (pairs : List (κ × Nat)) (k : κ) :
    (t.tally pairs).find? k =
      if ∃ e ∈ pairs, e.1 = k then
        some ((t.find? k).getD 0 + amountWhere (fun l => decide (l = k)) pairs)
      else t.find? k := by
  induction pairs generalizing t with
  | nil =>
    simp only [List.not_mem_nil, false_and, exists_false, if_false]
    rfl
  | cons e pairs ih =>
    rw [tally_cons, ih (ascending.update _ _), amountWhere_cons]
    by_cases same : e.1 = k
    · subst same
      rw [ascending.find?_update]
      by_cases again : ∃ x ∈ pairs, x.1 = e.1
      · simp [again, Nat.add_assoc]
      · have absent : amountWhere (fun l => decide (l = e.1)) pairs = 0 := by
          apply amountWhere_absent
          intro x mem here
          exact again ⟨x, mem, of_decide_eq_true here⟩
        simp [again, absent]
    · have kept : (t.update e.1 fun seen => seen.getD 0 + e.2).find? k = t.find? k :=
        findEntry_update_of_ne _ t.entries (Ne.symm same)
      simp only [kept, same, List.mem_cons, exists_eq_or_imp, false_or, decide_false,
        Bool.false_eq_true, if_false, Nat.zero_add]

/-- Only the keys and what they add up to count, not the order of the pairs nor how the amounts are
    split among them. -/
theorem tally_congr {pairs pairs' : List (κ × Nat)}
    (keys : ∀ k, (∃ e ∈ pairs, e.1 = k) ↔ ∃ e ∈ pairs', e.1 = k)
    (amounts : ∀ k, amountWhere (fun l => decide (l = k)) pairs =
      amountWhere (fun l => decide (l = k)) pairs') :
    (empty : Table κ Nat).tally pairs = empty.tally pairs' := by
  have start : (empty : Table κ Nat).Ascending := List.Pairwise.nil
  refine Ascending.ext (start.tally _) (start.tally _) fun k => ?_
  rw [start.find?_tally, start.find?_tally, amounts k]
  simp only [keys k]

theorem Ascending.tally_entries {t : Table κ Nat} (ascending : t.Ascending) :
    empty.tally t.entries = t := by
  have start : (empty : Table κ Nat).Ascending := List.Pairwise.nil
  refine Ascending.ext (start.tally _) ascending fun k => ?_
  rw [start.find?_tally, ← ascending.getD_find? k]
  cases found : t.find? k with
  | none =>
    rw [if_neg]
    · rfl
    · rintro ⟨⟨l, n⟩, mem, rfl⟩
      rw [ascending.mem_iff.mp mem] at found
      cases found
  | some n =>
    rw [if_pos ⟨(k, n), mem_of_find? found, rfl⟩]
    exact congrArg some (Nat.zero_add n)

theorem tally_map_tally {μ : Type} [DecidableEq μ] [Key μ] [LawfulKey μ] (f : κ → μ)
    (pairs : List (κ × Nat)) :
    (empty : Table μ Nat).tally
        (((empty : Table κ Nat).tally pairs).entries.map fun e => (f e.1, e.2)) =
      empty.tally (pairs.map fun e => (f e.1, e.2)) := by
  have start : (empty : Table κ Nat).Ascending := List.Pairwise.nil
  refine tally_congr (fun k => ?_) fun k => ?_
  · constructor
    · rintro ⟨e, mem, rfl⟩
      obtain ⟨x, among, rfl⟩ := List.mem_map.mp mem
      rcases mem_keys_tally among with none | ⟨y, mem, same⟩
      · cases none
      · exact ⟨_, List.mem_map_of_mem mem, congrArg f same⟩
    · rintro ⟨e, mem, rfl⟩
      obtain ⟨x, among, rfl⟩ := List.mem_map.mp mem
      have held := start.find?_tally pairs x.1
      rw [if_pos ⟨x, among, rfl⟩] at held
      exact ⟨_, List.mem_map_of_mem (mem_of_find? held), rfl⟩
  · rw [amountWhere_map, amountWhere_map, amountWhere_tally]
    exact Nat.zero_add _

end Ordered
end Table

theorem Counts.ascending_ofPairs (pairs : List (String × Nat)) : (ofPairs pairs).Ascending :=
  Table.Ascending.tally List.Pairwise.nil pairs

theorem Counts.total_ofPairs (pairs : List (String × Nat)) :
    (ofPairs pairs).total = sumOf (pairs.map Prod.snd) := Table.sumOf_tally pairs

end LazyCast
