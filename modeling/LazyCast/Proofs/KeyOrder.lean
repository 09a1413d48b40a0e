import LazyCast.Ordered
/-!
Tables in key order. Updates keep the entries of a table in the order of their keys, one entry for
each key, so what is found at a key is all that the table holds for it.
-/
namespace LazyCast

class LawfulKey (κ : Type) [Key κ] : Prop where
  irrefl (a : κ) : ¬ Key.before a a = true
  trans {a b c : κ} : Key.before a b = true → Key.before b c = true → Key.before a c = true
  connected {a b : κ} : a ≠ b → ¬ Key.before b a = true → Key.before a b = true

instance : LawfulKey Nat where
  irrefl a := by simp [Key.before]
  trans first second := by
    simp only [Key.before, decide_eq_true_eq] at first second ⊢
    omega
  connected other no := by
    simp only [Key.before, decide_eq_true_eq] at no ⊢
    omega

instance : LawfulKey String where
  irrefl a := by simp [Key.before]
  trans first second :=
    decide_eq_true (String.lt_trans (of_decide_eq_true first) (of_decide_eq_true second))
  connected {a b} other no := by
    have le : a ≤ b := String.not_lt.mp fun less => no (decide_eq_true less)
    refine decide_eq_true (Decidable.byContradiction fun less => other ?_)
    exact String.le_antisymm le (String.not_lt.mp less)

namespace Table
variable {κ α : Type} [DecidableEq κ] [Key κ]

theorem mem_update {t : Table κ α} {k : κ} {f : Option α → α} {e : κ × α}
    (mem : e ∈ (t.update k f).entries) :
    e ∈ t.entries ∨ e = (k, f none) ∨ ∃ a, (k, a) ∈ t.entries ∧ e = (k, f (some a)) := by
  unfold update at mem
  induction h : t.entries generalizing t with
  | nil =>
    rw [h] at mem
    exact Or.inr (Or.inl (List.mem_singleton.mp mem))
  | cons x es ih =>
    obtain ⟨l, b⟩ := x
    rw [h, updateEntry] at mem
    split at mem
    · rename_i same
      subst same
      rcases List.mem_cons.mp mem with rfl | mem
      · exact Or.inr (Or.inr ⟨b, List.mem_cons_self, rfl⟩)
      · exact Or.inl (List.mem_cons_of_mem _ mem)
    · split at mem
      · rcases List.mem_cons.mp mem with rfl | mem
        · exact Or.inr (Or.inl rfl)
        · exact Or.inl mem
      · rcases List.mem_cons.mp mem with rfl | mem
        · exact Or.inl List.mem_cons_self
        · rcases ih (t := ⟨es⟩) mem rfl with old | new | ⟨a, old, new⟩
          · exact Or.inl (List.mem_cons_of_mem _ old)
          · exact Or.inr (Or.inl new)
          · exact Or.inr (Or.inr ⟨a, List.mem_cons_of_mem _ old, new⟩)

theorem mem_insert {t : Table κ α} {k : κ} {a : α} {e : κ × α} (mem : e ∈ (t.insert k a).entries) :
    e = (k, a) ∨ e ∈ t.entries := by
  rcases mem_update mem with old | new | ⟨_, _, new⟩
  · exact Or.inr old
  · exact Or.inl new
  · exact Or.inl new

variable [LawfulKey κ]

def Ascending (t : Table κ α) : Prop :=
  t.entries.Pairwise fun a b => Key.before a.1 b.1 = true

instance (t : Table κ α) : Decidable t.Ascending :=
  inferInstanceAs (Decidable (t.entries.Pairwise fun a b => Key.before a.1 b.1 = true))

theorem Ascending.update {t : Table κ α} (ascending : t.Ascending) (k : κ) (f : Option α → α) :
    (t.update k f).Ascending := by
  unfold Ascending Table.update at *
  induction h : t.entries generalizing t with
  | nil => exact List.pairwise_singleton _ _
  | cons x es ih =>
    obtain ⟨l, b⟩ := x
    rw [h] at ascending
    obtain ⟨first, rest⟩ := List.pairwise_cons.mp ascending
    rw [updateEntry]
    split
    · rename_i same
      subst same
      exact List.pairwise_cons.mpr ⟨first, rest⟩
    · rename_i other
      split
      · rename_i before
        refine List.pairwise_cons.mpr ⟨fun e mem => ?_, ascending⟩
        rcases List.mem_cons.mp mem with rfl | mem
        · exact before
        · exact LawfulKey.trans before (first e mem)
      · rename_i no
        have later := ih (t := ⟨es⟩) rest rfl
        refine List.pairwise_cons.mpr ⟨fun e mem => ?_, later⟩
        rcases mem_update (t := ⟨es⟩) mem with old | rfl | ⟨a, _, rfl⟩
        · exact first e old
        · exact LawfulKey.connected other no
        · exact LawfulKey.connected other no

omit [DecidableEq κ] in
theorem Ascending.nodup {t : Table κ α} (ascending : t.Ascending) : t.keys.Nodup := by
  refine List.pairwise_map.mpr (List.Pairwise.imp ?_ ascending)
  intro a b before same
  rw [same] at before
  exact LawfulKey.irrefl _ before

theorem Ascending.find?_of_mem {t : Table κ α} (ascending : t.Ascending) {k : κ} {a : α}
    (mem : (k, a) ∈ t.entries) : t.find? k = some a := by
  obtain ⟨es⟩ := t
  unfold Ascending at ascending
  unfold find?
  dsimp only at ascending mem ⊢
  induction es with
  | nil => cases mem
  | cons e es ih =>
    obtain ⟨first, rest⟩ := List.pairwise_cons.mp ascending
    rcases List.mem_cons.mp mem with rfl | mem
    · simp [findEntry]
    · have other : e.1 ≠ k := by
        intro same
        have before := first _ mem
        rw [same] at before
        exact LawfulKey.irrefl _ before
      rw [findEntry, if_neg other]
      exact ih rest mem

omit [Key κ] [LawfulKey κ] in
theorem mem_of_find? {t : Table κ α} {k : κ} {a : α} (found : t.find? k = some a) :
    (k, a) ∈ t.entries := by
  unfold find? at found
  induction h : t.entries generalizing t with
  | nil =>
    rw [h] at found
    cases found
  | cons e es ih =>
    rw [h, findEntry] at found
    split at found
    · rename_i same
      cases found
      subst same
      exact List.mem_cons_self
    · exact List.mem_cons_of_mem _ (ih (t := ⟨es⟩) found rfl)

theorem Ascending.mem_iff {t : Table κ α} (ascending : t.Ascending) {k : κ} {a : α} :
    (k, a) ∈ t.entries ↔ t.find? k = some a :=
  ⟨ascending.find?_of_mem, mem_of_find?⟩

omit [DecidableEq κ] in
theorem Ascending.nodup_entries {t : Table κ α} (ascending : t.Ascending) : t.entries.Nodup := by
  refine List.Pairwise.imp ?_ ascending
  intro a b before same
  rw [same] at before
  exact LawfulKey.irrefl _ before

theorem Ascending.ext {t u : Table κ α} (left : t.Ascending) (right : u.Ascending)
    (same : ∀ k, t.find? k = u.find? k) : t = u := by
  have members : ∀ e, e ∈ t.entries ↔ e ∈ u.entries := by
    intro e
    obtain ⟨k, a⟩ := e
    rw [left.mem_iff, right.mem_iff, same]
  have perm : t.entries.Perm u.entries :=
    (List.perm_ext_iff_of_nodup left.nodup_entries right.nodup_entries).mpr members
  have entries : t.entries = u.entries := by
    refine List.Perm.eq_of_pairwise (fun a b _ _ before after => ?_) left right perm
    exact absurd (LawfulKey.trans before after) (LawfulKey.irrefl _)
  cases t
  cases u
  cases entries
  rfl

omit [Key κ] [LawfulKey κ] in
theorem findEntry_absent {k : κ} {es : List (κ × α)} (absent : ∀ e ∈ es, e.1 ≠ k) :
    findEntry k es = none := by
  induction es with
  | nil => rfl
  | cons e es ih =>
    rw [findEntry, if_neg (absent e List.mem_cons_self)]
    exact ih fun x mem => absent x (List.mem_cons_of_mem _ mem)

theorem Ascending.find?_update {t : Table κ α} (ascending : t.Ascending) (k : κ)
    (f : Option α → α) : (t.update k f).find? k = some (f (t.find? k)) := by
  obtain ⟨es⟩ := t
  unfold Ascending at ascending
  change findEntry k (updateEntry k f es) = some (f (findEntry k es))
  dsimp only at ascending
  induction es with
  | nil => simp [updateEntry, findEntry]
  | cons e es ih =>
    obtain ⟨l, a⟩ := e
    obtain ⟨first, rest⟩ := List.pairwise_cons.mp ascending
    by_cases same : l = k
    · simp [updateEntry, findEntry, same]
    · by_cases before : Key.before k l = true
      · -- All entries that follow come later still.
        have absent : ∀ e ∈ es, e.1 ≠ k := by
          intro e mem same
          have back := first e mem
          rw [same] at back
          exact LawfulKey.irrefl _ (LawfulKey.trans before back)
        simp [updateEntry, findEntry, same, before, findEntry_absent absent]
      · simp [updateEntry, findEntry, same, before, ih rest]

end Table
end LazyCast
