import Mathlib.Data.List.Sort
import LazyCast.Proofs.Ledger.Groups
import LazyCast.Proofs.Orchestrator.Routed
/-!
The batches of a ledger. A table in key order has one entry for each key, so a kind has one batch;
the batch keeps the order of the ledger, and so do the operations that it is lowered to.
-/
namespace LazyCast

namespace Kind

theorem before_trans {a b c : Kind} (first : Key.before a b = true)
    (second : Key.before b c = true) : Key.before a c = true := by
  simp only [Key.before, Bool.or_eq_true, Bool.and_eq_true, decide_eq_true_eq] at first second ⊢
  rcases first with lt | ⟨same, lt⟩ <;> rcases second with lt' | ⟨same', lt'⟩
  · exact Or.inl (Nat.lt_trans lt lt')
  · exact Or.inl (same' ▸ lt)
  · exact Or.inl (same ▸ lt')
  · exact Or.inr ⟨same.trans same', String.lt_trans lt lt'⟩

theorem before_of_not {a b : Kind} (other : a ≠ b) (no : ¬ Key.before b a = true) :
    Key.before a b = true := by
  simp only [Key.before, Bool.or_eq_true, Bool.and_eq_true, decide_eq_true_eq, not_or,
    not_and] at no ⊢
  obtain ⟨notLess, notBefore⟩ := no
  rcases Nat.lt_or_eq_of_le (Nat.le_of_not_lt notLess) with lt | same
  · exact Or.inl lt
  · refine Or.inr ⟨same, ?_⟩
    have le : a.name ≤ b.name := String.not_lt.mp (notBefore same.symm)
    rcases Decidable.em (a.name < b.name) with lt | no
    · exact lt
    · have names := String.le_antisymm le (String.not_lt.mp no)
      obtain ⟨name, level⟩ := a
      obtain ⟨name', level'⟩ := b
      cases names
      cases same
      exact absurd rfl other

theorem before_irrefl (a : Kind) : ¬ Key.before a a = true := by
  simp [Key.before]

end Kind

instance : LawfulKey Kind where
  irrefl := Kind.before_irrefl
  trans := Kind.before_trans
  connected := Kind.before_of_not

namespace Table
variable {α : Type}

def Ordered (t : Table Kind α) : Prop := t.entries.Pairwise fun a b => Key.before a.1 b.1 = true

theorem Ordered.update {t : Table Kind α} (ordered : t.Ordered) (k : Kind) (f : Option α → α) :
    (t.update k f).Ordered :=
  Ascending.update ordered k f

theorem Ordered.nodup {t : Table Kind α} (ordered : t.Ordered) : t.keys.Nodup :=
  Ascending.nodup ordered

end Table

abbrev InOrder (is : List Instruction) : Prop := is.Pairwise fun i j => i.seq < j.seq

theorem inOrder_of_numbered {is : List Instruction} (numbered : Numbered is) : InOrder is := by
  have sorted : (is.map Instruction.seq).Pairwise (· < ·) := by
    rw [numbered]
    exact List.pairwise_lt_range
  exact List.pairwise_map.mp sorted

theorem map_zip_sublist {α β : Type} (as : List α) (bs : List β) :
    ((as.zip bs).map Prod.fst).Sublist as := by
  induction as generalizing bs with
  | nil => simp
  | cons a as ih =>
    cases bs with
    | nil => simp
    | cons b bs => exact (ih bs).cons_cons a

theorem distribute_ordered (es : List (Instruction × Assignment))
    {groups : Table Kind (List Instruction)} (ordered : groups.Ordered) :
    (distribute es groups).Ordered := by
  induction es generalizing groups with
  | nil => exact ordered
  | cons e es ih => exact ih (ordered.update _ _)

theorem distribute_inOrder {es : List (Instruction × Assignment)}
    {groups : Table Kind (List Instruction)} (order : InOrder (es.map Prod.fst))
    (held : ∀ batch ∈ groups.entries, InOrder batch.2 ∧
      ∀ i ∈ batch.2, ∀ e ∈ es, i.seq < e.1.seq) :
    ∀ batch ∈ (distribute es groups).entries, InOrder batch.2 := by
  induction es generalizing groups with
  | nil => exact fun batch mem => (held batch mem).1
  | cons e es ih =>
    obtain ⟨first, order⟩ := List.pairwise_cons.mp order
    have later : ∀ x ∈ es, e.1.seq < x.1.seq := fun x mem => first x.1 (List.mem_map_of_mem mem)
    refine ih order fun batch mem => ?_
    rcases Table.mem_update mem with old | rfl | ⟨group, old, rfl⟩
    · obtain ⟨sorted, less⟩ := held batch old
      exact ⟨sorted, fun i at_i x mem => less i at_i x (List.mem_cons_of_mem _ mem)⟩
    · refine ⟨List.pairwise_singleton _ _, fun i at_i x mem => ?_⟩
      rw [List.mem_singleton.mp at_i]
      exact later x mem
    · obtain ⟨sorted, less⟩ := held _ old
      refine ⟨List.pairwise_append.mpr ⟨sorted, List.pairwise_singleton _ _, ?_⟩, ?_⟩
      · intro i at_i j at_j
        rw [List.mem_singleton.mp at_j]
        exact less i at_i e List.mem_cons_self
      · intro i at_i x mem
        rcases List.mem_append.mp at_i with at_i | at_i
        · exact less i at_i x (List.mem_cons_of_mem _ mem)
        · rw [List.mem_singleton.mp at_i]
          exact later x mem

theorem distribute_some {es : List (Instruction × Assignment)}
    {groups : Table Kind (List Instruction)} (held : ∀ batch ∈ groups.entries, batch.2 ≠ []) :
    ∀ batch ∈ (distribute es groups).entries, batch.2 ≠ [] := by
  induction es generalizing groups with
  | nil => exact held
  | cons e es ih =>
    refine ih fun batch mem => ?_
    rcases Table.mem_update mem with old | rfl | ⟨group, _, rfl⟩
    · exact held batch old
    · simp
    · simp

section Partition
variable {instructions : List Instruction} {routing : RoutingPlan}

theorem partition_some :
    ∀ batch ∈ (routing.partition instructions).entries, batch.2 ≠ [] :=
  distribute_some fun _ none => by cases none

theorem partition_ordered : (routing.partition instructions).Ordered :=
  distribute_ordered _ List.Pairwise.nil

theorem partition_inOrder (order : InOrder instructions) :
    ∀ batch ∈ (routing.partition instructions).entries, InOrder batch.2 := by
  refine distribute_inOrder ?_ fun batch none => by cases none
  exact order.sublist (map_zip_sublist _ _)

theorem batch_eq_filter {t : CapabilityTable} {host kind : Kind} {batch : List Instruction}
    (order : InOrder instructions) (planned : t.plan host instructions = .ok routing)
    (entry : (kind, batch) ∈ (routing.partition instructions).entries) {p : Instruction → Bool}
    (chosen : ∀ i ∈ instructions, p i = true ↔ t.Executes host i kind) :
    batch = instructions.filter p := by
  obtain ⟨inside, everywhere⟩ := mem_partition planned
  have irrefl : Std.Irrefl fun i j : Instruction => i.seq < j.seq := ⟨fun i => Nat.lt_irrefl i.seq⟩
  have antisymm : Std.Antisymm fun i j : Instruction => i.seq < j.seq :=
    ⟨fun i j less more => absurd more (Nat.lt_asymm less)⟩
  refine (partition_inOrder order _ entry).eq_of_mem_iff (order.sublist List.filter_sublist)
    fun i => ⟨fun mem => ?_, fun mem => ?_⟩
  · obtain ⟨among, executes⟩ := inside _ entry i mem
    exact List.mem_filter.mpr ⟨among, (chosen i among).mpr executes⟩
  · obtain ⟨among, holds⟩ := List.mem_filter.mp mem
    obtain ⟨⟨kind', batch'⟩, entry', at_i, executes'⟩ := everywhere i among
    -- An instruction has one executor, and an executor one batch.
    obtain rfl : kind' = kind := executes'.unique ((chosen i among).mp holds)
    have one := List.inj_on_of_nodup_map (f := Prod.fst) partition_ordered.nodup entry' entry rfl
    exact congrArg Prod.snd one ▸ at_i

end Partition

theorem Simulator.lowerAll_inOrder {s : Simulator} {batch : List Instruction} {p : Program}
    (order : InOrder batch) (lowered : s.lowerAll batch = .ok p) :
    p.ops.Pairwise fun a b => a.seq ≤ b.seq := by
  unfold lowerAll at lowered
  obtain ⟨lists, each, rfl⟩ := Except.map_eq_ok.mp lowered
  dsimp only
  clear lowered
  induction batch generalizing lists with
  | nil =>
    cases each
    exact List.Pairwise.nil
  | cons i is ih =>
    rw [List.mapM_cons] at each
    obtain ⟨ops, first, each⟩ := Except.bind_eq_ok.mp each
    obtain ⟨others, later, each⟩ := Except.bind_eq_ok.mp each
    cases each
    obtain ⟨less, order⟩ := List.pairwise_cons.mp order
    have here := Lowering.seq_lowerOne (lowerOne_eq_ok first)
    rw [List.flatten_cons]
    refine List.pairwise_append.mpr ⟨?_, ih order others later, fun a at_a b at_b => ?_⟩
    · refine List.pairwise_of_forall_mem_list fun a at_a b at_b => ?_
      exact Nat.le_of_eq ((here a at_a).trans (here b at_b).symm)
    · obtain ⟨list, among, at_b⟩ := List.mem_flatten.mp at_b
      obtain ⟨j, of_batch, made⟩ := (Except.mapM_eq_ok later).2 list among
      rw [here a at_a, Lowering.seq_lowerOne (lowerOne_eq_ok made) b at_b]
      exact Nat.le_of_lt (less j of_batch)

end LazyCast
