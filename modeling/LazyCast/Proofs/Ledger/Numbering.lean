import LazyCast.Proofs.Ledger.Groups
import Mathlib.Data.List.Induction
/-!
Ledgers whose instructions carry their positions. Pushing and absorbing keep this, so the ledger
that takes up another one reads as the two lists one after the other, numbered anew.
-/
namespace LazyCast

theorem length_renumber (is : List Instruction) : (renumber is).length = is.length := by
  simp [renumber]

theorem renumber_concat (is : List Instruction) (i : Instruction) :
    renumber (is ++ [i]) = renumber is ++ [{ i with seq := is.length }] := by
  simp [renumber, List.mapIdx_append]

theorem numbered_renumber (is : List Instruction) : Numbered (renumber is) := by
  induction is using List.reverseRecOn with
  | nil => rfl
  | append_singleton is i ih =>
    unfold Numbered at ih
    rw [Numbered, renumber_concat, List.map_append, ih]
    simp [length_renumber, List.range_succ]

theorem numbered_concat {is : List Instruction} {i : Instruction} :
    Numbered (is ++ [i]) ↔ Numbered is ∧ i.seq = is.length := by
  simp only [Numbered, List.map_append, List.map_cons, List.map_nil, List.length_append,
    List.length_cons, List.length_nil, Nat.zero_add, List.range_succ]
  constructor
  · intro same
    obtain ⟨before, last⟩ := List.append_inj same (by simp)
    exact ⟨before, List.singleton_inj.mp last⟩
  · rintro ⟨before, last⟩
    rw [before, last]

theorem renumber_of_numbered {is : List Instruction} (n : Numbered is) : renumber is = is := by
  induction is using List.reverseRecOn with
  | nil => rfl
  | append_singleton is i ih =>
    obtain ⟨before, last⟩ := numbered_concat.mp n
    rw [renumber_concat, ih before, ← last]

theorem renumber_append (is js : List Instruction) :
    renumber (renumber is ++ js) = renumber (is ++ js) := by
  induction js using List.reverseRecOn with
  | nil => rw [List.append_nil, List.append_nil, renumber_of_numbered (numbered_renumber is)]
  | append_singleton js j ih =>
    rw [← List.append_assoc, ← List.append_assoc, renumber_concat, renumber_concat, ih]
    simp [length_renumber]

theorem kindsOf_concat (is : List Instruction) (i : Instruction) :
    kindsOf (is ++ [i]) = (kindsOf is).insert i.kind := by
  simp [kindsOf, OrderedSet.ofList]

theorem mem_kindsOf {is : List Instruction} {kind : Kind} :
    kind ∈ (kindsOf is).elems ↔ ∃ i ∈ is, i.kind = kind := by
  induction is using List.reverseRecOn with
  | nil => simp [kindsOf, OrderedSet.ofList, OrderedSet.empty]
  | append_singleton is i ih =>
    rw [kindsOf_concat, OrderedSet.insert, OrderedSet.mem_insertElem, ih]
    simp [or_comm, eq_comm]

structure Ledger.Sound (l : Ledger) : Prop where
  owned : l.owners.isEmpty = false
  numbered : Numbered l.instructions
  kinds_exact : l.kinds = kindsOf l.instructions

theorem OrderedSet.isEmpty_insert {α : Type} [DecidableEq α] [Key α] (s : OrderedSet α) (x : α) :
    (s.insert x).isEmpty = false := by
  have mem : x ∈ (s.insert x).elems := (mem_insertElem x x s.elems).mpr (Or.inl rfl)
  cases h : (s.insert x).elems with
  | nil =>
    rw [h] at mem
    cases mem
  | cons y ys => simp [isEmpty, h]

theorem OrderedSet.isEmpty_union {α : Type} [DecidableEq α] [Key α] {s : OrderedSet α}
    (t : OrderedSet α) (some : s.isEmpty = false) : (s.union t).isEmpty = false := by
  unfold union
  induction t.elems using List.reverseRecOn with
  | nil => exact some
  | append_singleton xs x ih =>
    rw [List.foldl_append]
    exact isEmpty_insert _ _

namespace Ledger

theorem sound_fresh (owner : ValueId) (slot : Nat) : (fresh owner slot).Sound :=
  ⟨OrderedSet.isEmpty_insert _ _, rfl, rfl⟩

theorem Sound.push {l : Ledger} (s : l.Sound) (i : Instruction) : (l.push i).Sound where
  owned := s.owned
  numbered := numbered_concat.mpr ⟨s.numbered, rfl⟩
  kinds_exact := by
    change l.kinds.insert i.kind = kindsOf (l.instructions ++ [_])
    rw [kindsOf_concat, s.kinds_exact]

theorem pushAll (l : Ledger) (numbered : Numbered l.instructions) (is : List Instruction) :
    (is.foldl Ledger.push l).instructions = renumber (l.instructions ++ is) ∧
      (is.foldl Ledger.push l).members = l.members ∧
      (is.foldl Ledger.push l).owners = l.owners := by
  induction is using List.reverseRecOn with
  | nil => simp [renumber_of_numbered numbered]
  | append_singleton is i ih =>
    obtain ⟨instructions, members, owners⟩ := ih
    rw [List.foldl_append, List.foldl_cons, List.foldl_nil]
    refine ⟨?_, members, owners⟩
    rw [← List.append_assoc, renumber_concat, ← instructions, ← length_renumber, ← instructions]
    rfl

theorem Sound.pushAll {l : Ledger} (s : l.Sound) (is : List Instruction) :
    (is.foldl Ledger.push l).Sound := by
  induction is using List.reverseRecOn with
  | nil => exact s
  | append_singleton is i ih =>
    rw [List.foldl_append]
    exact ih.push i

theorem instructions_absorb {l : Ledger} (s : l.Sound) (other : Ledger) :
    (l.absorb other).instructions = renumber (l.instructions ++ other.instructions) :=
  (Ledger.pushAll l s.numbered other.instructions).1

theorem members_absorb {l : Ledger} (s : l.Sound) (other : Ledger) :
    (l.absorb other).members = l.members ++ other.members := by
  simp only [absorb, (Ledger.pushAll l s.numbered other.instructions).2.1]

theorem owners_absorb {l : Ledger} (s : l.Sound) (other : Ledger) :
    (l.absorb other).owners = l.owners.union other.owners := by
  simp only [absorb, (Ledger.pushAll l s.numbered other.instructions).2.2]

theorem Sound.absorb {l : Ledger} (s : l.Sound) (other : Ledger) : (l.absorb other).Sound where
  owned := by
    rw [owners_absorb s]
    exact OrderedSet.isEmpty_union _ s.owned
  numbered := (s.pushAll other.instructions).numbered
  kinds_exact := (s.pushAll other.instructions).kinds_exact

theorem isOpen_state (l : Ledger) : l.state.isOpen = true := by
  unfold state
  split <;> rfl

end Ledger
end LazyCast
