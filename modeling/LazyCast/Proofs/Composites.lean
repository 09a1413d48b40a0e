import Mathlib.Data.List.Induction
import Mathlib.Data.List.Pairwise
import LazyCast.Proofs.Orchestrator.Routed
import LazyCast.TypeTable
/-!
Composite types. Their members tile them: each member starts where the one before it ends, the first
at zero and the last up to the width of the composite. A composite has the kind of the first member
of the highest level, and is classical when no member is above level zero.
-/
namespace LazyCast

/-- The members follow one another without a gap or an overlap, from one bit up to another. -/
inductive Tiles : Nat → List Member → Nat → Prop
  | nil (start : Nat) : Tiles start [] start
  | cons {m : Member} {ms : List Member} {stop : Nat} :
      Tiles (m.offset + m.width) ms stop → Tiles m.offset (m :: ms) stop

def Member.slice {α : Type} (m : Member) (whole : List α) : List α :=
  (whole.drop m.offset).take m.width

namespace Tiles
variable {start stop : Nat} {ms : List Member} {α : Type}

theorem start_le (tiles : Tiles start ms stop) : start ≤ stop := by
  induction tiles with
  | nil start => exact Nat.le_refl start
  | cons _ ih => omega

theorem within (tiles : Tiles start ms stop) :
    ∀ m ∈ ms, start ≤ m.offset ∧ m.offset + m.width ≤ stop := by
  induction tiles with
  | nil start =>
    intro m mem
    cases mem
  | @cons first ms stop later ih =>
    intro m mem
    rcases List.mem_cons.mp mem with rfl | among
    · exact ⟨Nat.le_refl _, later.start_le⟩
    · have inside := ih m among
      omega

theorem apart (tiles : Tiles start ms stop) :
    ms.Pairwise fun m n => m.offset + m.width ≤ n.offset := by
  induction tiles with
  | nil start => exact List.Pairwise.nil
  | cons later ih => exact List.Pairwise.cons (fun n mem => (later.within n mem).1) ih

theorem flatMap_slice (tiles : Tiles start ms stop) (whole : List α) :
    ms.flatMap (fun m => m.slice whole) = (whole.drop start).take (stop - start) := by
  induction tiles with
  | nil start => rw [List.flatMap_nil, Nat.sub_self, List.take_zero]
  | @cons m ms stop later ih =>
    have long := later.start_le
    have split : stop - m.offset = m.width + (stop - (m.offset + m.width)) := by omega
    rw [List.flatMap_cons, ih, Member.slice, split, List.take_add, List.drop_drop]

theorem pieces {whole : List α} (tiles : Tiles 0 ms stop) (long : whole.length = stop) :
    ms.flatMap (fun m => m.slice whole) = whole := by
  rw [tiles.flatMap_slice whole, List.drop_zero, Nat.sub_zero, ← long, List.take_length]

end Tiles

theorem Member.disjoint_slice {α : Type} {m n : Member} {whole : List α} (distinct : whole.Nodup)
    (before : m.offset + m.width ≤ n.offset) : (m.slice whole).Disjoint (n.slice whole) := by
  have apart := List.disjoint_take_drop distinct before
  intro x left right
  apply apart
  · rw [slice, List.take_drop] at left
    exact List.mem_of_mem_drop left
  · exact List.mem_of_mem_take right

theorem Tiles.disjoint {start stop : Nat} {ms : List Member} {α : Type} {whole : List α}
    (tiles : Tiles start ms stop) (distinct : whole.Nodup) {m n : Member} (left : m ∈ ms)
    (right : n ∈ ms) (other : m ≠ n) : (m.slice whole).Disjoint (n.slice whole) := by
  have pairs : ms.Pairwise fun m n => (m.slice whole).Disjoint (n.slice whole) :=
    tiles.apart.imp fun before => Member.disjoint_slice distinct before
  have symm : Std.Symm fun m n : Member => (m.slice whole).Disjoint (n.slice whole) :=
    ⟨fun _ _ disjoint _ right left => disjoint left right⟩
  exact pairs.forall left right other

/-- What some kinds come to together: the first of the highest level, and the classical one when
    none is above level zero. -/
inductive Kind.Joins (kinds : List Kind) : Kind → Prop
  | bottom (flat : ∀ j ∈ kinds, j.level = 0) : Joins kinds .classical
  | highest {k : Kind} {lower others : List Kind} (above : 0 < k.level)
      (split : kinds = lower ++ k :: others) (first : ∀ j ∈ lower, j.level < k.level)
      (top : ∀ j ∈ others, j.level ≤ k.level) : Joins kinds k

theorem Kind.Joins.concat {kinds : List Kind} {k : Kind} (joins : Joins kinds k) (j : Kind) :
    Joins (kinds ++ [j]) (k.join j) := by
  have level : j.isAbove k = true ↔ k.level < j.level := decide_eq_true_iff
  rw [Kind.join]
  cases joins with
  | bottom flat =>
    by_cases above : 0 < j.level
    · rw [if_pos (level.mpr above)]
      apply Joins.highest above rfl
      · intro i mem
        exact flat i mem ▸ above
      · intro i no
        cases no
    · rw [if_neg (mt level.mp above)]
      apply Joins.bottom
      intro i mem
      rcases List.mem_append.mp mem with old | new
      · exact flat i old
      · rw [List.mem_singleton.mp new]
        omega
  | @highest _ lower others positive split first top =>
    subst split
    by_cases above : k.level < j.level
    · rw [if_pos (level.mpr above)]
      apply Joins.highest (Nat.lt_trans positive above) rfl
      · intro i mem
        rcases List.mem_append.mp mem with low | rest
        · exact Nat.lt_trans (first i low) above
        · rcases List.mem_cons.mp rest with rfl | other
          · exact above
          · exact Nat.lt_of_le_of_lt (top i other) above
      · intro i no
        cases no
    · rw [if_neg (mt level.mp above)]
      apply Joins.highest positive (List.append_assoc lower (k :: others) [j]) first
      intro i mem
      rcases List.mem_append.mp mem with old | new
      · exact top i old
      · rw [List.mem_singleton.mp new]
        omega

namespace TypeTable
variable {t t' : TypeTable} {name : TypeName} {members : List (String × TypeName)}

theorem joins_joinedKind (types : List (String × TypeDef)) :
    Kind.Joins (types.map fun p => p.2.kind) (joinedKind types) := by
  unfold joinedKind
  induction types using List.reverseRecOn with
  | nil =>
    apply Kind.Joins.bottom
    intro j no
    cases no
  | append_singleton types p ih =>
    rw [List.foldl_append, List.map_append]
    exact ih.concat p.2.kind

theorem tiles_layOut (types : List (String × TypeDef)) (offset : Nat) :
    Tiles offset (layOut offset types) (offset + sumOf (types.map fun p => p.2.width)) := by
  induction types generalizing offset with
  | nil => exact Tiles.nil offset
  | cons p types ih =>
    obtain ⟨name, d⟩ := p
    rw [layOut, List.map_cons, sumOf_cons, ← Nat.add_assoc]
    exact Tiles.cons (m := ⟨name, d.name, offset, d.width⟩) (ih (offset + d.width))

theorem map_layOut {α : Type} (f : String → TypeDef → α) (g : Member → α)
    (same : ∀ name d offset, g ⟨name, d.name, offset, d.width⟩ = f name d)
    (types : List (String × TypeDef)) (offset : Nat) :
    (layOut offset types).map g = types.map fun p => f p.1 p.2 := by
  induction types generalizing offset with
  | nil => rfl
  | cons p types ih =>
    obtain ⟨name, d⟩ := p
    rw [layOut, List.map_cons, List.map_cons, same, ih]

theorem require_eq_ok {d : TypeDef} : t.require name = .ok d ↔ t.find? name = some d := by
  unfold require
  split
  · rename_i e found
    rw [found, Except.ok.injEq, Option.some.injEq]
  · rename_i none
    rw [none]
    constructor
    · intro no
      cases no
    · intro no
      cases no

theorem resolve_eq_ok {types : List (String × TypeDef)} (resolved : resolve t members = .ok types) :
    types.map (fun p => p.1) = members.map (fun p => p.1) ∧
      members.map (fun p => t.find? p.2) = types.map fun p => some p.2 := by
  induction members generalizing types with
  | nil =>
    cases resolved
    exact ⟨rfl, rfl⟩
  | cons p members ih =>
    obtain ⟨member, type⟩ := p
    rw [resolve] at resolved
    obtain ⟨d, required, resolved⟩ := Except.bind_eq_ok.mp resolved
    obtain ⟨others, rest, resolved⟩ := Except.bind_eq_ok.mp resolved
    cases resolved
    obtain ⟨names, found⟩ := ih rest
    constructor
    · rw [List.map_cons, List.map_cons, names]
    · rw [List.map_cons, List.map_cons, found, require_eq_ok.mp required]

/-- What a composite is, given the types of its members. -/
structure Composes (members : List (String × TypeName)) (types : List TypeDef) (d : TypeDef) :
    Prop where
  composite : d.isComposite = true
  names : d.members.map Member.name = members.map Prod.fst
  widths : d.members.map Member.width = types.map TypeDef.width
  tiles : Tiles 0 d.members d.width
  kind : Kind.Joins (types.map TypeDef.kind) d.kind

theorem defineComposite_eq_ok {d : TypeDef} (defined : t.defineComposite name members = .ok (d, t')) :
    d.name = name ∧ t' = t.define d ∧
      ∃ types, members.map (fun p => t.find? p.2) = types.map some ∧ Composes members types d := by
  unfold defineComposite at defined
  obtain ⟨types, resolved, defined⟩ := Except.bind_eq_ok.mp defined
  cases defined
  obtain ⟨names, found⟩ := resolve_eq_ok resolved
  refine ⟨rfl, rfl, types.map Prod.snd, ?_, ?_⟩
  · rw [found, List.map_map]
    rfl
  have widths := map_layOut (fun _ d => d.width) Member.width (fun _ _ _ => rfl) types 0
  have tiles := tiles_layOut types 0
  rw [Nat.zero_add, ← widths] at tiles
  have kind := joins_joinedKind types
  constructor
  · rfl
  · exact (map_layOut (fun name _ => name) Member.name (fun _ _ _ => rfl) types 0).trans names
  · rw [List.map_map]
    exact widths
  · exact tiles
  · rw [List.map_map]
    exact kind

end TypeTable
end LazyCast
