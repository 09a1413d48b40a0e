import LazyCast.Proofs.Ledger.Refinement
import Mathlib.Data.List.Find
/-!
Which group a handle leads to after one change of the groups, and what becomes of accounts in which
every group is open, as they are between the calls of a session.
-/
namespace LazyCast

namespace Group

def push (g : Group) (i : Instruction) : Group :=
  { g with instructions := g.instructions ++ [{ i with seq := g.instructions.length }] }

def frozen (g : Group) : FrozenLedger :=
  ⟨g.lead.index, g.instructions, kindsOf g.instructions, g.owners⟩

def drained (g : Group) : Group :=
  { g with instructions := [], owners := .empty, state := .triggered }

end Group

namespace Groups
variable {gs : Groups} {g k old : Group} {h : Handle}

theorem groupOf?_spec (found : gs.groupOf? h = some g) : g ∈ gs ∧ h ∈ g.handles :=
  ⟨List.mem_of_find?_eq_some found, of_decide_eq_true
    (List.find?_some (p := fun g : Group => decide (h ∈ g.handles)) found)⟩

theorem groupOf?_eq_none : gs.groupOf? h = none ↔ ∀ g ∈ gs, h ∉ g.handles := by
  simp [groupOf?, List.find?_eq_none]

theorem Apart.groupOf?_of_mem (apart : gs.Apart) (mem : g ∈ gs) (inside : h ∈ g.handles) :
    gs.groupOf? h = some g := by
  cases found : gs.groupOf? h with
  | none => exact absurd inside (groupOf?_eq_none.mp found g mem)
  | some l =>
    obtain ⟨mem', inside'⟩ := groupOf?_spec found
    rw [apart.disjoint l mem' g mem h inside' inside]

theorem Apart.groupOf?_put (apart : gs.Apart) (mem : old ∈ gs) (lead : g.lead = old.lead)
    (handles : g.handles = old.handles) (h : Handle) : (gs.put g).groupOf? h =
      (gs.groupOf? h).map fun l => if l.lead = old.lead then g else l := by
  unfold groupOf? put
  rw [List.find?_map, lead]
  congr 1
  refine List.find?_congr fun l meml => ?_
  simp only [Function.comp_apply]
  split
  · rename_i same
    rw [handles, apart.lead_injective meml mem same]
  · rfl

theorem mem_dissolve : k ∈ gs.dissolve g ↔ k ∈ gs ∧ k.lead ≠ g.lead := by
  simp [dissolve]

theorem Apart.filter (apart : gs.Apart) (p : Group → Bool) : Apart (gs.filter p) :=
  ⟨fun k mem => apart.lead_mem k (List.mem_filter.mp mem).1,
    fun k memk l meml h ink inl => apart.disjoint k (List.mem_filter.mp memk).1 l
      (List.mem_filter.mp meml).1 h ink inl⟩

theorem Apart.groupOf?_filter (apart : gs.Apart) (p : Group → Bool) (h : Handle) :
    groupOf? (gs.filter p) h = (gs.groupOf? h).filter p := by
  cases found : gs.groupOf? h with
  | none =>
    rw [Option.filter_none, groupOf?_eq_none]
    exact fun k mem => groupOf?_eq_none.mp found k (List.mem_filter.mp mem).1
  | some l =>
    obtain ⟨mem, inside⟩ := groupOf?_spec found
    cases kept : p l with
    | false =>
      rw [Option.filter_some_neg (by simp [kept]), groupOf?_eq_none]
      intro k memk ink
      obtain ⟨memk, keptk⟩ := List.mem_filter.mp memk
      rw [apart.disjoint k memk l mem h ink inside, kept] at keptk
      cases keptk
    | true =>
      rw [Option.filter_some_pos kept]
      exact (apart.filter p).groupOf?_of_mem (List.mem_filter.mpr ⟨mem, kept⟩) inside

theorem Apart.groupOf?_dissolve (apart : gs.Apart) (g : Group) (h : Handle) :
    (gs.dissolve g).groupOf? h = (gs.groupOf? h).filter fun l => decide (l.lead ≠ g.lead) :=
  apart.groupOf?_filter _ h

theorem trigger_open (found : gs.open? h = some g) :
    gs.trigger h = (.ok g.frozen, gs.put g.drained) := by
  simp only [trigger, found, Group.frozen, Group.drained]

theorem Apart.open?_push {i : Instruction} (apart : (gs.put (g.push i)).Apart)
    (found : gs.open? h = some g) : (gs.put (g.push i)).open? h = some (g.push i) := by
  obtain ⟨mem, inside, isOpen⟩ := open?_spec found
  exact apart.open?_of_mem (mem_put mem rfl) inside isOpen

def AllOpen (gs : Groups) : Prop := ∀ g ∈ gs, g.state.isOpen = true

theorem AllOpen.open?_eq (allOpen : gs.AllOpen) (h : Handle) : gs.open? h = gs.groupOf? h := by
  unfold open?
  cases found : gs.groupOf? h with
  | none => rfl
  | some g => exact Option.filter_some_pos (allOpen g (groupOf?_spec found).1)

theorem mem_put_cases (mem : k ∈ gs.put g) : k = g ∨ k ∈ gs ∧ k.lead ≠ g.lead := by
  obtain ⟨old, mem, same⟩ := List.mem_map.mp mem
  split at same
  · exact Or.inl same.symm
  · rename_i ne
    exact Or.inr ⟨same ▸ mem, same ▸ ne⟩

theorem AllOpen.put (allOpen : gs.AllOpen) (isOpen : g.state.isOpen = true) :
    (gs.put g).AllOpen := by
  intro k mem
  rcases mem_put_cases mem with rfl | ⟨mem, _⟩
  · exact isOpen
  · exact allOpen k mem

theorem AllOpen.dissolve (allOpen : gs.AllOpen) (g : Group) : (gs.dissolve g).AllOpen :=
  fun k mem => allOpen k (mem_dissolve.mp mem).1

theorem AllOpen.create (allOpen : gs.AllOpen) (name : Handle) (owner : ValueId) :
    (gs.create name owner).AllOpen := by
  intro k mem
  rcases mem_create.mp mem with rfl | mem
  · rfl
  · exact allOpen k mem

theorem AllOpen.merge (allOpen : gs.AllOpen) (h k : Handle) : (gs.merge h k).2.AllOpen := by
  exact merge_keeps allOpen fun {g l} _ _ _ => (allOpen.dissolve l).put rfl

theorem AllOpen.sweep (allOpen : gs.AllOpen) : gs.sweep.2 = [] := by
  rw [Groups.sweep, List.filter_eq_nil_iff]
  intro g mem
  simp [allOpen g mem]

end Groups

namespace Arena
variable {a : Arena} {h : Handle} {g : Group}

theorem Tidy.isSpent_eq (t : a.Tidy) (h : Handle) : a.isSpent h = (a.groups.open? h).isNone := by
  rw [isSpent, state_matches t, Groups.state, Groups.open?]
  cases found : a.groups.groupOf? h with
  | none => rfl
  | some g => cases state : g.state.isOpen <;> simp [state, Option.filter_some]

theorem Tidy.state_of_open (t : a.Tidy) (found : a.groups.open? h = some g) :
    a.state h = g.state := by
  rw [state_matches t, Groups.state]
  obtain ⟨mem, inside, _⟩ := Groups.open?_spec found
  rw [t.apart.groupOf?_of_mem mem inside]

theorem Tidy.sameGroup_of_open (t : a.Tidy) {k : Handle} {l : Group}
    (foundg : a.groups.open? h = some g) (foundl : a.groups.open? k = some l) :
    a.groups.sameGroup h k = decide (g.lead = l.lead) := by
  obtain ⟨memg, insideg, _⟩ := Groups.open?_spec foundg
  obtain ⟨meml, insidel, _⟩ := Groups.open?_spec foundl
  rw [Groups.sameGroup, t.apart.groupOf?_of_mem memg insideg, t.apart.groupOf?_of_mem meml insidel]

theorem Tidy.openRoot_spent (t : a.Tidy) (spent : a.groups.open? h = none) :
    a.openRoot h = (.error (.frozenLedger h.index), a) := by
  obtain ⟨⟨root, depth, c⟩, s⟩ := t
  rcases openRoot_cases c s h with ⟨_, _, _, _, _, _, _, _, _, _, found⟩ | ⟨failed, _⟩
  · rw [spent] at found
    cases found
  · exact failed

theorem Tidy.append_spent (t : a.Tidy) (spent : a.groups.open? h = none) (i : Instruction) :
    a.append h i = (.error (.frozenLedger h.index), a) := by
  rw [append, change, t.openRoot_spent spent]
  rfl

theorem Tidy.append_open (t : a.Tidy) (found : a.groups.open? h = some g) (i : Instruction) :
    ∃ b, a.append h i = (.ok g.instructions.length, b) ∧ b.groups = a.groups.put (g.push i) ∧
      b.Tidy := by
  have m := append_matches t h i
  have same : a.groups.append h i = (.ok g.instructions.length, a.groups.put (g.push i)) := by
    simp only [Groups.append, Groups.change, found, Outcome.map, Except.map, Group.push]
  rw [same] at m
  exact ⟨(a.append h i).2, Prod.ext m.answer rfl, m.groups, m.tidy⟩

theorem Tidy.trigger_release (t : a.Tidy) (found : a.groups.open? h = some g) :
    ∃ b, a.trigger h = (.ok g.frozen, b) ∧ (b.release h).2.groups = a.groups.dissolve g ∧
      (b.release h).2.Tidy := by
  have m := trigger_matches t h
  obtain ⟨mem, inside, _⟩ := Groups.open?_spec found
  rw [Groups.trigger_open found] at m
  refine ⟨(a.trigger h).2, Prod.ext m.answer rfl, ?_, (release_matches m.tidy h).tidy⟩
  have group : (a.groups.put g.drained).groupOf? h = some g.drained := by
    rw [t.apart.groupOf?_put (g := g.drained) mem rfl rfl, t.apart.groupOf?_of_mem mem inside,
      Option.map_some, if_pos rfl]
  rw [(release_matches m.tidy h).groups, m.groups, Groups.release, group]
  exact Groups.dissolve_put a.groups rfl

theorem Tidy.lead_ne_created (t : a.Tidy) (owner : ValueId) (mem : g ∈ a.groups) :
    g.lead.index ≠ (a.create owner).1.index :=
  t.slot_created owner g mem g.lead (t.apart.lead_mem g mem)

theorem Tidy.mem_create (t : a.Tidy) (owner : ValueId) : g ∈ (a.create owner).2.groups ↔
    g = ⟨(a.create owner).1, [(a.create owner).1], [], OrderedSet.empty.insert owner,
      .accumulating⟩ ∨ g ∈ a.groups := by
  rw [(create_matches t owner).groups]
  exact Groups.mem_create

end Arena
end LazyCast
