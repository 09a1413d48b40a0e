import LazyCast.Proofs.Ledger.Leading
import LazyCast.Proofs.Ledger.Representation
/-!
Where groups go. Handles that share a group go on together; a frozen group stays as it is until it
is released, and an open one is changed, pooled with another, triggered or given up.
-/
namespace LazyCast

def LedgerState.rank : LedgerState → Nat
  | accumulating => 0
  | merged => 1
  | triggered => 2
  | resolved => 3

def Command.isTurn : Command → Bool
  | .create _ => true
  | .trigger _ => true
  | .release _ => true
  | _ => false

namespace Groups
variable {gs after last : Groups} {g l old : Group}

/-- Every group stays together: a frozen one is kept, an open one goes on to an open one or leaves
    its handles without any. -/
structure Onward (gs after : Groups) : Prop where
  together : ∀ h k, gs.groupOf? h = gs.groupOf? k → after.groupOf? h = after.groupOf? k
  spent : ∀ h, gs.groupOf? h = none → after.groupOf? h = none
  frozen : ∀ h g, gs.groupOf? h = some g → g.state.isOpen = false → after.groupOf? h = some g
  opened : ∀ h g k, gs.groupOf? h = some g → g.state.isOpen = true → after.groupOf? h = some k →
    k.state.isOpen = true ∧ g.state.rank ≤ k.state.rank

/-- It is enough to say what becomes of each group. -/
theorem Onward.of_bind {f : Group → Option Group}
    (goes : ∀ h, after.groupOf? h = (gs.groupOf? h).bind f)
    (frozen : ∀ g ∈ gs, g.state.isOpen = false → f g = some g)
    (opened : ∀ g ∈ gs, g.state.isOpen = true → ∀ k, f g = some k →
      k.state.isOpen = true ∧ g.state.rank ≤ k.state.rank) : Onward gs after where
  together h k same := by rw [goes, goes, same]
  spent h none := by rw [goes, none, Option.bind_none]
  frozen h g found closed := by
    rw [goes, found, Option.bind_some, frozen g (groupOf?_spec found).1 closed]
  opened h g k found isOpen next := by
    rw [goes, found, Option.bind_some] at next
    exact opened g (groupOf?_spec found).1 isOpen k next

theorem Onward.refl (gs : Groups) : Onward gs gs :=
  .of_bind (f := some) (fun h => by cases gs.groupOf? h <;> rfl) (fun _ _ _ => rfl)
    fun g _ isOpen k same => by
      cases same
      exact ⟨isOpen, Nat.le_refl _⟩

theorem Onward.trans (first : Onward gs after) (second : Onward after last) : Onward gs last where
  together h k same := second.together h k (first.together h k same)
  spent h none := second.spent h (first.spent h none)
  frozen h g found closed := second.frozen h g (first.frozen h g found closed) closed
  opened h g k found isOpen next := by
    cases middle : after.groupOf? h with
    | none =>
      rw [second.spent h middle] at next
      cases next
    | some m =>
      obtain ⟨isOpen', rank⟩ := first.opened h g m found isOpen middle
      obtain ⟨isOpen'', rank'⟩ := second.opened h m k middle isOpen' next
      exact ⟨isOpen'', Nat.le_trans rank rank'⟩

section Steps
variable (apart : gs.Apart)
include apart

theorem onward_put (mem : old ∈ gs) (lead : g.lead = old.lead) (handles : g.handles = old.handles)
    (wasOpen : old.state.isOpen = true) (isOpen : g.state.isOpen = true)
    (rank : old.state.rank ≤ g.state.rank) : Onward gs (gs.put g) := by
  refine .of_bind (f := fun l => some (if l.lead = old.lead then g else l)) (fun h => ?_)
    (fun l meml closed => ?_) fun l meml open' k same => ?_
  · rw [apart.groupOf?_put mem lead handles, Option.map_eq_bind]
    rfl
  · rw [if_neg]
    intro same
    rw [apart.lead_injective meml mem same, wasOpen] at closed
    cases closed
  · cases same
    split
    · rename_i same
      rw [apart.lead_injective meml mem same]
      exact ⟨isOpen, rank⟩
    · exact ⟨open', Nat.le_refl _⟩

theorem onward_filter (p : Group → Bool) (kept : ∀ g ∈ gs, g.state.isOpen = false → p g = true) :
    Onward gs (gs.filter p) := by
  refine .of_bind (f := fun l => if p l then some l else none) (fun h => ?_)
    (fun l meml closed => if_pos (kept l meml closed)) fun l _ isOpen k same => ?_
  · rw [apart.groupOf?_filter]
    cases gs.groupOf? h with
    | none => rfl
    | some l => simp [Option.filter_some]
  · split at same
    · cases same
      exact ⟨isOpen, Nat.le_refl _⟩
    · cases same

theorem onward_dissolve (mem : g ∈ gs) (isOpen : g.state.isOpen = true) :
    Onward gs (gs.dissolve g) :=
  onward_filter apart _ fun l meml closed => decide_eq_true fun same => by
    rw [apart.lead_injective meml mem same, isOpen] at closed
    cases closed

theorem groupOf?_merged (memg : g ∈ gs) (meml : l ∈ gs) (ne : g.lead ≠ l.lead) (h : Handle) :
    (gs.merged g l).groupOf? h = (gs.groupOf? h).map (afterMerge g l) := by
  have apart' := apart_merged apart memg meml ne
  have joined : g.join l ∈ gs.merged g l := (mem_merged memg ne).mpr (Or.inl rfl)
  cases found : gs.groupOf? h with
  | none =>
    rw [Option.map_none, groupOf?_eq_none]
    intro k memk inside
    rcases (mem_merged memg ne).mp memk with rfl | ⟨memk, _⟩
    · rcases List.mem_append.mp inside with inside | inside
      · exact groupOf?_eq_none.mp found g memg inside
      · exact groupOf?_eq_none.mp found l meml inside
    · exact groupOf?_eq_none.mp found k memk inside
  | some k =>
    obtain ⟨memk, inside⟩ := groupOf?_spec found
    rw [Option.map_some, afterMerge]
    split
    · rename_i either
      refine apart'.groupOf?_of_mem joined ?_
      rcases either with same | same
      · rw [apart.lead_injective memk memg same] at inside
        exact List.mem_append_left _ inside
      · rw [apart.lead_injective memk meml same] at inside
        exact List.mem_append_right _ inside
    · rename_i neither
      rw [not_or] at neither
      exact apart'.groupOf?_of_mem ((mem_merged memg ne).mpr (Or.inr ⟨memk, neither⟩)) inside

theorem onward_merged (memg : g ∈ gs) (meml : l ∈ gs) (ne : g.lead ≠ l.lead)
    (openg : g.state.isOpen = true) (openl : l.state.isOpen = true) :
    Onward gs (gs.merged g l) := by
  refine .of_bind (f := fun k => some (afterMerge g l k)) (fun h => ?_) (fun k memk closed => ?_)
    fun k memk isOpen next same => ?_
  · rw [groupOf?_merged apart memg meml ne, Option.map_eq_bind]
    rfl
  · rw [afterMerge, if_neg]
    rintro (same | same)
    · rw [apart.lead_injective memk memg same, openg] at closed
      cases closed
    · rw [apart.lead_injective memk meml same, openl] at closed
      cases closed
  · cases same
    unfold afterMerge
    split
    · refine ⟨rfl, ?_⟩
      cases state : k.state with
      | accumulating => exact Nat.zero_le _
      | merged => exact Nat.le_refl _
      | triggered => simp [state, LedgerState.isOpen] at isOpen
      | resolved => simp [state, LedgerState.isOpen] at isOpen
    · exact ⟨isOpen, Nat.le_refl _⟩

theorem onward_change (h : Handle) {f : Group → Group} (lead : ∀ g, (f g).lead = g.lead)
    (handles : ∀ g, (f g).handles = g.handles) (state : ∀ g, (f g).state = g.state) :
    Onward gs (gs.change h f).2 := by
  unfold change
  cases found : gs.open? h with
  | none => exact .refl gs
  | some g =>
    obtain ⟨mem, _, isOpen⟩ := open?_spec found
    exact onward_put apart mem (lead g) (handles g) isOpen (by rw [state, isOpen])
      (by rw [state])

theorem onward_merge (h k : Handle) : Onward gs (gs.merge h k).2 := by
  refine merge_keeps (.refl gs) fun foundg foundl ne => ?_
  obtain ⟨memg, _, openg⟩ := open?_spec foundg
  obtain ⟨meml, _, openl⟩ := open?_spec foundl
  exact onward_merged apart memg meml ne openg openl

theorem onward_dropOwner (h : Handle) (owner : ValueId) :
    Onward gs (gs.dropOwner h owner).2 := by
  unfold dropOwner
  cases found : gs.open? h with
  | none => exact .refl gs
  | some g =>
    obtain ⟨mem, _, isOpen⟩ := open?_spec found
    dsimp only
    split
    · exact onward_dissolve apart mem isOpen
    · exact onward_put apart mem rfl rfl isOpen isOpen (Nat.le_refl _)

theorem perform_onward (name : Handle) {c : Command} (plain : c.isTurn = false) :
    Onward gs (gs.perform name c).2 := by
  cases c with
  | create owner => cases plain
  | trigger h => cases plain
  | release h => cases plain
  | append h i => exact onward_change apart h (fun _ => rfl) (fun _ => rfl) fun _ => rfl
  | addOwner h owner => exact onward_change apart h (fun _ => rfl) (fun _ => rfl) fun _ => rfl
  | merge h k => exact onward_merge apart h k
  | interact how values independent =>
    exact interact_through .refl .trans (fun apart h k => onward_merge apart h k) apart values
      independent
  | dropOwner h owner => exact onward_dropOwner apart h owner
  | sweep => exact onward_filter apart _ fun g _ closed => by rw [closed]; rfl
  | state h => exact .refl gs
  | find h => exact .refl gs
  | sameLedger h k => exact .refl gs
  | live => exact .refl gs

end Steps

end Groups
end LazyCast
