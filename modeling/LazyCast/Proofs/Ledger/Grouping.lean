import LazyCast.Proofs.Ledger.Numbering
import LazyCast.Proofs.Ledger.Search
/-!
The groups that an arena stands for, one for each root in the order of the slots, and how they
change when an entry, a chain or a slot does.
-/
namespace LazyCast.Arena
variable {a b : Arena} {root : Nat → Option Nat} {depth : Nat → Nat}

def Sound (a : Arena) : Prop := ∀ {i l}, a.entryAt? i = some (.live l) → l.Sound

def liveGroup (a : Arena) (i : Nat) (l : Ledger) : Group :=
  ⟨a.handleOf i, l.members.map a.handleOf, l.instructions, l.owners, l.state⟩

def spentGroup (a : Arena) (i : Nat) (members : List Nat) : Group :=
  ⟨a.handleOf i, members.map a.handleOf, [], .empty, .triggered⟩

def groupAt? (a : Arena) (i : Nat) : Option Group :=
  match a.entryAt? i with
  | some (.live l) => some (a.liveGroup i l)
  | some (.triggered members) => some (a.spentGroup i members)
  | _ => none

def groups (a : Arena) : Groups := (List.range a.slots.length).filterMap a.groupAt?

theorem groupAt?_of_live {i : Nat} {l : Ledger} (e : a.entryAt? i = some (.live l)) :
    a.groupAt? i = some (a.liveGroup i l) := by
  simp [groupAt?, e]

theorem groupAt?_of_triggered {i : Nat} {ms : List Nat}
    (e : a.entryAt? i = some (.triggered ms)) : a.groupAt? i = some (a.spentGroup i ms) := by
  simp [groupAt?, e]

theorem groupAt?_eq_none {i : Nat} : a.groupAt? i = none ↔ a.members? i = none := by
  unfold groupAt? members?
  cases a.entryAt? i with
  | none => simp
  | some e => cases e <;> simp [Entry.members?]

theorem groupAt?_eq_some {i : Nat} {g : Group} (h : a.groupAt? i = some g) :
    g.lead = a.handleOf i ∧ ∃ ms, a.members? i = some ms ∧ g.handles = ms.map a.handleOf := by
  unfold groupAt? at h
  split at h
  · rename_i l e
    cases h
    exact ⟨rfl, l.members, members?_of_live e, rfl⟩
  · rename_i ms e
    cases h
    exact ⟨rfl, ms, members?_of_triggered e, rfl⟩
  · cases h

theorem handleOf_injective {i j : Nat} (same : a.handleOf i = a.handleOf j) : i = j :=
  congrArg Handle.index same

theorem lead_eq_iff {i j : Nat} {g : Group} (h : a.groupAt? i = some g) :
    g.lead = a.handleOf j ↔ i = j := by
  rw [(groupAt?_eq_some h).1]
  exact ⟨handleOf_injective, fun same => same ▸ rfl⟩

theorem mem_groups {g : Group} : g ∈ a.groups ↔ ∃ i, a.groupAt? i = some g := by
  unfold groups
  rw [List.mem_filterMap]
  constructor
  · rintro ⟨i, _, h⟩
    exact ⟨i, h⟩
  · rintro ⟨i, h⟩
    refine ⟨i, List.mem_range.mpr (Nat.lt_of_not_le ?_), h⟩
    intro beyond
    simp [groupAt?, entryAt?_eq_none.mpr beyond] at h

theorem groups_congr (length : b.slots.length = a.slots.length)
    (same : ∀ i, b.groupAt? i = a.groupAt? i) : b.groups = a.groups := by
  rw [groups, groups, length, funext same]

theorem lead_ne {r i : Nat} {g l : Group} (atR : a.groupAt? r = some g) (other : r ≠ i)
    (atI : a.groupAt? i = some l) : l.lead ≠ g.lead := by
  rw [(groupAt?_eq_some atR).1, Ne, lead_eq_iff atI]
  exact Ne.symm other

theorem groups_put {r : Nat} {g old : Group} (length : b.slots.length = a.slots.length)
    (before : a.groupAt? r = some old) (after : b.groupAt? r = some g)
    (lead : g.lead = old.lead) (kept : ∀ i, r ≠ i → b.groupAt? i = a.groupAt? i) :
    b.groups = a.groups.put g := by
  rw [groups, groups, length, Groups.put, List.map_filterMap]
  congr 1
  funext i
  by_cases here : r = i
  · subst here
    simp [before, after, lead]
  · rw [kept i here]
    cases k : a.groupAt? i with
    | none => rfl
    | some l =>
      have ne : l.lead ≠ g.lead := lead ▸ lead_ne before here k
      simp [ne]

theorem groups_dissolve {r : Nat} {g : Group} (length : b.slots.length = a.slots.length)
    (before : a.groupAt? r = some g) (after : b.groupAt? r = none)
    (kept : ∀ i, r ≠ i → b.groupAt? i = a.groupAt? i) : b.groups = a.groups.dissolve g := by
  rw [groups, groups, length, Groups.dissolve, List.filter_filterMap]
  congr 1
  funext i
  by_cases here : r = i
  · subst here
    simp [before, after, Option.filter_some]
  · rw [kept i here]
    cases k : a.groupAt? i with
    | none => rfl
    | some l =>
      simp [Option.filter_some, lead_ne before here k]

theorem groupAt?_congr {i : Nat} (entry : b.entryAt? i = a.entryAt? i)
    (handle : ∀ j, b.handleOf j = a.handleOf j) : b.groupAt? i = a.groupAt? i := by
  simp only [groupAt?, entry, liveGroup, spentGroup, funext handle]

theorem liveGroup_congr (handle : ∀ j, b.handleOf j = a.handleOf j) (i : Nat) (l : Ledger) :
    b.liveGroup i l = a.liveGroup i l := by
  simp only [liveGroup, funext handle]

theorem liveGroup_setEntry (a : Arena) (i j : Nat) (e : Entry) (l : Ledger) :
    (a.setEntry i e).liveGroup j l = a.liveGroup j l :=
  liveGroup_congr (fun k => handleOf_setEntry a i k e) j l

theorem Repointed.liveGroup (p : Repointed a b) (i : Nat) (l : Ledger) :
    b.liveGroup i l = a.liveGroup i l :=
  liveGroup_congr (fun j => handleOf_congr (p.generation j)) i l

theorem Repointed.groups (p : Repointed a b) : b.groups = a.groups := by
  refine groups_congr p.length fun i => ?_
  have handle : ∀ j, b.handleOf j = a.handleOf j := fun j => handleOf_congr (p.generation j)
  cases h : a.groupAt? i with
  | some g =>
    rw [← h]
    unfold groupAt? at h
    split at h
    · rename_i l e
      exact groupAt?_congr ((p.live.mpr e).trans e.symm) handle
    · rename_i ms e
      exact groupAt?_congr (((p.entry (by simp) i).mpr e).trans e.symm) handle
    · cases h
  | none =>
    rw [groupAt?_eq_none] at h ⊢
    cases k : b.members? i with
    | none => rfl
    | some ms =>
      rcases members?_eq_some.mp k with ⟨l, e, _⟩ | e
      · rw [members?_of_live (p.live.mp e)] at h
        cases h
      · rw [members?_of_triggered ((p.entry (by simp) i).mp e)] at h
        cases h

theorem Repointed.sound (p : Repointed a b) (s : a.Sound) : b.Sound := fun e => s (p.live.mp e)

theorem groupAt?_setEntry_of_ne {i j : Nat} (ne : i ≠ j) (e : Entry) :
    (a.setEntry i e).groupAt? j = a.groupAt? j :=
  groupAt?_congr (entryAt?_setEntry_of_ne a ne e) fun k => handleOf_setEntry a i k e

theorem groupAt?_of_members {r : Nat} {ms : List Nat} (found : a.members? r = some ms) :
    ∃ g, a.groupAt? r = some g := by
  cases h : a.groupAt? r with
  | some g => exact ⟨g, rfl⟩
  | none =>
    rw [groupAt?_eq_none.mp h] at found
    cases found

theorem groups_setEntry {r : Nat} {ms : List Nat} {e : Entry} {g : Group}
    (found : a.members? r = some ms) (new : (a.setEntry r e).groupAt? r = some g) :
    (a.setEntry r e).groups = a.groups.put g := by
  obtain ⟨old, before⟩ := groupAt?_of_members found
  refine groups_put (length_setEntry a r e) before new ?_ fun i ne => groupAt?_setEntry_of_ne ne e
  rw [(groupAt?_eq_some new).1, (groupAt?_eq_some before).1, handleOf_setEntry]

theorem groups_forward {r parent : Nat} {g : Group} (old : a.groupAt? r = some g) :
    (a.setEntry r (.forward parent)).groups = a.groups.dissolve g := by
  refine groups_dissolve (length_setEntry a r _) old ?_ fun i ne => groupAt?_setEntry_of_ne ne _
  rw [groupAt?_eq_none, Arena.members?, entryAt?_setEntry, if_pos rfl]
  cases a.entryAt? r <;> rfl

theorem groupAt?_free (c : Charted a root depth) {r : Nat} {ms : List Nat}
    (found : a.members? r = some ms) {i : Nat} (ne : r ≠ i) :
    (a.freeSlots ms).groupAt? i = a.groupAt? i := by
  have inside : ∀ j, j ∈ ms ↔ root j = some r := c.mem_members found
  cases k : a.members? i with
  | none =>
    rw [groupAt?_eq_none.mpr k, groupAt?_eq_none, Arena.members?, entryAt?_freeSlots]
    split
    · cases a.entryAt? i <;> rfl
    · exact k
  | some ns =>
    have apart : ∀ j, j ∈ ns → j ∉ ms := by
      intro j inj also
      rw [c.mem_members k, (inside j).mp also] at inj
      exact ne (Option.some.inj inj)
    have handle : ∀ j, j ∈ ns → (a.freeSlots ms).handleOf j = a.handleOf j := by
      intro j inj
      apply handleOf_congr
      rw [generation?_freeSlots a (c.members_nodup found), if_neg (apart j inj)]
    have self : i ∈ ns := (c.mem_members k i).mpr (c.at_root k)
    have entry : (a.freeSlots ms).entryAt? i = a.entryAt? i := by
      rw [entryAt?_freeSlots, if_neg (apart i self)]
    rcases members?_eq_some.mp k with ⟨l, e, rfl⟩ | e
    · rw [groupAt?_of_live e, groupAt?_of_live (entry.trans e), liveGroup, liveGroup,
        handle i self, List.map_congr_left handle]
    · rw [groupAt?_of_triggered e, groupAt?_of_triggered (entry.trans e), spentGroup, spentGroup,
        handle i self, List.map_congr_left handle]

theorem groups_free (c : Charted a root depth) {r : Nat} {ms : List Nat} {g : Group}
    (found : a.members? r = some ms) (old : a.groupAt? r = some g) :
    (a.freeSlots ms).groups = a.groups.dissolve g := by
  refine groups_dissolve (length_freeSlots a ms) old ?_ fun i ne => groupAt?_free c found ne
  have self : r ∈ ms := (c.mem_members found r).mpr (c.at_root found)
  rw [groupAt?_eq_none, Arena.members?, entryAt?_freeSlots, if_pos self]
  cases a.entryAt? r <;> rfl

end LazyCast.Arena
