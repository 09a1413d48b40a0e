import LazyCast.Proofs.Ledger.Grouping
/-!
Every operation on an arena answers as the plain account does, and leaves an arena that stands for
the groups which the plain account is left with.
-/
namespace LazyCast.Arena
variable {a b : Arena} {root : Nat → Option Nat} {depth : Nat → Nat}

/-- Slots, chains and ledgers are as the operations leave them. -/
structure Tidy (a : Arena) : Prop where
  charted : ∃ root depth, Charted a root depth
  sound : a.Sound

/-- The same answer, and arena and groups still agree. -/
structure Matches {β : Type} (r : β × Arena) (s : β × Groups) : Prop where
  answer : r.1 = s.1
  groups : r.2.groups = s.2
  tidy : r.2.Tidy

theorem matches_map {α β : Type} {r : Outcome Arena α} {s : Outcome Groups α} (f : α → β)
    (m : Matches r s) : Matches (r.map f) (s.map f) :=
  ⟨congrArg (Except.map f) m.answer, m.groups, m.tidy⟩

theorem matches_andThen {α β : Type} {r : Outcome Arena α} {s : Outcome Groups α}
    {f : α → Arena → Outcome Arena β} {g : α → Groups → Outcome Groups β} (m : Matches r s)
    (next : ∀ x b, b.Tidy → Matches (f x b) (g x b.groups)) :
    Matches (r.andThen f) (s.andThen g) := by
  obtain ⟨answer, left⟩ := r
  obtain ⟨answer', left'⟩ := s
  obtain ⟨same, groups, t⟩ := m
  dsimp only at same groups t
  subst same groups
  cases answer with
  | ok x => exact next x left t
  | error e => exact ⟨rfl, rfl, t⟩

theorem tidy_empty : empty.Tidy where
  charted := ⟨_, _, charted_empty⟩
  sound := by
    intro i l e
    cases e

theorem sound_setEntry (s : a.Sound) {i : Nat} {e : Entry} (new : ∀ l, e = .live l → l.Sound) :
    (a.setEntry i e).Sound := by
  intro j l h
  by_cases here : i = j
  · subst here
    rw [entryAt?_setEntry, if_pos rfl] at h
    obtain ⟨_, _, same⟩ := Option.map_eq_some_iff.mp h
    exact new l same
  · rw [entryAt?_setEntry_of_ne a here] at h
    exact s h

theorem sound_freeSlots {ms : List Nat}
    (s : ∀ {i l}, i ∉ ms → a.entryAt? i = some (.live l) → l.Sound) : (a.freeSlots ms).Sound := by
  intro i l h
  rw [entryAt?_freeSlots] at h
  by_cases mem : i ∈ ms
  · rw [if_pos mem] at h
    obtain ⟨_, _, same⟩ := Option.map_eq_some_iff.mp h
    cases same
  · rw [if_neg mem] at h
    exact s mem h

theorem mem_handles (c : Charted a root depth) {i : Nat} {g : Group} (at_i : a.groupAt? i = some g)
    (h : Handle) : h ∈ g.handles ↔ a.home root h = some i := by
  obtain ⟨_, ms, members, handles⟩ := groupAt?_eq_some at_i
  rw [handles, List.mem_map, home]
  constructor
  · rintro ⟨j, mem, rfl⟩
    have rooted := (c.mem_members members j).mp mem
    have inside := c.below rooted
    cases gen : a.generation? j with
    | none =>
      rw [generation?_eq_none] at gen
      omega
    | some generation => simp [handleOf_eq, gen, rooted]
  · intro found
    split at found
    · rename_i gen
      refine ⟨h.index, (c.mem_members members _).mpr found, ?_⟩
      rw [handleOf_eq, gen]
      rfl
    · cases found

theorem groupOf?_groups (c : Charted a root depth) (h : Handle) :
    a.groups.groupOf? h = (a.home root h).bind a.groupAt? := by
  have exact_root : ∀ {g}, g ∈ a.groups → decide (h ∈ g.handles) = true →
      (a.home root h).bind a.groupAt? = some g := by
    intro g mem inside
    obtain ⟨i, at_i⟩ := mem_groups.mp mem
    rw [(mem_handles c at_i h).mp (of_decide_eq_true inside), Option.bind_some, at_i]
  unfold Groups.groupOf?
  cases found : a.groups.find? fun g => decide (h ∈ g.handles) with
  | some g =>
    have inside := List.find?_some (p := fun g : Group => decide (h ∈ g.handles)) found
    exact (exact_root (List.mem_of_find?_eq_some found) inside).symm
  | none =>
    cases at_home : a.home root h with
    | none => rfl
    | some r =>
      cases at_r : a.groupAt? r with
      | none => simp [at_r]
      | some g =>
        have absent := List.find?_eq_none.mp found g (mem_groups.mpr ⟨r, at_r⟩)
        have present := (mem_handles c at_r h).mpr at_home
        simp [present] at absent

inductive Found (a : Arena) (root : Nat → Option Nat) (h : Handle) : Prop where
  | live (r : Nat) (l : Ledger) (lookup : a.lookup h = .live r) (home : a.home root h = some r)
      (entry : a.entryAt? r = some (.live l))
      (group : a.groups.groupOf? h = some (a.liveGroup r l))
  | triggered (r : Nat) (ms : List Nat) (lookup : a.lookup h = .triggered r)
      (home : a.home root h = some r) (entry : a.entryAt? r = some (.triggered ms))
      (group : a.groups.groupOf? h = some (a.spentGroup r ms))
  | gone (lookup : a.lookup h = .gone) (home : a.home root h = none)
      (group : a.groups.groupOf? h = none)

theorem Charted.found (c : Charted a root depth) (h : Handle) : Found a root h := by
  have group := groupOf?_groups c h
  have lookup := c.lookup_eq h
  cases at_home : a.home root h with
  | none =>
    rw [at_home] at group lookup
    exact .gone lookup at_home group
  | some r =>
    rw [at_home] at group lookup
    have rooted : root h.index = some r := by
      unfold home at at_home
      split at at_home
      · exact at_home
      · cases at_home
    obtain ⟨⟨ms, members⟩, _⟩ := c.root_reached rooted
    rcases members?_eq_some.mp members with ⟨l, e, _⟩ | e
    · exact .live r l (by simpa [lookupAt, e] using lookup) at_home e
        (group.trans (groupAt?_of_live e))
    · exact .triggered r ms (by simpa [lookupAt, e] using lookup) at_home e
        (group.trans (groupAt?_of_triggered e))

theorem open?_of_live {h : Handle} {r : Nat} {l : Ledger}
    (group : a.groups.groupOf? h = some (a.liveGroup r l)) :
    a.groups.open? h = some (a.liveGroup r l) := by
  simp [Groups.open?, group, Option.filter_some, liveGroup, l.isOpen_state]

theorem open?_of_triggered {h : Handle} {r : Nat} {ms : List Nat}
    (group : a.groups.groupOf? h = some (a.spentGroup r ms)) : a.groups.open? h = none := by
  simp [Groups.open?, group, Option.filter_some, spentGroup, LedgerState.isOpen]

theorem open?_of_gone {h : Handle} (group : a.groups.groupOf? h = none) :
    a.groups.open? h = none := by
  simp [Groups.open?, group]

/-- The search for an open ledger: it fails as the plain account does, or comes to the root of the
    open group and leaves an arena with the same chart and the same groups. -/
theorem openRoot_cases (c : Charted a root depth) (s : a.Sound) (h : Handle) :
    (∃ r l b, a.openRoot h = (.ok r, b) ∧ Charted b root depth ∧ b.Sound ∧ b.groups = a.groups ∧
        Repointed a b ∧ a.home root h = some r ∧ b.entryAt? r = some (.live l) ∧
        a.groups.open? h = some (b.liveGroup r l)) ∨
      (a.openRoot h = (.error (.frozenLedger h.index), a) ∧ a.groups.open? h = none) := by
  cases c.found h with
  | live r l lookup home entry group =>
    obtain ⟨b, opened, charted, p⟩ := c.openRoot_of_live lookup
    refine Or.inl ⟨r, l, b, opened, charted, p.sound s, p.groups, p, home, p.live.mpr entry, ?_⟩
    rw [open?_of_live group, p.liveGroup]
  | triggered r ms lookup home entry group =>
    exact Or.inr ⟨openRoot_of_not_live (by simp [lookup]), open?_of_triggered group⟩
  | gone lookup home group =>
    exact Or.inr ⟨openRoot_of_not_live (by simp [lookup]), open?_of_gone group⟩

end LazyCast.Arena
