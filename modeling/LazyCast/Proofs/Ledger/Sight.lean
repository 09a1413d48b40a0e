import LazyCast.Proofs.Ledger.Onward
/-!
What handles see of an arena: the state of their ledger, what it holds, and which handles share it.
All of it is settled by the groups. A handle without a group sees nothing, and no call through it
changes what any handle sees.
-/
namespace LazyCast.Arena
variable {a b : Arena} {h k : Handle} {g : Group}

/-- Every handle sees the same in both arenas. -/
structure SameSight (a b : Arena) : Prop where
  state : ∀ h, b.state h = a.state h
  find? : ∀ h, (b.find? h).map Ledger.view = (a.find? h).map Ledger.view
  sameLedger : ∀ h k, b.sameLedger h k = a.sameLedger h k

theorem sameSight_of_groups (ta : a.Tidy) (tb : b.Tidy) (same : b.groups = a.groups) :
    SameSight a b where
  state h := by rw [state_matches ta, state_matches tb, same]
  find? h := by rw [find?_matches ta, find?_matches tb, same]
  sameLedger h k := by rw [sameLedger_matches ta, sameLedger_matches tb, same]

theorem state_of_mem (mem : g ∈ a.groups) : g.state.isOpen = true ∨ g.state = .triggered := by
  obtain ⟨i, at_i⟩ := mem_groups.mp mem
  unfold groupAt? at at_i
  split at at_i
  · rename_i l _
    cases at_i
    exact Or.inl l.isOpen_state
  · cases at_i
    exact Or.inr rfl
  · cases at_i

namespace Tidy
variable (t : a.Tidy)
include t

theorem state_of_groupOf? (found : a.groups.groupOf? h = some g) : a.state h = g.state := by
  rw [state_matches t, Groups.state, found]

theorem state_eq_resolved : a.state h = .resolved ↔ a.groups.groupOf? h = none := by
  cases found : a.groups.groupOf? h with
  | none => simp [state_matches t, Groups.state, found]
  | some g =>
    rw [t.state_of_groupOf? found]
    rcases state_of_mem (Groups.groupOf?_spec found).1 with isOpen | frozen
    · cases state : g.state <;> simp_all [LedgerState.isOpen]
    · simp [frozen]

theorem sameLedger_iff : a.sameLedger h k = true ↔
    ∃ g, a.groups.groupOf? h = some g ∧ a.groups.groupOf? k = some g := by
  rw [sameLedger_matches t, Groups.sameGroup]
  cases foundh : a.groups.groupOf? h with
  | none => simp
  | some g =>
    cases foundk : a.groups.groupOf? k with
    | none => simp
    | some l =>
      simp only [decide_eq_true_eq, Option.some.injEq]
      constructor
      · intro same
        exact ⟨g, rfl, (t.apart.lead_injective (Groups.groupOf?_spec foundh).1
          (Groups.groupOf?_spec foundk).1 same).symm⟩
      · rintro ⟨_, rfl, rfl⟩
        rfl

theorem sameLedger_of_group (mem : g ∈ a.groups) (inh : h ∈ g.handles) (ink : k ∈ g.handles) :
    a.sameLedger h k = true :=
  t.sameLedger_iff.mpr ⟨g, t.apart.groupOf?_of_mem mem inh, t.apart.groupOf?_of_mem mem ink⟩

theorem sameLedger_merge {x : Handle} (answer : (a.merge h k).1 = .ok x) :
    (a.merge h k).2.sameLedger h k = true ∧ (a.merge h k).2.sameLedger h x = true := by
  have m := merge_matches t h k
  rcases a.groups.merge_cases h k with ⟨e, failed⟩ | ⟨g, l, foundg, foundl, same, kept⟩ |
    ⟨g, l, foundg, foundl, ne, made⟩
  · rw [m.answer, failed] at answer
    cases answer
  · obtain ⟨memg, ing, _⟩ := Groups.open?_spec foundg
    obtain ⟨meml, inl, _⟩ := Groups.open?_spec foundl
    rw [kept] at m
    rw [m.answer] at answer
    cases answer
    have mem : g ∈ (a.merge h k).2.groups := m.groups ▸ memg
    rw [← t.apart.lead_injective memg meml same] at inl
    exact ⟨m.tidy.sameLedger_of_group mem ing inl,
      m.tidy.sameLedger_of_group mem ing (t.apart.lead_mem g memg)⟩
  · obtain ⟨memg, ing, _⟩ := Groups.open?_spec foundg
    obtain ⟨meml, inl, _⟩ := Groups.open?_spec foundl
    rw [made] at m
    rw [m.answer] at answer
    cases answer
    have mem : g.join l ∈ (a.merge h k).2.groups := by
      rw [m.groups]
      exact (Groups.mem_merged memg ne).mpr (Or.inl rfl)
    exact ⟨m.tidy.sameLedger_of_group mem (List.mem_append_left _ ing)
        (List.mem_append_right _ inl),
      m.tidy.sameLedger_of_group mem (List.mem_append_left _ ing)
        (List.mem_append_left _ (t.apart.lead_mem g memg))⟩

theorem lookup_of_resolved (resolved : a.state h = .resolved) : a.lookup h = .gone := by
  have noGroup := t.state_eq_resolved.mp resolved
  obtain ⟨⟨root, depth, c⟩, _⟩ := t
  cases c.found h with
  | live r l _ _ _ group =>
    rw [noGroup] at group
    cases group
  | triggered r ms _ _ _ group =>
    rw [noGroup] at group
    cases group
  | gone lookup _ _ => exact lookup

theorem trigger_spent (spent : (a.state h).isOpen = false) :
    a.trigger h = (.error (.doubleCast h.index), a) := by
  have closed : ∀ r, a.lookup h ≠ .live r := by
    intro r lookup
    obtain ⟨l, held⟩ := t.reliable.live_held lookup
    rw [state, lookup] at spent
    simp only [held, l.isOpen_state] at spent
    cases spent
  unfold trigger
  split
  · rename_i r lookup
    exact absurd lookup (closed r)
  · rfl

end Tidy

/-- A handle without a ledger: no call through it succeeds, and none changes what a handle sees. -/
structure Gone (a : Arena) (h : Handle) : Prop where
  state : a.state h = .resolved
  find? : a.find? h = none
  sameLedger : ∀ k, a.sameLedger h k = false ∧ a.sameLedger k h = false
  append : ∀ i, a.append h i = (.error (.frozenLedger h.index), a)
  addOwner : ∀ owner, a.addOwner h owner = (.error (.frozenLedger h.index), a)
  merge : ∀ k, a.merge h k = (.error (.frozenLedger h.index), a)
  /-- A merge into another ledger names that one where it is spent as well. -/
  merged : ∀ k, (a.merge k h).1 =
      .error (.frozenLedger (if a.isSpent k then k.index else h.index)) ∧
    SameSight a (a.merge k h).2
  trigger : a.trigger h = (.error (.doubleCast h.index), a)
  release : a.release h = (0, a)
  dropOwner : ∀ owner, a.dropOwner h owner = (none, a)

theorem Tidy.gone (t : a.Tidy) (resolved : a.state h = .resolved) : a.Gone h := by
  have gone := t.lookup_of_resolved resolved
  have noGroup := t.state_eq_resolved.mp resolved
  have closed : a.groups.open? h = none := by
    rw [Groups.open?, noGroup]
    rfl
  have noRoot := t.openRoot_spent closed
  refine ⟨resolved, ?_, fun k => ⟨?_, ?_⟩, t.append_spent closed, fun owner => ?_, fun k => ?_,
    fun k => ?_, t.trigger_spent (by rw [resolved]; rfl), ?_, fun owner => ?_⟩
  · rw [Arena.find?, gone]
  · rw [Arena.sameLedger, gone]
  · rw [Arena.sameLedger, gone]
    cases a.lookup k <;> rfl
  · rw [Arena.addOwner, change, noRoot]
    rfl
  · rw [Arena.merge, noRoot]
    rfl
  · have m := merge_matches t k h
    rw [t.isSpent_eq]
    cases found : a.groups.open? k with
    | none =>
      have failed : a.groups.merge k h = (.error (.frozenLedger k.index), a.groups) := by
        simp only [Groups.merge, found]
      rw [failed] at m
      exact ⟨m.answer, sameSight_of_groups t m.tidy m.groups⟩
    | some g =>
      have failed : a.groups.merge k h = (.error (.frozenLedger h.index), a.groups) := by
        simp only [Groups.merge, found, closed]
      rw [failed] at m
      exact ⟨m.answer, sameSight_of_groups t m.tidy m.groups⟩
  · rw [Arena.release, gone]
  · rw [Arena.dropOwner, gone]

end LazyCast.Arena
