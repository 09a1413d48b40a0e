import LazyCast.Proofs.Ledger.Simulation
/-!
The operations one by one: each matches its counterpart in the plain account.
-/
namespace LazyCast.Arena
variable {a b : Arena} {root : Nat → Option Nat} {depth : Nat → Nat}

theorem change_matches {β : Type} (t : a.Tidy) (h : Handle) {f : Ledger → Ledger}
    {k : Group → Group} {x : Ledger → β} {y : Group → β} (sound : ∀ l, l.Sound → (f l).Sound)
    (members : ∀ l, (f l).members = l.members)
    (group : ∀ (b : Arena) r l, b.liveGroup r (f l) = k (b.liveGroup r l))
    (answer : ∀ (b : Arena) r l, x l = y (b.liveGroup r l)) :
    Matches ((a.change h f).map x) ((a.groups.change h k).map y) := by
  obtain ⟨⟨root, depth, c⟩, s⟩ := t
  rcases openRoot_cases c s h with
    ⟨r, l, b, opened, charted, kept, groups, _, _, entry, found⟩ | ⟨failed, none⟩
  · have changed : a.change h f = (.ok l, b.setEntry r (.live (f l))) := by
      simp only [change, opened, Outcome.andThen_ok, ledgerAt?_eq_some.mpr entry]
    have plain : a.groups.change h k = (.ok (b.liveGroup r l), b.groups.put (k (b.liveGroup r l))) := by
      simp only [Groups.change, found, groups]
    rw [changed, plain]
    have found' := members?_of_live entry
    refine ⟨congrArg Except.ok (answer b r l), ?_, ⟨root, depth, ?_⟩, ?_⟩
    · refine groups_setEntry found' ?_
      rw [groupAt?_of_live (entryAt?_setEntry_self entry _), liveGroup_setEntry, group]
    · exact charted.replace found' (congrArg some (members l))
    · refine sound_setEntry kept fun l' same => ?_
      cases same
      exact sound l (kept entry)
  · have changed : a.change h f = (.error (.frozenLedger h.index), a) := by
      simp only [change, failed, Outcome.andThen_error]
    have plain : a.groups.change h k = (.error (.frozenLedger h.index), a.groups) := by
      simp only [Groups.change, none]
    rw [changed, plain]
    exact ⟨rfl, rfl, ⟨root, depth, c⟩, s⟩

theorem append_matches (t : a.Tidy) (h : Handle) (i : Instruction) :
    Matches (a.append h i) (a.groups.append h i) :=
  change_matches t h (fun _ s => s.push i) (fun _ => rfl) (fun _ _ _ => rfl) (fun _ _ _ => rfl)

theorem addOwner_matches (t : a.Tidy) (h : Handle) (owner : ValueId) :
    Matches (a.addOwner h owner) (a.groups.addOwner h owner) :=
  change_matches t h
    (fun _ s => ⟨OrderedSet.isEmpty_insert _ _, s.numbered, s.kinds_exact⟩)
    (fun _ => rfl) (fun _ _ _ => rfl) (fun _ _ _ => rfl)

theorem join_matches (c : Charted a root depth) (s : a.Sound) {ra rb : Nat} {la lb : Ledger}
    (ha hb : Handle) (ea : a.entryAt? ra = some (.live la)) (eb : a.entryAt? rb = some (.live lb))
    (ne : ra ≠ rb) :
    Matches (a.join ra rb ha hb) (.ok (a.handleOf ra), (a.groups.dissolve (a.liveGroup rb lb)).put
      ((a.liveGroup ra la).join (a.liveGroup rb lb))) := by
  have founda := members?_of_live ea
  have foundb := members?_of_live eb
  have still : (a.setEntry rb (.forward ra)).entryAt? ra = some (.live la) := by
    rw [entryAt?_setEntry_of_ne a (Ne.symm ne), ea]
  have joined : a.join ra rb ha hb =
      (.ok (a.handleOf ra), a.taken ra rb (.live (la.absorb lb))) := by
    simp only [join, ledgerAt?_eq_some.mpr eb, ledgerAt?_eq_some.mpr still, handleOf_setEntry, taken]
  rw [joined]
  refine ⟨rfl, ?_, ⟨_, _, c.join founda foundb ne ?_⟩, ?_⟩
  · rw [← groups_forward (groupAt?_of_live eb)]
    refine groups_setEntry (members?_of_live still) ?_
    rw [groupAt?_of_live (entryAt?_setEntry_self still _), liveGroup_setEntry, liveGroup_setEntry]
    simp only [liveGroup, Group.join, Ledger.instructions_absorb (s ea),
      Ledger.members_absorb (s ea), Ledger.owners_absorb (s ea), List.map_append]
    rfl
  · rw [Entry.members?, Ledger.members_absorb (s ea)]
  · refine sound_setEntry (sound_setEntry s fun l same => by cases same) fun l same => ?_
    cases same
    exact (s ea).absorb lb

theorem merge_matches (t : a.Tidy) (h k : Handle) :
    Matches (a.merge h k) (a.groups.merge h k) := by
  obtain ⟨⟨root, depth, c⟩, s⟩ := t
  unfold merge Groups.merge
  rcases openRoot_cases c s h with
    ⟨ra, la, b, opened, charted, kept, groups, _, _, entrya, founda⟩ | ⟨failed, none⟩
  · rw [opened, Outcome.andThen_ok, founda]
    rcases openRoot_cases charted kept k with
      ⟨rb, lb, d, opened', charted', kept', groups', p', _, eb, foundb⟩ | ⟨failed, none⟩
    · rw [groups] at foundb
      have ea := p'.live.mpr entrya
      have leads : (d.liveGroup ra la).lead = (d.liveGroup rb lb).lead ↔ ra = rb :=
        ⟨handleOf_injective, fun same => same ▸ rfl⟩
      rw [opened', Outcome.andThen_ok, foundb, ← p'.liveGroup ra la]
      by_cases same : ra = rb
      · simp only [if_pos same, if_pos (leads.mpr same)]
        exact ⟨rfl, groups'.trans groups, ⟨root, depth, charted'⟩, kept'⟩
      · simp only [if_neg same, if_neg (mt leads.mp same)]
        rw [← groups, ← groups']
        exact join_matches charted' kept' h k ea eb same
    · rw [failed, Outcome.andThen_error, ← groups, none]
      exact ⟨rfl, rfl, ⟨root, depth, charted⟩, kept⟩
  · rw [failed, Outcome.andThen_error, none]
    exact ⟨rfl, rfl, ⟨root, depth, c⟩, s⟩

theorem mergeAll_matches (t : a.Tidy) (h : Handle) (rest : List Handle) :
    Matches (a.mergeAll h rest) (a.groups.mergeAll h rest) := by
  induction rest generalizing a h with
  | nil => exact ⟨rfl, rfl, t⟩
  | cons next rest ih => exact matches_andThen (merge_matches t h next) fun h _ t => ih t h

theorem interact_matches (t : a.Tidy) (how : Interaction) (values : List Handle)
    (independent : Bool) :
    Matches (a.interact how values independent) (a.groups.interact values independent) := by
  unfold interact Groups.interact
  match values with
  | [] => exact ⟨rfl, rfl, t⟩
  | [_] => exact ⟨rfl, rfl, t⟩
  | first :: second :: rest =>
    cases independent with
    | true => exact ⟨rfl, rfl, t⟩
    | false => exact matches_map some (mergeAll_matches t first (second :: rest))

theorem state_matches (t : a.Tidy) (h : Handle) : a.state h = a.groups.state h := by
  obtain ⟨⟨root, depth, c⟩, _⟩ := t
  cases c.found h with
  | live r l lookup _ entry group =>
    simp only [state, Groups.state, lookup, group, ledgerAt?_eq_some.mpr entry, liveGroup]
  | triggered r ms lookup _ entry group =>
    simp only [state, Groups.state, lookup, group, spentGroup]
  | gone lookup _ group => simp only [state, Groups.state, lookup, group]

theorem find?_matches (t : a.Tidy) (h : Handle) :
    (a.find? h).map Ledger.view = (a.groups.open? h).map Group.view := by
  obtain ⟨⟨root, depth, c⟩, s⟩ := t
  cases c.found h with
  | live r l lookup _ entry group =>
    simp only [find?, lookup, ledgerAt?_eq_some.mpr entry, open?_of_live group, Option.map_some,
      Ledger.view, Group.view, liveGroup, (s entry).kinds_exact]
  | triggered r ms lookup _ entry group =>
    simp only [find?, lookup, open?_of_triggered group, Option.map_none]
  | gone lookup _ group => simp only [find?, lookup, open?_of_gone group, Option.map_none]

theorem sameLedger_matches (t : a.Tidy) (h k : Handle) :
    a.sameLedger h k = a.groups.sameGroup h k := by
  obtain ⟨⟨root, depth, c⟩, _⟩ := t
  have leads : ∀ {i j : Nat}, a.handleOf i = a.handleOf j ↔ i = j :=
    ⟨handleOf_injective, fun same => same ▸ rfl⟩
  have apart : ∀ {i j l ms}, a.entryAt? i = some (.live l) → a.entryAt? j = some (.triggered ms) →
      i ≠ j := by
    intro i j l ms ei ej same
    rw [← same, ei] at ej
    cases ej
  unfold sameLedger Groups.sameGroup
  cases c.found h with
  | gone lookup _ group => simp only [lookup, group]
  | live r l lookup _ entry group =>
    cases c.found k with
    | live r' l' lookup' _ _ group' =>
      simp only [lookup, lookup', group, group', liveGroup, leads]
    | triggered r' ms' lookup' _ entry' group' =>
      simp only [lookup, lookup', group, group', liveGroup, spentGroup, leads,
        apart entry entry', decide_false]
    | gone lookup' _ group' => simp only [lookup, lookup', group, group']
  | triggered r ms lookup _ entry group =>
    cases c.found k with
    | live r' l' lookup' _ entry' group' =>
      simp only [lookup, lookup', group, group', liveGroup, spentGroup, leads,
        Ne.symm (apart entry' entry), decide_false]
    | triggered r' ms' lookup' _ _ group' =>
      simp only [lookup, lookup', group, group', spentGroup, leads]
    | gone lookup' _ group' => simp only [lookup, lookup', group, group']

theorem trigger_matches (t : a.Tidy) (h : Handle) : Matches (a.trigger h) (a.groups.trigger h) := by
  obtain ⟨⟨root, depth, c⟩, s⟩ := t
  unfold trigger Groups.trigger
  cases c.found h with
  | live r l lookup _ entry group =>
    have found := members?_of_live entry
    simp only [lookup, ledgerAt?_eq_some.mpr entry, open?_of_live group]
    refine ⟨?_, ?_, ⟨root, depth, c.replace found rfl⟩, ?_⟩
    · simp only [liveGroup, handleOf_index, (s entry).kinds_exact]
    · refine groups_setEntry found ?_
      rw [groupAt?_of_triggered (entryAt?_setEntry_self entry _)]
      have handle : (a.setEntry r (.triggered l.members)).handleOf = a.handleOf :=
        funext fun j => handleOf_setEntry a r j _
      simp only [spentGroup, liveGroup, handle]
    · refine sound_setEntry s fun l same => ?_
      cases same
  | triggered r ms lookup _ _ group =>
    simp only [lookup, open?_of_triggered group]
    exact ⟨rfl, rfl, ⟨root, depth, c⟩, s⟩
  | gone lookup _ group =>
    simp only [lookup, open?_of_gone group]
    exact ⟨rfl, rfl, ⟨root, depth, c⟩, s⟩

theorem release_matches (t : a.Tidy) (h : Handle) : Matches (a.release h) (a.groups.release h) := by
  obtain ⟨⟨root, depth, c⟩, s⟩ := t
  unfold release Groups.release
  cases c.found h with
  | live r l lookup _ entry group =>
    simp only [lookup, group, liveGroup, l.isOpen_state, if_true]
    exact ⟨rfl, rfl, ⟨root, depth, c⟩, s⟩
  | triggered r ms lookup _ entry group =>
    have found := members?_of_triggered entry
    simp only [lookup, group, entry]
    refine ⟨?_, ?_, ⟨_, _, c.free found⟩, sound_freeSlots fun _ e => s e⟩
    · simp [spentGroup, LedgerState.isOpen]
    · exact groups_free c found (groupAt?_of_triggered entry)
  | gone lookup _ group =>
    simp only [lookup, group]
    exact ⟨rfl, rfl, ⟨root, depth, c⟩, s⟩

end LazyCast.Arena
