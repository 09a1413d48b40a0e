import LazyCast.Proofs.Ledger.Refinement
/-!
The invariant of the arena's four redundant parts: forwarding entries, member lists, free list and
generations. It holds of every arena that calls can lead to, and the operations rely on it.
-/
namespace LazyCast

namespace Groups
variable {gs after : Groups} {g l : Group}

def Keeps (gs after : Groups) : Prop := ∀ g ∈ gs, ∃ k ∈ after, ∀ h ∈ g.handles, h ∈ k.handles

def Whole (gs after : Groups) : Prop :=
  ∀ g ∈ gs, (∃ k ∈ after, ∀ h ∈ g.handles, h ∈ k.handles) ∨
    ∀ k ∈ after, ∀ h ∈ g.handles, h ∉ k.handles

theorem Keeps.refl (gs : Groups) : Keeps gs gs := fun g mem => ⟨g, mem, fun _ inside => inside⟩

theorem Keeps.trans {last : Groups} (first : Keeps gs after) (second : Keeps after last) :
    Keeps gs last := by
  intro g mem
  obtain ⟨k, mem, inside⟩ := first g mem
  obtain ⟨k', mem', inside'⟩ := second k mem
  exact ⟨k', mem', fun h here => inside' h (inside h here)⟩

theorem Keeps.whole (keeps : Keeps gs after) : Whole gs after := fun g mem => Or.inl (keeps g mem)

theorem keeps_put (covered : ∀ old ∈ gs, old.lead = g.lead → ∀ h ∈ old.handles, h ∈ g.handles) :
    Keeps gs (gs.put g) := by
  intro old mem
  by_cases here : old.lead = g.lead
  · exact ⟨g, mem_put mem here, covered old mem here⟩
  · exact ⟨old, List.mem_map.mpr ⟨old, mem, if_neg here⟩, fun _ inside => inside⟩

theorem keeps_change (apart : gs.Apart) (h : Handle) {f : Group → Group}
    (lead : ∀ g, (f g).lead = g.lead) (handles : ∀ g, (f g).handles = g.handles) :
    Keeps gs (gs.change h f).2 := by
  unfold change
  cases found : gs.open? h with
  | none => exact .refl gs
  | some g =>
    refine keeps_put fun old mem same v inside => ?_
    rw [handles, ← apart.lead_injective mem (open?_spec found).1 (same.trans (lead g))]
    exact inside

theorem keeps_merge (apart : gs.Apart) (h k : Handle) : Keeps gs (gs.merge h k).2 := by
  refine merge_keeps (.refl gs) fun {g l} foundg foundl ne old mem => ?_
  have memg := (open?_spec foundg).1
  have joined : g.join l ∈ gs.merged g l := (mem_merged memg ne).mpr (Or.inl rfl)
  by_cases isG : old.lead = g.lead
  · rw [apart.lead_injective mem memg isG]
    exact ⟨_, joined, fun _ inside => List.mem_append_left _ inside⟩
  · by_cases isL : old.lead = l.lead
    · rw [apart.lead_injective mem (open?_spec foundl).1 isL]
      exact ⟨_, joined, fun _ inside => List.mem_append_right _ inside⟩
    · exact ⟨old, (mem_merged memg ne).mpr (Or.inr ⟨mem, isG, isL⟩), fun _ inside => inside⟩

section Through
variable {R : Groups → Groups → Prop} (refl : ∀ gs, R gs gs)
  (trans : ∀ {gs after last}, R gs after → R after last → R gs last)
  (merges : ∀ {gs : Groups}, gs.Apart → ∀ h k, R gs (gs.merge h k).2)
include refl trans merges

/-- Merging many handles is one merge after the other, up to the first that fails. -/
theorem mergeAll_through (apart : gs.Apart) (h : Handle) (rest : List Handle) :
    R gs (gs.mergeAll h rest).2 := by
  induction rest generalizing gs h with
  | nil => exact refl gs
  | cons next rest ih =>
    have merge := merges apart h next
    have apart' := apart.merge h next
    rw [mergeAll]
    rcases merged : gs.merge h next with ⟨e | x, left⟩ <;> rw [merged] at merge apart'
    · exact merge
    · exact trans merge (ih apart' x)

theorem interact_through (apart : gs.Apart) (values : List Handle) (independent : Bool) :
    R gs (gs.interact values independent).2 := by
  unfold interact
  split
  · split
    · exact refl gs
    · exact mergeAll_through refl trans merges apart _ _
  · exact refl gs

end Through

theorem whole_filter (apart : gs.Apart) (p : Group → Bool) : Whole gs (gs.filter p) := by
  intro g mem
  cases kept : p g with
  | true => exact Or.inl ⟨g, List.mem_filter.mpr ⟨mem, kept⟩, fun _ inside => inside⟩
  | false =>
    refine Or.inr fun k memk h ing ink => ?_
    obtain ⟨memk, keptk⟩ := List.mem_filter.mp memk
    rw [apart.disjoint g mem k memk h ing ink, keptk] at kept
    cases kept

theorem perform_whole (apart : gs.Apart) (name : Handle) {c : Command}
    (other : c.isCreate = false) : Whole gs (gs.perform name c).2 := by
  cases c with
  | create owner => cases other
  | append h i =>
    simp only [perform, append, Outcome.map]
    exact Keeps.whole (keeps_change apart h (fun _ => rfl) fun _ => rfl)
  | merge h k => exact (keeps_merge apart h k).whole
  | interact how values independent =>
    exact Keeps.whole (interact_through .refl .trans keeps_merge apart values independent)
  | addOwner h owner =>
    simp only [perform, addOwner, Outcome.map]
    exact Keeps.whole (keeps_change apart h (fun _ => rfl) fun _ => rfl)
  | state h => exact (Keeps.refl gs).whole
  | find h => exact (Keeps.refl gs).whole
  | sameLedger h k => exact (Keeps.refl gs).whole
  | trigger h =>
    simp only [perform, trigger]
    cases found : gs.open? h with
    | none => exact (Keeps.refl gs).whole
    | some g =>
      refine (keeps_put fun old mem same v inside => ?_).whole
      rwa [apart.lead_injective mem (open?_spec found).1 same] at inside
  | release h =>
    simp only [perform, release]
    split
    · split
      · exact (Keeps.refl gs).whole
      · exact whole_filter apart _
    · exact (Keeps.refl gs).whole
  | dropOwner h owner =>
    simp only [perform, dropOwner]
    cases found : gs.open? h with
    | none => exact (Keeps.refl gs).whole
    | some g =>
      simp only
      split
      · exact whole_filter apart _
      · refine (keeps_put fun old mem same v inside => ?_).whole
        rwa [apart.lead_injective mem (open?_spec found).1 same] at inside
  | sweep => exact whole_filter apart _
  | live => exact (Keeps.refl gs).whole

end Groups

namespace Arena
variable {a : Arena} {root : Nat → Option Nat} {depth : Nat → Nat}

/-- Slots, forwarding entries, member lists and free list fit together. -/
structure WellFormed (a : Arena) : Prop where
  acyclic : ∀ {n i}, Forwards a n i i → n = 0
  rooted : ∀ {i e}, a.entryAt? i = some e → e ≠ .vacant →
    ∃ n r, Forwards a n i r ∧ ∃ ms, a.members? r = some ms
  vacant_apart : ∀ {n i r}, Forwards a n i r → a.entryAt? r = some .vacant → i = r
  members_nodup : ∀ {r ms}, a.members? r = some ms → ms.Nodup
  mem_members : ∀ {r ms}, a.members? r = some ms → ∀ i, i ∈ ms ↔ ∃ n, Forwards a n i r
  free_nodup : a.free.Nodup
  mem_free : ∀ i, i ∈ a.free ↔ a.entryAt? i = some .vacant
  owned : ∀ {i l}, a.ledgerAt? i = some l → l.owners.isEmpty = false

theorem Tidy.wellFormed (t : a.Tidy) : a.WellFormed := by
  obtain ⟨⟨root, depth, c⟩, s⟩ := t
  have along : ∀ {n i r ms}, Forwards a n i r → a.members? r = some ms → root i = some r :=
    fun f found => (c.root_along f).trans (c.at_root found)
  exact {
    acyclic := c.no_cycle
    rooted := by
      intro i e entry used
      obtain ⟨r, rooted⟩ := c.root_of_inUse (inUse_eq_true.mpr ⟨e, entry, used⟩)
      obtain ⟨found, n, f⟩ := c.root_reached rooted
      exact ⟨n, r, f, found⟩
    vacant_apart := by
      intro n i r f vacant
      cases f with
      | stay => rfl
      | next entry rest =>
        have rooted := (c.at_forward entry).2.1
        rw [c.root_along rest, c.at_vacant vacant] at rooted
        exact absurd rfl rooted
    members_nodup := c.members_nodup
    mem_members := by
      intro r ms found i
      rw [c.mem_members found]
      exact ⟨fun rooted => (c.root_reached rooted).2, fun ⟨n, f⟩ => along f found⟩
    free_nodup := c.free_nodup
    mem_free := c.mem_free
    owned := fun e => (s (ledgerAt?_eq_some.mp e)).owned }

/-- What the operations rely on. Every loop ends, a root holds what it is looked up for, and slots
    come into use and go out of use with whole ledgers. -/
structure Reliable (a : Arena) : Prop where
  walks : ∀ i, Walks a i (a.walk a.slots.length i)
  compresses : ∀ {h r}, a.lookup h = .live r → Compresses r h.index a (a.openRoot h).2
  live_held : ∀ {h r}, a.lookup h = .live r → ∃ l, a.ledgerAt? r = some l
  triggered_held : ∀ {h r}, a.lookup h = .triggered r → ∃ ms, a.entryAt? r = some (.triggered ms)
  root_held : ∀ {h r b}, a.openRoot h = (.ok r, b) → ∃ l, b.ledgerAt? r = some l
  /-- A merge takes a ledger out only when there is one to take it up. -/
  merge_held : ∀ {h k ra rb b d}, a.openRoot h = (.ok ra, b) → b.openRoot k = (.ok rb, d) →
    (∃ lb, d.ledgerAt? rb = some lb) ∧
      (ra ≠ rb → ∃ la, (d.setEntry rb (.forward ra)).ledgerAt? ra = some la)
  last_reported : ∀ {h r l owner}, a.lookup h = .live r → a.ledgerAt? r = some l →
    (l.owners.erase owner).isEmpty = true →
    (a.dropOwner h owner).1 = some (.unusedValues [owner] l.length)
  stranger_kept : ∀ {h r l owner}, a.lookup h = .live r → a.ledgerAt? r = some l →
    l.owners.contains owner = false → a.dropOwner h owner = (none, a)
  sweep_reports : a.sweep.1.length = a.live ∧ a.sweep.2.live = 0
  create_apart : ∀ {r ms} owner, a.members? r = some ms → (a.create owner).1.index ∉ ms
  freed_once : ∀ {r ms} c, a.members? r = some ms →
    (∀ i ∈ ms, (a.perform c).2.inUse i = true ∧ (a.perform c).2.generation? i = a.generation? i) ∨
    ∀ i ∈ ms, (a.perform c).2.entryAt? i = some .vacant ∧
      (a.perform c).2.generation? i = (a.generation? i).map (· + 1) ∧
      a.free.count i = 0 ∧ (a.perform c).2.free.count i = 1

theorem setEntry_same {i : Nat} {e : Entry} (entry : a.entryAt? i = some e) :
    a.setEntry i e = a := by
  obtain ⟨slot, at_i, held⟩ := Option.map_eq_some_iff.mp entry
  have same : a.slots.modify i (fun s => { s with entry := e }) = a.slots := by
    apply List.ext_getElem?
    intro j
    rw [List.getElem?_modify]
    by_cases here : i = j
    · subst here
      simp [at_i, ← held]
    · simp [here]
  simp only [setEntry, same]

theorem dropOwner_stranger {h : Handle} {r : Nat} {l : Ledger} {owner : ValueId}
    (lookup : a.lookup h = .live r) (held : a.ledgerAt? r = some l) (s : l.Sound)
    (stranger : l.owners.contains owner = false) : a.dropOwner h owner = (none, a) := by
  have kept : l.owners.erase owner = l.owners := by
    unfold OrderedSet.contains at stranger
    unfold OrderedSet.erase
    congr 1
    refine List.filter_eq_self.mpr fun x mem => ?_
    have ne : x ≠ owner := fun same => of_decide_eq_false stranger (same ▸ mem)
    simpa using ne
  simp only [dropOwner, lookup, held, kept, s.owned, Bool.false_eq_true, if_false]
  rw [setEntry_same (ledgerAt?_eq_some.mp held)]

theorem freed_of_gone {b : Arena} (t : b.Tidy) (recedes : Recedes a b) {i : Nat}
    (used : a.inUse i = true) (gone : ∀ k ∈ b.groups, a.handleOf i ∉ k.handles) :
    b.entryAt? i = some .vacant ∧ b.generation? i = (a.generation? i).map (· + 1) := by
  obtain ⟨root, depth, c⟩ := t.charted
  rcases recedes i with ⟨gen, use⟩ | ⟨gen, _, unused⟩
  · obtain ⟨r, rooted⟩ := c.root_of_inUse (use.trans used)
    obtain ⟨⟨ms, found⟩, _⟩ := c.root_reached rooted
    obtain ⟨k, at_r⟩ := groupAt?_of_members found
    obtain ⟨_, ns, found', handles⟩ := groupAt?_eq_some at_r
    refine absurd ?_ (gone k (mem_groups.mpr ⟨r, at_r⟩))
    rw [handles, ← handleOf_congr gen]
    exact List.mem_map_of_mem ((c.mem_members found' i).mpr rooted)
  · refine ⟨?_, gen⟩
    rcases inUse_eq_false.mp unused with vacant | absent
    · exact vacant
    · obtain ⟨e, entry, _⟩ := inUse_eq_true.mp used
      rw [entryAt?_eq_none, ← generation?_eq_none, gen, Option.map_eq_none_iff,
        generation?_eq_none, ← entryAt?_eq_none, entry] at absent
      cases absent

theorem used_of_kept {b : Arena} (t : b.Tidy) {i : Nat} (used : a.inUse i = true) {k : Group}
    (mem : k ∈ b.groups) (inside : a.handleOf i ∈ k.handles) :
    b.inUse i = true ∧ b.generation? i = a.generation? i := by
  obtain ⟨root, depth, c⟩ := t.charted
  obtain ⟨r, at_r⟩ := mem_groups.mp mem
  have found := (mem_handles c at_r _).mp inside
  unfold home at found
  split at found
  · rename_i gen
    refine ⟨c.inUse_of_root found, gen.trans ?_⟩
    obtain ⟨e, entry, _⟩ := inUse_eq_true.mp used
    cases at_i : a.generation? i with
    | none =>
      rw [generation?_eq_none, ← entryAt?_eq_none, entry] at at_i
      cases at_i
    | some g => rw [handleOf_eq, at_i, Option.getD_some]
  · cases found

theorem Tidy.freed_once (t : a.Tidy) (command : Command) {r : Nat} {ms : List Nat}
    (found : a.members? r = some ms) :
    (∀ i ∈ ms, (a.perform command).2.inUse i = true ∧
      (a.perform command).2.generation? i = a.generation? i) ∨
    ∀ i ∈ ms, (a.perform command).2.entryAt? i = some .vacant ∧
      (a.perform command).2.generation? i = (a.generation? i).map (· + 1) ∧
      a.free.count i = 0 ∧ (a.perform command).2.free.count i = 1 := by
  obtain ⟨root, depth, c⟩ := t.charted
  have used : ∀ i ∈ ms, a.inUse i = true :=
    fun i mem => c.inUse_of_root ((c.mem_members found i).mp mem)
  have t' := t.perform command
  cases create : command.isCreate with
  | true =>
    cases command with
    | create owner =>
      have o := create_opened c owner
      have apart : ∀ i ∈ ms, i ≠ (a.create owner).1.index := by
        intro i mem same
        have was_used := used i mem
        rw [same, inUse_eq_false.mpr o.unused] at was_used
        cases was_used
      refine Or.inl fun i mem => ⟨?_, o.generation (apart i mem)⟩
      rw [← used i mem]
      simp only [Arena.perform, inUse, o.elsewhere (apart i mem)]
    | _ => cases create
  | false =>
    obtain ⟨g, at_r⟩ := groupAt?_of_members found
    obtain ⟨_, ns, found', handles⟩ := groupAt?_eq_some at_r
    cases found.symm.trans found'
    obtain ⟨name, m, _⟩ := perform_matches t command
    have whole := Groups.perform_whole t.apart name create g (mem_groups.mpr ⟨r, at_r⟩)
    rw [← m.groups, handles] at whole
    -- The plain account keeps or drops the whole group, and the slots follow its handles.
    rcases whole with ⟨k, mem, kept⟩ | gone
    · exact Or.inl fun i inside =>
        used_of_kept t' (used i inside) mem (kept _ (List.mem_map_of_mem inside))
    · refine Or.inr fun i inside => ?_
      obtain ⟨vacant, gen⟩ := freed_of_gone t' (recedes_perform t command create) (used i inside)
        fun k mem => gone k mem _ (List.mem_map_of_mem inside)
      have was_used := used i inside
      refine ⟨vacant, gen, ?_, ?_⟩
      · refine List.count_eq_zero.mpr fun mem => ?_
        rw [inUse_eq_false.mpr (Or.inl ((c.mem_free i).mp mem))] at was_used
        cases was_used
      · exact List.count_eq_one_of_mem t'.wellFormed.free_nodup ((t'.wellFormed.mem_free i).mpr vacant)

theorem Tidy.sweep_reports (t : a.Tidy) : a.sweep.1.length = a.live ∧ a.sweep.2.live = 0 := by
  have m := sweep_matches t
  refine ⟨?_, ?_⟩
  · rw [m.answer, live_matches]
    exact List.length_map _
  · rw [live_matches, m.groups, Groups.live, List.length_eq_zero_iff, Groups.sweep,
      List.filter_eq_nil_iff]
    intro g mem
    simpa using (List.mem_filter.mp mem).2

theorem Tidy.reliable (t : a.Tidy) : a.Reliable := by
  obtain ⟨root, depth, c⟩ := t.charted
  have live_held : ∀ {h r}, a.lookup h = .live r → ∃ l, a.ledgerAt? r = some l := by
    intro h r lookup
    obtain ⟨l, e⟩ := (c.lookup_live.mp lookup).2
    exact ⟨l, ledgerAt?_eq_some.mpr e⟩
  -- A root that was found is live, in the arena searched and in the one the search leaves.
  have opened : ∀ {a : Arena} {h r b}, Charted a root depth → a.Sound → a.openRoot h = (.ok r, b) →
      Charted b root depth ∧ b.Sound ∧ Repointed a b ∧ ∃ l, b.ledgerAt? r = some l := by
    intro a h r b c s eq
    rcases openRoot_cases c s h with
      ⟨r', l, b', eq', charted, kept, _, p, _, entry, _⟩ | ⟨failed, _⟩
    · cases eq.symm.trans eq'
      exact ⟨charted, kept, p, l, ledgerAt?_eq_some.mpr entry⟩
    · cases eq.symm.trans failed
  exact {
    walks := c.walks
    compresses := by
      intro h r lookup
      obtain ⟨at_home, _⟩ := c.lookup_live.mp lookup
      unfold home at at_home
      split at at_home
      · obtain ⟨_, n, f⟩ := c.root_reached at_home
        have short := c.path_length f (c.root_self at_home)
        simp only [openRoot, lookup]
        exact c.compresses f at_home (Nat.le_of_lt short)
      · cases at_home
    live_held := live_held
    triggered_held := fun lookup => (c.lookup_triggered.mp lookup).2
    root_held := fun eq => (opened c t.sound eq).2.2.2
    merge_held := by
      intro h k ra rb b d eqa eqb
      obtain ⟨charted, kept, _, la, held⟩ := opened c t.sound eqa
      obtain ⟨_, _, p, foundb⟩ := opened charted kept eqb
      refine ⟨foundb, fun ne => ⟨la, ledgerAt?_eq_some.mpr ?_⟩⟩
      rw [entryAt?_setEntry_of_ne d (Ne.symm ne)]
      exact p.live.mpr (ledgerAt?_eq_some.mp held)
    last_reported := by
      intro h r l owner lookup held last
      have struck := (strike_charted c (ledgerAt?_eq_some.mp held) owner).1
      unfold strike at struck
      simp only [dropOwner, lookup, held, last, if_true, discard, ledgerAt?_eq_some.mpr struck]
      rfl
    stranger_kept := fun lookup held =>
      dropOwner_stranger lookup held (t.sound (ledgerAt?_eq_some.mp held))
    sweep_reports := t.sweep_reports
    create_apart := by
      intro r ms owner found inside
      have used := c.inUse_of_root ((c.mem_members found _).mp inside)
      rw [inUse_eq_false.mpr (create_opened c owner).unused] at used
      cases used
    freed_once := fun command found => t.freed_once command found }

theorem Tidy.run (t : a.Tidy) (commands : List Command) : (a.run commands).2.Tidy := by
  induction commands generalizing a with
  | nil => exact t
  | cons c rest ih => exact ih (t.perform c)

/-- Every arena that calls lead to is well-formed, and the operations can rely on it. -/
theorem run_wellFormed (commands : List Command) :
    (empty.run commands).2.WellFormed ∧ (empty.run commands).2.Reliable :=
  have t := tidy_empty.run commands
  ⟨t.wellFormed, t.reliable⟩

end Arena
end LazyCast
