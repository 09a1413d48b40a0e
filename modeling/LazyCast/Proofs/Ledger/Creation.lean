import LazyCast.Proofs.Ledger.Drops
/-!
A new ledger is a group of one handle, placed among the groups by the slot it was given. With this
every call on an arena matches the plain account's.
-/
namespace LazyCast.Arena
variable {a b : Arena} {root : Nat → Option Nat} {depth : Nat → Nat}

theorem groups_upto {n : Nat} (enough : a.slots.length ≤ n) :
    a.groups = (List.range n).filterMap a.groupAt? := by
  obtain ⟨k, rfl⟩ := Nat.exists_eq_add_of_le enough
  rw [groups, List.range_add, List.filterMap_append]
  have none : ((List.range k).map (a.slots.length + ·)).filterMap a.groupAt? = [] := by
    rw [List.filterMap_eq_nil_iff]
    intro i mem
    obtain ⟨j, _, rfl⟩ := List.mem_map.mp mem
    simp [groupAt?, entryAt?_eq_none.mpr (Nat.le_add_right a.slots.length j)]
  rw [none, List.append_nil]

theorem groups_split (index : Nat) {k : Nat} (enough : a.slots.length ≤ k) :
    a.groups = (List.range index).filterMap a.groupAt? ++ (a.groupAt? index).toList ++
      ((List.range k).map (index + 1 + ·)).filterMap a.groupAt? := by
  rw [groups_upto (show a.slots.length ≤ index + 1 + k by omega), List.range_add,
    List.range_succ, List.filterMap_append, List.filterMap_append]
  rfl

theorem orderedInsert_append {α : Type} {r : α → α → Prop} [DecidableRel r] {x : α}
    {low high : List α} (below : ∀ y ∈ low, ¬r x y) (above : ∀ y ∈ high, r x y) :
    (low ++ high).orderedInsert r x = low ++ x :: high := by
  induction low with
  | nil =>
    cases high with
    | nil => rfl
    | cons y rest => exact if_pos (above y List.mem_cons_self)
  | cons y low ih =>
    obtain ⟨here, below⟩ := List.forall_mem_cons.mp below
    rw [List.cons_append, List.orderedInsert_cons, if_neg here, ih below]
    rfl

theorem groups_insert {index : Nat} {g : Group} (unused : a.groupAt? index = none)
    (new : b.groupAt? index = some g) (same : ∀ j, j ≠ index → b.groupAt? j = a.groupAt? j) :
    b.groups = a.groups.orderedInsert (fun l k => l.lead.index < k.lead.index) g := by
  have place : ∀ {i l}, a.groupAt? i = some l → l.lead.index = i := by
    intro i l h
    rw [(groupAt?_eq_some h).1]
    rfl
  let low := (List.range index).filterMap a.groupAt?
  let high := ((List.range (a.slots.length + b.slots.length)).map (index + 1 + ·)).filterMap
    a.groupAt?
  have below : ∀ l ∈ low, l.lead.index < index := by
    intro l mem
    obtain ⟨i, inside, h⟩ := List.mem_filterMap.mp mem
    rw [place h]
    exact List.mem_range.mp inside
  have above : ∀ l ∈ high, index < l.lead.index := by
    intro l mem
    obtain ⟨i, inside, h⟩ := List.mem_filterMap.mp mem
    obtain ⟨j, _, rfl⟩ := List.mem_map.mp inside
    rw [place h]
    omega
  have before : a.groups = low ++ high := by
    rw [groups_split index (Nat.le_add_right _ b.slots.length), unused]
    simp [low, high]
  have after : b.groups = low ++ g :: high := by
    rw [groups_split index (Nat.le_add_left _ a.slots.length), new]
    have eq_low : (List.range index).filterMap b.groupAt? = low :=
      List.filterMap_congr fun i mem => same i (Nat.ne_of_lt (List.mem_range.mp mem))
    have eq_high : ((List.range (a.slots.length + b.slots.length)).map (index + 1 + ·)).filterMap
        b.groupAt? = high := by
      refine List.filterMap_congr fun i mem => same i ?_
      obtain ⟨j, _, rfl⟩ := List.mem_map.mp mem
      omega
    rw [eq_low, eq_high]
    simp
  have here : g.lead.index = index := by
    rw [(groupAt?_eq_some new).1]
    rfl
  rw [after, before, orderedInsert_append] <;> rw [here]
  · exact fun l mem => Nat.not_lt.mpr (Nat.le_of_lt (below l mem))
  · exact above

theorem create_handle (a : Arena) (owner : ValueId) :
    (a.create owner).1 = (a.create owner).2.handleOf (a.create owner).1.index := by
  unfold create
  cases a.free <;> rfl

theorem Opened.handleOf {index : Nat} {owner : ValueId} (o : Opened a b index owner) (j : Nat) :
    b.handleOf j = a.handleOf j := by
  by_cases here : j = index
  · subst here
    rw [handleOf_eq, handleOf_eq, o.generation_here]
    rfl
  · exact handleOf_congr (o.generation here)

theorem create_matches (t : a.Tidy) (owner : ValueId) :
    Matches (a.create owner) ((a.create owner).1, a.groups.create (a.create owner).1 owner) := by
  obtain ⟨⟨root, depth, c⟩, s⟩ := t
  have o := create_opened c owner
  have handle := create_handle a owner
  generalize (a.create owner).1.index = index at o handle
  refine ⟨rfl, ?_, ⟨_, _, c.grow o⟩, ?_⟩
  · dsimp only
    rw [handle, Groups.create]
    refine groups_insert ?_ ?_ fun j ne => groupAt?_congr (o.elsewhere ne) o.handleOf
    · rw [groupAt?_eq_none]
      rcases o.unused with e | e <;> simp [Arena.members?, e, Entry.members?]
    · rw [groupAt?_of_live o.here]
      rfl
  · intro i l e
    by_cases here : i = index
    · subst here
      rw [o.here] at e
      cases e
      exact Ledger.sound_fresh owner i
    · rw [o.elsewhere here] at e
      exact s e

/-- Every call matches the plain account's; a new group is named by the handle handed out. -/
theorem perform_matches (t : a.Tidy) (c : Command) :
    ∃ name, Matches (a.perform c) (a.groups.perform name c) ∧
      ∀ owner, c = .create owner → name = (a.create owner).1 := by
  have some_name : Handle := ⟨0, 0⟩
  have answer : ∀ {β : Type} {r : β × Arena} {s : β × Groups} (f : β → Reply), Matches r s →
      Matches (f r.1, r.2) (f s.1, s.2) := fun f m => ⟨congrArg f m.answer, m.groups, m.tidy⟩
  have only_create : ∀ {name owner} {d : Command}, d.isCreate = false → d = .create owner →
      name = (a.create owner).1 := by
    rintro name owner d no rfl
    cases no
  cases c with
  | create owner =>
    exact ⟨(a.create owner).1, answer (fun h => .handle (.ok h)) (create_matches t owner),
      fun owner' same => by cases same; rfl⟩
  | append h i => exact ⟨some_name, answer .position (append_matches t h i), fun _ => only_create rfl⟩
  | merge h k => exact ⟨some_name, answer .handle (merge_matches t h k), fun _ => only_create rfl⟩
  | interact how values independent =>
    exact ⟨some_name, answer .pooled (interact_matches t how values independent),
      fun _ => only_create rfl⟩
  | addOwner h owner =>
    exact ⟨some_name, answer .done (addOwner_matches t h owner), fun _ => only_create rfl⟩
  | state h => exact ⟨some_name, ⟨congrArg Reply.state (state_matches t h), rfl, t⟩,
      fun _ => only_create rfl⟩
  | find h => exact ⟨some_name, ⟨congrArg Reply.ledger (find?_matches t h), rfl, t⟩,
      fun _ => only_create rfl⟩
  | sameLedger h k =>
    exact ⟨some_name, ⟨congrArg Reply.truth (sameLedger_matches t h k), rfl, t⟩,
      fun _ => only_create rfl⟩
  | trigger h => exact ⟨some_name, answer .frozen (trigger_matches t h), fun _ => only_create rfl⟩
  | release h => exact ⟨some_name, answer .count (release_matches t h), fun _ => only_create rfl⟩
  | dropOwner h owner =>
    exact ⟨some_name, answer .report (dropOwner_matches t h owner), fun _ => only_create rfl⟩
  | sweep => exact ⟨some_name, answer .reports (sweep_matches t), fun _ => only_create rfl⟩
  | live => exact ⟨some_name, ⟨congrArg Reply.count live_matches, rfl, t⟩, fun _ => only_create rfl⟩

end LazyCast.Arena
