import LazyCast.Proofs.Ledger.Numbering
/-!
Pooling in the plain account. Merging handle by handle comes to one step: the open groups of the
handles, each once and in order of first occurrence, become one group.
-/
namespace LazyCast

theorem Group.instructions_foldl_join (g : Group) (numbered : Numbered g.instructions)
    (others : List Group) :
    (others.foldl Group.join g).instructions =
      renumber ((g :: others).flatMap Group.instructions) := by
  induction others using List.reverseRecOn with
  | nil => simp [renumber_of_numbered numbered]
  | append_singleton others l ih =>
    rw [List.foldl_append, List.foldl_cons, List.foldl_nil, Group.join, ih, renumber_append,
      List.flatMap_cons, List.flatMap_cons, List.flatMap_append]
    simp

namespace Groups
variable {gs : Groups} {g l k : Group} {h : Handle}

/-- Every group has its own handles, its name among them. -/
structure Apart (gs : Groups) : Prop where
  lead_mem : ∀ g ∈ gs, g.lead ∈ g.handles
  disjoint : ∀ g ∈ gs, ∀ k ∈ gs, ∀ h, h ∈ g.handles → h ∈ k.handles → g = k

theorem dissolve_cons_same {ks : Groups} (same : k.lead = g.lead) :
    dissolve (k :: ks) g = dissolve ks g :=
  List.filter_cons_of_neg (by simp [same])

theorem dissolve_cons_ne {ks : Groups} (ne : k.lead ≠ g.lead) :
    dissolve (k :: ks) g = k :: dissolve ks g :=
  List.filter_cons_of_pos (by simpa using ne)

theorem dissolve_congr (ks : Groups) (same : k.lead = g.lead) : dissolve ks k = dissolve ks g := by
  unfold dissolve
  rw [same]

theorem dissolve_comm (ks : Groups) (g k : Group) :
    dissolve (dissolve ks g) k = dissolve (dissolve ks k) g := by
  unfold dissolve
  rw [List.filter_filter, List.filter_filter]
  exact List.filter_congr fun _ _ => Bool.and_comm _ _

theorem dissolve_twice (ks : Groups) (g : Group) : dissolve (dissolve ks g) g = dissolve ks g := by
  unfold dissolve
  rw [List.filter_filter]
  exact List.filter_congr fun _ _ => Bool.and_self _

theorem dissolve_put_comm (gs : Groups) (g k : Group) :
    (gs.put g).dissolve k = (gs.dissolve k).put g := by
  unfold dissolve put
  rw [List.filter_map]
  congr 1
  refine List.filter_congr fun old _ => ?_
  by_cases here : old.lead = g.lead <;> simp [here]

theorem foldl_dissolve_put (gs : Groups) (g : Group) (ks : List Group) :
    ks.foldl dissolve (gs.put g) = (ks.foldl dissolve gs).put g := by
  induction ks generalizing gs with
  | nil => rfl
  | cons k ks ih => rw [List.foldl_cons, List.foldl_cons, dissolve_put_comm, ih]

theorem put_put (gs : Groups) (same : g.lead = k.lead) : (gs.put g).put k = gs.put k := by
  unfold put
  rw [List.map_map]
  refine List.map_congr_left fun old _ => ?_
  by_cases here : old.lead = k.lead <;> simp [here, same]

theorem lead_foldl_join (g : Group) (others : List Group) :
    (others.foldl Group.join g).lead = g.lead := by
  induction others generalizing g with
  | nil => rfl
  | cons l others ih => exact ih (g.join l)

theorem open?_spec (found : gs.open? h = some g) :
    g ∈ gs ∧ h ∈ g.handles ∧ g.state.isOpen = true := by
  unfold open? at found
  obtain ⟨found, isOpen⟩ := Option.filter_eq_some_iff.mp found
  unfold groupOf? at found
  have mem := List.mem_of_find?_eq_some found
  have inside := List.find?_some (p := fun g : Group => decide (h ∈ g.handles)) found
  exact ⟨mem, of_decide_eq_true inside, isOpen⟩

namespace Apart
variable (apart : gs.Apart)
include apart

theorem lead_injective (memg : g ∈ gs) (meml : l ∈ gs) (same : g.lead = l.lead) : g = l :=
  apart.disjoint g memg l meml g.lead (apart.lead_mem g memg) (same ▸ apart.lead_mem l meml)

theorem open?_of_mem (mem : g ∈ gs) (inside : h ∈ g.handles) (isOpen : g.state.isOpen = true) :
    gs.open? h = some g := by
  unfold open? groupOf?
  rw [Option.filter_eq_some_iff]
  refine ⟨?_, isOpen⟩
  cases found : gs.find? fun g => decide (h ∈ g.handles) with
  | none => exact absurd inside (by simpa using List.find?_eq_none.mp found g mem)
  | some l =>
    have mem' := List.mem_of_find?_eq_some found
    have inside' := List.find?_some (p := fun g : Group => decide (h ∈ g.handles)) found
    rw [apart.disjoint l mem' g mem h (of_decide_eq_true inside') inside]

theorem open?_lead (found : gs.open? h = some g) : gs.open? g.lead = some g := by
  obtain ⟨mem, _, isOpen⟩ := open?_spec found
  exact apart.open?_of_mem mem (apart.lead_mem g mem) isOpen

theorem put_self (mem : g ∈ gs) : gs.put g = gs := by
  unfold put
  refine (List.map_congr_left fun old mem' => ?_).trans (List.map_id gs)
  split
  · rename_i same
    exact (apart.lead_injective mem' mem same).symm
  · rfl

end Apart

theorem distinctOpen_cons (found : gs.open? h = some k) (rest : List Handle) :
    gs.distinctOpen (h :: rest) = k :: dissolve (gs.distinctOpen rest) k := by
  simp only [distinctOpen, found, dissolve]

def merged (gs : Groups) (g l : Group) : Groups := (gs.dissolve l).put (g.join l)

def afterMerge (g l k : Group) : Group :=
  if k.lead = g.lead ∨ k.lead = l.lead then g.join l else k

theorem mem_merged (memg : g ∈ gs) (ne : g.lead ≠ l.lead) :
    k ∈ gs.merged g l ↔ k = g.join l ∨ (k ∈ gs ∧ k.lead ≠ g.lead ∧ k.lead ≠ l.lead) := by
  unfold merged put dissolve
  rw [List.mem_map]
  constructor
  · rintro ⟨old, mem, same⟩
    change (if old.lead = g.lead then g.join l else old) = k at same
    obtain ⟨mem, other⟩ := List.mem_filter.mp mem
    by_cases here : old.lead = g.lead
    · rw [if_pos here] at same
      exact Or.inl same.symm
    · rw [if_neg here] at same
      subst same
      exact Or.inr ⟨mem, here, by simpa using other⟩
  · rintro (rfl | ⟨mem, other, other'⟩)
    · exact ⟨g, List.mem_filter.mpr ⟨memg, by simpa using ne⟩, if_pos rfl⟩
    · exact ⟨k, List.mem_filter.mpr ⟨mem, by simpa using other'⟩, if_neg other⟩

section Merged
variable (apart : gs.Apart) (memg : g ∈ gs) (meml : l ∈ gs) (ne : g.lead ≠ l.lead)
include apart memg meml ne

theorem apart_merged : (gs.merged g l).Apart := by
  have shares : ∀ k ∈ gs, k.lead ≠ g.lead → k.lead ≠ l.lead → ∀ h, h ∈ k.handles →
      h ∉ (g.join l).handles := by
    intro k mem other other' h inside joined
    rcases List.mem_append.mp joined with ing | inl
    · exact other (apart.disjoint k mem g memg h inside ing ▸ rfl)
    · exact other' (apart.disjoint k mem l meml h inside inl ▸ rfl)
  constructor
  · intro k mem
    rcases (mem_merged memg ne).mp mem with rfl | ⟨mem, _, _⟩
    · exact List.mem_append_left _ (apart.lead_mem g memg)
    · exact apart.lead_mem k mem
  · intro k mem k' mem' h inside inside'
    rcases (mem_merged memg ne).mp mem with rfl | ⟨mem, other, other'⟩
    · rcases (mem_merged memg ne).mp mem' with rfl | ⟨mem', other, other'⟩
      · rfl
      · exact absurd inside (shares k' mem' other other' h inside')
    · rcases (mem_merged memg ne).mp mem' with rfl | ⟨mem', _, _⟩
      · exact absurd inside' (shares k mem other other' h inside)
      · exact apart.disjoint k mem k' mem' h inside inside'

theorem open?_merged (found : gs.open? h = some k) :
    (gs.merged g l).open? h = some (afterMerge g l k) := by
  obtain ⟨mem, inside, isOpen⟩ := open?_spec found
  have apart' := apart_merged apart memg meml ne
  unfold afterMerge
  split
  · rename_i taken
    refine apart'.open?_of_mem ((mem_merged memg ne).mpr (Or.inl rfl)) ?_ rfl
    rcases taken with same | same
    · rw [apart.lead_injective mem memg same] at inside
      exact List.mem_append_left _ inside
    · rw [apart.lead_injective mem meml same] at inside
      exact List.mem_append_right _ inside
  · rename_i other
    rw [not_or] at other
    exact apart'.open?_of_mem
      ((mem_merged memg ne).mpr (Or.inr ⟨mem, other.1, other.2⟩)) inside isOpen

theorem distinctOpen_merged (values : List Handle) (opened : ∀ h ∈ values, gs.open? h ≠ none) :
    dissolve ((gs.merged g l).distinctOpen values) g =
      dissolve (dissolve (gs.distinctOpen values) l) g := by
  induction values with
  | nil => rfl
  | cons h rest ih =>
    obtain ⟨k, found⟩ := Option.ne_none_iff_exists'.mp (opened h (by simp))
    have ih := ih fun v mem => opened v (List.mem_cons_of_mem h mem)
    rw [distinctOpen_cons found, distinctOpen_cons (open?_merged apart memg meml ne found)]
    by_cases taken : k.lead = g.lead ∨ k.lead = l.lead
    · have lead : (g.join l).lead = g.lead := rfl
      rw [afterMerge, if_pos taken, dissolve_cons_same lead, dissolve_congr _ lead, dissolve_twice,
        ih]
      rcases taken with same | same
      · rw [dissolve_cons_ne (same ▸ ne), dissolve_cons_same same, dissolve_congr _ same,
          dissolve_comm _ g l, dissolve_twice]
      · rw [dissolve_cons_same same, dissolve_congr _ same, dissolve_twice]
    · rw [afterMerge, if_neg taken]
      rw [not_or] at taken
      rw [dissolve_cons_ne taken.1, dissolve_cons_ne taken.2, dissolve_cons_ne taken.1,
        dissolve_comm _ k g, ih, dissolve_comm _ k l, dissolve_comm _ k g]

omit apart memg meml in
theorem merge_eq_merged {v w : Handle} (foundg : gs.open? v = some g)
    (foundl : gs.open? w = some l) : gs.merge v w = (.ok g.lead, gs.merged g l) := by
  simp only [merge, foundg, foundl, if_neg ne, merged]

end Merged

theorem merge_cases (gs : Groups) (v w : Handle) :
    (∃ e, gs.merge v w = (.error e, gs)) ∨
    (∃ g l, gs.open? v = some g ∧ gs.open? w = some l ∧ g.lead = l.lead ∧
      gs.merge v w = (.ok g.lead, gs)) ∨
    ∃ g l, gs.open? v = some g ∧ gs.open? w = some l ∧ g.lead ≠ l.lead ∧
      gs.merge v w = (.ok g.lead, gs.merged g l) := by
  cases foundg : gs.open? v with
  | none => exact Or.inl ⟨.frozenLedger v.index, by simp only [merge, foundg]⟩
  | some g =>
    cases foundl : gs.open? w with
    | none => exact Or.inl ⟨.frozenLedger w.index, by simp only [merge, foundg, foundl]⟩
    | some l =>
      by_cases same : g.lead = l.lead
      · have kept : gs.merge v w = (.ok g.lead, gs) := by
          simp only [merge, foundg, foundl, if_pos same]
        exact Or.inr (Or.inl ⟨g, l, rfl, rfl, same, kept⟩)
      · exact Or.inr (Or.inr ⟨g, l, rfl, rfl, same, merge_eq_merged same foundg foundl⟩)

theorem merge_keeps {P : Groups → Prop} {v w : Handle} (kept : P gs)
    (joined : ∀ {g l}, gs.open? v = some g → gs.open? w = some l → g.lead ≠ l.lead →
      P (gs.merged g l)) : P (gs.merge v w).2 := by
  rcases gs.merge_cases v w with ⟨e, same⟩ | ⟨g, l, _, _, _, same⟩ |
    ⟨g, l, foundg, foundl, ne, made⟩
  · rwa [same]
  · rwa [same]
  · rw [made]
    exact joined foundg foundl ne

theorem Apart.merge (apart : gs.Apart) (v w : Handle) : (gs.merge v w).2.Apart :=
  merge_keeps apart fun foundg foundl ne =>
    apart_merged apart (open?_spec foundg).1 (open?_spec foundl).1 ne

theorem mergeAll_pools (apart : gs.Apart) (found : gs.open? g.lead = some g) (rest : List Handle)
    (opened : ∀ h ∈ rest, gs.open? h ≠ none) :
    gs.mergeAll g.lead rest = (.ok g.lead,
      ((dissolve (gs.distinctOpen rest) g).foldl dissolve gs).put
        ((dissolve (gs.distinctOpen rest) g).foldl Group.join g)) := by
  induction rest generalizing gs g with
  | nil => exact congrArg (Prod.mk _) (apart.put_self (open?_spec found).1).symm
  | cons next rest ih =>
    obtain ⟨l, foundl⟩ := Option.ne_none_iff_exists'.mp (opened next (by simp))
    have opened := fun v mem => opened v (List.mem_cons_of_mem next mem)
    have memg := (open?_spec found).1
    have meml := (open?_spec foundl).1
    rw [mergeAll, distinctOpen_cons foundl]
    -- A handle of a group taken up before changes nothing; it was counted at its first occurrence.
    by_cases same : g.lead = l.lead
    · have merge : gs.merge g.lead next = (.ok g.lead, gs) := by
        simp only [Groups.merge, found, foundl, if_pos same]
      rw [merge, Outcome.andThen_ok, ih apart found opened, dissolve_cons_same same.symm,
        dissolve_congr _ same.symm, dissolve_twice]
    · have found' : (gs.merged g l).open? (g.join l).lead = some (g.join l) := by
        have found' := open?_merged apart memg meml same found
        rwa [afterMerge, if_pos (Or.inl rfl)] at found'
      have opened' : ∀ v ∈ rest, (gs.merged g l).open? v ≠ none := by
        intro v mem
        obtain ⟨k, foundv⟩ := Option.ne_none_iff_exists'.mp (opened v mem)
        simp [open?_merged apart memg meml same foundv]
      have step := ih (apart_merged apart memg meml same) found' opened'
      have lead : (g.join l).lead = g.lead := rfl
      rw [dissolve_congr _ lead, distinctOpen_merged apart memg meml same rest opened, lead] at step
      rw [merge_eq_merged same found foundl, Outcome.andThen_ok, step,
        dissolve_cons_ne (Ne.symm same), List.foldl_cons, List.foldl_cons, merged,
        foldl_dissolve_put, put_put]
      rw [lead_foldl_join, lead]

theorem interact_pools (apart : gs.Apart) {values : List Handle} (two : 2 ≤ values.length)
    (opened : ∀ h ∈ values, gs.open? h ≠ none) :
    ∃ g others, gs.distinctOpen values = g :: others ∧ gs.interact values false =
      (.ok (some g.lead), (others.foldl dissolve gs).put (others.foldl Group.join g)) := by
  match values with
  | first :: second :: rest =>
    obtain ⟨g, found⟩ := Option.ne_none_iff_exists'.mp (opened first (by simp))
    have named : gs.mergeAll first (second :: rest) = gs.mergeAll g.lead (second :: rest) := by
      obtain ⟨l, foundl⟩ := Option.ne_none_iff_exists'.mp (opened second (by simp))
      simp only [mergeAll, merge, found, apart.open?_lead found, foundl]
    refine ⟨g, _, distinctOpen_cons found (second :: rest), ?_⟩
    rw [interact, if_neg (by simp), named, mergeAll_pools apart (apart.open?_lead found) _
      fun v mem => opened v (List.mem_cons_of_mem first mem)]
    rfl

end Groups
end LazyCast
