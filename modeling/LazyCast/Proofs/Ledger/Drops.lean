import LazyCast.Proofs.Ledger.Operations
/-!
Owners that leave and ledgers that are swept: both end a group in one step, and a sweep goes on
until no group is open.
-/
namespace LazyCast.Groups

theorem dissolve_put (gs : Groups) {g k : Group} (same : k.lead = g.lead) :
    (gs.put k).dissolve k = gs.dissolve g := by
  unfold dissolve put
  rw [List.filter_map, same]
  have kept : ∀ old ∈ gs.filter ((fun old => decide (old.lead ≠ g.lead)) ∘ fun old =>
      if old.lead = g.lead then k else old), (if old.lead = g.lead then k else old) = old := by
    intro old mem
    have ne := (List.mem_filter.mp mem).2
    by_cases here : old.lead = g.lead
    · simp [here, same] at ne
    · exact if_neg here
  rw [List.map_congr_left kept, List.map_id']
  refine List.filter_congr fun old _ => ?_
  by_cases here : old.lead = g.lead <;> simp [here, same]

theorem foldl_dissolve (gs ks : Groups) :
    ks.foldl dissolve gs = gs.filter fun g => ks.all fun k => decide (g.lead ≠ k.lead) := by
  induction ks generalizing gs with
  | nil => simp
  | cons k ks ih =>
    rw [List.foldl_cons, ih, dissolve, List.filter_filter]
    simp only [List.all_cons, Bool.and_comm]

end LazyCast.Groups

namespace LazyCast.Arena
variable {a b : Arena} {root : Nat → Option Nat} {depth : Nat → Nat}

def strike (l : Ledger) (owner : ValueId) : Ledger := { l with owners := l.owners.erase owner }

section Strike
variable (c : Charted a root depth) {r : Nat} {l : Ledger}
  (entry : a.entryAt? r = some (.live l)) (owner : ValueId) (s : a.Sound)
include c entry

theorem strike_charted :
    (a.setEntry r (.live (strike l owner))).entryAt? r = some (.live (strike l owner)) ∧
      Charted (a.setEntry r (.live (strike l owner))) root depth ∧
      (a.setEntry r (.live (strike l owner))).groups =
        a.groups.put { a.liveGroup r l with owners := l.owners.erase owner } := by
  have entry' : (a.setEntry r (.live (strike l owner))).entryAt? r = some (.live (strike l owner)) :=
    entryAt?_setEntry_self entry _
  refine ⟨entry', c.replace (members?_of_live entry) rfl, ?_⟩
  refine groups_setEntry (members?_of_live entry) ?_
  rw [groupAt?_of_live entry', liveGroup_setEntry]
  rfl

include s

theorem strike_last :
    Matches ((a.setEntry r (.live (strike l owner))).discard r [owner])
      (some (.unusedValues [owner] l.instructions.length),
        a.groups.dissolve (a.liveGroup r l)) := by
  obtain ⟨entry', charted, groups⟩ := strike_charted c entry owner
  have self : r ∈ l.members :=
    (c.mem_members (members?_of_live entry) r).mpr (c.at_root (members?_of_live entry))
  simp only [discard, ledgerAt?_eq_some.mpr entry']
  refine ⟨rfl, ?_, ⟨_, _, charted.free (members?_of_live entry')⟩, ?_⟩
  · dsimp only
    rw [groups_free charted (members?_of_live entry') (groupAt?_of_live entry'), groups,
      liveGroup_setEntry]
    exact Groups.dissolve_put _ rfl
  · refine sound_freeSlots fun {i x} out e => ?_
    have ne : r ≠ i := fun same => out (same ▸ self)
    rw [entryAt?_setEntry_of_ne a ne] at e
    exact s e

theorem strike_kept (some : (l.owners.erase owner).isEmpty = false) :
    Matches ((none : Option Diagnostic), a.setEntry r (.live (strike l owner)))
      (none, a.groups.put { a.liveGroup r l with owners := l.owners.erase owner }) := by
  obtain ⟨_, charted, groups⟩ := strike_charted c entry owner
  refine ⟨rfl, groups, ⟨_, _, charted⟩, sound_setEntry s fun x same => ?_⟩
  cases same
  exact ⟨some, (s entry).numbered, (s entry).kinds_exact⟩

end Strike

theorem dropOwner_matches (t : a.Tidy) (h : Handle) (owner : ValueId) :
    Matches (a.dropOwner h owner) (a.groups.dropOwner h owner) := by
  obtain ⟨⟨root, depth, c⟩, s⟩ := t
  unfold dropOwner Groups.dropOwner
  cases c.found h with
  | triggered r ms lookup _ _ group =>
    simp only [lookup, open?_of_triggered group]
    exact ⟨rfl, rfl, ⟨root, depth, c⟩, s⟩
  | gone lookup _ group =>
    simp only [lookup, open?_of_gone group]
    exact ⟨rfl, rfl, ⟨root, depth, c⟩, s⟩
  | live r l lookup _ entry group =>
    simp only [lookup, ledgerAt?_eq_some.mpr entry, open?_of_live group]
    cases last : (l.owners.erase owner).isEmpty with
    | true =>
      have last' : ((a.liveGroup r l).owners.erase owner).isEmpty = true := last
      simp only [last', if_true]
      exact strike_last c entry owner s
    | false =>
      have last' : ((a.liveGroup r l).owners.erase owner).isEmpty = false := last
      simp only [last', Bool.false_eq_true, if_false]
      exact strike_kept c entry owner s last

theorem mem_liveRoots {r : Nat} : r ∈ a.liveRoots ↔ ∃ l, a.entryAt? r = some (.live l) := by
  rw [liveRoots, List.mem_filter, List.mem_range, Option.isSome_iff_exists]
  simp only [ledgerAt?_eq_some]
  exact ⟨fun h => h.2, fun ⟨l, e⟩ => ⟨entry_below e, l, e⟩⟩

theorem openGroups_eq : (a.groups.filter fun g => g.state.isOpen) =
    a.liveRoots.filterMap a.groupAt? := by
  rw [groups, liveRoots, List.filter_filterMap, List.filterMap_filter]
  congr 1
  funext i
  cases e : a.entryAt? i with
  | none => simp [ledgerAt?, groupAt?, e]
  | some x =>
    cases x with
    | live l => simp [ledgerAt?, groupAt?, e, liveGroup, Option.filter_some, l.isOpen_state]
    | triggered ms =>
      simp [ledgerAt?, groupAt?, e, spentGroup, Option.filter_some, LedgerState.isOpen]
    | forward parent => simp [ledgerAt?, groupAt?, e]
    | vacant => simp [ledgerAt?, groupAt?, e]

theorem live_matches : a.live = a.groups.live := by
  rw [live, Groups.live, openGroups_eq, List.length_filterMap_eq_countP, List.countP_eq_length.mpr]
  intro r mem
  obtain ⟨l, e⟩ := mem_liveRoots.mp mem
  rw [groupAt?_of_live e]
  rfl

theorem sweep_roots (c : Charted a root depth) (s : a.Sound) (done : List Diagnostic)
    {roots : List Nat} (nodup : roots.Nodup)
    (live : ∀ r ∈ roots, ∃ l, a.entryAt? r = some (.live l)) :
    Matches (roots.foldl sweepStep (done, a))
      (done ++ (roots.filterMap a.groupAt?).map Group.report,
        (roots.filterMap a.groupAt?).foldl Groups.dissolve a.groups) := by
  induction roots generalizing a root done with
  | nil => exact ⟨by simp, rfl, ⟨root, depth, c⟩, s⟩
  | cons r rest ih =>
    obtain ⟨l, e⟩ := live r (by simp)
    obtain ⟨absent, nodup⟩ := List.nodup_cons.mp nodup
    have found := members?_of_live e
    have apart : ∀ r' ∈ rest, r' ∉ l.members := by
      intro r' mem inside
      obtain ⟨l', e'⟩ := live r' (List.mem_cons_of_mem r mem)
      rw [c.mem_members found, c.at_root (members?_of_live e')] at inside
      cases inside
      exact absent mem
    have kept : rest.filterMap (a.freeSlots l.members).groupAt? = rest.filterMap a.groupAt? := by
      refine List.filterMap_congr fun r' mem => groupAt?_free c found ?_
      intro same
      exact absent (same ▸ mem)
    have step : sweepStep (done, a) r =
        (done ++ [Group.report (a.liveGroup r l)], a.freeSlots l.members) := by
      simp only [sweepStep, discard, ledgerAt?_eq_some.mpr e, Option.toList_some]
      rfl
    have m := ih (c.free found) (sound_freeSlots fun _ e => s e)
      (done ++ [Group.report (a.liveGroup r l)]) nodup fun r' mem => by
        rw [entryAt?_freeSlots, if_neg (apart r' mem)]
        exact live r' (List.mem_cons_of_mem r mem)
    rw [List.foldl_cons, step, List.filterMap_cons, groupAt?_of_live e]
    rw [kept, groups_free c found (groupAt?_of_live e)] at m
    simpa using m

theorem sweep_matches (t : a.Tidy) : Matches a.sweep a.groups.sweep := by
  obtain ⟨⟨root, depth, c⟩, s⟩ := t
  have m := sweep_roots c s [] (List.nodup_range.filter _) fun r mem => mem_liveRoots.mp mem
  have left : a.groups.filter (fun g => !g.state.isOpen) =
      (a.groups.filter fun g => g.state.isOpen).foldl Groups.dissolve a.groups := by
    rw [Groups.foldl_dissolve]
    refine List.filter_congr fun g mem => ?_
    rw [Bool.eq_iff_iff, Bool.not_eq_true', List.all_eq_true]
    constructor
    · intro shut k open_k
      obtain ⟨inside, is_open⟩ := List.mem_filter.mp open_k
      rw [decide_eq_true_eq]
      intro same
      obtain ⟨i, at_i⟩ := mem_groups.mp mem
      obtain ⟨j, at_j⟩ := mem_groups.mp inside
      rw [(groupAt?_eq_some at_j).1, lead_eq_iff at_i] at same
      subst same
      rw [at_i] at at_j
      cases at_j
      rw [shut] at is_open
      cases is_open
    · intro apart
      cases is_open : g.state.isOpen with
      | false => rfl
      | true =>
        have self := apart g (List.mem_filter.mpr ⟨mem, is_open⟩)
        simp at self
  rw [sweep, Groups.sweep, left, openGroups_eq]
  exact m

end LazyCast.Arena
