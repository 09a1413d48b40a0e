import LazyCast.Proofs.Ledger.Sight
/-!
Pooling that meets a spent handle. It stops there, and what was pooled before stays pooled: handles
see what they would after pooling the ones in front, which is no change just where those shared a
ledger from the start.
-/
namespace LazyCast

namespace Groups
variable {gs after : Groups} {g l : Group} {h k : Handle}

theorem Onward.open?_eq_none (onward : gs.Onward after) (closed : gs.open? h = none) :
    after.open? h = none := by
  cases found : gs.groupOf? h with
  | none => rw [open?, onward.spent h found, Option.filter_none]
  | some g =>
    rw [open?, found, Option.filter_eq_none_iff] at closed
    have frozen : g.state.isOpen = false := by simpa using closed
    rw [open?, onward.frozen h g found frozen, Option.filter_some_neg (by simp [frozen])]

structure Pooled (gs : Groups) (values : List Handle) (lead : Handle) (after : Groups) : Prop where
  apart : after.Apart
  onward : gs.Onward after
  opened : ∀ h, gs.open? h ≠ none → after.open? h ≠ none
  shared : ∃ m, after.open? lead = some m ∧ ∀ h ∈ values, after.groupOf? h = some m

theorem merge_pooled (apart : gs.Apart) (foundg : gs.open? h = some g)
    (foundl : gs.open? k = some l) :
    ∃ after, gs.merge h k = (.ok g.lead, after) ∧ Pooled gs [h, k] g.lead after ∧
      (g = l → after = gs) := by
  obtain ⟨memg, ing, openg⟩ := open?_spec foundg
  obtain ⟨meml, inl, openl⟩ := open?_spec foundl
  by_cases same : g.lead = l.lead
  · have here := apart.lead_injective memg meml same
    refine ⟨gs, by simp only [merge, foundg, foundl, if_pos same],
      ⟨apart, .refl gs, fun _ found => found, g, apart.open?_lead foundg, ?_⟩, fun _ => rfl⟩
    simp only [List.mem_cons, List.not_mem_nil, or_false, forall_eq_or_imp, forall_eq]
    exact ⟨apart.groupOf?_of_mem memg ing, apart.groupOf?_of_mem memg (here ▸ inl)⟩
  · have apart' := apart_merged apart memg meml same
    have joined : g.join l ∈ gs.merged g l := (mem_merged memg same).mpr (Or.inl rfl)
    refine ⟨gs.merged g l, merge_eq_merged same foundg foundl,
      ⟨apart', onward_merged apart memg meml same openg openl, fun v found => ?_, g.join l, ?_, ?_⟩,
      fun here => absurd (congrArg Group.lead here) same⟩
    · obtain ⟨m, found⟩ := Option.ne_none_iff_exists'.mp found
      rw [open?_merged apart memg meml same found]
      exact Option.some_ne_none _
    · exact apart'.open?_of_mem joined (apart'.lead_mem _ joined) rfl
    · simp only [List.mem_cons, List.not_mem_nil, or_false, forall_eq_or_imp, forall_eq]
      exact ⟨apart'.groupOf?_of_mem joined (List.mem_append_left _ ing),
        apart'.groupOf?_of_mem joined (List.mem_append_right _ inl)⟩

theorem mergeAll_pooled (apart : gs.Apart) (found : gs.open? h = some g) (rest : List Handle)
    (opened : ∀ k ∈ rest, gs.open? k ≠ none) :
    ∃ lead after, gs.mergeAll h rest = (.ok lead, after) ∧ Pooled gs (h :: rest) lead after ∧
      ((∀ k ∈ rest, gs.open? k = some g) → after = gs) := by
  induction rest generalizing gs h g with
  | nil =>
    obtain ⟨mem, inside, _⟩ := open?_spec found
    refine ⟨h, gs, rfl, ⟨apart, .refl gs, fun _ found => found, g, found, ?_⟩, fun _ => rfl⟩
    simpa using apart.groupOf?_of_mem mem inside
  | cons next rest ih =>
    obtain ⟨l, foundl⟩ := Option.ne_none_iff_exists'.mp (opened next List.mem_cons_self)
    obtain ⟨middle, merged, first, unchanged⟩ := merge_pooled apart found foundl
    obtain ⟨m, foundm, shared⟩ := first.shared
    obtain ⟨lead, after, pooled, second, unchanged'⟩ := ih first.apart foundm fun k mem =>
      first.opened k (opened k (List.mem_cons_of_mem next mem))
    obtain ⟨m', foundm', shared'⟩ := second.shared
    have lead_mem := first.apart.groupOf?_of_mem (open?_spec foundm).1 (open?_spec foundm).2.1
    refine ⟨lead, after, by rw [mergeAll, merged, Outcome.andThen_ok, pooled],
      ⟨second.apart, first.onward.trans second.onward,
        fun v found => second.opened v (first.opened v found), m', foundm', fun v mem => ?_⟩,
      fun all => ?_⟩
    · have along : middle.groupOf? v = some m → after.groupOf? v = some m' := fun at_m =>
        (second.onward.together v g.lead (at_m.trans lead_mem.symm)).trans
          (shared' g.lead List.mem_cons_self)
      rcases List.mem_cons.mp mem with rfl | mem
      · exact along (shared v (by simp))
      · rcases List.mem_cons.mp mem with rfl | mem
        · exact along (shared v (by simp))
        · exact shared' v (List.mem_cons_of_mem _ mem)
    · have here : g = l := by
        rw [all next List.mem_cons_self, Option.some.injEq] at foundl
        exact foundl
      have same := unchanged here
      subst same
      rw [apart.open?_lead found, Option.some.injEq] at foundm
      subst foundm
      exact unchanged' fun k mem => all k (List.mem_cons_of_mem next mem)

theorem mergeAll_append (gs : Groups) (h : Handle) (front rest : List Handle) :
    gs.mergeAll h (front ++ rest) =
      (gs.mergeAll h front).andThen fun h gs => gs.mergeAll h rest := by
  induction front generalizing gs h with
  | nil => rfl
  | cons next front ih =>
    rw [List.cons_append, mergeAll, mergeAll, Outcome.andThen_assoc]
    exact congrArg _ (funext fun h => funext fun gs => ih gs h)

theorem merge_closed (found : gs.open? h = some g) (closed : gs.open? k = none) :
    gs.merge h k = (.error (.frozenLedger k.index), gs) := by
  simp only [merge, found, closed]

theorem interact_cons (gs : Groups) (first : Handle) (more : List Handle) :
    (gs.interact (first :: more) false).2 = (gs.mergeAll first more).2 := by
  cases more <;> rfl

theorem interact_stops (apart : gs.Apart) {values : List Handle} {independent : Bool} {e : Fault}
    (failed : (gs.interact values independent).1 = .error e) :
    ∃ front bad rest, values = front ++ bad :: rest ∧ independent = false ∧
      (∀ h ∈ front, gs.open? h ≠ none) ∧ gs.open? bad = none ∧ e = .frozenLedger bad.index ∧
      (gs.interact values independent).2 = (gs.interact front false).2 := by
  match values with
  | [] => cases failed
  | [_] => cases failed
  | first :: second :: tail =>
    cases independent with
    | true => cases failed
    | false =>
      cases stop : (first :: second :: tail).find? fun h => (gs.open? h).isNone with
      | none =>
        have two : 2 ≤ (first :: second :: tail).length := by simp
        obtain ⟨_, _, _, pooled⟩ := interact_pools apart two fun h mem => by
          simpa using List.find?_eq_none.mp stop h mem
        rw [pooled] at failed
        cases failed
      | some bad =>
        obtain ⟨closed, front, rest, split, opened⟩ := List.find?_eq_some_iff_append.mp stop
        have closed : gs.open? bad = none := by simpa using closed
        have opened : ∀ h ∈ front, gs.open? h ≠ none := fun h mem => by
          simpa [Option.isSome_iff_ne_none] using opened h mem
        refine ⟨front, bad, rest, split, rfl, opened, closed, ?_⟩
        have stops : gs.mergeAll first (second :: tail) =
            (.error (.frozenLedger bad.index), (gs.interact front false).2) := by
          cases front with
          | nil =>
            cases split
            simp only [mergeAll, merge, closed, Outcome.andThen_error, interact]
          | cons first' more =>
            obtain ⟨rfl, behind⟩ := List.cons.inj split
            obtain ⟨g, found⟩ := Option.ne_none_iff_exists'.mp (opened first List.mem_cons_self)
            obtain ⟨lead, after, pooled, made, _⟩ := mergeAll_pooled apart found more fun k mem =>
              opened k (List.mem_cons_of_mem first mem)
            obtain ⟨m, foundm, _⟩ := made.shared
            have behind : second :: tail = more ++ bad :: rest := behind
            rw [behind, mergeAll_append, interact_cons, pooled, Outcome.andThen_ok, mergeAll,
              merge_closed foundm (made.onward.open?_eq_none closed), Outcome.andThen_error]
        simp only [interact, Bool.false_eq_true, if_false, stops, Outcome.map, Except.map] at failed ⊢
        cases failed
        exact ⟨rfl, trivial⟩

end Groups

namespace Arena
variable {a : Arena}

theorem Tidy.isOpen_iff (t : a.Tidy) {h : Handle} :
    (a.state h).isOpen = true ↔ a.groups.open? h ≠ none := by
  have spent := t.isSpent_eq h
  cases found : a.groups.open? h with
  | none => simp_all [isSpent]
  | some g => simp_all [isSpent]

/-- Pooling stops at a spent handle behind open ones. Handles see what they see after pooling the
    open ones alone, which is what they saw before just where those share a ledger. -/
structure Stops (a after : Arena) (how : Interaction) (values front : List Handle) (bad : Handle) :
    Prop where
  split : ∃ rest, values = front ++ bad :: rest
  opened : ∀ h ∈ front, (a.state h).isOpen = true
  closed : a.isSpent bad = true
  sight : SameSight (a.interact how front false).2 after
  unchanged : SameSight a after ↔ ∀ h ∈ front, ∀ k ∈ front, a.sameLedger h k = true

/-- Pooling fails only at the first spent handle, and leaves everything as it was just where the
    ones in front of it shared a ledger already. -/
theorem interact_fails (commands : List Command) (how : Interaction) (values : List Handle)
    (independent : Bool) (e : Fault)
    (failed : ((empty.run commands).2.interact how values independent).1 = .error e) :
    ∃ front bad, e = .frozenLedger bad.index ∧ independent = false ∧
      Stops (empty.run commands).2
        ((empty.run commands).2.interact how values independent).2 how values front bad := by
  have t := tidy_empty.run commands
  generalize (empty.run commands).2 = a at t failed
  have m := interact_matches t how values independent
  rw [m.answer] at failed
  obtain ⟨front, bad, rest, split, dependent, opened, closed, fault, left⟩ :=
    Groups.interact_stops t.apart failed
  have m' := interact_matches t how front false
  have same := sameSight_of_groups m'.tidy m.tidy (m.groups.trans (left.trans m'.groups.symm))
  refine ⟨front, bad, fault, dependent, ⟨rest, split⟩, fun h mem => t.isOpen_iff.mpr (opened h mem),
    by rw [t.isSpent_eq, closed, Option.isNone_none], same, ?_⟩
  have groups := m.groups.trans left
  cases front with
  | nil => exact ⟨fun _ _ mem => absurd mem List.not_mem_nil,
      fun _ => sameSight_of_groups t m.tidy groups⟩
  | cons first more =>
    obtain ⟨g, found⟩ := Option.ne_none_iff_exists'.mp (opened first List.mem_cons_self)
    obtain ⟨lead, after, pooled, made, unchanged⟩ := Groups.mergeAll_pooled t.apart found more
      fun k mem => opened k (List.mem_cons_of_mem first mem)
    rw [Groups.interact_cons, pooled] at groups
    have groups : (a.interact how values independent).2.groups = after := groups
    constructor
    · intro sight h memh k memk
      obtain ⟨m', _, shared⟩ := made.shared
      rw [← groups] at shared
      rw [← sight.sameLedger, m.tidy.sameLedger_iff]
      exact ⟨m', shared h memh, shared k memk⟩
    · intro shared
      refine sameSight_of_groups t m.tidy (groups.trans (unchanged fun k mem => ?_))
      obtain ⟨l, at_first, at_k⟩ := t.sameLedger_iff.mp
        (shared first List.mem_cons_self k (List.mem_cons_of_mem first mem))
      rw [← found, Groups.open?, Groups.open?, at_first, at_k]

def oneTriggered : List Command := [.create 1, .create 2, .create 3, .trigger ⟨2, 0⟩]

theorem oneTriggered_fails :
    ((empty.run oneTriggered).2.interact .call [⟨0, 0⟩, ⟨1, 0⟩, ⟨2, 0⟩] false).1 =
        .error (.frozenLedger 2) ∧
      ∃ front bad, Fault.frozenLedger 2 = .frozenLedger bad.index ∧ false = false ∧
        Stops (empty.run oneTriggered).2
          ((empty.run oneTriggered).2.interact .call [⟨0, 0⟩, ⟨1, 0⟩, ⟨2, 0⟩] false).2
          .call [⟨0, 0⟩, ⟨1, 0⟩, ⟨2, 0⟩] front bad :=
  ⟨rfl, interact_fails oneTriggered .call [⟨0, 0⟩, ⟨1, 0⟩, ⟨2, 0⟩] false (.frozenLedger 2) rfl⟩

/-- Pooling two open ledgers with a triggered one fails, and yet the two are one from then on. -/
theorem oneTriggered_pooled :
    ((empty.run oneTriggered).2.interact .call [⟨0, 0⟩, ⟨1, 0⟩, ⟨2, 0⟩] false).1 =
        .error (.frozenLedger 2) ∧
      (empty.run oneTriggered).2.sameLedger ⟨0, 0⟩ ⟨1, 0⟩ = false ∧
      ((empty.run oneTriggered).2.interact .call
        [⟨0, 0⟩, ⟨1, 0⟩, ⟨2, 0⟩] false).2.sameLedger ⟨0, 0⟩ ⟨1, 0⟩ = true ∧
      ¬ ∀ commands how values independent e,
        ((empty.run commands).2.interact how values independent).1 = .error e →
        SameSight (empty.run commands).2
          ((empty.run commands).2.interact how values independent).2 := by
  refine ⟨rfl, by decide, by decide, fun unchanged => ?_⟩
  have sight := unchanged oneTriggered .call [⟨0, 0⟩, ⟨1, 0⟩, ⟨2, 0⟩] false _ rfl
  exact absurd (sight.sameLedger ⟨0, 0⟩ ⟨1, 0⟩) (by decide)

end Arena
end LazyCast
