import LazyCast.Proofs.Ledger.Regroup
/-!
What searches answer on a charted arena, and what they leave behind: a look-up ends at the root of
its handle, and path compression changes nothing but forwarding entries.
-/
namespace LazyCast.Arena
variable {a b : Arena} {root : Nat → Option Nat} {depth : Nat → Nat}

def home (a : Arena) (root : Nat → Option Nat) (h : Handle) : Option Nat :=
  if a.generation? h.index = some h.generation then root h.index else none

structure Repointed (a b : Arena) : Prop where
  entry : ∀ {e}, (∀ parent, e ≠ .forward parent) → ∀ i,
    (b.entryAt? i = some e ↔ a.entryAt? i = some e)
  generation : ∀ i, b.generation? i = a.generation? i
  length : b.slots.length = a.slots.length
  free : b.free = a.free

theorem Repointed.refl (a : Arena) : Repointed a a :=
  ⟨fun _ _ => Iff.rfl, fun _ => rfl, rfl, rfl⟩

theorem Repointed.trans {d : Arena} (p : Repointed a b) (q : Repointed b d) : Repointed a d :=
  ⟨fun ne i => (q.entry ne i).trans (p.entry ne i), fun i => (q.generation i).trans (p.generation i),
    q.length.trans p.length, q.free.trans p.free⟩

theorem Repointed.live (p : Repointed a b) {i : Nat} {l : Ledger} :
    b.entryAt? i = some (.live l) ↔ a.entryAt? i = some (.live l) :=
  p.entry (by simp) i

theorem repointed_setEntry {i parent r : Nat} (e : a.entryAt? i = some (.forward parent)) :
    Repointed a (a.setEntry i (.forward r)) where
  entry := by
    intro x ne j
    by_cases here : i = j
    · subst here
      rw [entryAt?_setEntry_self e, e]
      constructor <;> intro h <;> cases h <;> exact absurd rfl (ne _)
    · rw [entryAt?_setEntry_of_ne a here]
  generation j := generation?_setEntry a i j _
  length := length_setEntry a i _
  free := rfl

/-- The search for a root as a loop without a bound on its rounds. -/
inductive Walks (a : Arena) : Nat → Lookup → Prop where
  | forward {i parent : Nat} {answer : Lookup} (entry : a.entryAt? i = some (.forward parent))
      (rest : Walks a parent answer) : Walks a i answer
  | live {i : Nat} {l : Ledger} (entry : a.entryAt? i = some (.live l)) : Walks a i (.live i)
  | triggered {i : Nat} {ms : List Nat} (entry : a.entryAt? i = some (.triggered ms)) :
      Walks a i (.triggered i)
  | vacant {i : Nat} (entry : a.entryAt? i = some .vacant) : Walks a i .gone
  | beyond {i : Nat} (entry : a.entryAt? i = none) : Walks a i .gone

/-- Path compression as a loop without a bound on its rounds, up to the root. -/
inductive Compresses (r : Nat) : Nat → Arena → Arena → Prop where
  | done (a : Arena) : Compresses r r a a
  | next {i parent : Nat} {a b : Arena} (ne : i ≠ r) (entry : a.entryAt? i = some (.forward parent))
      (rest : Compresses r parent (a.setEntry i (.forward r)) b) : Compresses r i a b

theorem walks_of_forwards {n i r : Nat} {ms : List Nat} (f : Forwards a n i r)
    (found : a.members? r = some ms) : Walks a i (a.lookupAt r) := by
  induction f with
  | stay i =>
    rcases members?_eq_some.mp found with ⟨l, e, _⟩ | e
    · simp only [lookupAt, e]
      exact .live e
    · simp only [lookupAt, e]
      exact .triggered e
  | next e rest ih => exact .forward e (ih found)

namespace Charted

theorem walk_eq (c : Charted a root depth) {fuel i : Nat} (enough : a.slots.length ≤ fuel) :
    a.walk fuel i = match root i with
      | some r => a.lookupAt r
      | none => .gone := by
  cases h : root i with
  | some r =>
    obtain ⟨⟨ms, found⟩, n, f⟩ := c.root_reached h
    have := c.path_length f (c.root_self h)
    exact walk_of_forwards f found (by omega)
  | none =>
    cases fuel with
    | zero => rfl
    | succ fuel =>
      simp only [walk]
      cases e : a.entryAt? i with
      | none => rfl
      | some x =>
        cases x with
        | vacant => rfl
        | forward parent =>
          obtain ⟨same, some, _⟩ := c.at_forward e
          exact absurd (same.symm.trans h) some
        | live l =>
          rw [c.at_root (members?_of_live e)] at h
          cases h
        | triggered ms =>
          rw [c.at_root (members?_of_triggered e)] at h
          cases h

theorem lookup_eq (c : Charted a root depth) (h : Handle) :
    a.lookup h = match a.home root h with
      | some r => a.lookupAt r
      | none => .gone := by
  unfold lookup home generation?
  cases s : a.slots[h.index]? with
  | none => simp
  | some slot =>
    by_cases same : slot.generation = h.generation
    · simp only [same, if_true, Option.map_some]
      exact c.walk_eq (Nat.le_refl _)
    · simp [same]

theorem lookup_live (c : Charted a root depth) {h : Handle} {r : Nat} :
    a.lookup h = .live r ↔ a.home root h = some r ∧ ∃ l, a.entryAt? r = some (.live l) := by
  rw [c.lookup_eq]
  cases a.home root h with
  | none => simp
  | some s =>
    simp only [lookupAt, Option.some.injEq]
    split
    · rename_i l e
      simp only [Lookup.live.injEq]
      exact ⟨fun same => ⟨same, l, same ▸ e⟩, fun same => same.1⟩
    · rename_i ms e
      simp only [reduceCtorEq, false_iff, not_and]
      rintro rfl ⟨l, live⟩
      simp [e] at live
    · rename_i none _
      simp only [reduceCtorEq, false_iff, not_and]
      rintro rfl ⟨l, live⟩
      exact none l live

theorem lookup_triggered (c : Charted a root depth) {h : Handle} {r : Nat} :
    a.lookup h = .triggered r ↔
      a.home root h = some r ∧ ∃ ms, a.entryAt? r = some (.triggered ms) := by
  rw [c.lookup_eq]
  cases a.home root h with
  | none => simp
  | some s =>
    simp only [lookupAt, Option.some.injEq]
    split
    · rename_i l e
      simp only [reduceCtorEq, false_iff, not_and]
      rintro rfl ⟨ms, triggered⟩
      simp [e] at triggered
    · rename_i ms e
      simp only [Lookup.triggered.injEq]
      exact ⟨fun same => ⟨same, ms, same ▸ e⟩, fun same => same.1⟩
    · rename_i none
      simp only [reduceCtorEq, false_iff, not_and]
      rintro rfl ⟨ms, triggered⟩
      exact none ms triggered

theorem compress_repointed (c : Charted a root depth) {r : Nat} (fuel i : Nat)
    (h : root i = some r) :
    Charted (compress r fuel i a) root depth ∧ Repointed a (compress r fuel i a) := by
  induction fuel generalizing a i with
  | zero => exact ⟨c, .refl a⟩
  | succ fuel ih =>
    simp only [compress]
    split
    · exact ⟨c, .refl a⟩
    · split
      · rename_i parent e
        have rooted : root parent = some r := (c.at_forward e).1 ▸ h
        -- The chart does not see the step, so the induction goes on from the repointed arena.
        obtain ⟨charted, more⟩ := ih (c.repoint e h) parent rooted
        exact ⟨charted, (repointed_setEntry e).trans more⟩
      · exact ⟨c, .refl a⟩

theorem openRoot_of_live (c : Charted a root depth) {h : Handle} {r : Nat}
    (found : a.lookup h = .live r) :
    ∃ b, a.openRoot h = (.ok r, b) ∧ Charted b root depth ∧ Repointed a b := by
  have at_home := (c.lookup_live.mp found).1
  unfold home at at_home
  split at at_home
  · obtain ⟨charted, same⟩ := c.compress_repointed a.slots.length h.index at_home
    exact ⟨_, by simp [openRoot, found], charted, same⟩
  · cases at_home

theorem forwards_setEntry (c : Charted a root depth) {n i j r : Nat} {e : Entry}
    (f : Forwards a n j r) (above : depth j < depth i) :
    Forwards (a.setEntry i e) n j r := by
  induction f with
  | stay j => exact .stay j
  | @next n j parent r entry rest ih =>
    have less := (c.at_forward entry).2.2
    have ne : i ≠ j := by
      intro same
      subst same
      omega
    exact .next ((entryAt?_setEntry_of_ne a ne e).trans entry) (ih (by omega))

theorem compresses (c : Charted a root depth) {n i r fuel : Nat} (f : Forwards a n i r)
    (h : root i = some r) (enough : n ≤ fuel) : Compresses r i a (compress r fuel i a) := by
  induction n generalizing a i fuel with
  | zero =>
    cases f
    have done : compress r fuel r a = a := by cases fuel <;> simp [compress]
    rw [done]
    exact .done a
  | succ n ih =>
    obtain ⟨fuel, rfl⟩ := Nat.exists_eq_add_one_of_ne_zero (by omega : fuel ≠ 0)
    cases f with
    | @next _ _ parent _ entry rest =>
      obtain ⟨same, _, less⟩ := c.at_forward entry
      have ne : i ≠ r := by
        intro same
        subst same
        obtain ⟨⟨ms, found⟩, _⟩ := c.root_reached h
        exact not_forward_of_members found parent entry
      simp only [compress, entry, if_neg ne]
      exact .next ne entry
        (ih (c.repoint entry h) (c.forwards_setEntry rest less) (same ▸ h) (by omega))

theorem walks (c : Charted a root depth) (i : Nat) : Walks a i (a.walk a.slots.length i) := by
  rw [c.walk_eq (Nat.le_refl _)]
  cases h : root i with
  | some r =>
    obtain ⟨⟨ms, found⟩, n, f⟩ := c.root_reached h
    exact walks_of_forwards f found
  | none =>
    cases e : a.entryAt? i with
    | none => exact .beyond e
    | some x =>
      cases x with
      | vacant => exact .vacant e
      | forward parent =>
        obtain ⟨same, some, _⟩ := c.at_forward e
        exact absurd (same.symm.trans h) some
      | live l =>
        rw [c.at_root (members?_of_live e)] at h
        cases h
      | triggered ms =>
        rw [c.at_root (members?_of_triggered e)] at h
        cases h

end Charted

theorem openRoot_of_not_live {h : Handle} (none : ∀ r, a.lookup h ≠ .live r) :
    a.openRoot h = (.error (.frozenLedger h.index), a) := by
  unfold openRoot
  split
  · rename_i r found
    exact absurd found (none r)
  · rfl

end LazyCast.Arena
