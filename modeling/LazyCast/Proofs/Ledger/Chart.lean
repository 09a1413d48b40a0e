import LazyCast.Proofs.Ledger.Slots
/-!
Where forwarding entries lead. A chart of an arena names the root of every occupied slot and gives
each slot a depth that falls along every forwarding entry, so a walk cannot come back to a slot it
has left. Every operation on an arena has its own new chart; what a walk answers is read off it.
-/
namespace LazyCast.Arena

inductive Forwards (a : Arena) : Nat → Nat → Nat → Prop where
  | stay (i : Nat) : Forwards a 0 i i
  | next {n i parent r : Nat} (entry : a.entryAt? i = some (.forward parent))
      (rest : Forwards a n parent r) : Forwards a (n + 1) i r

/-- Slots, roots and free list fit together; `root` is none for slots that belong to no group. -/
structure Charted (a : Arena) (root : Nat → Option Nat) (depth : Nat → Nat) : Prop where
  at_root : ∀ {r ms}, a.members? r = some ms → root r = some r
  at_forward : ∀ {i parent}, a.entryAt? i = some (.forward parent) →
    root i = root parent ∧ root parent ≠ none ∧ depth parent < depth i
  at_vacant : ∀ {i}, a.entryAt? i = some .vacant → root i = none
  beyond : ∀ {i}, a.entryAt? i = none → root i = none
  members_nodup : ∀ {r ms}, a.members? r = some ms → ms.Nodup
  mem_members : ∀ {r ms}, a.members? r = some ms → ∀ i, i ∈ ms ↔ root i = some r
  free_nodup : a.free.Nodup
  mem_free : ∀ i, i ∈ a.free ↔ a.entryAt? i = some .vacant

variable {a b : Arena} {root : Nat → Option Nat} {depth : Nat → Nat}

theorem charted_empty : Charted empty (fun _ => none) (fun _ => 0) := by
  have no : ∀ i, empty.entryAt? i = none := fun i => rfl
  have free : empty.free = [] := rfl
  constructor <;> simp [no, members?, free]

namespace Charted

theorem forward_of_no_root (c : Charted a root depth) {i r : Nat} (h : root i = some r)
    (no : a.members? i = none) : ∃ parent, a.entryAt? i = some (.forward parent) := by
  cases e : a.entryAt? i with
  | none =>
    rw [c.beyond e] at h
    cases h
  | some entry =>
    cases entry with
    | live l => simp [members?, e, Entry.members?] at no
    | triggered ms => simp [members?, e, Entry.members?] at no
    | forward parent => exact ⟨parent, rfl⟩
    | vacant =>
      rw [c.at_vacant e] at h
      cases h

theorem root_reached (c : Charted a root depth) {i r : Nat} (h : root i = some r) :
    (∃ ms, a.members? r = some ms) ∧ ∃ n, Forwards a n i r := by
  induction d : depth i using Nat.strongRecOn generalizing i with
  | ind k ih =>
    cases m : a.members? i with
    | some ms =>
      have same : i = r := Option.some.inj ((c.at_root m).symm.trans h)
      subst same
      exact ⟨⟨ms, m⟩, 0, .stay i⟩
    | none =>
      obtain ⟨parent, e⟩ := c.forward_of_no_root h m
      obtain ⟨same, _, less⟩ := c.at_forward e
      obtain ⟨found, n, rest⟩ := ih (depth parent) (by omega) (same ▸ h) rfl
      exact ⟨found, n + 1, .next e rest⟩

theorem root_self (c : Charted a root depth) {i r : Nat} (h : root i = some r) :
    root r = some r := by
  obtain ⟨⟨ms, m⟩, _⟩ := c.root_reached h
  exact c.at_root m

theorem root_along (c : Charted a root depth) {n i r : Nat} (f : Forwards a n i r) :
    root i = root r := by
  induction f with
  | stay i => rfl
  | next e rest ih => exact (c.at_forward e).1.trans ih

theorem depth_along (c : Charted a root depth) {n i r : Nat} (f : Forwards a n i r) :
    depth r + n ≤ depth i := by
  induction f with
  | stay i => omega
  | next e rest ih =>
    have less := (c.at_forward e).2.2
    omega

theorem depth_root (c : Charted a root depth) {i r : Nat} (h : root i = some r) (ne : i ≠ r) :
    depth r < depth i := by
  obtain ⟨_, n, f⟩ := c.root_reached h
  have along := c.depth_along f
  cases f with
  | stay => exact absurd rfl ne
  | next e rest => omega

theorem no_cycle (c : Charted a root depth) {n i : Nat} (f : Forwards a n i i) : n = 0 := by
  have along := c.depth_along f
  omega

theorem below (c : Charted a root depth) {i r : Nat} (h : root i = some r) :
    i < a.slots.length := by
  apply Nat.lt_of_not_le
  intro beyond
  rw [c.beyond (entryAt?_eq_none.mpr beyond)] at h
  cases h

theorem path (c : Charted a root depth) {n i r : Nat} (f : Forwards a n i r)
    (rooted : root r = some r) :
    ∃ slots : List Nat, slots.length = n + 1 ∧ slots.Nodup ∧
      ∀ j ∈ slots, j < a.slots.length ∧ depth j ≤ depth i := by
  induction f with
  | stay i =>
    refine ⟨[i], rfl, by simp, ?_⟩
    intro j mem
    rw [List.mem_singleton.mp mem]
    exact ⟨c.below rooted, Nat.le_refl _⟩
  | @next n i parent r e rest ih =>
    obtain ⟨slots, length, nodup, inside⟩ := ih rooted
    have less := (c.at_forward e).2.2
    refine ⟨i :: slots, by simp [length], List.nodup_cons.mpr ⟨?_, nodup⟩, ?_⟩
    · intro mem
      have := (inside i mem).2
      omega
    · intro j mem
      rcases List.mem_cons.mp mem with same | mem
      · rw [same]
        exact ⟨entry_below e, Nat.le_refl _⟩
      · have := inside j mem
        exact ⟨this.1, by omega⟩

theorem path_length (c : Charted a root depth) {n i r : Nat} (f : Forwards a n i r)
    (rooted : root r = some r) : n < a.slots.length := by
  obtain ⟨slots, length, nodup, inside⟩ := c.path f rooted
  have bound : slots.length ≤ (List.range a.slots.length).length :=
    nodup.length_le_of_subset fun j mem => List.mem_range.mpr (inside j mem).1
  rw [length, List.length_range] at bound
  omega

end Charted

def lookupAt (a : Arena) (r : Nat) : Lookup :=
  match a.entryAt? r with
  | some (.live _) => .live r
  | some (.triggered _) => .triggered r
  | _ => .gone

theorem walk_of_forwards {n i r fuel : Nat} {ms : List Nat} (f : Forwards a n i r)
    (found : a.members? r = some ms) (enough : n < fuel) : a.walk fuel i = a.lookupAt r := by
  induction f generalizing fuel with
  | stay i =>
    obtain ⟨fuel, rfl⟩ := Nat.exists_eq_add_one_of_ne_zero (Nat.ne_of_gt enough)
    rcases members?_eq_some.mp found with ⟨l, e, _⟩ | e <;> simp [walk, lookupAt, e]
  | next e rest ih =>
    obtain ⟨fuel, rfl⟩ := Nat.exists_eq_add_one_of_ne_zero (Nat.ne_of_gt (Nat.zero_lt_of_lt enough))
    simp only [walk, e]
    exact ih found (by omega)

end LazyCast.Arena
