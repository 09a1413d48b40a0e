import LazyCast.Proofs.Ledger.Chart
import Mathlib.Data.List.Nodup
/-!
The new chart after each change that an operation makes: a root's entry replaced, one group taken up
by another, a group freed, a slot taken into use, forwarding entries pointed straight at their root.
-/
namespace LazyCast.Arena
variable {a b : Arena} {root : Nat → Option Nat} {depth : Nat → Nat}

def joinedRoot (root : Nat → Option Nat) (ra rb : Nat) (i : Nat) : Option Nat :=
  if root i = some rb then some ra else root i

def joinedDepth (root : Nat → Option Nat) (depth : Nat → Nat) (ra rb : Nat) (i : Nat) : Nat :=
  if root i = some rb then depth i + depth ra + 1 else depth i

def freedRoot (root : Nat → Option Nat) (r : Nat) (i : Nat) : Option Nat :=
  if root i = some r then none else root i

def grownRoot (root : Nat → Option Nat) (new : Nat) (i : Nat) : Option Nat :=
  if i = new then some new else root i

theorem members?_setEntry_self {r : Nat} {ms : List Nat} (found : a.members? r = some ms)
    (e : Entry) : (a.setEntry r e).members? r = e.members? := by
  cases h : a.entryAt? r with
  | none => simp [members?, h] at found
  | some old => simp [members?, entryAt?_setEntry_self h]

theorem members?_setEntry_of_ne {i j : Nat} (ne : i ≠ j) (e : Entry) :
    (a.setEntry i e).members? j = a.members? j := by
  simp [members?, entryAt?_setEntry_of_ne a ne]

theorem not_forward_of_members {r : Nat} {ms : List Nat} (found : a.members? r = some ms)
    (parent : Nat) : a.entryAt? r ≠ some (.forward parent) := by
  intro e
  simp [members?, e, Entry.members?] at found

theorem not_vacant_of_members {r : Nat} {ms : List Nat} (found : a.members? r = some ms) :
    a.entryAt? r ≠ some .vacant := by
  intro e
  simp [members?, e, Entry.members?] at found

theorem not_none_of_members {r : Nat} {ms : List Nat} (found : a.members? r = some ms) :
    a.entryAt? r ≠ none := by
  intro e
  simp [members?, e] at found

def taken (a : Arena) (ra rb : Nat) (e : Entry) : Arena :=
  (a.setEntry rb (.forward ra)).setEntry ra e

section Taken
variable {ra rb : Nat} {ma mb : List Nat} {e : Entry} (founda : a.members? ra = some ma)
  (foundb : a.members? rb = some mb) (ne : ra ≠ rb)
include founda foundb ne

theorem taken_cases (e : Entry) (i : Nat) :
    (i = ra ∧ (a.taken ra rb e).entryAt? i = some e) ∨
      (i = rb ∧ (a.taken ra rb e).entryAt? i = some (.forward ra)) ∨
      (i ≠ ra ∧ i ≠ rb ∧ (a.taken ra rb e).entryAt? i = a.entryAt? i) := by
  obtain ⟨olda, ea⟩ := Option.ne_none_iff_exists'.mp (not_none_of_members founda)
  obtain ⟨oldb, eb⟩ := Option.ne_none_iff_exists'.mp (not_none_of_members foundb)
  simp only [taken, entryAt?_setEntry]
  by_cases herea : ra = i
  · subst herea
    simp [ea, Ne.symm ne]
  · by_cases hereb : rb = i
    · subst hereb
      simp [eb, ne]
    · simp [herea, hereb, Ne.symm herea, Ne.symm hereb]

theorem taken_vacant (pooled : e.members? = some (ma ++ mb)) (i : Nat) :
    (a.taken ra rb e).entryAt? i = some .vacant ↔ a.entryAt? i = some .vacant := by
  rcases taken_cases founda foundb ne e i with ⟨rfl, h⟩ | ⟨rfl, h⟩ | ⟨_, _, h⟩ <;> rw [h]
  · constructor
    · intro same
      cases same
      simp [Entry.members?] at pooled
    · intro h
      exact absurd h (not_vacant_of_members founda)
  · constructor
    · intro same
      cases same
    · intro h
      exact absurd h (not_vacant_of_members foundb)

theorem taken_members (pooled : e.members? = some (ma ++ mb)) {i : Nat} {ms : List Nat}
    (h : (a.taken ra rb e).members? i = some ms) :
    (i = ra ∧ ms = ma ++ mb) ∨ (i ≠ ra ∧ i ≠ rb ∧ a.members? i = some ms) := by
  rcases taken_cases founda foundb ne e i with ⟨same, h'⟩ | ⟨_, h'⟩ | ⟨nea, neb, h'⟩
  · rw [members?, h', Option.bind_some, pooled] at h
    exact Or.inl ⟨same, (Option.some.inj h).symm⟩
  · simp [members?, h', Entry.members?] at h
  · rw [members?, h'] at h
    exact Or.inr ⟨nea, neb, h⟩

end Taken

section Freed
variable {i : Nat} {ms ns : List Nat}

theorem occupied_freeSlots {e : Entry} (occupied : e ≠ .vacant)
    (h : (a.freeSlots ms).entryAt? i = some e) : a.entryAt? i = some e ∧ i ∉ ms := by
  rw [entryAt?_freeSlots] at h
  by_cases mem : i ∈ ms
  · rw [if_pos mem] at h
    obtain ⟨_, _, same⟩ := Option.map_eq_some_iff.mp h
    exact absurd same.symm occupied
  · rw [if_neg mem] at h
    exact ⟨h, mem⟩

theorem members_freeSlots (h : (a.freeSlots ms).members? i = some ns) :
    a.members? i = some ns ∧ i ∉ ms := by
  rcases members?_eq_some.mp h with ⟨l, e, rfl⟩ | e
  · exact (occupied_freeSlots (by simp) e).imp_left members?_of_live
  · exact (occupied_freeSlots (by simp) e).imp_left members?_of_triggered

theorem vacant_freeSlots (present : ∀ i ∈ ms, a.entryAt? i ≠ none) (i : Nat) :
    (a.freeSlots ms).entryAt? i = some .vacant ↔ i ∈ ms ∨ a.entryAt? i = some .vacant := by
  rw [entryAt?_freeSlots]
  by_cases mem : i ∈ ms
  · obtain ⟨e, at_i⟩ := Option.ne_none_iff_exists'.mp (present i mem)
    simp [mem, at_i]
  · simp [mem]

end Freed

namespace Charted

theorem replace (c : Charted a root depth) {r : Nat} {ms : List Nat} {e : Entry}
    (found : a.members? r = some ms) (same : e.members? = some ms) :
    Charted (a.setEntry r e) root depth := by
  have self : (a.setEntry r e).members? r = some ms := by rw [members?_setEntry_self found e, same]
  have kept : ∀ i, (a.setEntry r e).members? i = a.members? i := by
    intro i
    by_cases here : r = i
    · rw [← here, self, found]
    · exact members?_setEntry_of_ne here e
  have elsewhere : ∀ i x, x.members? = none →
      ((a.setEntry r e).entryAt? i = some x ↔ a.entryAt? i = some x) := by
    intro i x none
    by_cases here : r = i
    · subst here
      constructor
      · intro h
        simp [members?, h, none] at self
      · intro h
        simp [members?, h, none] at found
    · rw [entryAt?_setEntry_of_ne a here]
  exact {
    at_root := fun h => c.at_root (kept _ ▸ h)
    at_forward := fun h => c.at_forward ((elsewhere _ _ rfl).mp h)
    at_vacant := fun h => c.at_vacant ((elsewhere _ _ rfl).mp h)
    beyond := fun h => c.beyond (by
      rw [entryAt?_eq_none, length_setEntry] at h
      exact entryAt?_eq_none.mpr h)
    members_nodup := fun h => c.members_nodup (kept _ ▸ h)
    mem_members := fun h => c.mem_members (kept _ ▸ h)
    free_nodup := c.free_nodup
    mem_free := fun i => (c.mem_free i).trans (elsewhere i _ rfl).symm }

theorem repoint (c : Charted a root depth) {i parent r : Nat}
    (e : a.entryAt? i = some (.forward parent)) (h : root i = some r) :
    Charted (a.setEntry i (.forward r)) root depth := by
  have self : (a.setEntry i (.forward r)).entryAt? i = some (.forward r) := entryAt?_setEntry_self e _
  have kept : ∀ j, (a.setEntry i (.forward r)).members? j = a.members? j := by
    intro j
    by_cases here : i = j
    · subst here
      simp [members?, self, e, Entry.members?]
    · exact members?_setEntry_of_ne here _
  have vacant : ∀ j, (a.setEntry i (.forward r)).entryAt? j = some .vacant ↔
      a.entryAt? j = some .vacant := by
    intro j
    by_cases here : i = j
    · subst here
      simp [self, e]
    · rw [entryAt?_setEntry_of_ne a here]
  have ne : i ≠ r := by
    intro same
    obtain ⟨⟨ms, found⟩, _⟩ := c.root_reached h
    exact not_forward_of_members found parent (same ▸ e)
  exact {
    at_root := fun h => c.at_root (kept _ ▸ h)
    at_forward := by
      intro j p f
      by_cases here : i = j
      · subst here
        rw [self] at f
        cases f
        exact ⟨h.trans (c.root_self h).symm, by simp [c.root_self h], c.depth_root h ne⟩
      · rw [entryAt?_setEntry_of_ne a here] at f
        exact c.at_forward f
    at_vacant := fun h => c.at_vacant ((vacant _).mp h)
    beyond := fun h => c.beyond (by
      rw [entryAt?_eq_none, length_setEntry] at h
      exact entryAt?_eq_none.mpr h)
    members_nodup := fun h => c.members_nodup (kept _ ▸ h)
    mem_members := fun h => c.mem_members (kept _ ▸ h)
    free_nodup := c.free_nodup
    mem_free := fun j => (c.mem_free j).trans (vacant j).symm }

theorem join (c : Charted a root depth) {ra rb : Nat} {ma mb : List Nat} {e : Entry}
    (founda : a.members? ra = some ma) (foundb : a.members? rb = some mb) (ne : ra ≠ rb)
    (pooled : e.members? = some (ma ++ mb)) :
    Charted (a.taken ra rb e) (joinedRoot root ra rb) (joinedDepth root depth ra rb) := by
  have roota := c.at_root founda
  have rootb := c.at_root foundb
  have forward : ∀ {i p}, (a.taken ra rb e).entryAt? i = some (.forward p) →
      (i = rb ∧ p = ra) ∨ a.entryAt? i = some (.forward p) := by
    intro i p h
    rcases taken_cases founda foundb ne e i with ⟨rfl, h'⟩ | ⟨rfl, h'⟩ | ⟨_, _, h'⟩ <;> rw [h'] at h
    · cases h
      simp [Entry.members?] at pooled
    · cases h
      exact Or.inl ⟨rfl, rfl⟩
    · exact Or.inr h
  have vacant := taken_vacant founda foundb ne pooled
  have members := @taken_members a ra rb ma mb e founda foundb ne pooled
  -- Only entries at the two roots are new: each part is an old fact but for these.
  exact {
    at_root := by
      intro r ms h
      rcases members h with ⟨rfl, _⟩ | ⟨_, neb, h⟩
      · simp [joinedRoot, roota, ne]
      · simp [joinedRoot, c.at_root h, neb]
    at_forward := by
      intro i p h
      rcases forward h with ⟨rfl, rfl⟩ | h
      · simp only [joinedRoot, joinedDepth, roota, rootb, Option.some.injEq, if_neg ne, if_true]
        exact ⟨trivial, by simp, by omega⟩
      · obtain ⟨same, some, less⟩ := c.at_forward h
        simp only [joinedRoot, joinedDepth, same]
        split
        · exact ⟨trivial, by simp, by omega⟩
        · exact ⟨trivial, some, less⟩
    at_vacant := by
      intro i h
      simp [joinedRoot, c.at_vacant ((vacant i).mp h)]
    beyond := by
      intro i h
      rw [entryAt?_eq_none, taken, length_setEntry, length_setEntry] at h
      simp [joinedRoot, c.beyond (entryAt?_eq_none.mpr h)]
    members_nodup := by
      intro r ms h
      rcases members h with ⟨_, rfl⟩ | ⟨_, _, h⟩
      · refine List.nodup_append.mpr ⟨c.members_nodup founda, c.members_nodup foundb, ?_⟩
        intro i ina j inb same
        subst same
        rw [c.mem_members founda] at ina
        rw [c.mem_members foundb, ina] at inb
        exact ne (Option.some.inj inb)
      · exact c.members_nodup h
    mem_members := by
      intro r ms h i
      rcases members h with ⟨rfl, rfl⟩ | ⟨nea, neb, h⟩
      · rw [List.mem_append, c.mem_members founda, c.mem_members foundb]
        by_cases moved : root i = some rb <;> simp [joinedRoot, moved]
      · rw [c.mem_members h]
        by_cases moved : root i = some rb
        · simp [joinedRoot, moved, Ne.symm nea, Ne.symm neb]
        · simp [joinedRoot, moved]
    free_nodup := c.free_nodup
    mem_free := fun i => (c.mem_free i).trans (vacant i).symm }

theorem free (c : Charted a root depth) {r : Nat} {ms : List Nat}
    (found : a.members? r = some ms) : Charted (a.freeSlots ms) (freedRoot root r) depth := by
  have inside : ∀ i, i ∈ ms ↔ root i = some r := c.mem_members found
  have members : ∀ {i ns}, (a.freeSlots ms).members? i = some ns →
      a.members? i = some ns ∧ i ≠ r := by
    intro i ns h
    obtain ⟨h, apart⟩ := members_freeSlots h
    exact ⟨h, fun same => apart ((inside i).mpr (same ▸ c.at_root h))⟩
  have vacant : ∀ i, (a.freeSlots ms).entryAt? i = some .vacant ↔
      i ∈ ms ∨ a.entryAt? i = some .vacant := by
    refine vacant_freeSlots fun i mem none => ?_
    have rooted := (inside i).mp mem
    rw [c.beyond none] at rooted
    cases rooted
  exact {
    at_root := by
      intro i ns h
      obtain ⟨h, apart⟩ := members h
      simp [freedRoot, apart, c.at_root h]
    at_forward := by
      intro i p h
      obtain ⟨h, out⟩ := occupied_freeSlots (by simp) h
      obtain ⟨same, some, less⟩ := c.at_forward h
      have apart : root i ≠ Option.some r := fun rooted => out ((inside i).mpr rooted)
      have apart' : root p ≠ Option.some r := same ▸ apart
      simp only [freedRoot, if_neg apart, if_neg apart']
      exact ⟨same, some, less⟩
    at_vacant := by
      intro i h
      rcases (vacant i).mp h with mem | h
      · simp [freedRoot, (inside i).mp mem]
      · simp [freedRoot, c.at_vacant h]
    beyond := by
      intro i h
      rw [entryAt?_eq_none, length_freeSlots] at h
      simp [freedRoot, c.beyond (entryAt?_eq_none.mpr h)]
    members_nodup := fun h => c.members_nodup (members h).1
    mem_members := by
      intro s ns h i
      obtain ⟨h, apart⟩ := members h
      rw [c.mem_members h]
      by_cases freed : root i = some r
      · simp [freedRoot, freed, Ne.symm apart]
      · simp [freedRoot, freed]
    free_nodup := by
      rw [free_freeSlots]
      refine List.nodup_append.mpr
        ⟨List.nodup_reverse.mpr (c.members_nodup found), c.free_nodup, ?_⟩
      intro i mem j unused same
      subst same
      have rooted := (inside i).mp (List.mem_reverse.mp mem)
      rw [c.at_vacant ((c.mem_free i).mp unused)] at rooted
      cases rooted
    mem_free := by
      intro i
      rw [free_freeSlots, List.mem_append, List.mem_reverse, c.mem_free, vacant] }

end Charted

structure Opened (a b : Arena) (index : Nat) (owner : ValueId) : Prop where
  unused : a.entryAt? index = some .vacant ∨ a.entryAt? index = none
  here : b.entryAt? index = some (.live (.fresh owner index))
  elsewhere : ∀ {j}, j ≠ index → b.entryAt? j = a.entryAt? j
  generation_here : b.generation? index = some ((a.generation? index).getD 0)
  generation : ∀ {j}, j ≠ index → b.generation? j = a.generation? j
  free_nodup : b.free.Nodup
  mem_free : ∀ j, j ∈ b.free ↔ j ∈ a.free ∧ j ≠ index

theorem Opened.old {index i : Nat} {owner : ValueId} {x : Option Entry} (o : Opened a b index owner)
    (h : b.entryAt? i = x) (other : x ≠ some (.live (.fresh owner index))) :
    i ≠ index ∧ a.entryAt? i = x := by
  have ne : i ≠ index := by
    rintro rfl
    exact other (h.symm.trans o.here)
  exact ⟨ne, (o.elsewhere ne).symm.trans h⟩

theorem create_opened (c : Charted a root depth) (owner : ValueId) :
    Opened a (a.create owner).2 (a.create owner).1.index owner := by
  unfold create
  cases free : a.free with
  | cons index rest =>
    have nodup := c.free_nodup
    rw [free] at nodup
    obtain ⟨absent, nodup⟩ := List.nodup_cons.mp nodup
    have vacant : a.entryAt? index = some .vacant := (c.mem_free index).mp (by simp [free])
    have vacant' : Arena.entryAt? { a with free := rest } index = some .vacant := vacant
    exact {
      unused := Or.inl vacant
      here := entryAt?_setEntry_self vacant' _
      elsewhere := fun ne => entryAt?_setEntry_of_ne _ (Ne.symm ne) _
      generation_here := by
        rw [handleOf_index, generation?_setEntry]
        change a.generation? index = _
        cases g : a.generation? index with
        | none =>
          rw [generation?_eq_none, ← entryAt?_eq_none, vacant] at g
          cases g
        | some g => rfl
      generation := fun _ => generation?_setEntry _ _ _ _
      free_nodup := nodup
      mem_free := by
        intro j
        change j ∈ rest ↔ _
        rw [free, handleOf_index, List.mem_cons]
        constructor
        · intro mem
          exact ⟨Or.inr mem, fun same => absent (same ▸ mem)⟩
        · rintro ⟨same | mem, ne⟩
          · exact absurd same ne
          · exact mem }
  | nil =>
    have fresh : ∀ s : Slot, (a.slots ++ [s])[a.slots.length]? = some s := by
      intro s
      rw [List.getElem?_append_right (Nat.le_refl _), Nat.sub_self, List.getElem?_cons_zero]
    have kept : ∀ s : Slot, ∀ {j : Nat}, j ≠ a.slots.length → (a.slots ++ [s])[j]? = a.slots[j]? := by
      intro s j ne
      by_cases inside : j < a.slots.length
      · exact List.getElem?_append_left inside
      · have outside : a.slots.length + 1 ≤ j := by omega
        rw [List.getElem?_eq_none (by simpa using outside),
          List.getElem?_eq_none (by omega)]
    have past : a.generation? a.slots.length = none := generation?_eq_none.mpr (Nat.le_refl _)
    exact {
      unused := Or.inr (entryAt?_eq_none.mpr (Nat.le_refl _))
      here := by
        simp only [handleOf_index, entryAt?, fresh, Option.map_some]
      elsewhere := by
        intro j ne
        rw [handleOf_index] at ne
        simp only [entryAt?, kept _ ne]
      generation_here := by
        rw [handleOf_index, past]
        simp only [generation?, fresh, Option.map_some, Option.getD_none]
      generation := by
        intro j ne
        rw [handleOf_index] at ne
        simp only [generation?, kept _ ne]
      free_nodup := List.nodup_nil
      mem_free := by simp [free] }

namespace Charted

theorem grow (c : Charted a root depth) {index : Nat} {owner : ValueId}
    (o : Opened a b index owner) : Charted b (grownRoot root index) depth := by
  have alone : root index = none := by
    rcases o.unused with vacant | absent
    · exact c.at_vacant vacant
    · exact c.beyond absent
  have members : ∀ {r ms}, b.members? r = some ms →
      (r = index ∧ ms = [index]) ∨ (r ≠ index ∧ a.members? r = some ms) := by
    intro r ms h
    by_cases here : r = index
    · subst here
      rw [members?_of_live o.here] at h
      exact Or.inl ⟨rfl, (Option.some.inj h).symm⟩
    · rw [Arena.members?, o.elsewhere here] at h
      exact Or.inr ⟨here, h⟩
  exact {
    at_root := by
      intro r ms h
      rcases members h with ⟨rfl, _⟩ | ⟨ne, h⟩
      · simp [grownRoot]
      · simp [grownRoot, ne, c.at_root h]
    at_forward := by
      intro i p h
      obtain ⟨here, h⟩ := o.old h (by simp)
      obtain ⟨same, some, less⟩ := c.at_forward h
      have ne : p ≠ index := fun same => some (same ▸ alone)
      simp only [grownRoot, if_neg here, if_neg ne]
      exact ⟨same, some, less⟩
    at_vacant := by
      intro i h
      obtain ⟨here, h⟩ := o.old h (by simp)
      simp [grownRoot, here, c.at_vacant h]
    beyond := by
      intro i h
      obtain ⟨here, h⟩ := o.old h (by simp)
      simp [grownRoot, here, c.beyond h]
    members_nodup := by
      intro r ms h
      rcases members h with ⟨_, rfl⟩ | ⟨_, h⟩
      · simp
      · exact c.members_nodup h
    mem_members := by
      intro r ms h i
      rcases members h with ⟨rfl, rfl⟩ | ⟨ne, h⟩
      · rw [List.mem_singleton]
        by_cases here : i = r
        · simp [grownRoot, here]
        · have apart : root i ≠ some r := by
            intro rooted
            rw [c.root_self rooted] at alone
            cases alone
          simp [grownRoot, here, apart]
      · rw [c.mem_members h]
        by_cases here : i = index
        · simp [grownRoot, here, alone, Ne.symm ne]
        · simp [grownRoot, here]
    free_nodup := o.free_nodup
    mem_free := by
      intro i
      rw [o.mem_free, c.mem_free]
      by_cases here : i = index
      · subst here
        simp [o.here]
      · simp [here, o.elsewhere here] }

end Charted
end LazyCast.Arena
