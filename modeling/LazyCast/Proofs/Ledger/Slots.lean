import LazyCast.Ledger.Interaction
/-!
What the elementary operations on an arena do to a slot: to its entry, its generation and its place
in the free list. Later modules speak of slots through these laws alone.
-/
namespace LazyCast

/-- Slots pooled with a root, the root included; none for an entry that is no root. -/
def Entry.members? : Entry → Option (List Nat)
  | .live l => some l.members
  | .triggered members => some members
  | .forward _ => none
  | .vacant => none

namespace Arena

def generation? (a : Arena) (index : Nat) : Option UInt32 := (a.slots[index]?).map Slot.generation

def members? (a : Arena) (index : Nat) : Option (List Nat) := (a.entryAt? index).bind Entry.members?

theorem entryAt?_eq_none {a : Arena} {i : Nat} : a.entryAt? i = none ↔ a.slots.length ≤ i := by
  simp [entryAt?]

theorem generation?_eq_none {a : Arena} {i : Nat} :
    a.generation? i = none ↔ a.slots.length ≤ i := by
  simp [generation?]

theorem entry_below {a : Arena} {i : Nat} {e : Entry} (h : a.entryAt? i = some e) :
    i < a.slots.length := by
  apply Nat.lt_of_not_le
  intro beyond
  rw [entryAt?_eq_none.mpr beyond] at h
  cases h

theorem ledgerAt?_eq_some {a : Arena} {i : Nat} {l : Ledger} :
    a.ledgerAt? i = some l ↔ a.entryAt? i = some (.live l) := by
  unfold ledgerAt?
  split <;> simp_all

theorem members?_of_live {a : Arena} {i : Nat} {l : Ledger} (h : a.entryAt? i = some (.live l)) :
    a.members? i = some l.members := by
  simp [members?, h, Entry.members?]

theorem members?_of_triggered {a : Arena} {i : Nat} {ms : List Nat}
    (h : a.entryAt? i = some (.triggered ms)) : a.members? i = some ms := by
  simp [members?, h, Entry.members?]

theorem members?_eq_some {a : Arena} {i : Nat} {ms : List Nat} :
    a.members? i = some ms ↔
      (∃ l, a.entryAt? i = some (.live l) ∧ l.members = ms) ∨ a.entryAt? i = some (.triggered ms) := by
  unfold members?
  cases h : a.entryAt? i with
  | none => simp
  | some e => cases e <;> simp [Entry.members?]

theorem entryAt?_setEntry (a : Arena) (i j : Nat) (e : Entry) :
    (a.setEntry i e).entryAt? j = if i = j then (a.entryAt? j).map fun _ => e else a.entryAt? j := by
  simp only [entryAt?, setEntry, List.getElem?_modify, Option.map_eq_map]
  split
  · rw [Option.map_map, Option.map_map]; rfl
  · simp

theorem entryAt?_setEntry_self {a : Arena} {i : Nat} {old : Entry} (h : a.entryAt? i = some old)
    (e : Entry) : (a.setEntry i e).entryAt? i = some e := by
  simp [entryAt?_setEntry, h]

theorem entryAt?_setEntry_of_ne (a : Arena) {i j : Nat} (ne : i ≠ j) (e : Entry) :
    (a.setEntry i e).entryAt? j = a.entryAt? j := by
  simp [entryAt?_setEntry, ne]

theorem generation?_setEntry (a : Arena) (i j : Nat) (e : Entry) :
    (a.setEntry i e).generation? j = a.generation? j := by
  simp only [generation?, setEntry, List.getElem?_modify, Option.map_eq_map]
  split
  · rw [Option.map_map]; rfl
  · simp

theorem length_setEntry (a : Arena) (i : Nat) (e : Entry) :
    (a.setEntry i e).slots.length = a.slots.length := by
  simp [setEntry]

theorem handleOf_eq (a : Arena) (i : Nat) : a.handleOf i = ⟨i, (a.generation? i).getD 0⟩ := by
  unfold handleOf generation?
  cases a.slots[i]? <;> rfl

theorem handleOf_index (a : Arena) (i : Nat) : (a.handleOf i).index = i := rfl

theorem handleOf_congr {a b : Arena} {i : Nat} (same : a.generation? i = b.generation? i) :
    a.handleOf i = b.handleOf i := by
  rw [handleOf_eq, handleOf_eq, same]

theorem handleOf_setEntry (a : Arena) (i j : Nat) (e : Entry) :
    (a.setEntry i e).handleOf j = a.handleOf j :=
  handleOf_congr (generation?_setEntry a i j e)

theorem entryAt?_freeSlot (a : Arena) (i j : Nat) :
    (a.freeSlot i).entryAt? j = if i = j then (a.entryAt? j).map fun _ => .vacant else a.entryAt? j := by
  simp only [entryAt?, freeSlot, List.getElem?_modify, Option.map_eq_map]
  split
  · rw [Option.map_map, Option.map_map]; rfl
  · simp

theorem generation?_freeSlot (a : Arena) (i j : Nat) :
    (a.freeSlot i).generation? j =
      if i = j then (a.generation? j).map (· + 1) else a.generation? j := by
  simp only [generation?, freeSlot, List.getElem?_modify, Option.map_eq_map]
  split
  · rw [Option.map_map, Option.map_map]; rfl
  · simp

theorem length_freeSlots (a : Arena) (ms : List Nat) :
    (a.freeSlots ms).slots.length = a.slots.length := by
  induction ms generalizing a with
  | nil => rfl
  | cons m ms ih =>
    rw [freeSlots, List.foldl_cons, ← freeSlots, ih]
    simp [freeSlot]

theorem free_freeSlots (a : Arena) (ms : List Nat) :
    (a.freeSlots ms).free = ms.reverse ++ a.free := by
  induction ms generalizing a with
  | nil => rfl
  | cons m ms ih =>
    rw [freeSlots, List.foldl_cons, ← freeSlots, ih]
    simp [freeSlot]

theorem entryAt?_freeSlots (a : Arena) (ms : List Nat) (j : Nat) :
    (a.freeSlots ms).entryAt? j =
      if j ∈ ms then (a.entryAt? j).map fun _ => .vacant else a.entryAt? j := by
  induction ms generalizing a with
  | nil => rfl
  | cons m ms ih =>
    rw [freeSlots, List.foldl_cons, ← freeSlots, ih, entryAt?_freeSlot]
    by_cases same : m = j
    · subst same
      by_cases again : m ∈ ms <;> simp [again, Function.comp_def]
    · have different : j ≠ m := fun h => same h.symm
      simp [same, different]

theorem generation?_freeSlots (a : Arena) {ms : List Nat} (nodup : ms.Nodup) (j : Nat) :
    (a.freeSlots ms).generation? j =
      if j ∈ ms then (a.generation? j).map (· + 1) else a.generation? j := by
  induction ms generalizing a with
  | nil => rfl
  | cons m ms ih =>
    obtain ⟨absent, rest⟩ := List.nodup_cons.mp nodup
    rw [freeSlots, List.foldl_cons, ← freeSlots, ih _ rest, generation?_freeSlot]
    by_cases same : m = j
    · subst same
      simp [absent]
    · have different : j ≠ m := fun h => same h.symm
      simp [same, different]

end Arena
end LazyCast
