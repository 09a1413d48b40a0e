/-!
Sets and tables kept as plain lists in key order. In strictly increasing order a list of entries is
a canonical form: what a table holds does not depend on the order of its insertions. The look-up
laws below need no order at all; they hold of any list of entries. Tables that are hashed, and so
have no order, are kept like this as well.
-/
namespace LazyCast

/-- Keys with a strict order that can be decided. -/
class Key (κ : Type) where
  before : κ → κ → Bool

instance : Key Nat where
  before a b := decide (a < b)

/-- Text is ordered by code points. -/
instance : Key String where
  before a b := decide (a < b)

/-- A finite set, least element first. -/
structure OrderedSet (α : Type) where
  elems : List α
  deriving DecidableEq

namespace OrderedSet
variable {α : Type}

def empty : OrderedSet α := ⟨[]⟩

def isEmpty (s : OrderedSet α) : Bool := s.elems.isEmpty

def size (s : OrderedSet α) : Nat := s.elems.length

variable [DecidableEq α]

def contains (s : OrderedSet α) (x : α) : Bool := decide (x ∈ s.elems)

def inter (s t : OrderedSet α) : OrderedSet α := ⟨s.elems.filter t.contains⟩

def erase (s : OrderedSet α) (x : α) : OrderedSet α := ⟨s.elems.filter fun y => !decide (y = x)⟩

theorem contains_inter (s t : OrderedSet α) (x : α) :
    (s.inter t).contains x = (s.contains x && t.contains x) := by
  simp [contains, inter, Bool.decide_and]

variable [Key α]

def insertElem (x : α) : List α → List α
  | [] => [x]
  | y :: ys =>
    if x = y then y :: ys
    else if Key.before x y then x :: y :: ys
    else y :: insertElem x ys

def insert (s : OrderedSet α) (x : α) : OrderedSet α := ⟨insertElem x s.elems⟩

def ofList (xs : List α) : OrderedSet α := xs.foldl insert empty

def union (s t : OrderedSet α) : OrderedSet α := t.elems.foldl insert s

theorem mem_insertElem (x y : α) (ys : List α) :
    y ∈ insertElem x ys ↔ y = x ∨ y ∈ ys := by
  induction ys with
  | nil => simp [insertElem]
  | cons z zs ih =>
    by_cases same : x = z
    · simp [insertElem, same]
    · by_cases first : Key.before x z
      · simp [insertElem, same, first]
      · simp only [insertElem, same, first, if_false, List.mem_cons, ih, Bool.false_eq_true]
        exact or_left_comm

end OrderedSet

/-- A finite map, entries in key order. -/
structure Table (κ : Type) (α : Type) where
  entries : List (κ × α)
  deriving DecidableEq

namespace Table
variable {κ α : Type}

def empty : Table κ α := ⟨[]⟩

def keys (t : Table κ α) : List κ := t.entries.map Prod.fst

def values (t : Table κ α) : List α := t.entries.map Prod.snd

def size (t : Table κ α) : Nat := t.entries.length

def isEmpty (t : Table κ α) : Bool := t.entries.isEmpty

variable [DecidableEq κ]

def findEntry (k : κ) : List (κ × α) → Option α
  | [] => none
  | (l, a) :: rest => if l = k then some a else findEntry k rest

def find? (t : Table κ α) (k : κ) : Option α := findEntry k t.entries

def contains (t : Table κ α) (k : κ) : Bool := (t.find? k).isSome

def erase (t : Table κ α) (k : κ) : Table κ α :=
  ⟨t.entries.filter fun e => !decide (e.1 = k)⟩

theorem find?_erase_self (t : Table κ α) (k : κ) : (t.erase k).find? k = none := by
  unfold find? erase
  induction t.entries with
  | nil => rfl
  | cons e es ih =>
    obtain ⟨l, a⟩ := e
    by_cases same : l = k
    · simpa [List.filter_cons, same] using ih
    · simpa [List.filter_cons, findEntry, same] using ih

theorem find?_erase_of_ne (t : Table κ α) {k l : κ} (ne : l ≠ k) :
    (t.erase k).find? l = t.find? l := by
  unfold find? erase
  induction t.entries with
  | nil => rfl
  | cons e es ih =>
    obtain ⟨m, a⟩ := e
    by_cases same : m = k
    · subst same
      simpa [List.filter_cons, findEntry, Ne.symm ne] using ih
    · by_cases here : m = l
      · simp [findEntry, here, ne]
      · simpa [List.filter_cons, findEntry, same, here] using ih

variable [Key κ]

/-- Writes at `k` what `f` makes of the entry found there. -/
def updateEntry (k : κ) (f : Option α → α) : List (κ × α) → List (κ × α)
  | [] => [(k, f none)]
  | (l, a) :: rest =>
    if l = k then (k, f (some a)) :: rest
    else if Key.before k l then (k, f none) :: (l, a) :: rest
    else (l, a) :: updateEntry k f rest

def update (t : Table κ α) (k : κ) (f : Option α → α) : Table κ α :=
  ⟨updateEntry k f t.entries⟩

/-- The last insertion at a key wins. -/
def insert (t : Table κ α) (k : κ) (a : α) : Table κ α := t.update k fun _ => a

def ofList (entries : List (κ × α)) : Table κ α :=
  entries.foldl (fun t e => t.insert e.1 e.2) empty

theorem findEntry_insert_self (k : κ) (a : α) (es : List (κ × α)) :
    findEntry k (updateEntry k (fun _ => a) es) = some a := by
  induction es with
  | nil => simp [updateEntry, findEntry]
  | cons e es ih =>
    obtain ⟨l, b⟩ := e
    by_cases same : l = k
    · simp [updateEntry, findEntry, same]
    · by_cases first : Key.before k l
      · simp [updateEntry, findEntry, same, first]
      · simpa [updateEntry, findEntry, same, first] using ih

theorem findEntry_update_of_ne {k l : κ} (f : Option α → α) (es : List (κ × α)) (ne : l ≠ k) :
    findEntry l (updateEntry k f es) = findEntry l es := by
  induction es with
  | nil => simp [updateEntry, findEntry, Ne.symm ne]
  | cons e es ih =>
    obtain ⟨m, b⟩ := e
    by_cases same : m = k
    · subst same
      simp [updateEntry, findEntry, Ne.symm ne]
    · by_cases first : Key.before k m
      · simp [updateEntry, findEntry, same, first, Ne.symm ne]
      · simp [updateEntry, findEntry, same, first, ih]

theorem find?_insert_self (t : Table κ α) (k : κ) (a : α) : (t.insert k a).find? k = some a :=
  findEntry_insert_self k a t.entries

theorem find?_insert_of_ne (t : Table κ α) {k l : κ} (a : α) (ne : l ≠ k) :
    (t.insert k a).find? l = t.find? l :=
  findEntry_update_of_ne _ t.entries ne

end Table
end LazyCast
