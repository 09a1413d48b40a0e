import LazyCast.Arithmetic
import LazyCast.Proofs.Ledger.Leading
/-!
How many ledgers an arena holds, and how many instructions are in them. A new ledger is one more; a
merge that joins two is one less, with all instructions kept; a ledger that is dissolved takes its own
instructions along; and what is reported as unused is what went.
-/
namespace LazyCast

def Diagnostic.discarded : Diagnostic → Nat
  | .unusedValues _ instructions => instructions

def discardedIn (ds : List Diagnostic) : Nat := sumOf (ds.map Diagnostic.discarded)

theorem discardedIn_append (ds es : List Diagnostic) :
    discardedIn (ds ++ es) = discardedIn ds + discardedIn es := by
  rw [discardedIn, List.map_append, sumOf_append]
  rfl

namespace Groups
variable {gs ks : Groups} {g k l : Group}

def load (gs : Groups) : Nat := sumOf (gs.map fun g => g.instructions.length)

theorem load_cons (g : Group) (gs : Groups) : load (g :: gs) = g.instructions.length + load gs := rfl

theorem load_perm (perm : gs.Perm ks) : gs.load = ks.load :=
  sumOf_perm (perm.map _)

section Perm
variable (apart : gs.Apart) (nodup : gs.Nodup)
include apart nodup

theorem perm_dissolve (mem : g ∈ gs) : gs.Perm (g :: gs.dissolve g) := by
  have distinct : (g :: gs.dissolve g).Nodup :=
    List.nodup_cons.mpr ⟨fun no => (mem_dissolve.mp no).2 rfl, nodup.filter _⟩
  refine (List.perm_ext_iff_of_nodup nodup distinct).mpr fun k => ?_
  rw [List.mem_cons, mem_dissolve]
  constructor
  · intro memk
    by_cases same : k.lead = g.lead
    · exact Or.inl (apart.lead_injective memk mem same)
    · exact Or.inr ⟨memk, same⟩
  · rintro (rfl | ⟨memk, _⟩)
    · exact mem
    · exact memk

theorem perm_put (mem : g ∈ gs) (lead : k.lead = g.lead) :
    (gs.put k).Perm (k :: gs.dissolve g) := by
  have replaced := (perm_dissolve apart nodup mem).map fun old => if old.lead = k.lead then k else old
  have kept : ∀ old ∈ gs.dissolve g, (if old.lead = k.lead then k else old) = old := by
    intro old memo
    rw [if_neg (lead ▸ (mem_dissolve.mp memo).2)]
  rwa [List.map_cons, if_pos lead.symm, List.map_congr_left kept, List.map_id'] at replaced

theorem perm_merged (memg : g ∈ gs) (meml : l ∈ gs) (ne : g.lead ≠ l.lead) :
    ∃ others, gs.Perm (l :: g :: others) ∧ (gs.merged g l).Perm (g.join l :: others) := by
  have apart' : (gs.dissolve l).Apart := apart.filter _
  have nodup' : (gs.dissolve l).Nodup := nodup.filter _
  have memg' : g ∈ gs.dissolve l := mem_dissolve.mpr ⟨memg, ne⟩
  refine ⟨(gs.dissolve l).dissolve g, ?_, perm_put apart' nodup' memg' rfl⟩
  exact (perm_dissolve apart nodup meml).trans ((perm_dissolve apart' nodup' memg').cons l)

theorem counts_dissolve (mem : g ∈ gs) : gs.length = (gs.dissolve g).length + 1 ∧
    gs.load = (gs.dissolve g).load + g.instructions.length := by
  have perm := perm_dissolve apart nodup mem
  have load := load_perm perm
  rw [load_cons] at load
  exact ⟨perm.length_eq, load.trans (Nat.add_comm _ _)⟩

theorem counts_put (mem : g ∈ gs) (lead : k.lead = g.lead) : (gs.put k).length = gs.length ∧
    (gs.put k).load + g.instructions.length = gs.load + k.instructions.length := by
  have load := load_perm (perm_put apart nodup mem lead)
  have before := (counts_dissolve apart nodup mem).2
  rw [load_cons] at load
  exact ⟨List.length_map _, by omega⟩

theorem counts_push (mem : g ∈ gs) (i : Instruction) :
    (gs.put (g.push i)).length = gs.length ∧ (gs.put (g.push i)).load = gs.load + 1 := by
  obtain ⟨length, load⟩ := counts_put apart nodup (k := g.push i) mem rfl
  have longer : (g.push i).instructions.length = g.instructions.length + 1 := by
    simp [Group.push]
  exact ⟨length, by omega⟩

theorem counts_merged (memg : g ∈ gs) (meml : l ∈ gs) (ne : g.lead ≠ l.lead) :
    gs.length = (gs.merged g l).length + 1 ∧ (gs.merged g l).load = gs.load := by
  obtain ⟨others, before, after⟩ := perm_merged apart nodup memg meml ne
  have both : (g.join l).instructions.length = g.instructions.length + l.instructions.length := by
    rw [Group.join, length_renumber, List.length_append]
  refine ⟨?_, ?_⟩
  · rw [before.length_eq, after.length_eq]
    rfl
  · rw [load_perm before, load_perm after, load_cons, load_cons, load_cons, both]
    omega

end Perm

theorem AllOpen.counts_sweep (allOpen : gs.AllOpen) :
    gs.sweep.1.length = gs.length ∧ discardedIn gs.sweep.1 = gs.load := by
  have all : (gs.filter fun g => g.state.isOpen) = gs := List.filter_eq_self.mpr allOpen
  rw [Groups.sweep, all]
  refine ⟨List.length_map _, ?_⟩
  rw [discardedIn, List.map_map]
  rfl

end Groups

namespace Arena
variable {a : Arena} {g : Group} {h k : Handle}

theorem nodup_groups (a : Arena) : a.groups.Nodup := by
  refine List.Nodup.filterMap (fun i j g at_i at_j => ?_) List.nodup_range
  exact (lead_eq_iff at_i).mp (groupAt?_eq_some at_j).1

theorem Tidy.counts_create (t : a.Tidy) (owner : ValueId) :
    (a.create owner).2.groups.length = a.groups.length + 1 ∧
      (a.create owner).2.groups.load = a.groups.load := by
  let created : Group := ⟨(a.create owner).1, [(a.create owner).1], [],
    OrderedSet.empty.insert owner, .accumulating⟩
  have distinct : (created :: a.groups).Nodup :=
    List.nodup_cons.mpr ⟨fun old => t.lead_ne_created owner old rfl, nodup_groups a⟩
  have perm : (a.create owner).2.groups.Perm (created :: a.groups) :=
    (List.perm_ext_iff_of_nodup (nodup_groups _) distinct).mpr fun g =>
      (t.mem_create owner).trans List.mem_cons.symm
  have load := Groups.load_perm perm
  rw [Groups.load_cons, List.length_nil, Nat.zero_add] at load
  exact ⟨perm.length_eq, load⟩

theorem Tidy.merge_cases (t : a.Tidy) (h k : Handle) :
    (∃ e, (a.merge h k).1 = .error e ∧ (a.merge h k).2.groups = a.groups) ∨
    (∃ m, (a.merge h k).1 = .ok m ∧ a.sameLedger h k = true ∧
      (a.merge h k).2.groups = a.groups) ∨
    ∃ m g l, (a.merge h k).1 = .ok m ∧ a.sameLedger h k = false ∧ g ∈ a.groups ∧ l ∈ a.groups ∧
      g.lead ≠ l.lead ∧ (a.merge h k).2.groups = a.groups.merged g l := by
  have m := merge_matches t h k
  rw [m.answer, m.groups, sameLedger_matches t]
  rcases a.groups.merge_cases h k with ⟨e, failed⟩ | ⟨g, l, foundg, foundl, same, kept⟩ |
    ⟨g, l, foundg, foundl, ne, made⟩
  · rw [failed]
    exact Or.inl ⟨e, rfl, rfl⟩
  · rw [kept, t.sameGroup_of_open foundg foundl]
    exact Or.inr (Or.inl ⟨_, rfl, decide_eq_true same, rfl⟩)
  · rw [made, t.sameGroup_of_open foundg foundl]
    exact Or.inr (Or.inr ⟨_, g, l, rfl, decide_eq_false ne, (Groups.open?_spec foundg).1,
      (Groups.open?_spec foundl).1, ne, rfl⟩)

/-- The merges that join two ledgers, when some handles are merged into a first one. -/
def joins (a : Arena) (root : Handle) : List Handle → Nat
  | [] => 0
  | next :: rest =>
    match a.merge root next with
    | (.ok merged, b) => (if a.sameLedger root next then 0 else 1) + b.joins merged rest
    | (.error _, _) => 0

theorem Tidy.counts_mergeAll (t : a.Tidy) (h : Handle) (rest : List Handle) :
    a.groups.length = (a.mergeAll h rest).2.groups.length + a.joins h rest ∧
      (a.mergeAll h rest).2.groups.load = a.groups.load := by
  induction rest generalizing a h with
  | nil => exact ⟨rfl, rfl⟩
  | cons next rest ih =>
    have tidy := (merge_matches t h next).tidy
    have cases := t.merge_cases h next
    rw [mergeAll, joins]
    rcases merged : a.merge h next with ⟨e | m, b⟩ <;> rw [merged] at cases tidy
    · obtain ⟨_, _, same⟩ | ⟨_, no, _⟩ | ⟨_, _, _, no, _⟩ := cases
      · exact ⟨congrArg List.length same.symm, congrArg Groups.load same⟩
      · cases no
      · cases no
    · obtain ⟨length, load⟩ := ih tidy m
      rw [Outcome.andThen_ok]
      obtain ⟨_, no, _⟩ | ⟨_, _, same, groups⟩ | ⟨_, g, l, _, other, memg, meml, ne, groups⟩ := cases
      · cases no
      · dsimp only at groups length load ⊢
        rw [groups] at length load
        rw [if_pos same]
        exact ⟨by omega, load⟩
      · obtain ⟨fewer, kept⟩ := Groups.counts_merged t.apart (nodup_groups a) memg meml ne
        dsimp only at groups length load ⊢
        rw [groups] at length load
        rw [other, if_neg Bool.false_ne_true]
        exact ⟨by omega, load.trans kept⟩

def joinsAmong (a : Arena) : List Handle → Nat
  | [] => 0
  | first :: rest => a.joins first rest

theorem Tidy.counts_interact (t : a.Tidy) (how : Interaction) (values : List Handle)
    (independent : Bool) :
    a.groups.length = (a.interact how values independent).2.groups.length +
        (if independent then 0 else a.joinsAmong values) ∧
      (a.interact how values independent).2.groups.load = a.groups.load := by
  match values, independent with
  | [], true => exact ⟨rfl, rfl⟩
  | [], false => exact ⟨rfl, rfl⟩
  | [_], true => exact ⟨rfl, rfl⟩
  | [_], false => exact ⟨rfl, rfl⟩
  | _ :: _ :: _, true => exact ⟨rfl, rfl⟩
  | first :: second :: rest, false => exact t.counts_mergeAll first (second :: rest)

theorem Tidy.counts_dropOwner (t : a.Tidy) (h : Handle) (owner : ValueId) :
    a.groups.length =
        (a.dropOwner h owner).2.groups.length + (a.dropOwner h owner).1.toList.length ∧
      a.groups.load =
        (a.dropOwner h owner).2.groups.load + discardedIn (a.dropOwner h owner).1.toList := by
  have m := dropOwner_matches t h owner
  rw [m.answer, m.groups]
  unfold Groups.dropOwner
  cases found : a.groups.open? h with
  | none => exact ⟨rfl, rfl⟩
  | some g =>
    have mem := (Groups.open?_spec found).1
    dsimp only
    split
    · exact Groups.counts_dissolve t.apart (nodup_groups a) mem
    · obtain ⟨length, load⟩ := Groups.counts_put
        (k := { g with owners := g.owners.erase owner }) t.apart (nodup_groups a) mem rfl
      exact ⟨length.symm, (Nat.add_right_cancel load).symm⟩

end Arena
end LazyCast
