import LazyCast.Proofs.Orchestrator.Routed
import LazyCast.Proofs.Passes.Reduction
import LazyCast.SubCompiler
/-!
Registries with their passes taken out. A backend keeps its kind, its opcodes and its limits; only
what its simulator makes of instructions changes, from a reduced program to the plain one.
-/
namespace LazyCast

namespace Table
variable {κ α β : Type}

def mapValues (f : α → β) (t : Table κ α) : Table κ β := ⟨t.entries.map fun e => (e.1, f e.2)⟩

variable [DecidableEq κ]

theorem find?_mapValues (f : α → β) (t : Table κ α) (k : κ) :
    (t.mapValues f).find? k = (t.find? k).map f := by
  unfold find? mapValues
  induction t.entries with
  | nil => rfl
  | cons e es ih =>
    rw [List.map_cons, findEntry, findEntry]
    split
    · rfl
    · exact ih

variable [Key κ]

theorem mapValues_insert (f : α → β) (t : Table κ α) (k : κ) (a : α) :
    (t.insert k a).mapValues f = (t.mapValues f).insert k (f a) := by
  unfold insert update mapValues
  congr 1
  induction t.entries with
  | nil => rfl
  | cons e es ih =>
    rw [updateEntry, List.map_cons, updateEntry]
    split
    · rfl
    · split
      · rfl
      · rw [List.map_cons, ih]

end Table

def Descriptor.withoutPasses (d : Descriptor) : Descriptor := { d with passes := [] }

namespace Registry

theorem validate_withoutPasses {d : Descriptor} (valid : d.validate = .ok ()) :
    d.withoutPasses.validate = .ok () := by
  unfold Descriptor.validate at valid ⊢
  split at valid
  · cases valid
  · rename_i named
    exact (if_neg named).trans rfl

theorem addAll_withoutPasses {ds : List Descriptor} {known t : Table String Descriptor}
    (added : addAll known ds = .ok t) :
    addAll (known.mapValues Descriptor.withoutPasses) (ds.map Descriptor.withoutPasses) =
      .ok (t.mapValues Descriptor.withoutPasses) := by
  induction ds generalizing known with
  | nil =>
    cases added
    rfl
  | cons d rest ih =>
    simp only [addAll, bind, Except.bind] at added
    cases valid : d.validate with
    | error e => simp [valid] at added
    | ok u =>
      rw [valid] at added
      dsimp only at added
      split at added
      · cases added
      · rename_i fresh
        have fresh' : ¬ (known.mapValues Descriptor.withoutPasses).contains d.name = true := by
          rw [Table.contains, Table.find?_mapValues, Option.isSome_map]
          exact fresh
        have next := ih added
        rw [Table.mapValues_insert] at next
        simp only [List.map_cons, addAll, bind, Except.bind, validate_withoutPasses valid]
        exact (if_neg fresh').trans next

structure Made (ds : List Descriptor) (r : Registry) : Prop where
  added : addAll Table.empty ds = .ok r.descriptors
  bottom : r.classical.level = 0

theorem made_of_ofDescriptors {ds : List Descriptor} {r : Registry}
    (made : ofDescriptors ds = .ok r) : Made ds r := by
  unfold ofDescriptors at made
  cases added : addAll Table.empty ds with
  | error e =>
    rw [added] at made
    cases made
  | ok t =>
    rw [added] at made
    simp only [Except.bind] at made
    cases table : ofTable t with
    | error e =>
      rw [table] at made
      cases made
    | ok r' =>
      rw [table] at made
      cases made
      unfold ofTable at table
      split at table
      · cases table
      · split at table
        · rename_i classical found bottom
          cases table
          exact ⟨added, bottom⟩
        · cases table

theorem addAll_entries {ds : List Descriptor} {known t : Table String Descriptor}
    (added : addAll known ds = .ok t) : ∀ e ∈ t.entries, e ∈ known.entries ∨
      (e.2 ∈ ds ∧ e.1 = e.2.name ∧ e.2.validate = .ok ()) := by
  induction ds generalizing known with
  | nil =>
    cases added
    exact fun e mem => Or.inl mem
  | cons d rest ih =>
    simp only [addAll, bind, Except.bind] at added
    cases valid : d.validate with
    | error e => simp [valid] at added
    | ok u =>
      rw [valid] at added
      dsimp only at added
      split at added
      · cases added
      · intro e mem
        rcases ih added e mem with old | ⟨among, name, fine⟩
        · rcases Table.mem_insert old with rfl | old
          · exact Or.inr ⟨List.mem_cons_self, rfl, valid⟩
          · exact Or.inl old
        · exact Or.inr ⟨List.mem_cons_of_mem _ among, name, fine⟩

theorem Made.found {ds : List Descriptor} {r : Registry} (made : Made ds r) {name : String}
    {d : Descriptor} (found : r.find? name = some d) :
    d ∈ ds ∧ d.name = name ∧ d.validate = .ok () := by
  rcases addAll_entries made.added _ (Table.mem_of_find? found) with none | ⟨among, named, valid⟩
  · cases none
  · exact ⟨among, named.symm, valid⟩

theorem Made.known {ds : List Descriptor} {r : Registry} (made : Made ds r) {name : String}
    {d : Descriptor} (found : r.find? name = some d) :
    ∀ pass ∈ d.passes, (Pass.ofName? pass).isSome := by
  have valid := (made.found found).2.2
  unfold Descriptor.validate at valid
  split at valid
  · cases valid
  · split at valid
    · cases valid
    · rename_i none
      intro pass mem
      have some := List.find?_eq_none.mp none pass mem
      cases h : Pass.ofName? pass with
      | none => simp [h] at some
      | some p => rfl

theorem find?_stripped {ds : List Descriptor} {r r' : Registry} (made : Made ds r)
    (made' : Made (ds.map Descriptor.withoutPasses) r') (name : String) :
    r'.find? name = (r.find? name).map Descriptor.withoutPasses := by
  have stripped := addAll_withoutPasses made.added
  have same : r.descriptors.mapValues Descriptor.withoutPasses = r'.descriptors :=
    Except.ok.inj (stripped.symm.trans made'.added)
  rw [find?, ← same, Table.find?_mapValues]
  rfl

theorem require_eq_ok {r : Registry} {kind : Kind} {d : Descriptor} :
    r.require kind = .ok d ↔ r.find? kind.name = some d ∧ d.level = kind.level := by
  unfold require
  cases r.find? kind.name with
  | none => simp
  | some d' =>
    by_cases same : d'.level = kind.level
    · simp only [same, if_true, Except.ok.injEq, Option.some.injEq]
      constructor
      · rintro rfl
        exact ⟨rfl, same⟩
      · exact fun ⟨same, _⟩ => same
    · simp only [same, if_false, reduceCtorEq, false_iff, Option.some.injEq]
      rintro ⟨rfl, level⟩
      exact same level

theorem require_stripped {ds : List Descriptor} {r r' : Registry} (made : Made ds r)
    (made' : Made (ds.map Descriptor.withoutPasses) r') {kind : Kind} {d : Descriptor}
    (required : r.require kind = .ok d) : r'.require kind = .ok d.withoutPasses := by
  obtain ⟨found, level⟩ := require_eq_ok.mp required
  refine require_eq_ok.mpr ⟨?_, level⟩
  rw [find?_stripped made made', found]
  rfl

theorem classical_stripped {ds : List Descriptor} {r r' : Registry} (made : Made ds r)
    (made' : Made (ds.map Descriptor.withoutPasses) r') :
    Evaluator.ofDescriptor r'.classical = Evaluator.ofDescriptor r.classical := by
  have same := find?_stripped made made' "classical"
  rw [find?, find?, r.classical_found, r'.classical_found] at same
  rw [Option.some.inj same]
  rfl

end Registry

def Simulator.withoutPasses (s : Simulator) : Simulator := { s with passes := [] }

theorem Simulator.ofDescriptor_withoutPasses (d : Descriptor) :
    Simulator.ofDescriptor d.withoutPasses =
      (Simulator.ofDescriptor d).map Simulator.withoutPasses := by
  unfold Simulator.ofDescriptor
  have setting : ∀ key, d.withoutPasses.setting? key = d.setting? key := fun key => rfl
  simp only [setting]
  split
  · rfl
  · split <;> rfl

theorem Simulator.kind_ofDescriptor {d : Descriptor} {s : Simulator}
    (made : Simulator.ofDescriptor d = .ok s) :
    s.capabilities.kind = d.kind ∧ s.passes = d.passes := by
  unfold Simulator.ofDescriptor at made
  simp only at made
  split at made
  · cases made
  · split at made
    · cases made
    · cases made
      exact ⟨rfl, rfl⟩

def Registry.Serves (r : Registry) (kind : Kind) (s : Simulator) : Prop :=
  ∃ d, r.require kind = .ok d ∧ Simulator.ofDescriptor d = .ok s

theorem Registry.Serves.unique {r : Registry} {kind : Kind} {s s' : Simulator}
    (serves : r.Serves kind s) (serves' : r.Serves kind s') : s = s' := by
  obtain ⟨d, required, made⟩ := serves
  obtain ⟨d', required', made'⟩ := serves'
  cases required.symm.trans required'
  exact Except.ok.inj (made.symm.trans made')

theorem Registry.Serves.stripped {ds : List Descriptor} {r r' : Registry} (made : Made ds r)
    (made' : Made (ds.map Descriptor.withoutPasses) r') {kind : Kind} {s : Simulator}
    (serves : r.Serves kind s) : r'.Serves kind s.withoutPasses := by
  obtain ⟨d, required, ofDescriptor⟩ := serves
  refine ⟨d.withoutPasses, require_stripped made made' required, ?_⟩
  rw [Simulator.ofDescriptor_withoutPasses, ofDescriptor]
  rfl

theorem Registry.Made.kind_required {ds : List Descriptor} {r : Registry} (made : Made ds r)
    {kind : Kind} {d : Descriptor} (required : r.require kind = .ok d) : d.kind = kind := by
  obtain ⟨found, level⟩ := require_eq_ok.mp required
  rw [Descriptor.kind, (made.found found).2.1, level]

theorem Registry.Serves.kind {ds : List Descriptor} {r : Registry} (made : Made ds r) {kind : Kind}
    {s : Simulator} (serves : r.Serves kind s) : s.capabilities.kind = kind := by
  obtain ⟨d, required, ofDescriptor⟩ := serves
  exact (Simulator.kind_ofDescriptor ofDescriptor).1.trans (made.kind_required required)

theorem Registry.Serves.known {ds : List Descriptor} {r : Registry} (made : Made ds r)
    {kind : Kind} {s : Simulator} (serves : r.Serves kind s) :
    ∀ pass ∈ s.passes, (Pass.ofName? pass).isSome := by
  obtain ⟨d, required, ofDescriptor⟩ := serves
  rw [(Simulator.kind_ofDescriptor ofDescriptor).2]
  exact made.known (require_eq_ok.mp required).1

section Reduced
variable {s : Simulator} {batch : List Instruction} {p q : Program}

theorem Simulator.lower_of_lowerAll (known : ∀ pass ∈ s.passes, (Pass.ofName? pass).isSome)
    (plain : s.lowerAll batch = .ok p) :
    ∃ q, s.lower batch = .ok q ∧ q.kind = p.kind ∧ Reduces p.ops q.ops := by
  obtain ⟨q, ran, kind, reduces⟩ := Pass.runAll_reduces known p
  refine ⟨q, ?_, kind, reduces⟩
  unfold Simulator.lower
  rw [plain]
  exact ran

theorem Simulator.lower_eq_ok (known : ∀ pass ∈ s.passes, (Pass.ofName? pass).isSome)
    (lowered : s.lower batch = .ok q) :
    ∃ p, s.lowerAll batch = .ok p ∧ q.kind = p.kind ∧ Reduces p.ops q.ops := by
  obtain ⟨p, plain, _⟩ := Except.bind_eq_ok.mp lowered
  obtain ⟨q', lowered', kind, reduces⟩ := Simulator.lower_of_lowerAll known plain
  obtain rfl : q' = q := Except.ok.inj (lowered'.symm.trans lowered)
  exact ⟨p, plain, kind, reduces⟩

theorem Simulator.lower_reduces (known : ∀ pass ∈ s.passes, (Pass.ofName? pass).isSome)
    (lowered : s.withoutPasses.lower batch = .ok p) :
    ∃ q, s.lower batch = .ok q ∧ q.kind = p.kind ∧ Reduces p.ops q.ops := by
  refine Simulator.lower_of_lowerAll known ?_
  have same : s.withoutPasses.lower batch = s.lowerAll batch := by
    unfold Simulator.lower
    change (s.lowerAll batch).bind (fun p => .ok p) = _
    cases s.lowerAll batch <;> rfl
  rw [← same]
  exact lowered

end Reduced
end LazyCast
