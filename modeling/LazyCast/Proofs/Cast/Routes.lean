import LazyCast.Cast.Table
import LazyCast.Proofs.KeyOrder
import Mathlib.Data.List.Perm.Subperm
/-!
Casts of a table that follow one another. A shortest route meets no type twice, so it has at most as
many steps as the table has functions.
-/
namespace LazyCast

namespace CastTable

/-- Tables as they are made: empty at first, then one function or another policy at a time. -/
inductive Built : CastTable → Prop
  | empty : Built empty
  | register {t : CastTable} (source target : TypeName) (f : CastFunction) :
    Built t → Built (t.register source target f)
  | policy {t : CastTable} (p : Transitivity) : Built t → Built { t with transitivity := p }

structure Ordered (t : CastTable) : Prop where
  sources : t.functions.Ascending
  targets : ∀ e ∈ t.functions.entries, e.2.Ascending

def Lists (t : CastTable) (step : TypeName × CastFunction) : Prop :=
  ∃ targets ∈ t.functions.values, step ∈ targets.entries

/-- Casts that follow one another, each with the type it leads to. -/
inductive Route (t : CastTable) : TypeName → List (TypeName × CastFunction) → TypeName → Prop
  | stay (a : TypeName) : Route t a [] a
  | step {a b c : TypeName} {f : CastFunction} {steps : List (TypeName × CastFunction)} :
    t.find? a b = some f → Route t b steps c → Route t a ((b, f) :: steps) c

def Far (t : CastTable) (a b : TypeName) (d : Nat) : Prop :=
  ∀ steps, t.Route a steps b → d ≤ steps.length

variable {t : CastTable} {a b c : TypeName} {f : CastFunction}
  {steps others : List (TypeName × CastFunction)}

theorem Ordered.register (ordered : t.Ordered) (a b : TypeName) (f : CastFunction) :
    (t.register a b f).Ordered := by
  constructor
  · exact ordered.sources.update a _
  · intro e mem
    rcases Table.mem_update mem with old | rfl | ⟨targets, old, rfl⟩
    · exact ordered.targets e old
    · exact Table.Ascending.update List.Pairwise.nil b _
    · exact (ordered.targets _ old).update b _

theorem Built.ordered (built : t.Built) : t.Ordered := by
  induction built with
  | empty => exact ⟨List.Pairwise.nil, fun e mem => nomatch mem⟩
  | register a b f _ ih => exact ih.register a b f
  | policy p _ ih => exact ⟨ih.sources, ih.targets⟩

theorem lists_outgoing {step : TypeName × CastFunction} (mem : step ∈ t.outgoing a) :
    t.Lists step := by
  unfold outgoing at mem
  cases targets : t.functions.find? a with
  | none =>
    rw [targets] at mem
    cases mem
  | some found =>
    rw [targets] at mem
    exact ⟨found, List.mem_map_of_mem (Table.mem_of_find? targets), mem⟩

theorem lists_find? (found : t.find? a b = some f) : t.Lists (b, f) := by
  obtain ⟨targets, at_source, at_target⟩ := Option.bind_eq_some_iff.mp found
  exact ⟨targets, List.mem_map_of_mem (Table.mem_of_find? at_source), Table.mem_of_find? at_target⟩

theorem Ordered.mem_outgoing (ordered : t.Ordered) :
    (b, f) ∈ t.outgoing a ↔ t.find? a b = some f := by
  unfold outgoing find?
  cases found : t.functions.find? a with
  | none => simp
  | some targets =>
    have ascending := ordered.targets (a, targets) (Table.mem_of_find? found)
    exact ascending.mem_iff

theorem Ordered.outgoing_ascending (ordered : t.Ordered) (a : TypeName) :
    (t.outgoing a).Pairwise fun s s' => Key.before s.1 s'.1 = true := by
  unfold outgoing
  cases found : t.functions.find? a with
  | none => exact List.Pairwise.nil
  | some targets => exact ordered.targets (a, targets) (Table.mem_of_find? found)

theorem Route.append (first : t.Route a steps b) (second : t.Route b others c) :
    t.Route a (steps ++ others) c := by
  induction first with
  | stay a => exact second
  | step found _ ih => exact .step found (ih second)

theorem Route.snoc (route : t.Route a steps b) (found : t.find? b c = some f) :
    t.Route a (steps ++ [(c, f)]) c :=
  route.append (.step found (.stay c))

theorem Route.unsnoc (route : t.Route a steps c) (moves : steps ≠ []) :
    ∃ init b f, steps = init ++ [(c, f)] ∧ t.Route a init b ∧ t.find? b c = some f := by
  induction route with
  | stay a => exact absurd rfl moves
  | step found rest ih =>
    rename_i a b c f steps
    cases rest with
    | stay => exact ⟨[], a, f, rfl, .stay a, found⟩
    | step _ _ =>
      obtain ⟨init, b', f', same, route, last⟩ := ih (List.cons_ne_nil _ _)
      exact ⟨(b, f) :: init, b', f', by rw [same]; rfl, .step found route, last⟩

theorem Route.from_mem (route : t.Route a steps c) (mem : b ∈ a :: steps.map Prod.fst) :
    ∃ rest, t.Route b rest c ∧ rest.length ≤ steps.length := by
  induction route with
  | stay a =>
    rw [List.mem_singleton.mp mem]
    exact ⟨[], .stay a, Nat.le_refl 0⟩
  | step found rest ih =>
    rcases List.mem_cons.mp mem with rfl | mem
    · exact ⟨_, .step found rest, Nat.le_refl _⟩
    · obtain ⟨tail, route, short⟩ := ih mem
      exact ⟨tail, route, Nat.le_succ_of_le short⟩

/-- A shortest route comes back to no type: it could leave out the way round. -/
theorem Route.nodup (route : t.Route a steps b) (far : t.Far a b steps.length) :
    (a :: steps.map Prod.fst).Nodup := by
  induction route with
  | stay a => exact List.pairwise_singleton _ a
  | step found rest ih =>
    have shorter : t.Far _ _ _ := fun others route =>
      Nat.le_of_succ_le_succ (far _ (.step found route))
    refine List.nodup_cons.mpr ⟨fun back => ?_, ih shorter⟩
    obtain ⟨round, route, short⟩ := rest.from_mem back
    have long := far round route
    rw [List.length_cons] at long
    omega

def targets (t : CastTable) : List TypeName := t.functions.values.flatMap Table.keys

theorem length_targets (t : CastTable) : t.targets.length = t.size := by
  unfold targets size
  induction t.functions.values with
  | nil => rfl
  | cons targets rest ih =>
    rw [List.flatMap_cons, List.length_append, ih, List.map_cons, sumOf_cons]
    exact congrArg (· + _) (List.length_map _)

theorem Lists.mem_targets {step : TypeName × CastFunction} (listed : t.Lists step) :
    step.1 ∈ t.targets := by
  obtain ⟨targets, inside, mem⟩ := listed
  exact List.mem_flatMap.mpr ⟨targets, inside, List.mem_map_of_mem mem⟩

theorem Route.mem_targets (route : t.Route a steps b) : ∀ x ∈ steps.map Prod.fst, x ∈ t.targets := by
  induction route with
  | stay a => simp
  | step found _ ih =>
    intro x mem
    rcases List.mem_cons.mp mem with rfl | mem
    · exact (lists_find? found).mem_targets
    · exact ih x mem

theorem Route.length_le_size (route : t.Route a steps b) (nodup : (a :: steps.map Prod.fst).Nodup) :
    steps.length ≤ t.size := by
  have fewer := ((List.nodup_cons.mp nodup).2.subperm route.mem_targets).length_le
  rw [length_targets, List.length_map] at fewer
  exact fewer

end CastTable
end LazyCast
