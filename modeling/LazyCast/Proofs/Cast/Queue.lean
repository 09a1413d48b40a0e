import LazyCast.Proofs.Cast.Layers
/-!
The search by a queue. Types wait in a queue with their distances, and each remembers the type it was
found from. Whatever the table, the queue runs out, and the way back from the target is the path of
the chain.
-/
namespace LazyCast

namespace CastTable

/-- A search under way: the types found and not yet left, each with its distance, all types found so
    far, and the type that each was found from. -/
structure Sweep where
  queue : List (TypeName × Nat)
  seen : List TypeName
  parent? : TypeName → Option TypeName

namespace Sweep

def start (a : TypeName) : Sweep := ⟨[(a, 0)], [a], fun _ => none⟩

def visit (current : TypeName) (d : Nat) (w : Sweep) (next : TypeName) : Sweep :=
  if next ∈ w.seen then w
  else ⟨w.queue ++ [(next, d + 1)], next :: w.seen, Function.update w.parent? next (some current)⟩

def popped (w : Sweep) : Sweep := { w with queue := w.queue.tail }

theorem visit_of_seen {w : Sweep} {x : TypeName} (old : x ∈ w.seen) (y : TypeName) (d : Nat) :
    w.visit y d x = w := if_pos old

theorem visit_of_new {w : Sweep} {x : TypeName} (new : x ∉ w.seen) (y : TypeName) (d : Nat) :
    w.visit y d x = ⟨w.queue ++ [(x, d + 1)], x :: w.seen,
      Function.update w.parent? x (some y)⟩ := if_neg new

end Sweep

def advance? (t : CastTable) (target : TypeName) (maxHops : Nat) (w : Sweep) : Option Sweep :=
  match w.queue with
  | [] => none
  | (current, d) :: _ =>
    if current = target then none
    else if d = maxHops then some w.popped
    else some (((t.outgoing current).map Prod.fst).foldl (Sweep.visit current d) w.popped)

def pending (t : CastTable) (w : Sweep) : Nat :=
  (t.targets.filter fun x => !decide (x ∈ w.seen)).length + w.queue.length

variable {t : CastTable} {a b x y : TypeName} {d maxHops : Nat} {w w' : Sweep}

theorem outgoing_targets : ∀ x ∈ (t.outgoing a).map Prod.fst, x ∈ t.targets := by
  intro x mem
  obtain ⟨step, cast, rfl⟩ := List.mem_map.mp mem
  exact (lists_outgoing cast).mem_targets

theorem pending_visit (target : x ∈ t.targets) : t.pending (w.visit y d x) ≤ t.pending w := by
  by_cases old : x ∈ w.seen
  · exact Nat.le_of_eq (congrArg t.pending (Sweep.visit_of_seen old y d))
  · -- A type enters the queue as it leaves the targets not yet found.
    have fewer : (t.targets.filter fun y => !decide (y ∈ x :: w.seen)).length <
        (t.targets.filter fun y => !decide (y ∈ w.seen)).length := by
      have left : (t.targets.filter fun y => !decide (y ∈ x :: w.seen)) =
          (t.targets.filter fun y => !decide (y ∈ w.seen)).filter fun y => !decide (y = x) := by
        rw [List.filter_filter]
        refine List.filter_congr fun y _ => ?_
        simp [List.mem_cons]
      rw [left]
      refine List.length_filter_lt_length_iff_exists.mpr ⟨x, ?_, ?_⟩
      · simpa using ⟨target, old⟩
      · simp
    rw [Sweep.visit_of_new old]
    unfold pending
    simp only [List.length_append, List.length_cons, List.length_nil]
    omega

theorem pending_visits {next : List TypeName} (targets : ∀ x ∈ next, x ∈ t.targets) (w : Sweep) :
    t.pending (next.foldl (Sweep.visit y d) w) ≤ t.pending w := by
  induction next generalizing w with
  | nil => exact Nat.le_refl _
  | cons x rest ih =>
    have first : t.pending (w.visit y d x) ≤ t.pending w :=
      pending_visit (targets x List.mem_cons_self)
    have later := ih (fun x mem => targets x (List.mem_cons_of_mem _ mem)) (w.visit y d x)
    exact Nat.le_trans later first

theorem advance?_eq_some (moved : t.advance? b maxHops w = some w') :
    w.queue ≠ [] ∧ (w' = w.popped ∨ ∃ current d,
      w' = ((t.outgoing current).map Prod.fst).foldl (Sweep.visit current d) w.popped) := by
  unfold advance? at moved
  split at moved
  · cases moved
  · rename_i current d rest queue
    rw [queue]
    refine ⟨List.cons_ne_nil _ _, ?_⟩
    split at moved
    · cases moved
    · split at moved
      · exact Or.inl (Option.some.inj moved).symm
      · exact Or.inr ⟨current, d, (Option.some.inj moved).symm⟩

theorem pending_advance? (moved : t.advance? b maxHops w = some w') :
    t.pending w' < t.pending w := by
  obtain ⟨waiting, outcome⟩ := advance?_eq_some moved
  have shorter : t.pending w.popped < t.pending w := by
    have some := List.length_pos_of_ne_nil waiting
    unfold pending Sweep.popped
    dsimp only
    rw [List.length_tail]
    omega
  rcases outcome with rfl | ⟨current, d, rfl⟩
  · exact shorter
  · exact Nat.lt_of_le_of_lt (pending_visits outgoing_targets _) shorter

/-- Advances until the target is in front or nothing is left. Every type is found once, so the
    search ends on tables of any shape. -/
def sweep (t : CastTable) (target : TypeName) (maxHops : Nat) (w : Sweep) : Sweep :=
  match moved : t.advance? target maxHops w with
  | none => w
  | some w' =>
    have := pending_advance? moved
    sweep t target maxHops w'
termination_by t.pending w

theorem sweep_of_advance? (moved : t.advance? b maxHops w = some w') :
    t.sweep b maxHops w = t.sweep b maxHops w' := by
  rw [sweep]
  split
  · rename_i ended
    rw [ended] at moved
    cases moved
  · rename_i moved'
    rw [moved'] at moved
    cases moved
    rfl

theorem sweep_of_ended (ended : t.advance? b maxHops w = none) : t.sweep b maxHops w = w := by
  rw [sweep]
  split
  · rfl
  · rename_i moved
    rw [moved] at ended
    cases ended

inductive Climbs (parent? : TypeName → Option TypeName) : TypeName → List TypeName → Prop
  | top {x : TypeName} : parent? x = none → Climbs parent? x [x]
  | up {x y : TypeName} {path : List TypeName} :
    parent? x = some y → Climbs parent? y path → Climbs parent? x (x :: path)

theorem Climbs.mem {parent? : TypeName → Option TypeName} {path : List TypeName}
    (climbs : Climbs parent? x path) : x ∈ path := by
  cases climbs with
  | top _ => exact List.mem_cons_self
  | up _ _ => exact List.mem_cons_self

theorem Climbs.of_top {parent? : TypeName → Option TypeName} {path : List TypeName}
    (climbs : Climbs parent? x path) (top : parent? x = none) : path = [x] := by
  cases climbs with
  | top _ => rfl
  | up parent _ => cases parent.symm.trans top

theorem Climbs.update {parent? : TypeName → Option TypeName} {path : List TypeName}
    (climbs : Climbs parent? x path) (new : y ∉ path) (found : Option TypeName) :
    Climbs (Function.update parent? y found) x path := by
  induction climbs with
  | top none =>
    rw [List.mem_singleton] at new
    exact .top ((Function.update_of_ne (Ne.symm new) _ _).trans none)
  | up parent _ ih =>
    rw [List.mem_cons, not_or] at new
    exact .up ((Function.update_of_ne (Ne.symm new.1) _ _).trans parent) (ih new.2)

namespace Sweep
variable {trail : Trail} {front next : List Trail}

structure Shows (w : Sweep) (a : TypeName) (trail : Trail) : Prop where
  climbs : Climbs w.parent? trail.here (a :: trail.types).reverse
  seen : ∀ x ∈ (a :: trail.types).reverse, x ∈ w.seen

theorem Shows.visit (shows : w.Shows a trail) (y : TypeName) (d : Nat) (x : TypeName) :
    (w.visit y d x).Shows a trail := by
  by_cases old : x ∈ w.seen
  · rw [visit_of_seen old]
    exact shows
  · rw [visit_of_new old]
    constructor
    · exact shows.climbs.update (fun mem => old (shows.seen x mem)) _
    · exact fun z mem => List.mem_cons_of_mem _ (shows.seen z mem)

theorem Shows.visits (shows : w.Shows a trail) (y : TypeName) (d : Nat) (xs : List TypeName) :
    (xs.foldl (Sweep.visit y d) w).Shows a trail := by
  induction xs generalizing w with
  | nil => exact shows
  | cons x rest ih => exact ih (shows.visit y d x)

theorem Shows.popped (shows : w.Shows a trail) : w.popped.Shows a trail :=
  ⟨shows.climbs, shows.seen⟩

theorem Shows.sweep (shows : w.Shows a trail) : (t.sweep b maxHops w).Shows a trail := by
  induction h : t.pending w using Nat.strongRecOn generalizing w with
  | ind n ih =>
    cases moved : t.advance? b maxHops w with
    | none =>
      rw [sweep_of_ended moved]
      exact shows
    | some w' =>
      rw [sweep_of_advance? moved]
      have fewer := pending_advance? moved
      refine ih _ (h ▸ fewer) ?_ rfl
      obtain ⟨_, rfl | ⟨current, d, rfl⟩⟩ := advance?_eq_some moved
      · exact shows.popped
      · exact shows.popped.visits _ _ _

theorem Shows.extended (shows : w.Shows a trail) {step : TypeName × CastFunction}
    (new : step.1 ∉ w.seen) (d : Nat) :
    (w.visit trail.here d step.1).Shows a (trail.extended step) := by
  have old := shows.visit trail.here d step.1
  have path : (a :: (trail.extended step).types).reverse = step.1 :: (a :: trail.types).reverse := by
    rw [Trail.types_extended, ← List.cons_append, List.reverse_append]
    rfl
  rw [visit_of_new new] at old ⊢
  constructor
  · rw [path]
    exact .up (Function.update_self _ _ _) old.climbs
  · rw [path]
    intro x mem
    rcases List.mem_cons.mp mem with rfl | mem
    · exact List.mem_cons_self
    · exact old.seen x mem

/-- A layer is partly left, and the next one partly found. -/
structure Holds (w : Sweep) (a : TypeName) (front next : List Trail) (d : Nat) : Prop where
  queue : w.queue = front.map (fun s => (s.here, d)) ++ next.map fun s => (s.here, d + 1)
  shown : ∀ trail ∈ front ++ next, w.Shows a trail
  fresh : ∀ x, x ∉ w.seen → w.parent? x = none

theorem Holds.visit (holds : w.Holds a front next d) (shows : w.Shows a trail)
    {step : TypeName × CastFunction} (new : step.1 ∉ w.seen) :
    (w.visit trail.here d step.1).Holds a front (next ++ [trail.extended step]) d := by
  constructor
  · rw [visit_of_new new]
    dsimp only
    rw [holds.queue, List.map_append, List.append_assoc]
    rfl
  · intro other mem
    rw [← List.append_assoc] at mem
    rcases List.mem_append.mp mem with mem | mem
    · exact (holds.shown other mem).visit _ _ _
    · cases List.mem_singleton.mp mem
      exact shows.extended new d
  · intro x unseen
    rw [visit_of_new new] at unseen ⊢
    rw [List.mem_cons, not_or] at unseen
    exact (Function.update_of_ne unseen.1 _ _).trans (holds.fresh x unseen.2)

theorem Holds.visits (holds : w.Holds a front next d) (shows : w.Shows a trail)
    (casts : List (TypeName × CastFunction)) :
    ((casts.map Prod.fst).foldl (Sweep.visit trail.here d) w).Holds a front
        (next ++ (extend w.seen trail casts).2) d ∧
      ((casts.map Prod.fst).foldl (Sweep.visit trail.here d) w).seen =
        (extend w.seen trail casts).1 := by
  induction casts generalizing w next with
  | nil =>
    rw [extend, List.append_nil]
    exact ⟨holds, rfl⟩
  | cons step rest ih =>
    rw [List.map_cons, List.foldl_cons, extend]
    by_cases old : step.1 ∈ w.seen
    · rw [visit_of_seen old, if_pos old]
      exact ih holds shows
    · have seen : (w.visit trail.here d step.1).seen = step.1 :: w.seen := by
        rw [visit_of_new old]
      have later := ih (holds.visit shows old) (shows.visit _ _ _)
      rw [seen, List.append_assoc] at later
      rw [if_neg old]
      exact later

theorem Holds.layer (holds : w.Holds a front next d) (short : d ≠ maxHops)
    (absent : ∀ s ∈ front, s.here ≠ b) :
    ∃ w', t.sweep b maxHops w = t.sweep b maxHops w' ∧
      w'.Holds a (next ++ (t.nextLayer w.seen front).2) [] (d + 1) ∧
      w'.seen = (t.nextLayer w.seen front).1 := by
  induction front generalizing w next with
  | nil =>
    refine ⟨w, rfl, ⟨?_, ?_, holds.fresh⟩, rfl⟩
    · rw [nextLayer, List.append_nil, holds.queue]
      exact (List.append_nil _).symm
    · rw [nextLayer, List.append_nil, List.append_nil]
      exact holds.shown
  | cons trail rest ih =>
    have popped : w.popped.Holds a rest next d := by
      refine ⟨?_, fun other mem => ?_, holds.fresh⟩
      · unfold Sweep.popped
        rw [holds.queue]
        rfl
      · exact (holds.shown other (List.mem_cons_of_mem _ mem)).popped
    obtain ⟨held, seen⟩ :=
      popped.visits (holds.shown trail List.mem_cons_self).popped (t.outgoing trail.here)
    have moved : t.advance? b maxHops w = some (((t.outgoing trail.here).map Prod.fst).foldl
        (Sweep.visit trail.here d) w.popped) := by
      unfold advance?
      rw [holds.queue, List.map_cons, List.cons_append]
      dsimp only
      rw [if_neg (absent trail List.mem_cons_self), if_neg short]
    obtain ⟨w', same, found, seen'⟩ :=
      ih held fun s mem => absent s (List.mem_cons_of_mem _ mem)
    rw [seen, List.append_assoc] at found
    rw [seen] at seen'
    exact ⟨w', (sweep_of_advance? moved).trans same, found, seen'⟩

theorem parent?_sweep {types : List TypeName} (queue : w.queue = types.map fun x => (x, maxHops)) :
    (t.sweep b maxHops w).parent? = w.parent? := by
  induction types generalizing w with
  | nil => rw [sweep_of_ended (by unfold advance?; rw [queue]; rfl)]
  | cons x rest ih =>
    by_cases here : x = b
    · rw [sweep_of_ended (by unfold advance?; rw [queue]; exact if_pos here)]
    · have moved : t.advance? b maxHops w = some w.popped := by
        unfold advance?
        rw [queue, List.map_cons]
        dsimp only
        rw [if_neg here, if_pos rfl]
      rw [sweep_of_advance? moved]
      exact ih (congrArg List.tail queue)

end Sweep

theorem search_seen {hops : Nat} {seen : List TypeName} {layer : List Trail} (old : b ∈ seen) :
    t.search b hops seen layer = none := by
  induction hops generalizing seen layer with
  | zero => rfl
  | succ hops ih =>
    rw [search, nextLayer_eq]
    dsimp only
    have absent : (firsts seen (t.candidates layer)).2.find?
        (fun trail => decide (trail.here = b)) = none := by
      refine List.find?_eq_none.mpr fun trail mem here => ?_
      exact firsts_unseen mem (of_decide_eq_true here ▸ old)
    rw [absent]
    exact ih (mem_seen_firsts.mpr (Or.inl old))

/-- The queue finds what the layers find, and the way back from it. -/
theorem sweep_search {hops : Nat} {layer : List Trail} (holds : w.Holds a layer [] d)
    (unseen : b ∉ w.seen) (limit : d + hops = maxHops) :
    (t.search b hops w.seen layer = none ∧ (t.sweep b maxHops w).parent? b = none) ∨
      ∃ trail, t.search b hops w.seen layer = some trail ∧ trail.here = b ∧
        (t.sweep b maxHops w).Shows a trail := by
  induction hops generalizing w d layer with
  | zero =>
    cases limit
    refine Or.inl ⟨rfl, ?_⟩
    have queue : w.queue = (layer.map Trail.here).map fun x => (x, d + 0) := by
      rw [holds.queue, List.map_map]
      exact List.append_nil _
    rw [Sweep.parent?_sweep queue]
    exact holds.fresh b unseen
  | succ hops ih =>
    have absent : ∀ s ∈ layer, s.here ≠ b := by
      intro s mem here
      have shows := holds.shown s (List.mem_append_left _ mem)
      exact unseen (here ▸ shows.seen _ shows.climbs.mem)
    obtain ⟨w', same, held, seen⟩ := holds.layer (t := t) (by omega : d ≠ maxHops) absent
    rw [List.nil_append] at held
    rw [same, search]
    dsimp only
    cases first : (t.nextLayer w.seen layer).2.find? fun trail => decide (trail.here = b) with
    | some trail =>
      refine Or.inr ⟨trail, rfl, ?_, ?_⟩
      · have here := List.find?_some first
        exact of_decide_eq_true here
      · exact (held.shown trail
          (List.mem_append_left _ (List.mem_of_find?_eq_some first))).sweep
    | none =>
      have unseen' : b ∉ w'.seen := by
        rw [seen]
        exact nextLayer_unseen t unseen first
      have later := ih held unseen' (by omega)
      rw [seen] at later
      exact later

end CastTable
end LazyCast
