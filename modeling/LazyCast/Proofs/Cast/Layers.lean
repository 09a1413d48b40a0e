import LazyCast.Proofs.Cast.Routes
/-!
The layers of the search. A layer holds the types at one distance from the source, each with the
first by name of the shortest routes to it, and the layers after it start from just these.
-/
namespace LazyCast

def Earlier (p q : List TypeName) : Prop := List.Lex (fun a b => Key.before a b = true) p q

def NoLater (p q : List TypeName) : Prop := p = q ∨ Earlier p q

section
variable {p q r : List TypeName}

theorem Earlier.trans (first : Earlier p q) (second : Earlier q r) : Earlier p r :=
  List.lex_trans LawfulKey.trans first second

theorem Earlier.noLater (first : Earlier p q) (second : NoLater q r) : NoLater p r := by
  rcases second with rfl | second
  · exact Or.inr first
  · exact Or.inr (first.trans second)

theorem Earlier.append (earlier : Earlier p q) (same : p.length = q.length) (xs ys : List TypeName) :
    Earlier (p ++ xs) (q ++ ys) := by
  unfold Earlier at *
  induction earlier with
  | nil => cases same
  | rel before => exact .rel before
  | cons _ ih => exact .cons (ih (Nat.succ.inj same))

theorem earlier_snoc (p : List TypeName) {x y : TypeName} (before : Key.before x y = true) :
    Earlier (p ++ [x]) (p ++ [y]) := by
  induction p with
  | nil => exact .rel before
  | cons _ _ ih => exact .cons ih

theorem NoLater.snoc (noLater : NoLater p q) (same : p.length = q.length) (x : TypeName) :
    NoLater (p ++ [x]) (q ++ [x]) := by
  rcases noLater with rfl | earlier
  · exact Or.inl rfl
  · exact Or.inr (earlier.append same _ _)

end

namespace CastTable

namespace Trail

def types (trail : Trail) : List TypeName := trail.taken.reverse.map Prod.fst

def extended (trail : Trail) (step : TypeName × CastFunction) : Trail :=
  ⟨step.1, step :: trail.taken⟩

theorem types_extended (trail : Trail) (step : TypeName × CastFunction) :
    (trail.extended step).types = trail.types ++ [step.1] := by
  simp [types, extended]

theorem length_types (trail : Trail) : trail.types.length = trail.taken.length := by
  simp [types]

end Trail

def firsts : List TypeName → List Trail → List TypeName × List Trail
  | seen, [] => (seen, [])
  | seen, trail :: rest =>
    if trail.here ∈ seen then firsts seen rest
    else ((firsts (trail.here :: seen) rest).1, trail :: (firsts (trail.here :: seen) rest).2)

def candidates (t : CastTable) (layer : List Trail) : List Trail :=
  layer.flatMap fun trail => (t.outgoing trail.here).map trail.extended

variable {t : CastTable} {a b x : TypeName} {d : Nat} {seen : List TypeName}
  {trails layer : List Trail} {trail : Trail}

theorem firsts_append (seen : List TypeName) (trails others : List Trail) :
    firsts seen (trails ++ others) = ((firsts (firsts seen trails).1 others).1,
      (firsts seen trails).2 ++ (firsts (firsts seen trails).1 others).2) := by
  induction trails generalizing seen with
  | nil => rfl
  | cons trail rest ih =>
    rw [List.cons_append, firsts, firsts]
    split
    · exact ih seen
    · rw [ih]
      rfl

theorem extend_eq (seen : List TypeName) (trail : Trail) (casts : List (TypeName × CastFunction)) :
    extend seen trail casts = firsts seen (casts.map trail.extended) := by
  induction casts generalizing seen with
  | nil => rfl
  | cons step rest ih =>
    obtain ⟨b, f⟩ := step
    rw [extend, List.map_cons, firsts, ih, ih]
    rfl

theorem nextLayer_eq (t : CastTable) (seen : List TypeName) (layer : List Trail) :
    t.nextLayer seen layer = firsts seen (t.candidates layer) := by
  induction layer generalizing seen with
  | nil => rfl
  | cons trail rest ih =>
    rw [nextLayer, candidates, List.flatMap_cons, firsts_append, extend_eq]
    dsimp only
    rw [ih]
    rfl

theorem mem_seen_firsts :
    x ∈ (firsts seen trails).1 ↔ x ∈ seen ∨ ∃ trail ∈ trails, trail.here = x := by
  induction trails generalizing seen with
  | nil => simp [firsts]
  | cons trail rest ih =>
    rw [firsts]
    split
    · rename_i here
      rw [ih]
      constructor
      · rintro (old | ⟨next, mem, same⟩)
        · exact Or.inl old
        · exact Or.inr ⟨next, List.mem_cons_of_mem _ mem, same⟩
      · rintro (old | ⟨next, mem, same⟩)
        · exact Or.inl old
        · rcases List.mem_cons.mp mem with rfl | mem
          · exact Or.inl (same ▸ here)
          · exact Or.inr ⟨next, mem, same⟩
    · rw [ih, List.mem_cons, List.exists_mem_cons_iff, or_assoc, or_left_comm, eq_comm]

theorem firsts_sublist (seen : List TypeName) (trails : List Trail) :
    (firsts seen trails).2.Sublist trails := by
  induction trails generalizing seen with
  | nil => exact .slnil
  | cons trail rest ih =>
    rw [firsts]
    split
    · exact (ih seen).cons trail
    · exact (ih _).cons_cons trail

theorem firsts_unseen (mem : trail ∈ (firsts seen trails).2) : trail.here ∉ seen := by
  induction trails generalizing seen with
  | nil => cases mem
  | cons first rest ih =>
    rw [firsts] at mem
    split at mem
    · exact ih mem
    · rename_i new
      rcases List.mem_cons.mp mem with rfl | mem
      · exact new
      · exact fun old => ih mem (List.mem_cons_of_mem _ old)

theorem exists_firsts {r : Trail → Trail → Prop} (sorted : trails.Pairwise r) (mem : trail ∈ trails)
    (new : trail.here ∉ seen) :
    ∃ kept ∈ (firsts seen trails).2, kept.here = trail.here ∧ (kept = trail ∨ r kept trail) := by
  induction trails generalizing seen with
  | nil => cases mem
  | cons first rest ih =>
    obtain ⟨before, later⟩ := List.pairwise_cons.mp sorted
    rw [firsts]
    rcases List.mem_cons.mp mem with rfl | mem
    · rw [if_neg new]
      exact ⟨trail, List.mem_cons_self, rfl, Or.inl rfl⟩
    · split
      · exact ih later mem new
      · by_cases same : trail.here = first.here
        · exact ⟨first, List.mem_cons_self, same.symm, Or.inr (before trail mem)⟩
        · have new' : trail.here ∉ first.here :: seen := by
            rw [List.mem_cons, not_or]
            exact ⟨same, new⟩
          obtain ⟨kept, inside, here, order⟩ := ih later mem new'
          exact ⟨kept, List.mem_cons_of_mem _ inside, here, order⟩

theorem nextLayer_unseen (t : CastTable) (new : x ∉ seen)
    (absent : (t.nextLayer seen layer).2.find? (fun trail => decide (trail.here = x)) = none) :
    x ∉ (t.nextLayer seen layer).1 := by
  rw [nextLayer_eq] at absent ⊢
  rw [mem_seen_firsts]
  rintro (old | ⟨trail, mem, rfl⟩)
  · exact new old
  · have sorted : (t.candidates layer).Pairwise fun _ _ => True :=
      List.pairwise_of_forall fun _ _ => trivial
    obtain ⟨kept, inside, here, _⟩ := exists_firsts sorted mem new
    exact List.find?_eq_none.mp absent kept inside (decide_eq_true here)

/-- The types at a distance from a source, each at the end of the first of the shortest routes. -/
structure Layer (t : CastTable) (a : TypeName) (d : Nat) (seen : List TypeName)
    (layer : List Trail) : Prop where
  route : ∀ trail ∈ layer, t.Route a trail.taken.reverse trail.here
  depth : ∀ trail ∈ layer, trail.taken.length = d
  far : ∀ trail ∈ layer, t.Far a trail.here d
  least : ∀ steps b, t.Route a steps b → steps.length = d → t.Far a b d →
    ∃ trail ∈ layer, trail.here = b ∧ NoLater trail.types (steps.map Prod.fst)
  sorted : layer.Pairwise fun s s' => Earlier s.types s'.types
  seen : ∀ b, b ∈ seen ↔ ∃ steps, t.Route a steps b ∧ steps.length ≤ d

theorem Layer.start (t : CastTable) (a : TypeName) : t.Layer a 0 [a] [⟨a, []⟩] where
  route trail mem := by
    cases List.mem_singleton.mp mem
    exact .stay a
  depth trail mem := by
    cases List.mem_singleton.mp mem
    rfl
  far trail mem steps route := Nat.zero_le _
  least steps b route none far := by
    cases List.length_eq_zero_iff.mp none
    cases route
    exact ⟨_, List.mem_singleton_self _, rfl, Or.inl rfl⟩
  sorted := List.pairwise_singleton _ _
  seen b := by
    rw [List.mem_singleton]
    constructor
    · rintro rfl
      exact ⟨[], .stay b, Nat.le_refl 0⟩
    · rintro ⟨steps, route, none⟩
      cases List.length_eq_zero_iff.mp (Nat.le_zero.mp none)
      cases route
      rfl

theorem mem_candidates {next : Trail} : next ∈ t.candidates layer ↔
    ∃ trail ∈ layer, ∃ step ∈ t.outgoing trail.here, trail.extended step = next := by
  simp [candidates]

namespace Layer
variable (ordered : t.Ordered) (reached : t.Layer a d seen layer)

include reached

theorem far_of_unseen (unseen : b ∉ seen) : t.Far a b (d + 1) := by
  intro steps route
  refine Nat.lt_of_not_le fun short => unseen ?_
  exact (reached.seen b).mpr ⟨steps, route, short⟩

include ordered

theorem candidate {next : Trail} (mem : next ∈ t.candidates layer) :
    t.Route a next.taken.reverse next.here ∧ next.taken.length = d + 1 := by
  obtain ⟨trail, inside, step, cast, rfl⟩ := mem_candidates.mp mem
  constructor
  · have route := (reached.route trail inside).snoc (ordered.mem_outgoing.mp cast)
    rw [← List.reverse_cons] at route
    exact route
  · exact congrArg (· + 1) (reached.depth trail inside)

theorem exists_candidate {steps : List (TypeName × CastFunction)} (route : t.Route a steps b)
    (length : steps.length = d + 1) (far : t.Far a b (d + 1)) :
    ∃ next ∈ t.candidates layer, next.here = b ∧ NoLater next.types (steps.map Prod.fst) := by
  obtain ⟨init, c, f, rfl, start, found⟩ := route.unsnoc (by
    rintro rfl
    cases length)
  rw [List.length_append] at length
  have short : init.length = d := Nat.succ.inj length
  have far' : t.Far a c d := by
    intro others route
    have long := far _ (route.snoc found)
    rw [List.length_append, List.length_singleton] at long
    omega
  obtain ⟨trail, inside, rfl, noLater⟩ := reached.least init c start short far'
  refine ⟨trail.extended (b, f), ?_, rfl, ?_⟩
  · exact mem_candidates.mpr ⟨trail, inside, _, ordered.mem_outgoing.mpr found, rfl⟩
  · rw [Trail.types_extended, List.map_append]
    refine noLater.snoc ?_ b
    rw [Trail.length_types, reached.depth trail inside, List.length_map, short]

theorem candidates_sorted :
    (t.candidates layer).Pairwise fun s s' => Earlier s.types s'.types := by
  refine List.pairwise_flatMap.mpr ⟨fun trail _ => ?_, ?_⟩
  · refine List.pairwise_map.mpr ((ordered.outgoing_ascending trail.here).imp fun before => ?_)
    rw [Trail.types_extended, Trail.types_extended]
    exact earlier_snoc trail.types before
  · refine reached.sorted.imp_of_mem fun {trail other} inside inside' earlier => ?_
    intro next mem next' mem'
    obtain ⟨step, _, rfl⟩ := List.mem_map.mp mem
    obtain ⟨step', _, rfl⟩ := List.mem_map.mp mem'
    rw [Trail.types_extended, Trail.types_extended]
    refine earlier.append ?_ _ _
    rw [Trail.length_types, Trail.length_types, reached.depth _ inside, reached.depth _ inside']

theorem exists_next {steps : List (TypeName × CastFunction)} (route : t.Route a steps b)
    (length : steps.length = d + 1) (far : t.Far a b (d + 1)) :
    ∃ trail ∈ (firsts seen (t.candidates layer)).2,
      trail.here = b ∧ NoLater trail.types (steps.map Prod.fst) := by
  obtain ⟨next, mem, rfl, noLater⟩ := reached.exists_candidate ordered route length far
  have new : next.here ∉ seen := by
    intro old
    obtain ⟨others, route', short⟩ := (reached.seen _).mp old
    have long := far others route'
    omega
  obtain ⟨trail, inside, here, order⟩ := exists_firsts (reached.candidates_sorted ordered) mem new
  refine ⟨trail, inside, here, ?_⟩
  rcases order with rfl | earlier
  · exact noLater
  · exact earlier.noLater noLater

theorem mem_next : b ∈ (firsts seen (t.candidates layer)).1 ↔
    ∃ steps, t.Route a steps b ∧ steps.length ≤ d + 1 := by
  rw [mem_seen_firsts, reached.seen]
  constructor
  · rintro (⟨steps, route, short⟩ | ⟨next, mem, rfl⟩)
    · exact ⟨steps, route, Nat.le_succ_of_le short⟩
    · obtain ⟨route, length⟩ := reached.candidate ordered mem
      exact ⟨_, route, Nat.le_of_eq (List.length_reverse.trans length)⟩
  · rintro ⟨steps, route, short⟩
    by_cases old : b ∈ seen
    · exact Or.inl ((reached.seen b).mp old)
    · have far := reached.far_of_unseen old
      have length := Nat.le_antisymm short (far steps route)
      obtain ⟨next, mem, here, _⟩ := reached.exists_candidate ordered route length far
      exact Or.inr ⟨next, mem, here⟩

theorem next : t.Layer a (d + 1) (t.nextLayer seen layer).1 (t.nextLayer seen layer).2 := by
  rw [nextLayer_eq]
  have kept := firsts_sublist seen (t.candidates layer)
  exact {
    route := fun trail mem => (reached.candidate ordered (kept.subset mem)).1
    depth := fun trail mem => (reached.candidate ordered (kept.subset mem)).2
    far := fun trail mem => reached.far_of_unseen (firsts_unseen mem)
    least := fun steps b route length far => reached.exists_next ordered route length far
    sorted := (reached.candidates_sorted ordered).sublist kept
    seen := fun b => reached.mem_next ordered }

end Layer

structure Found (t : CastTable) (a b : TypeName) (trail : Trail) : Prop where
  route : t.Route a trail.taken.reverse b
  far : t.Far a b trail.taken.length
  least : ∀ steps, t.Route a steps b → steps.length = trail.taken.length →
    NoLater trail.types (steps.map Prod.fst)

theorem Layer.found (reached : t.Layer a d seen layer)
    (first : layer.find? (fun trail => decide (trail.here = b)) = some trail) :
    t.Found a b trail := by
  have inside := List.mem_of_find?_eq_some first
  obtain ⟨here, before, after, same, others⟩ := List.find?_eq_some_iff_append.mp first
  have depth := reached.depth trail inside
  cases of_decide_eq_true here
  refine ⟨reached.route trail inside, depth ▸ reached.far trail inside, fun steps route length => ?_⟩
  obtain ⟨other, mem, here, noLater⟩ :=
    reached.least steps _ route (length.trans depth) (reached.far trail inside)
  have sorted := reached.sorted
  rw [same] at mem sorted
  obtain ⟨_, rest, _⟩ := List.pairwise_append.mp sorted
  rcases List.mem_append.mp mem with mem | mem
  · have no := others other mem
    rw [decide_eq_true here] at no
    cases no
  · rcases List.mem_cons.mp mem with rfl | mem
    · exact noLater
    · exact ((List.pairwise_cons.mp rest).1 other mem).noLater noLater

theorem search_found {hops : Nat} (ordered : t.Ordered) (reached : t.Layer a d seen layer)
    (searched : t.search b hops seen layer = some trail) :
    t.Found a b trail ∧ d < trail.taken.length ∧ trail.taken.length ≤ d + hops := by
  induction hops generalizing d seen layer with
  | zero => cases searched
  | succ hops ih =>
    have next := reached.next ordered
    rw [search] at searched
    dsimp only at searched
    split at searched
    · rename_i first
      cases searched
      have depth := next.depth trail (List.mem_of_find?_eq_some first)
      exact ⟨next.found first, by omega⟩
    · obtain ⟨found, deeper, bounded⟩ := ih next searched
      exact ⟨found, by omega⟩

theorem search_none {hops : Nat} (ordered : t.Ordered) (reached : t.Layer a d seen layer)
    (unseen : b ∉ seen) (searched : t.search b hops seen layer = none) :
    t.Far a b (d + hops + 1) := by
  induction hops generalizing d seen layer with
  | zero => exact reached.far_of_unseen unseen
  | succ hops ih =>
    have next := reached.next ordered
    rw [search] at searched
    dsimp only at searched
    split at searched
    · cases searched
    · rename_i absent
      have unseen' := nextLayer_unseen t unseen absent
      have far := ih next unseen' searched
      rw [Nat.add_right_comm d 1 hops] at far
      exact far

end CastTable
end LazyCast
