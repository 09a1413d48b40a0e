import LazyCast.Proofs.Cast.Queue
/-!
What a cast site compiles to: the direct function if there is one, and otherwise, where the table
allows it, the first by name of the shortest chains.
-/
namespace LazyCast

namespace CastTable

/-- Registered functions on the way along a path, up to the first that fails. -/
inductive Converts (t : CastTable) :
    TypeName → Value → List TypeName → Except Fault Value → Prop
  | done {a : TypeName} {v : Value} : Converts t a v [] (.ok v)
  | fails {a b : TypeName} {v : Value} {path : List TypeName} {f : CastFunction} {e : Fault} :
    t.find? a b = some f → f v = .error e → Converts t a v (b :: path) (.error e)
  | step {a b : TypeName} {v u : Value} {path : List TypeName} {f : CastFunction}
    {r : Except Fault Value} :
    t.find? a b = some f → f v = .ok u → Converts t b u path r → Converts t a v (b :: path) r

/-- The first by name of the shortest chains. Only a direct cast of a type to itself visits a type
    twice. -/
structure Shortest (t : CastTable) (a b : TypeName) (chain : CastChain) : Prop where
  source : chain.source = a
  target : chain.path.getLast? = some b
  route : t.Route a chain.steps b
  minimal : ∀ steps, steps ≠ [] → t.Route a steps b → chain.hops ≤ steps.length
  least : ∀ steps, t.Route a steps b → steps.length = chain.hops →
    NoLater chain.path (a :: steps.map Prod.fst)
  nodup : a ≠ b → chain.path.Nodup
  converts : ∀ v r, chain.apply v = r ↔ t.Converts a v (chain.steps.map Prod.fst) r

/-- The queue has found the target just when there is a chain, and the way back from the target is
    the path of the chain. -/
def Sweep.Answers (w : Sweep) (target : TypeName) : Option CastChain → Prop
  | none => w.parent? target = none
  | some chain => w.parent? target ≠ none ∧ Climbs w.parent? target chain.path.reverse

variable {t : CastTable} {a b : TypeName} {hops : Nat} {chain : CastChain} {trail : Trail}
  {steps : List (TypeName × CastFunction)}

theorem Route.converts (route : t.Route a steps b) (v : Value) (r : Except Fault Value) :
    steps.foldlM (fun v s => s.2 v) v = r ↔ t.Converts a v (steps.map Prod.fst) r := by
  induction route generalizing v with
  | stay a =>
    constructor
    · rintro rfl
      exact .done
    · rintro ⟨⟩
      rfl
  | @step a b c f steps found _ ih =>
    have first : ((b, f) :: steps).foldlM (fun v s => s.2 v) v =
        (f v).bind fun u => steps.foldlM (fun v s => s.2 v) u := List.foldlM_cons
    rw [first, List.map_cons]
    cases ran : f v with
    | error e =>
      constructor
      · rintro rfl
        exact .fails found ran
      · intro converts
        cases converts with
        | fails found' ran' =>
          cases found.symm.trans found'
          exact ran.symm.trans ran'
        | step found' ran' _ =>
          cases found.symm.trans found'
          cases ran.symm.trans ran'
    | ok u =>
      refine (ih u).trans ⟨.step found ran, fun converts => ?_⟩
      cases converts with
      | fails found' ran' =>
        cases found.symm.trans found'
        cases ran.symm.trans ran'
      | step found' ran' rest =>
        cases found.symm.trans found'
        cases ran.symm.trans ran'
        exact rest

theorem Route.getLast? (route : t.Route a steps b) :
    (a :: steps.map Prod.fst).getLast? = some b := by
  induction route with
  | stay a => rfl
  | step _ _ ih => exact ih

theorem shortest_direct {f : CastFunction} (found : t.find? a b = some f) :
    t.Shortest a b ⟨a, [(b, f)]⟩ := by
  have route : t.Route a [(b, f)] b := .step found (.stay b)
  refine ⟨rfl, rfl, route, ?_, ?_, ?_, fun v r => route.converts v r⟩
  · intro steps moves _
    exact List.length_pos_of_ne_nil moves
  · intro steps route' length
    obtain ⟨step, rfl⟩ := List.length_eq_one_iff.mp length
    cases route' with
    | step _ rest =>
      cases rest
      exact Or.inl rfl
  · intro other
    exact List.nodup_cons.mpr ⟨by simpa using other, List.pairwise_singleton _ b⟩

theorem Found.shortest (found : t.Found a b trail) : t.Shortest a b ⟨a, trail.taken.reverse⟩ := by
  have same : trail.taken.reverse.length = trail.taken.length := List.length_reverse
  have far : t.Far a b trail.taken.reverse.length := by
    rw [same]
    exact found.far
  refine ⟨rfl, found.route.getLast?, found.route, fun steps _ route => far steps route, ?_,
    fun _ => found.route.nodup far, fun v r => found.route.converts v r⟩
  intro steps route length
  rcases found.least steps route (length.trans same) with first | earlier
  · exact Or.inl (congrArg (a :: ·) first)
  · exact Or.inr (.cons earlier)

theorem search_mono {more : Nat} {seen : List TypeName} {layer : List Trail}
    (searched : t.search b hops seen layer = some trail) (le : hops ≤ more) :
    t.search b more seen layer = some trail := by
  induction hops generalizing more seen layer with
  | zero => cases searched
  | succ hops ih =>
    obtain ⟨more, rfl⟩ := Nat.exists_eq_succ_of_ne_zero (Nat.ne_zero_of_lt le)
    rw [search] at searched ⊢
    dsimp only at searched ⊢
    split at searched
    · exact searched
    · exact ih searched (Nat.le_of_succ_le_succ le)

/-- No chain is missed for having more hops than the table has functions. -/
theorem shortestChain?_eq (ordered : t.Ordered) (a b : TypeName) (maxHops : Nat) :
    t.shortestChain? a b maxHops = (t.search b maxHops [a] [⟨a, []⟩]).map fun trail =>
      ⟨a, trail.taken.reverse⟩ := by
  unfold shortestChain?
  have start := Layer.start t a
  cases searched : t.search b (min maxHops t.size) [a] [⟨a, []⟩] with
  | some trail => rw [search_mono searched (Nat.min_le_left _ _)]
  | none =>
    cases searched' : t.search b maxHops [a] [⟨a, []⟩] with
    | none => rfl
    | some trail =>
      obtain ⟨found, moves, bounded⟩ := search_found ordered start searched'
      have other : b ∉ [a] := by
        intro old
        rw [search_seen old] at searched'
        cases searched'
      have far := search_none ordered start other searched _ found.route
      have few := found.route.length_le_size
        (found.shortest.nodup fun same => other (List.mem_singleton.mpr same.symm))
      rw [List.length_reverse] at far few
      omega

theorem shortestChain?_some (ordered : t.Ordered)
    (shortest : t.shortestChain? a b hops = some chain) :
    t.Shortest a b chain ∧ chain.hops ≤ hops := by
  rw [shortestChain?_eq ordered] at shortest
  obtain ⟨trail, searched, rfl⟩ := Option.map_eq_some_iff.mp shortest
  obtain ⟨found, _, bounded⟩ := search_found ordered (Layer.start t a) searched
  refine ⟨found.shortest, ?_⟩
  unfold CastChain.hops
  rw [List.length_reverse]
  omega

theorem shortestChain?_none (ordered : t.Ordered) (other : a ≠ b)
    (none : t.shortestChain? a b hops = none) : t.Far a b (hops + 1) := by
  rw [shortestChain?_eq ordered, Option.map_eq_none_iff] at none
  have far := search_none ordered (Layer.start t a) (by simpa using other.symm) none
  rw [Nat.zero_add] at far
  exact far

theorem shortestChain?_self (a : TypeName) (maxHops : Nat) :
    t.shortestChain? a a maxHops = none := by
  unfold shortestChain?
  rw [search_seen (List.mem_singleton_self a)]
  rfl

theorem Sweep.holds_start (a : TypeName) : (start a).Holds a [⟨a, []⟩] [] 0 := by
  refine ⟨rfl, fun trail mem => ?_, fun x _ => rfl⟩
  cases List.mem_singleton.mp mem
  exact ⟨.top rfl, fun x mem => mem⟩

theorem sweep_answers (ordered : t.Ordered) (a b : TypeName) (maxHops : Nat) :
    (t.sweep b maxHops (.start a)).Answers b (t.shortestChain? a b maxHops) := by
  by_cases same : a = b
  · subst same
    rw [shortestChain?_self, sweep_of_ended]
    · rfl
    · exact if_pos rfl
  · rw [shortestChain?_eq ordered]
    have unseen : b ∉ (Sweep.start a).seen := fun mem => same (List.mem_singleton.mp mem).symm
    rcases sweep_search (t := t) (Sweep.holds_start a) unseen (Nat.zero_add maxHops) with
      ⟨none, lost⟩ | ⟨trail, searched, here, shows⟩
    · have searched : t.search b maxHops [a] [⟨a, []⟩] = Option.none := none
      rw [searched]
      exact lost
    · have searched' : t.search b maxHops [a] [⟨a, []⟩] = some trail := searched
      rw [searched']
      have climbs := shows.climbs
      rw [here] at climbs
      refine ⟨fun top => ?_, climbs⟩
      obtain ⟨_, moves, _⟩ := search_found ordered (Layer.start t a) searched'
      have long := congrArg List.length (climbs.of_top top)
      rw [List.length_reverse, List.length_cons, Trail.length_types, List.length_singleton] at long
      omega

theorem compile_self (missing : t.find? a a = none) :
    t.compile a a = .error (.noCastFunction a a) := by
  unfold compile
  rw [missing]
  cases t.transitivity with
  | strict => rfl
  | chained maxHops =>
    dsimp only
    rw [shortestChain?_self]

theorem compile_chained (ordered : t.Ordered) {maxHops : Nat} (missing : t.find? a b = none)
    (policy : t.transitivity = .chained maxHops) (other : a ≠ b) :
    (∃ chain, t.compile a b = .ok chain) ↔ ∃ steps, t.Route a steps b ∧ steps.length ≤ maxHops := by
  unfold compile
  rw [missing, policy]
  dsimp only
  cases shortest : t.shortestChain? a b maxHops with
  | some chain =>
    obtain ⟨found, bounded⟩ := shortestChain?_some ordered shortest
    exact ⟨fun _ => ⟨chain.steps, found.route, bounded⟩, fun _ => ⟨chain, rfl⟩⟩
  | none =>
    constructor
    · rintro ⟨chain, ⟨⟩⟩
    · rintro ⟨steps, route, short⟩
      have far := shortestChain?_none ordered other shortest steps route
      omega

theorem compile_error {e : Fault} (refused : t.compile a b = .error e) :
    e = .noCastFunction a b := by
  unfold compile at refused
  split at refused
  · cases refused
  · split at refused
    · exact (Except.error.inj refused).symm
    · split at refused
      · cases refused
      · exact (Except.error.inj refused).symm

theorem shortest_of_compile (ordered : t.Ordered) (compiled : t.compile a b = .ok chain) :
    t.Shortest a b chain := by
  unfold compile at compiled
  split at compiled
  · rename_i found
    cases compiled
    exact shortest_direct found
  · split at compiled
    · cases compiled
    · split at compiled
      · rename_i shortest
        cases compiled
        exact (shortestChain?_some ordered shortest).1
      · cases compiled

/-- Every cast site of a table that can be made compiles to its direct function, and without one to
    the first by name of the shortest chains that its policy allows. The types of the chain are the
    way back from the target that a queue leaves behind, which runs out on every table. -/
theorem compile_shortest (built : t.Built) (a b : TypeName) :
    (∀ f, t.find? a b = some f → t.compile a b = .ok ⟨a, [(b, f)]⟩) ∧
    (t.find? a b = none →
      (t.transitivity = .strict → t.compile a b = .error (.noCastFunction a b)) ∧
      (a = b → t.compile a b = .error (.noCastFunction a b)) ∧
      ∀ maxHops, t.transitivity = .chained maxHops → a ≠ b →
        ((∃ chain, t.compile a b = .ok chain) ↔
          ∃ steps, t.Route a steps b ∧ steps.length ≤ maxHops)) ∧
    (∀ e, t.compile a b = .error e → e = .noCastFunction a b) ∧
    (∀ chain, t.compile a b = .ok chain → t.Shortest a b chain) ∧
    ∀ maxHops, (t.sweep b maxHops (.start a)).Answers b (t.shortestChain? a b maxHops) := by
  have ordered := built.ordered
  refine ⟨?_, ?_, fun e refused => compile_error refused,
    fun chain compiled => shortest_of_compile ordered compiled, sweep_answers ordered a b⟩
  · intro f found
    unfold compile
    rw [found]
  · intro missing
    refine ⟨fun strict => ?_, ?_, fun maxHops policy other =>
      compile_chained ordered missing policy other⟩
    · unfold compile
      rw [missing, strict]
    · rintro rfl
      exact compile_self missing

def ring : CastTable :=
  { ((((empty.register "a" "c" .ok).register "a" "b" .ok).register "c" "d" .ok).register
      "b" "d" .ok).register "d" "a" .ok with transitivity := .chained 2 }

/-- Of the two, the way through the first name is taken; there is no way from a type to itself. -/
theorem ring_shortest : ∃ chain, ring.compile "a" "d" = .ok chain ∧
    chain.path = ["a", "b", "d"] ∧ ring.Shortest "a" "d" chain ∧
    ring.compile "a" "a" = .error (.noCastFunction "a" "a") := by
  have built : ring.Built :=
    .policy _ (.register _ _ _ (.register _ _ _ (.register _ _ _ (.register _ _ _
      (.register _ _ _ .empty)))))
  obtain ⟨chain, compiled, path⟩ : ∃ chain, ring.compile "a" "d" = .ok chain ∧
      chain.path = ["a", "b", "d"] := ⟨_, rfl, rfl⟩
  obtain ⟨_, _, _, shortest, _⟩ := compile_shortest built "a" "d"
  obtain ⟨_, missing, _⟩ := compile_shortest built "a" "a"
  obtain ⟨_, refused, _⟩ := missing rfl
  exact ⟨chain, compiled, path, shortest chain compiled, refused rfl⟩

end CastTable
end LazyCast
