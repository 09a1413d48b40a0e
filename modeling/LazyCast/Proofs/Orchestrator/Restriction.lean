import LazyCast.Proofs.Orchestrator.Agreement
import LazyCast.Proofs.Passes.Pooled
/-!
Restricted offices. A plan holds what a program refers to and all that stands above it, so leaving
the other kinds out takes no escalation away from a kind of the program. Only the classical kind is
part of every plan without what stands above it: its instructions may lose the kind that they would
have escalated to, and nothing else changes where instructions go.
-/
namespace LazyCast

namespace CapabilityTable
variable {t : CapabilityTable} {host kind : Kind} {i : Instruction} {plan : SpawnPlan}

def Ordered (entries : List Capabilities) : Prop :=
  entries.Pairwise fun a b => Key.before a.kind b.kind = true

theorem Ordered.place {placed : List Capabilities} (ordered : Ordered placed) (c : Capabilities) :
    Ordered (place c placed) := by
  induction placed with
  | nil => exact List.pairwise_singleton _ _
  | cons d ds ih =>
    obtain ⟨first, rest⟩ := List.pairwise_cons.mp ordered
    rw [CapabilityTable.place]
    split
    · exact ordered
    · rename_i other
      split
      · rename_i before
        refine List.pairwise_cons.mpr ⟨fun e mem => ?_, ordered⟩
        rcases List.mem_cons.mp mem with rfl | mem
        · exact before
        · exact Kind.before_trans before (first e mem)
      · rename_i no
        refine List.pairwise_cons.mpr ⟨fun e mem => ?_, ih rest⟩
        rcases mem_place mem with rfl | mem
        · exact Kind.before_of_not (Ne.symm other) no
        · exact first e mem

theorem ordered_ofList (entries : List Capabilities) (universal : Capabilities) :
    Ordered (ofList entries universal).entries := by
  have upto : ∀ (entries placed : List Capabilities), Ordered placed →
      Ordered (entries.foldl (fun placed c => CapabilityTable.place c placed) placed) := by
    intro entries
    induction entries with
    | nil => exact fun placed ordered => ordered
    | cons c cs ih => exact fun placed ordered => ih _ (ordered.place c)
  exact upto entries [] List.Pairwise.nil

theorem Ordered.ext {as bs : List Capabilities} (ordered : Ordered as) (ordered' : Ordered bs)
    (same : ∀ c, c ∈ as ↔ c ∈ bs) : as = bs := by
  have irrefl : Std.Irrefl fun a b : Capabilities => Key.before a.kind b.kind = true :=
    ⟨fun c => Kind.before_irrefl c.kind⟩
  have antisymm : Std.Antisymm fun a b : Capabilities => Key.before a.kind b.kind = true :=
    ⟨fun a b before after => absurd (Kind.before_trans before after) (Kind.before_irrefl a.kind)⟩
  exact List.Pairwise.eq_of_mem_iff ordered ordered' same

theorem mem_place_iff {c d : Capabilities} {placed : List Capabilities}
    (sole : ∀ e ∈ placed, e.kind = c.kind → e = c) : d ∈ place c placed ↔ d = c ∨ d ∈ placed := by
  refine ⟨mem_place, fun mem => ?_⟩
  induction placed with
  | nil => exact List.mem_singleton.mpr (mem.resolve_right List.not_mem_nil)
  | cons e es ih =>
    have sole' : ∀ x ∈ es, x.kind = c.kind → x = c := fun x mem => sole x (List.mem_cons_of_mem e mem)
    rw [place]
    split
    · rename_i same
      rcases mem with rfl | mem
      · rw [← sole e List.mem_cons_self same.symm]
        exact List.mem_cons_self
      · exact mem
    · split
      · rcases mem with rfl | mem
        · exact List.mem_cons_self
        · exact List.mem_cons_of_mem c mem
      · rcases mem with rfl | mem
        · exact List.mem_cons_of_mem e (ih sole' (Or.inl rfl))
        · rcases List.mem_cons.mp mem with rfl | mem
          · exact List.mem_cons_self
          · exact List.mem_cons_of_mem e (ih sole' (Or.inr mem))

theorem mem_ofList_iff {entries : List Capabilities} {universal c : Capabilities}
    (sole : ∀ a ∈ entries, ∀ b ∈ entries, a.kind = b.kind → a = b) :
    c ∈ (ofList entries universal).entries ↔ c ∈ entries := by
  have upto : ∀ (entries placed : List Capabilities),
      (∀ a ∈ placed ++ entries, ∀ b ∈ placed ++ entries, a.kind = b.kind → a = b) →
      (c ∈ entries.foldl (fun placed c => place c placed) placed ↔ c ∈ placed ++ entries) := by
    intro entries
    induction entries with
    | nil => exact fun placed _ => by rw [List.append_nil]; rfl
    | cons d ds ih =>
      intro placed sole
      have here : ∀ x, x ∈ place d placed ↔ x = d ∨ x ∈ placed := fun x =>
        mem_place_iff fun e mem same => sole e (List.mem_append_left _ mem) d
          (List.mem_append_right _ List.mem_cons_self) same
      have listed : ∀ x, x ∈ place d placed ++ ds ↔ x ∈ placed ++ d :: ds := by
        intro x
        rw [List.mem_append, here, List.mem_append, List.mem_cons, or_comm (a := x = d), or_assoc]
      rw [List.foldl_cons, ih _ fun a at_a b at_b =>
        sole a ((listed a).mp at_a) b ((listed b).mp at_b), listed]
  exact upto entries [] sole

def among (t : CapabilityTable) (plan : SpawnPlan) : CapabilityTable :=
  { t with entries := t.entries.filter fun c => plan.contains c.kind }

/-- An instruction escalates to a kind outside a plan. -/
def Strays (t : CapabilityTable) (plan : SpawnPlan) (host : Kind) (i : Instruction) : Prop :=
  ∃ kind, t.resolve host i = .ok (kind, .escalated) ∧ plan.contains kind = false

theorem kindSupports_among (planned : plan.contains kind = true) (opcode : String) :
    (t.among plan).kindSupports kind opcode = t.kindSupports kind opcode := by
  have same : (t.among plan).find? kind = t.find? kind := by
    unfold find? among
    dsimp only
    rw [List.find?_filter]
    congr 2
    funext c
    by_cases here : c.kind = kind
    · simp [here, planned]
    · simp [here]
  unfold kindSupports
  rw [same]

theorem find?_above_among (kind : Kind) (p : Capabilities → Bool) :
    ((t.among plan).above kind).find? p =
      (t.above kind).find? fun c => plan.contains c.kind && p c := by
  unfold above among
  rw [List.find?_filter, List.find?_filter, List.find?_filter]
  congr 1
  funext c
  cases plan.contains c.kind <;> cases c.kind.isAbove kind <;> cases p c <;> rfl

/-- What is found first is still found first by a stricter search that it passes. -/
theorem find?_stricter {cs : List Capabilities} {p q : Capabilities → Bool} {c : Capabilities}
    (found : cs.find? p = some c) (passes : q c = true) :
    (cs.find? fun d => q d && p d) = some c := by
  obtain ⟨holds, as, bs, rfl, none⟩ := List.find?_eq_some_iff_append.mp found
  refine List.find?_eq_some_iff_append.mpr ⟨by simp [passes, holds], as, bs, rfl, fun d mem => ?_⟩
  simpa using Or.inr (by simpa using none d mem)

theorem resolve_among (hosted : plan.contains host = true) (declared : plan.contains i.kind = true) :
    (t.among plan).resolve host i = t.resolve host i ↔ ¬ t.Strays plan host i := by
  unfold Strays resolve
  rw [kindSupports_among hosted, kindSupports_among declared, find?_above_among]
  by_cases embedded : (host.isAbove i.kind && t.kindSupports host i.opcode) = true
  · simp [embedded]
  by_cases native : t.kindSupports i.kind i.opcode = true
  · simp [embedded, native]
  rw [if_neg embedded, if_neg embedded, if_neg native, if_neg native]
  cases found : (t.above i.kind).find? fun c => c.supports i.opcode with
  | none =>
    have still : ((t.above i.kind).find? fun c => plan.contains c.kind && c.supports i.opcode) =
        none := by
      refine List.find?_eq_none.mpr fun c mem => ?_
      simpa using fun _ => by simpa using List.find?_eq_none.mp found c mem
    rw [still]
    refine iff_of_true rfl ?_
    rintro ⟨kind, escalates, _⟩
    dsimp only at escalates
    split at escalates <;> cases escalates
  | some c =>
    cases inside : plan.contains c.kind with
    | true =>
      rw [find?_stricter found inside]
      refine iff_of_true rfl ?_
      rintro ⟨kind, escalates, outside⟩
      cases escalates
      cases inside.symm.trans outside
    | false =>
      refine iff_of_false (fun same => ?_) fun stays => stays ⟨c.kind, rfl, inside⟩
      cases found' : (t.above i.kind).find? fun c => plan.contains c.kind && c.supports i.opcode with
      | none =>
        rw [found'] at same
        dsimp only at same
        split at same <;> simp at same
      | some d =>
        rw [found'] at same
        have kinds : d.kind = c.kind := congrArg Prod.fst (Except.ok.inj same)
        have passes := List.find?_some found'
        rw [kinds, inside, Bool.false_and] at passes
        cases passes

theorem escalated_cases (escalates : t.resolve host i = .ok (kind, .escalated)) :
    t.kindSupports i.kind i.opcode = false ∧
      ∃ c ∈ t.entries, c.kind = kind ∧ kind.isAbove i.kind = true := by
  unfold resolve at escalates
  split at escalates
  · simp at escalates
  split at escalates
  · simp at escalates
  rename_i unsupported
  split at escalates
  · rename_i c found
    obtain ⟨among, above⟩ := List.mem_filter.mp (List.mem_of_find?_eq_some found)
    cases escalates
    exact ⟨Bool.eq_false_iff.mpr unsupported, c, among, rfl, above⟩
  · split at escalates <;> simp at escalates

theorem plan_congr {t' : CapabilityTable} {is : List Instruction}
    (alike : ∀ i ∈ is, t'.resolve host i = t.resolve host i) : t'.plan host is = t.plan host is := by
  unfold plan
  rw [Except.mapM_congr fun i mem => ?_]
  unfold assign
  rw [alike i mem]

theorem resolve_of_plan {t' : CapabilityTable} {is : List Instruction} {routing : RoutingPlan}
    (planned : t.plan host is = .ok routing) (planned' : t'.plan host is = .ok routing) :
    ∀ i ∈ is, t'.resolve host i = t.resolve host i := by
  obtain ⟨assigned, each, rfl⟩ := Except.map_eq_ok.mp planned
  obtain ⟨assigned', each', same⟩ := Except.map_eq_ok.mp planned'
  cases same
  have all := Except.mapM_ok_iff.mp each
  have all' := Except.mapM_ok_iff.mp each'
  clear planned planned' each each'
  induction all with
  | nil => exact fun i none => by cases none
  | @cons i a is as one rest ih =>
    obtain ⟨one', rest'⟩ := List.forall₂_cons.mp all'
    intro j mem
    rcases List.mem_cons.mp mem with rfl | mem
    · obtain ⟨⟨kind, route⟩, resolved, rfl⟩ := Except.map_eq_ok.mp one
      obtain ⟨⟨kind', route'⟩, resolved', same⟩ := Except.map_eq_ok.mp one'
      cases same
      rw [resolved, resolved']
    · exact ih rest' j mem

end CapabilityTable

theorem Registry.Made.registered {ds : List Descriptor} {r : Registry} (made : Made ds r)
    {kind : Kind} {d : Descriptor} (required : r.require kind = .ok d) : kind ∈ r.kinds.elems := by
  have entry := Table.mem_of_find? (require_eq_ok.mp required).1
  rw [← made.kind_required required]
  refine (OrderedSet.mem_foldl_insert _ _ _).mpr (Or.inl (List.mem_map_of_mem ?_))
  exact List.mem_map_of_mem (f := Prod.snd) entry

theorem Registry.Made.bottom_kind {ds : List Descriptor} {r : Registry} (made : Made ds r) :
    r.classical.kind = .classical := made.classical_kind

namespace SpawnPlan
variable {ds : List Descriptor} {r : Registry} {referenced : List Kind} {plan : SpawnPlan}
  {k kind : Kind}

theorem mem_reach {grown : SpawnPlan} (reached : reach r plan kind = .ok grown) :
    k ∈ grown.elems ↔ k ∈ plan.elems ∨ k = kind ∨ k ∈ r.kinds.elems ∧ k.isAbove kind = true := by
  unfold reach at reached
  obtain ⟨_, _, rfl⟩ := Except.map_eq_ok.mp reached
  rw [OrderedSet.insert, OrderedSet.mem_insertElem, OrderedSet.mem_foldl_insert, List.mem_filter]
  tauto

theorem mem_compute (computed : compute r referenced = .ok plan) :
    k ∈ plan.elems ↔ k = r.classical.kind ∨
      ∃ m ∈ referenced, k = m ∨ k ∈ r.kinds.elems ∧ k.isAbove m = true := by
  have upto : ∀ (kinds : List Kind) (start : SpawnPlan), kinds.foldlM (reach r) start = .ok plan →
      (k ∈ plan.elems ↔ k ∈ start.elems ∨
        ∃ m ∈ kinds, k = m ∨ k ∈ r.kinds.elems ∧ k.isAbove m = true) := by
    intro kinds
    induction kinds with
    | nil =>
      intro start same
      cases same
      simp
    | cons m ms ih =>
      intro start grows
      rw [List.foldlM_cons] at grows
      obtain ⟨grown, reached, later⟩ := Except.bind_eq_ok.mp grows
      rw [ih grown later, mem_reach reached, List.exists_mem_cons_iff, or_assoc]
  exact (upto referenced _ computed).trans
    (or_congr_left ((OrderedSet.mem_insertElem _ _ _).trans (by simp [OrderedSet.empty])))

theorem required_of_compute (computed : compute r referenced = .ok plan) :
    ∀ m ∈ referenced, ∃ d, r.require m = .ok d := by
  have upto : ∀ (kinds : List Kind) (start : SpawnPlan), kinds.foldlM (reach r) start = .ok plan →
      ∀ m ∈ kinds, ∃ d, r.require m = .ok d := by
    intro kinds
    induction kinds with
    | nil => exact fun _ _ m none => by cases none
    | cons k ks ih =>
      intro start grows m mem
      rw [List.foldlM_cons] at grows
      obtain ⟨grown, reached, later⟩ := Except.bind_eq_ok.mp grows
      rcases List.mem_cons.mp mem with rfl | mem
      · exact (Except.map_eq_ok.mp reached).imp fun d required => required.1
      · exact ih grown later m mem
  exact upto referenced _ computed

theorem registered_of_compute (made : Registry.Made ds r)
    (computed : compute r referenced = .ok plan) (mem : k ∈ plan.elems) : k ∈ r.kinds.elems := by
  rcases (mem_compute computed).mp mem with rfl | ⟨m, among, rfl | ⟨registered, _⟩⟩
  · refine made.registered (d := r.classical) (Registry.require_eq_ok.mpr ⟨?_, rfl⟩)
    rw [made.bottom_kind]
    exact r.classical_found
  · exact (required_of_compute computed _ among).elim fun d => made.registered
  · exact registered

theorem upward_of_compute (made : Registry.Made ds r) (computed : compute r referenced = .ok plan)
    (mem : kind ∈ plan.elems) (reached : kind ≠ .classical ∨ ∃ m ∈ referenced, m.level = 0)
    (registered : k ∈ r.kinds.elems) (above : k.isAbove kind = true) : k ∈ plan.elems := by
  refine (mem_compute computed).mpr (Or.inr ?_)
  have higher : kind.level < k.level := of_decide_eq_true above
  rcases (mem_compute computed).mp mem with rfl | ⟨m, among, rfl | ⟨_, exceeds⟩⟩
  · obtain ⟨m, among, bottom⟩ := reached.resolve_left fun other => other made.bottom_kind
    exact ⟨m, among, Or.inr ⟨registered, decide_eq_true (by omega)⟩⟩
  · exact ⟨_, among, Or.inr ⟨registered, above⟩⟩
  · have exceeds : m.level < kind.level := of_decide_eq_true exceeds
    exact ⟨m, among, Or.inr ⟨registered, decide_eq_true (by omega)⟩⟩

end SpawnPlan

namespace Orchestrator
variable {ds : List Descriptor} {r : Registry} {modules : ModuleTable} {kinds : List Kind}
  {plan : SpawnPlan} {policy : SupervisionPolicy} {o full : Orchestrator}

def Instantiates (r : Registry) (modules : ModuleTable) (kind : Kind) (c : SubCompiler) : Prop :=
  ∃ d, r.require kind = .ok d ∧ modules.instantiate d = .ok c

theorem Instantiates.unique {kind : Kind} {c c' : SubCompiler}
    (one : Instantiates r modules kind c) (other : Instantiates r modules kind c') : c = c' := by
  obtain ⟨d, required, made⟩ := one
  obtain ⟨d', required', made'⟩ := other
  cases required.symm.trans required'
  exact Except.ok.inj (made.symm.trans made')

theorem startWorkers_instantiates {compilers : List (Kind × SubCompiler)}
    (started : startWorkers r modules kinds = .ok compilers) :
    ∀ x ∈ compilers, Instantiates r modules x.1 x.2 := by
  induction kinds generalizing compilers with
  | nil =>
    cases started
    exact fun x none => by cases none
  | cons kind rest ih =>
    obtain ⟨d, c, others, required, made, later, rfl⟩ := startWorkers_cons started
    intro x mem
    rcases List.mem_cons.mp mem with rfl | mem
    · exact ⟨d, required, made⟩
    · exact ih later x mem

theorem startWorkers_of_instantiates (each : ∀ kind ∈ kinds, ∃ c, Instantiates r modules kind c) :
    ∃ compilers, startWorkers r modules kinds = .ok compilers := by
  induction kinds with
  | nil => exact ⟨[], rfl⟩
  | cons kind rest ih =>
    obtain ⟨c, d, required, made⟩ := each kind List.mem_cons_self
    obtain ⟨others, later⟩ := ih fun k mem => each k (List.mem_cons_of_mem kind mem)
    exact ⟨(kind, c) :: others, by simp only [startWorkers, required, made, later, bind, Except.bind,
      pure, Except.pure]⟩

theorem mem_capabilities (started : start r modules plan policy = .ok o) {c : Capabilities} :
    c ∈ o.capabilities.entries ↔ c.kind ∈ plan.elems ∧ c.kind.isClassical = false ∧
      ∃ s, Instantiates r modules c.kind s ∧ c = { s.capabilities with kind := c.kind } := by
  obtain ⟨compilers, workers, rfl⟩ := start_eq started
  have keys := startWorkers_kinds workers
  have made := startWorkers_instantiates workers
  have held : ∀ k, k ∈ compilers.map Prod.fst ↔ k ∈ plan.elems ∧ k.isClassical = false := by
    intro k
    rw [keys, List.mem_filter, Bool.not_eq_true']
  dsimp only
  rw [CapabilityTable.mem_ofList_iff, ← and_assoc, ← held]
  · constructor
    · intro mem
      obtain ⟨x, among, rfl⟩ := List.mem_map.mp mem
      exact ⟨List.mem_map_of_mem among, x.2, made x among, rfl⟩
    · rintro ⟨listed, s, instantiates, same⟩
      obtain ⟨x, among, here⟩ := List.mem_map.mp listed
      have sole := (here ▸ made x among).unique instantiates
      refine List.mem_map.mpr ⟨x, among, ?_⟩
      rw [same, sole, here]
  · intro a at_a b at_b same
    obtain ⟨x, among, rfl⟩ := List.mem_map.mp at_a
    obtain ⟨y, among', rfl⟩ := List.mem_map.mp at_b
    have kinds : x.1 = y.1 := same
    have sole := (kinds ▸ made x among).unique (made y among')
    rw [sole, kinds]

theorem start_among (started : start r modules (.all r) policy = .ok full)
    (inside : ∀ kind ∈ plan.elems, kind ∈ r.kinds.elems) :
    ∃ o, start r modules plan policy = .ok o ∧ o.capabilities = full.capabilities.among plan := by
  obtain ⟨all, workers, same⟩ := start_eq started
  have keys := startWorkers_kinds workers
  have each : ∀ kind ∈ plan.elems.filter fun k => !k.isClassical,
      ∃ c, Instantiates r modules kind c := by
    intro kind mem
    obtain ⟨planned, needed⟩ := List.mem_filter.mp mem
    have listed : kind ∈ all.map Prod.fst := by
      rw [keys]
      exact List.mem_filter.mpr ⟨inside kind planned, needed⟩
    obtain ⟨x, among, rfl⟩ := List.mem_map.mp listed
    exact ⟨x.2, startWorkers_instantiates workers x among⟩
  obtain ⟨some, workers'⟩ := startWorkers_of_instantiates each
  have started' : start r modules plan policy = .ok
      { plan := plan, classical := Evaluator.ofDescriptor r.classical
        capabilities := .ofList (some.map fun c => { c.2.capabilities with kind := c.1 })
          (Evaluator.ofDescriptor r.classical).capabilities
        workers := Table.ofList (some.map fun c => (c.1, .start c.1 c.2))
        policy := policy, nextSession := 0, transcript := [] } := by
    rw [start, workers']
    rfl
  refine ⟨_, started', ?_⟩
  have universal : full.capabilities.universal = (Evaluator.ofDescriptor r.classical).capabilities := by
    rw [same]
    rfl
  have entries := CapabilityTable.Ordered.ext
    (CapabilityTable.ordered_ofList (some.map fun c => { c.2.capabilities with kind := c.1 })
      (Evaluator.ofDescriptor r.classical).capabilities)
    (List.Pairwise.filter (fun c => plan.contains c.kind)
      (same ▸ CapabilityTable.ordered_ofList _ _ : CapabilityTable.Ordered full.capabilities.entries))
    fun c => ?_
  · unfold CapabilityTable.among
    rw [universal, ← entries]
    rfl
  · rw [mem_capabilities started', List.mem_filter, mem_capabilities started]
    have chosen : plan.contains c.kind = true ↔ c.kind ∈ plan.elems := decide_eq_true_iff
    rw [chosen]
    constructor
    · rintro ⟨planned, rest⟩
      exact ⟨⟨inside _ planned, rest⟩, planned⟩
    · rintro ⟨⟨_, rest⟩, planned⟩
      exact ⟨planned, rest⟩

structure Planned (ledger : FrozenLedger) (plan : SpawnPlan) : Prop where
  accepted : ∀ i ∈ ledger.instructions, plan.contains i.kind = true
  tagged : ∀ kind ∈ ledger.kinds.elems, ∃ i ∈ ledger.instructions, i.kind = kind

theorem Planned.host {ledger : FrozenLedger} (planned : Planned ledger plan)
    (bottom : Kind.classical ∈ plan.elems) : plan.contains ledger.dominantKind = true := by
  rcases Kind.dominant_mem ledger.kinds.elems with classical | mem
  · rw [FrozenLedger.dominantKind, classical]
    exact decide_eq_true bottom
  · obtain ⟨i, among, same⟩ := planned.tagged _ mem
    rw [FrozenLedger.dominantKind, ← same]
    exact planned.accepted i among

/-- What escalates to a kind outside a plan is classical and unknown to the evaluator, and the plan
    is one of a program that refers to no kind of the lowest level. -/
theorem strays_classical (made : Registry.Made ds r) {referenced : List Kind}
    (computed : SpawnPlan.compute r referenced = .ok plan)
    (started : start r modules (.all r) policy = .ok full) {host : Kind} {i : Instruction}
    (declared : plan.contains i.kind = true) (strays : full.capabilities.Strays plan host i) :
    i.kind = .classical ∧ full.classical.capabilities.supports i.opcode = false ∧
      ∀ m ∈ referenced, 0 < m.level := by
  obtain ⟨kind, escalates, outside⟩ := strays
  obtain ⟨unsupported, c, entry, rfl, above⟩ := CapabilityTable.escalated_cases escalates
  have registered : c.kind ∈ r.kinds.elems := ((mem_capabilities started).mp entry).1
  have held : i.kind ∈ plan.elems := of_decide_eq_true declared
  have unreached : ¬ (i.kind ≠ .classical ∨ ∃ m ∈ referenced, m.level = 0) := by
    intro reached
    have inside := SpawnPlan.upward_of_compute made computed held reached registered above
    cases outside.symm.trans (decide_eq_true inside)
  have classical : i.kind = .classical :=
    Decidable.byContradiction fun other => unreached (Or.inl other)
  refine ⟨classical, ?_, fun m mem => ?_⟩
  · obtain ⟨_, _, rfl⟩ := start_eq started
    rw [CapabilityTable.kindSupports, CapabilityTable.find?, if_pos] at unsupported
    · exact unsupported
    · exact classical.trans made.bottom_kind.symm
  · exact Nat.pos_of_ne_zero fun bottom => unreached (Or.inr ⟨m, mem, bottom⟩)

/-- A restricted office routes a ledger as the full one does where nothing escalates to a kind that
    the plan leaves out, and only classical instructions do. -/
theorem restriction_routes (registered : Registry.ofDescriptors ds = .ok r) {referenced : List Kind}
    (computed : SpawnPlan.compute r referenced = .ok plan)
    (started : start r modules (.all r) policy = .ok full) :
    ∃ o, start r modules plan policy = .ok o ∧ ∀ ledger, Planned ledger plan →
      ((∀ i ∈ ledger.instructions, ¬ full.capabilities.Strays plan ledger.dominantKind i) →
        o.capabilities.plan ledger.dominantKind ledger.instructions =
          full.capabilities.plan ledger.dominantKind ledger.instructions) ∧
      (∀ routing, full.capabilities.plan ledger.dominantKind ledger.instructions = .ok routing →
        o.capabilities.plan ledger.dominantKind ledger.instructions = .ok routing →
        ∀ i ∈ ledger.instructions, ¬ full.capabilities.Strays plan ledger.dominantKind i) ∧
      ∀ i ∈ ledger.instructions, full.capabilities.Strays plan ledger.dominantKind i →
        i.kind = .classical ∧ full.classical.capabilities.supports i.opcode = false ∧
          ∀ m ∈ referenced, 0 < m.level := by
  have made := Registry.made_of_ofDescriptors registered
  obtain ⟨o, started', table⟩ :=
    start_among started fun _ => SpawnPlan.registered_of_compute made computed
  refine ⟨o, started', fun ledger planned => ?_⟩
  have bottom : Kind.classical ∈ plan.elems :=
    (SpawnPlan.mem_compute computed).mpr (Or.inl made.bottom_kind.symm)
  have exactly : ∀ i ∈ ledger.instructions,
      o.capabilities.resolve ledger.dominantKind i =
          full.capabilities.resolve ledger.dominantKind i ↔
        ¬ full.capabilities.Strays plan ledger.dominantKind i := by
    intro i mem
    rw [table]
    exact CapabilityTable.resolve_among (planned.host bottom) (planned.accepted i mem)
  refine ⟨fun stay => ?_, fun routing routed routed' i mem => ?_, fun i mem strays => ?_⟩
  · exact CapabilityTable.plan_congr fun i mem => (exactly i mem).mpr (stay i mem)
  · exact (exactly i mem).mp (CapabilityTable.resolve_of_plan routed routed' i mem)
  · exact strays_classical made computed started (planned.accepted i mem) strays

def crowned : List Descriptor :=
  [.classical, .stateVector,
    { Descriptor.stateVector with name := "top", level := 2, instructions := .ofOpcodes ["x"] }]

def flips : FrozenLedger where
  id := 0
  instructions := [⟨0, "const", [.reg "a", .int 1], .classical⟩, ⟨1, "x", [.qubit 0], ⟨"top", 2⟩⟩,
    ⟨2, "x", [.qubit 1], .classical⟩]
  kinds := ⟨[.classical, ⟨"top", 2⟩]⟩
  owners := ⟨[0]⟩

theorem flips_restricted : ∃ r plan full o, Registry.ofDescriptors crowned = .ok r ∧
    SpawnPlan.compute r [⟨"top", 2⟩] = .ok plan ∧ plan.contains .quantum = false ∧
    start r .builtin (.all r) .escalate = .ok full ∧ start r .builtin plan .escalate = .ok o ∧
    Planned flips plan ∧
    o.capabilities.plan flips.dominantKind flips.instructions =
      full.capabilities.plan flips.dominantKind flips.instructions := by
  obtain ⟨r, full, registered, computed, started, resolved⟩ :
      ∃ r full, Registry.ofDescriptors crowned = .ok r ∧
        SpawnPlan.compute r [⟨"top", 2⟩] = .ok ⟨[.classical, ⟨"top", 2⟩]⟩ ∧
        start r .builtin (.all r) .escalate = .ok full ∧
        flips.instructions.map (full.capabilities.resolve flips.dominantKind) =
          [.ok (.classical, .native), .ok (⟨"top", 2⟩, .native), .ok (⟨"top", 2⟩, .embedded)] :=
    ⟨_, _, rfl, rfl, rfl, rfl⟩
  have planned : Planned flips ⟨[.classical, ⟨"top", 2⟩]⟩ := ⟨by decide, by decide⟩
  obtain ⟨o, started', routes⟩ := restriction_routes registered computed started
  refine ⟨r, _, full, o, registered, computed, rfl, started, started', planned, ?_⟩
  refine (routes flips planned).1 fun i mem ⟨kind, escalates, _⟩ => ?_
  have listed := List.mem_map_of_mem (f := full.capabilities.resolve flips.dominantKind) mem
  rw [resolved, escalates] at listed
  simp at listed

def lonely : FrozenLedger where
  id := 0
  instructions := [⟨0, "measure", [.qubit 0], .classical⟩]
  kinds := ⟨[.classical]⟩
  owners := ⟨[0]⟩

/-- The kind that would execute it is neither referred to nor above what is. -/
theorem lonely_strays : ∃ r plan full o, Registry.ofDescriptors crowned = .ok r ∧
    SpawnPlan.compute r [⟨"top", 2⟩] = .ok plan ∧
    start r .builtin (.all r) .escalate = .ok full ∧ start r .builtin plan .escalate = .ok o ∧
    Planned lonely plan ∧
    full.capabilities.plan lonely.dominantKind lonely.instructions =
      .ok ⟨.classical, [⟨0, "measure", .classical, .quantum, .escalated⟩]⟩ ∧
    o.capabilities.plan lonely.dominantKind lonely.instructions =
      .error (.unsupportedInstruction "measure" .classical) :=
  ⟨_, _, _, _, rfl, rfl, rfl, rfl, ⟨by decide, by decide⟩, rfl, rfl⟩

end Orchestrator
end LazyCast
