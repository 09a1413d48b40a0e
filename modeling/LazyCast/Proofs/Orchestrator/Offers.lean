import LazyCast.Proofs.Orchestrator.Interleaving
import LazyCast.Proofs.Orchestrator.Restriction
/-!
Routing told from what was listed. A table may be made of entries in any order, with several for one
kind; the first of them counts. An instruction goes to a host strictly above it that offers its
opcode, else stays where it is declared, else goes to the least kind strictly above that offers the
opcode, else to the universal evaluator. Nothing else takes it, and it is stranded only when none of
these does.
-/
namespace LazyCast

namespace CapabilityTable
variable {entries : List Capabilities} {universal : Capabilities} {host kind : Kind}
  {opcode : String} {i : Instruction}

def Lists (entries : List Capabilities) (kind : Kind) (opcode : String) : Prop :=
  ∃ earlier c later, entries = earlier ++ c :: later ∧ (∀ d ∈ earlier, d.kind ≠ kind) ∧
    c.kind = kind ∧ c.supports opcode = true

def Offers (entries : List Capabilities) (universal : Capabilities) (kind : Kind)
    (opcode : String) : Prop :=
  (kind = universal.kind ∧ universal.supports opcode = true) ∨ Lists entries kind opcode

def Embeds (entries : List Capabilities) (universal : Capabilities) (host : Kind)
    (i : Instruction) : Prop :=
  host.isAbove i.kind = true ∧ Offers entries universal host i.opcode

def Lifts (entries : List Capabilities) (i : Instruction) (kind : Kind) : Prop :=
  kind.isAbove i.kind = true ∧ Lists entries kind i.opcode

/-- Where an instruction goes, in the order in which the ways are tried. -/
inductive Goes (entries : List Capabilities) (universal : Capabilities) (host : Kind)
    (i : Instruction) : Kind → Route → Prop where
  | embedded (embeds : Embeds entries universal host i) :
      Goes entries universal host i host .embedded
  | native (unhosted : ¬ Embeds entries universal host i)
      (own : Offers entries universal i.kind i.opcode) :
      Goes entries universal host i i.kind .native
  | escalated (unhosted : ¬ Embeds entries universal host i)
      (foreign : ¬ Offers entries universal i.kind i.opcode) {kind : Kind}
      (lifts : Lifts entries i kind)
      (least : ∀ other, Lifts entries i other → other = kind ∨ Key.before kind other = true) :
      Goes entries universal host i kind .escalated
  | universal (unhosted : ¬ Embeds entries universal host i)
      (foreign : ¬ Offers entries universal i.kind i.opcode)
      (unlifted : ∀ kind, ¬ Lifts entries i kind)
      (supports : universal.supports i.opcode = true) :
      Goes entries universal host i universal.kind .universal

/-- No way is open to an instruction. -/
structure Stranded (entries : List Capabilities) (universal : Capabilities) (host : Kind)
    (i : Instruction) : Prop where
  unhosted : ¬ Embeds entries universal host i
  foreign : ¬ Offers entries universal i.kind i.opcode
  unlifted : ∀ kind, ¬ Lifts entries i kind
  unsupported : ¬ universal.supports i.opcode = true

theorem lists_iff_find? : Lists entries kind opcode ↔
    ∃ c, (entries.find? fun c => decide (c.kind = kind)) = some c ∧ c.supports opcode = true := by
  simp only [List.find?_eq_some_iff_append, decide_eq_true_eq, Bool.not_eq_true',
    decide_eq_false_iff_not]
  constructor
  · rintro ⟨earlier, c, later, same, none, own, supports⟩
    exact ⟨c, ⟨own, earlier, later, same, none⟩, supports⟩
  · rintro ⟨c, ⟨own, earlier, later, same, none⟩, supports⟩
    exact ⟨earlier, c, later, same, none, own, supports⟩

theorem Ordered.find?_of_mem {placed : List Capabilities} (ordered : Ordered placed)
    {c : Capabilities} (mem : c ∈ placed) :
    (placed.find? fun d => decide (d.kind = c.kind)) = some c := by
  induction placed with
  | nil => cases mem
  | cons d ds ih =>
    obtain ⟨first, rest⟩ := List.pairwise_cons.mp ordered
    rcases List.mem_cons.mp mem with rfl | mem
    · exact List.find?_cons_of_pos (by simp)
    · have other : d.kind ≠ c.kind := fun same =>
        Kind.before_irrefl c.kind (same ▸ first c mem)
      rw [List.find?_cons_of_neg (by simpa using other)]
      exact ih rest mem

theorem Ordered.find?_place {placed : List Capabilities} (ordered : Ordered placed)
    (c : Capabilities) (kind : Kind) :
    ((CapabilityTable.place c placed).find? fun d => decide (d.kind = kind)) =
      (placed.find? fun d => decide (d.kind = kind)).or ([c].find? fun d => decide (d.kind = kind)) := by
  induction placed with
  | nil => rfl
  | cons d ds ih =>
    obtain ⟨first, rest⟩ := List.pairwise_cons.mp ordered
    rw [CapabilityTable.place]
    split
    · rename_i same
      by_cases here : d.kind = kind
      · simp [here]
      · simp [here, same]
    · rename_i other
      split
      · rename_i before
        by_cases here : c.kind = kind
        · -- What comes after a kind in the order is of other kinds.
          have absent : ((d :: ds).find? fun d => decide (d.kind = kind)) = none := by
            refine List.find?_eq_none.mpr fun e mem => ?_
            have after : Key.before c.kind e.kind = true := by
              rcases List.mem_cons.mp mem with rfl | mem
              · exact before
              · exact Kind.before_trans before (first e mem)
            intro same
            rw [here, of_decide_eq_true same] at after
            exact Kind.before_irrefl kind after
          rw [absent, List.find?_cons_of_pos (by simpa using here)]
          simp [here]
        · rw [List.find?_cons_of_neg (by simpa using here)]
          simp [here]
      · by_cases here : d.kind = kind
        · simp [here]
        · rw [List.find?_cons_of_neg (by simpa using here),
            List.find?_cons_of_neg (by simpa using here), ih rest]

theorem find?_ofList (entries : List Capabilities) (universal : Capabilities) (kind : Kind) :
    ((ofList entries universal).entries.find? fun c => decide (c.kind = kind)) =
      entries.find? fun c => decide (c.kind = kind) := by
  have upto : ∀ (entries placed : List Capabilities), Ordered placed →
      ((entries.foldl (fun placed c => place c placed) placed).find?
          fun c => decide (c.kind = kind)) =
        (placed.find? fun c => decide (c.kind = kind)).or
          (entries.find? fun c => decide (c.kind = kind)) := by
    intro entries
    induction entries with
    | nil => exact fun placed _ => (Option.or_none).symm
    | cons c cs ih =>
      intro placed ordered
      rw [List.foldl_cons, ih _ (ordered.place c), ordered.find?_place, Option.or_assoc,
        ← List.find?_append, List.singleton_append]
  exact (upto entries [] List.Pairwise.nil).trans Option.none_or

theorem mem_ofList_iff_first {c : Capabilities} : c ∈ (ofList entries universal).entries ↔
    (entries.find? fun d => decide (d.kind = c.kind)) = some c := by
  rw [← find?_ofList entries universal]
  exact ⟨(ordered_ofList entries universal).find?_of_mem, List.mem_of_find?_eq_some⟩

section Table
variable (apart : ∀ c ∈ entries, c.kind ≠ universal.kind)
include apart

theorem kindSupports_ofList : (ofList entries universal).kindSupports kind opcode = true ↔
    Offers entries universal kind opcode := by
  have found : (ofList entries universal).find? kind = if kind = universal.kind then some universal
      else entries.find? fun c => decide (c.kind = kind) := by
    rw [← find?_ofList entries universal]
    rfl
  unfold kindSupports Offers
  rw [found, lists_iff_find?]
  by_cases bottom : kind = universal.kind
  · rw [if_pos bottom]
    refine ⟨fun supports => Or.inl ⟨bottom, supports⟩, ?_⟩
    rintro (⟨_, supports⟩ | ⟨c, found, _⟩)
    · exact supports
    · have own : c.kind = kind := by simpa using List.find?_some found
      exact absurd (own.trans bottom) (apart c (List.mem_of_find?_eq_some found))
  · rw [if_neg bottom]
    cases entries.find? fun c => decide (c.kind = kind) with
    | none => simp [bottom]
    | some c => simp [bottom]

omit apart in
theorem lifts_of_mem (universal : Capabilities) {c : Capabilities}
    (mem : c ∈ (ofList entries universal).above i.kind) (supports : c.supports i.opcode = true) :
    Lifts entries i c.kind := by
  obtain ⟨entry, above⟩ := List.mem_filter.mp mem
  exact ⟨above, lists_iff_find?.mpr ⟨c, mem_ofList_iff_first.mp entry, supports⟩⟩

omit apart in
theorem mem_of_lifts (universal : Capabilities) (lifts : Lifts entries i kind) :
    ∃ c ∈ (ofList entries universal).above i.kind, c.kind = kind ∧ c.supports i.opcode = true := by
  obtain ⟨c, found, supports⟩ := lists_iff_find?.mp lifts.2
  have own : c.kind = kind := by simpa using List.find?_some found
  refine ⟨c, List.mem_filter.mpr ⟨mem_ofList_iff_first.mpr (own ▸ found), ?_⟩, own, supports⟩
  rw [own]
  exact lifts.1

omit apart in
theorem least_of_find? {c : Capabilities}
    (found : ((ofList entries universal).above i.kind).find? (fun c => c.supports i.opcode) = some c) :
    Lifts entries i c.kind ∧
      ∀ other, Lifts entries i other → other = c.kind ∨ Key.before c.kind other = true := by
  obtain ⟨supports, earlier, later, same, none⟩ := List.find?_eq_some_iff_append.mp found
  refine ⟨lifts_of_mem universal (same ▸ by simp) supports, fun other lifts => ?_⟩
  obtain ⟨d, mem, rfl, takes⟩ := mem_of_lifts universal lifts
  have ordered : Ordered ((ofList entries universal).above i.kind) :=
    (ordered_ofList entries universal).sublist List.filter_sublist
  rw [same] at mem ordered
  rcases List.mem_append.mp mem with before | mem
  · exact absurd (none d before) (by simp [takes])
  · rcases List.mem_cons.mp mem with rfl | after
    · exact Or.inl rfl
    · exact Or.inr ((List.pairwise_cons.mp (List.pairwise_append.mp ordered).2.1).1 d after)

theorem resolve_cases (host : Kind) (i : Instruction) :
    (∃ kind route, Goes entries universal host i kind route ∧
      (ofList entries universal).resolve host i = .ok (kind, route)) ∨
    (Stranded entries universal host i ∧ (ofList entries universal).resolve host i =
      .error (.unsupportedInstruction i.opcode i.kind)) := by
  have embeds : (host.isAbove i.kind &&
      (ofList entries universal).kindSupports host i.opcode) = true ↔
        Embeds entries universal host i := by
    rw [Bool.and_eq_true, kindSupports_ofList apart]
    rfl
  unfold resolve
  by_cases hosted : Embeds entries universal host i
  · rw [if_pos (embeds.mpr hosted)]
    exact Or.inl ⟨_, _, .embedded hosted, rfl⟩
  rw [if_neg (mt embeds.mp hosted)]
  by_cases own : Offers entries universal i.kind i.opcode
  · rw [if_pos ((kindSupports_ofList apart).mpr own)]
    exact Or.inl ⟨_, _, .native hosted own, rfl⟩
  rw [if_neg (mt (kindSupports_ofList apart).mp own)]
  cases found : ((ofList entries universal).above i.kind).find? fun c => c.supports i.opcode with
  | some c =>
    obtain ⟨lifts, least⟩ := least_of_find? found
    exact Or.inl ⟨_, _, .escalated hosted own lifts least, rfl⟩
  | none =>
    have unlifted : ∀ kind, ¬ Lifts entries i kind := by
      intro kind lifts
      obtain ⟨c, mem, _, supports⟩ := mem_of_lifts universal lifts
      exact List.find?_eq_none.mp found c mem supports
    by_cases last : universal.supports i.opcode = true
    · refine Or.inl ⟨_, _, .universal hosted own unlifted last, ?_⟩
      exact if_pos last
    · refine Or.inr ⟨⟨hosted, own, unlifted, last⟩, ?_⟩
      exact if_neg last

omit apart in
theorem Stranded.not_goes {route : Route} (stranded : Stranded entries universal host i) :
    ¬ Goes entries universal host i kind route := by
  rintro (⟨embeds⟩ | ⟨_, own⟩ | ⟨_, _, lifts, _⟩ | ⟨_, _, _, supports⟩)
  · exact stranded.unhosted embeds
  · exact stranded.foreign own
  · exact stranded.unlifted _ lifts
  · exact stranded.unsupported supports

theorem goes_of_resolve {route : Route}
    (resolved : (ofList entries universal).resolve host i = .ok (kind, route)) :
    Goes entries universal host i kind route := by
  rcases resolve_cases apart host i with ⟨kind', route', goes, same⟩ | ⟨_, failed⟩
  · cases resolved.symm.trans same
    exact goes
  · cases resolved.symm.trans failed

theorem resolve_eq_error {e : Fault} : (ofList entries universal).resolve host i = .error e ↔
    Stranded entries universal host i ∧ e = .unsupportedInstruction i.opcode i.kind := by
  rcases resolve_cases apart host i with ⟨kind, route, goes, same⟩ | ⟨stranded, failed⟩
  · rw [same]
    exact ⟨fun no => (by cases no), fun no => absurd goes no.1.not_goes⟩
  · rw [failed]
    exact ⟨fun same => ⟨stranded, (Except.error.inj same).symm⟩, fun same => same.2 ▸ rfl⟩

end Table

namespace Goes
variable {route : Route} (goes : Goes entries universal host i kind route)
include goes

theorem offers : Offers entries universal kind i.opcode := by
  cases goes with
  | embedded embeds => exact embeds.2
  | native _ own => exact own
  | escalated _ _ lifts _ => exact Or.inr lifts.2
  | universal _ _ _ supports => exact Or.inl ⟨rfl, supports⟩

theorem upward (moved : kind ≠ i.kind) (other : kind ≠ universal.kind) :
    kind.isAbove i.kind = true := by
  cases goes with
  | embedded embeds => exact embeds.1
  | native _ _ => exact absurd rfl moved
  | escalated _ _ lifts _ => exact lifts.1
  | universal _ _ _ _ => exact absurd rfl other

theorem beside (level : i.kind.level = host.level) (other : i.kind ≠ host) (hosted : kind = host) :
    host = universal.kind := by
  refine Decidable.byContradiction fun apart => ?_
  have above := goes.upward (hosted ▸ Ne.symm other) (hosted ▸ apart)
  have higher : i.kind.level < kind.level := of_decide_eq_true above
  rw [hosted, level] at higher
  exact Nat.lt_irrefl _ higher

end Goes

/-- What is assigned to an instruction: an executor that offers its opcode, found by the rules. -/
structure Assigned (entries : List Capabilities) (universal : Capabilities) (host : Kind)
    (i : Instruction) (a : Assignment) : Prop where
  seq : a.seq = i.seq
  opcode : a.opcode = i.opcode
  declared : a.declared = i.kind
  goes : Goes entries universal host i a.executor a.route
  offers : Offers entries universal a.executor i.opcode
  upward : a.executor ≠ i.kind → a.executor ≠ universal.kind → a.executor.isAbove i.kind = true
  beside : i.kind.level = host.level → i.kind ≠ host → a.executor = host → host = universal.kind

end CapabilityTable

theorem Except.mapM_first_error {ε α β : Type} {f : α → Except ε β} {as : List α} {e : ε} :
    as.mapM f = .error e ↔ ∃ earlier a later, as = earlier ++ a :: later ∧
      (∀ b ∈ earlier, ∃ x, f b = .ok x) ∧ f a = .error e := by
  induction as with
  | nil =>
    refine ⟨fun no => (by cases no), ?_⟩
    rintro ⟨earlier, a, later, same, _⟩
    cases earlier <;> cases same
  | cons a as ih =>
    rw [List.mapM_cons]
    constructor
    · intro failed
      cases first : f a with
      | error e' =>
        rw [first] at failed
        cases failed
        exact ⟨[], a, as, rfl, fun _ none => absurd none List.not_mem_nil, first⟩
      | ok x =>
        rw [first] at failed
        have rest : as.mapM f = .error e := by
          cases later : as.mapM f with
          | error e' =>
            rw [later] at failed
            cases failed
            rfl
          | ok xs =>
            rw [later] at failed
            cases failed
        obtain ⟨earlier, b, later, rfl, fine, failed⟩ := ih.mp rest
        exact ⟨a :: earlier, b, later, rfl, List.forall_mem_cons.mpr ⟨⟨x, first⟩, fine⟩, failed⟩
    · rintro ⟨earlier, b, later, same, fine, failed⟩
      cases earlier with
      | nil =>
        cases same
        rw [failed]
        rfl
      | cons c cs =>
        cases same
        obtain ⟨⟨x, first⟩, fine⟩ := List.forall_mem_cons.mp fine
        rw [first, ih.mpr ⟨cs, b, later, rfl, fine, failed⟩]
        rfl

namespace CapabilityTable
variable {entries : List Capabilities} {universal : Capabilities}

/-- Whatever was listed, and in whatever order, routing fails just when an instruction is stranded,
    at the first such one. Otherwise every instruction is assigned to where the rules send it, and
    the batch of an executor holds what is assigned to it, in the order of the ledger. -/
theorem plan_assigns (apart : ∀ c ∈ entries, c.kind ≠ universal.kind) (host : Kind)
    (instructions : List Instruction) :
    ((∃ e, (ofList entries universal).plan host instructions = .error e) ↔
      ∃ i ∈ instructions, Stranded entries universal host i) ∧
    (∀ e, (ofList entries universal).plan host instructions = .error e →
      ∃ earlier i later, instructions = earlier ++ i :: later ∧
        (∀ j ∈ earlier, ¬ Stranded entries universal host j) ∧
        Stranded entries universal host i ∧ e = .unsupportedInstruction i.opcode i.kind) ∧
    ∀ routing, (ofList entries universal).plan host instructions = .ok routing →
      routing.host = host ∧
      List.Forall₂ (Assigned entries universal host) instructions routing.assignments ∧
      ∀ kind, ((routing.partition instructions).find? kind).getD [] =
        instructionsOf kind (instructions.zip routing.assignments) := by
  have fails : ∀ {i e}, (ofList entries universal).assign host i = .error e ↔
      Stranded entries universal host i ∧ e = .unsupportedInstruction i.opcode i.kind :=
    Except.map_eq_error.trans (resolve_eq_error apart)
  have first : ∀ e, (ofList entries universal).plan host instructions = .error e →
      ∃ earlier i later, instructions = earlier ++ i :: later ∧
        (∀ j ∈ earlier, ¬ Stranded entries universal host j) ∧
        Stranded entries universal host i ∧ e = .unsupportedInstruction i.opcode i.kind := by
    intro e failed
    obtain ⟨earlier, i, later, same, fine, failed⟩ :=
      Except.mapM_first_error.mp (Except.map_eq_error.mp failed)
    refine ⟨earlier, i, later, same, fun j mem stranded => ?_, fails.mp failed⟩
    obtain ⟨a, assigned⟩ := fine j mem
    cases assigned.symm.trans (fails.mpr ⟨stranded, rfl⟩)
  refine ⟨⟨?_, ?_⟩, first, ?_⟩
  · rintro ⟨e, failed⟩
    obtain ⟨earlier, i, later, rfl, _, stranded, _⟩ := first e failed
    exact ⟨i, by simp, stranded⟩
  · rintro ⟨i, mem, stranded⟩
    cases planned : (ofList entries universal).plan host instructions with
    | error e => exact ⟨e, rfl⟩
    | ok routing =>
      obtain ⟨assignments, each, _⟩ := Except.map_eq_ok.mp planned
      obtain ⟨a, _, assigned⟩ := (Except.mapM_eq_ok each).1 i mem
      cases assigned.symm.trans (fails.mpr ⟨stranded, rfl⟩)
  · intro routing planned
    obtain ⟨assignments, each, rfl⟩ := Except.map_eq_ok.mp planned
    refine ⟨rfl, (Except.mapM_ok_iff.mp each).imp fun i a assigned => ?_, fun kind => ?_⟩
    · obtain ⟨⟨kind, route⟩, resolved, rfl⟩ := Except.map_eq_ok.mp assigned
      have goes := goes_of_resolve apart resolved
      exact ⟨rfl, rfl, rfl, goes, goes.offers, goes.upward, goes.beside⟩
    · exact find?_distribute kind _
        (List.Pairwise.nil : (Table.empty : Table Kind (List Instruction)).Ordered)

def motley : List Capabilities :=
  [⟨⟨"annealer", 2⟩, .ofOpcodes ["anneal", "qft"], false⟩, ⟨.quantum, .stateVector, true⟩,
    ⟨⟨"photonic", 1⟩, .ofOpcodes ["qft"], false⟩, ⟨.quantum, .ofOpcodes ["qft"], false⟩]

def errands : List Instruction :=
  [⟨0, "barrier", [], .classical⟩, ⟨1, "h", [.qubit 0], .quantum⟩, ⟨2, "qft", [.qubit 0], .quantum⟩,
    ⟨3, "add", [.reg "a", .int 1, .int 2], .quantum⟩]

theorem errands_assigned : (∀ c ∈ motley, c.kind ≠ .classical) ∧ ∃ routing,
    (ofList motley Evaluator.builtin.capabilities).plan .quantum errands = .ok routing ∧
    routing.assignments.map (fun a => (a.executor, a.route)) =
      [(.quantum, .embedded), (.quantum, .native), (⟨"annealer", 2⟩, .escalated),
        (.classical, .universal)] ∧
    List.Forall₂ (Assigned motley Evaluator.builtin.capabilities .quantum) errands
      routing.assignments := by
  have apart : ∀ c ∈ motley, c.kind ≠ Evaluator.builtin.capabilities.kind := by decide
  obtain ⟨routing, planned, executors⟩ : ∃ routing,
      (ofList motley Evaluator.builtin.capabilities).plan .quantum errands = .ok routing ∧
      routing.assignments.map (fun a => (a.executor, a.route)) =
        [(.quantum, .embedded), (.quantum, .native), (⟨"annealer", 2⟩, .escalated),
          (.classical, .universal)] := ⟨_, rfl, rfl⟩
  exact ⟨apart, routing, planned, executors,
    ((plan_assigns apart .quantum errands).2.2 routing planned).2.1⟩

end CapabilityTable
end LazyCast
