import LazyCast.Proofs.Orchestrator.Piecewise
import LazyCast.Proofs.Orchestrator.Positions
import LazyCast.Proofs.Passes.Preserved
/-!
Splitting a ledger by executors and putting it back together. Each batch is what its executor has
of the ledger, in order; and equal positions belong to one instruction, so a stable sort finds the
place of each operation again.
-/
namespace LazyCast

namespace Table
variable {α : Type}

theorem Ordered.find?_update {t : Table Kind α} (ordered : t.Ordered) (k : Kind)
    (f : Option α → α) : (t.update k f).find? k = some (f (t.find? k)) :=
  Ascending.find?_update ordered k f

theorem Ordered.find?_of_mem {t : Table Kind α} (ordered : t.Ordered) {k : Kind} {a : α}
    (mem : (k, a) ∈ t.entries) : t.find? k = some a :=
  Ascending.find?_of_mem ordered mem

end Table

section Batches

def instructionsOf (kind : Kind) (es : List (Instruction × Assignment)) : List Instruction :=
  (es.filter fun e => decide (e.2.executor = kind)).map Prod.fst

theorem find?_distribute (kind : Kind) (es : List (Instruction × Assignment))
    {groups : Table Kind (List Instruction)} (ordered : groups.Ordered) :
    ((distribute es groups).find? kind).getD [] =
      (groups.find? kind).getD [] ++ instructionsOf kind es := by
  induction es generalizing groups with
  | nil => simp [distribute, instructionsOf]
  | cons e es ih =>
    have next := ih (ordered.update e.2.executor fun group => group.getD [] ++ [e.1])
    change ((distribute es _).find? kind).getD [] = _
    rw [next]
    by_cases same : e.2.executor = kind
    · subst same
      simp [ordered.find?_update, instructionsOf]
    · have kept : (groups.update e.2.executor fun group => group.getD [] ++ [e.1]).find? kind =
          groups.find? kind :=
        Table.findEntry_update_of_ne _ groups.entries (Ne.symm same)
      simp [kept, instructionsOf, same]

theorem batch_eq {routing : RoutingPlan} {is batch : List Instruction} {kind : Kind}
    (entry : (kind, batch) ∈ (routing.partition is).entries) :
    batch = instructionsOf kind (is.zip routing.assignments) := by
  have all := find?_distribute kind (is.zip routing.assignments)
    (List.Pairwise.nil : (Table.empty : Table Kind (List Instruction)).Ordered)
  change ((routing.partition is).find? kind).getD [] = [] ++ _ at all
  rw [partition_ordered.find?_of_mem entry] at all
  exact all

end Batches

namespace Orchestrator

/-- Streams in order of positions are equal when each kind has the same of both and no position
    belongs to two kinds. -/
theorem eq_of_kinds {xs ys : List Scheduled} (sorted : xs.Pairwise fun a b => a.2.seq ≤ b.2.seq)
    (sorted' : ys.Pairwise fun a b => a.2.seq ≤ b.2.seq)
    (one : ∀ a ∈ ys, ∀ b ∈ ys, a.2.seq = b.2.seq → a.1 = b.1)
    (same : ∀ kind, xs.filter (fun op => decide (op.1 = kind)) =
      ys.filter fun op => decide (op.1 = kind)) : xs = ys := by
  have members : ∀ a, a ∈ xs ↔ a ∈ ys := by
    intro a
    have both := congrArg (a ∈ ·) (same a.1)
    simpa using both
  induction xs generalizing ys with
  | nil =>
    cases ys with
    | nil => rfl
    | cons b ys => exact absurd ((members b).mpr List.mem_cons_self) List.not_mem_nil
  | cons a xs ih =>
    cases ys with
    | nil => exact absurd ((members a).mp List.mem_cons_self) List.not_mem_nil
    | cons b ys =>
      obtain ⟨first, rest⟩ := List.pairwise_cons.mp sorted
      obtain ⟨first', rest'⟩ := List.pairwise_cons.mp sorted'
      -- Both streams begin with the least position, so with one kind.
      have le : a.2.seq ≤ b.2.seq := by
        rcases List.mem_cons.mp ((members b).mpr List.mem_cons_self) with same | mem
        · rw [same]
        · exact first b mem
      have ge : b.2.seq ≤ a.2.seq := by
        rcases List.mem_cons.mp ((members a).mp List.mem_cons_self) with same | mem
        · rw [same]
        · exact first' a mem
      have kinds : a.1 = b.1 :=
        one a ((members a).mp List.mem_cons_self) b List.mem_cons_self (Nat.le_antisymm le ge)
      have heads := same a.1
      rw [List.filter_cons_of_pos (by simp), List.filter_cons_of_pos (by simp [kinds])] at heads
      obtain ⟨rfl, _⟩ := List.cons.inj heads
      congr 1
      have tails : ∀ kind, xs.filter (fun op => decide (op.1 = kind)) =
          ys.filter fun op => decide (op.1 = kind) := by
        intro kind
        have here := same kind
        rw [List.filter_cons, List.filter_cons] at here
        split at here
        · exact (List.cons.inj here).2
        · exact here
      refine ih rest rest' ?_ tails ?_
      · intro x at_x y at_y
        exact one x (List.mem_cons_of_mem _ at_x) y (List.mem_cons_of_mem _ at_y)
      · intro x
        have both := congrArg (x ∈ ·) (tails x.1)
        simpa using both

/-- What each assigned instruction is lowered to by itself. -/
abbrev Owns (o : Orchestrator) (es : List (Instruction × Assignment)) (owns : List Program) : Prop :=
  List.Forall₂ (fun e p => p.kind = e.2.executor ∧ (o.lower e.2.executor [e.1]).1 = .ok p) es owns

section Owns
variable {ds : List Descriptor} {r : Registry} {o : Orchestrator}
  {es : List (Instruction × Assignment)} {owns : List Program} {kind : Kind}

theorem forall₂_filter {α β : Type} {R : α → β → Prop} {as : List α} {bs : List β} {p : α → Bool}
    {q : β → Bool} (agree : ∀ a b, R a b → p a = q b) (all : List.Forall₂ R as bs) :
    List.Forall₂ R (as.filter p) (bs.filter q) := by
  induction all with
  | nil => exact .nil
  | @cons a b as bs first _ ih =>
    rw [List.filter_cons, List.filter_cons, agree a b first]
    split
    · exact .cons first ih
    · exact ih

theorem Owns.ofKind (all : Owns o es owns) (kind : Kind) :
    List.Forall₂ (fun i p => (o.lower kind [i]).1 = .ok p) (instructionsOf kind es)
      (owns.filter fun p => decide (p.kind = kind)) := by
  unfold instructionsOf
  rw [List.forall₂_map_left_iff]
  have filtered := forall₂_filter (p := fun e => decide (e.2.executor = kind))
    (q := fun p => decide (p.kind = kind)) (fun e p same => by rw [same.1]) all
  refine (List.forall₂_iff_zip.mpr ⟨filtered.length_eq, fun {e p} mem => ?_⟩)
  have here := (List.forall₂_iff_zip.mp filtered).2 mem
  have chosen := (List.mem_filter.mp (List.of_mem_zip mem).1).2
  rw [← of_decide_eq_true chosen]
  exact here.2

theorem Owns.inOrder (all : Owns o es owns) (order : InOrder (es.map Prod.fst))
    (seq : ∀ {kind i p}, (o.lower kind [i]).1 = .ok p → ∀ op ∈ p.ops, op.seq = i.seq) :
    (owns.flatMap tagged).Pairwise fun a b =>
      a.2.seq ≤ b.2.seq ∧ (a.2.seq = b.2.seq → a.1 = b.1) := by
  have placed : ∀ {e : Instruction × Assignment} {p : Program}, p.kind = e.2.executor ∧ (o.lower e.2.executor [e.1]).1 = .ok p →
      ∀ op ∈ tagged p, op.1 = e.2.executor ∧ op.2.seq = e.1.seq := by
    rintro e p ⟨kind, lowered⟩ op mem
    obtain ⟨own, among, rfl⟩ := List.mem_map.mp mem
    exact ⟨kind, seq lowered own among⟩
  induction all with
  | nil => exact List.Pairwise.nil
  | @cons e p es owns first later ih =>
    obtain ⟨less, order⟩ := List.pairwise_cons.mp order
    rw [List.flatMap_cons]
    refine List.pairwise_append.mpr ⟨?_, ih order, ?_⟩
    · apply List.pairwise_of_forall_mem_list
      intro a at_a b at_b
      have ofA := placed first a at_a
      have ofB := placed first b at_b
      exact ⟨by omega, fun _ => ofA.1.trans ofB.1.symm⟩
    · intro a at_a b at_b
      obtain ⟨q, among, at_b⟩ := List.mem_flatMap.mp at_b
      obtain ⟨e', mem, made⟩ := forall₂_right later q among
      have ofA := placed first a at_a
      have ofB := placed made b at_b
      have before : e.1.seq < e'.1.seq := less e'.1 (List.mem_map_of_mem mem)
      exact ⟨by omega, fun same => by omega⟩

end Owns

section Interleaved
variable {ds : List Descriptor} {r : Registry} {o : Orchestrator} {table : CapabilityTable}
  {host : Kind} {is : List Instruction} {routing : RoutingPlan} {programs owns : List Program}

theorem tagged_flatMap {kind : Kind} (same : ∀ p ∈ programs, p.kind = kind) :
    tagged ⟨kind, programs.flatMap Program.ops⟩ = programs.flatMap tagged := by
  induction programs with
  | nil => rfl
  | cons p ps ih =>
    have here := same p List.mem_cons_self
    have rest := ih fun q mem => same q (List.mem_cons_of_mem _ mem)
    rw [List.flatMap_cons (f := tagged), ← rest]
    simp [tagged, here]

theorem assignments_length (planned : table.plan host is = .ok routing) :
    routing.assignments.length = is.length := by
  obtain ⟨assignments, all, rfl⟩ := Except.map_eq_ok.mp planned
  exact (Except.mapM_ok_iff.mp all).length_eq.symm

theorem batches_of_lowered (ready : o.Ready (stock r)) (made : Registry.Made ds r)
    (bottom : o.classical.capabilities.kind = .classical) (order : InOrder is)
    (lowered : (o.lowerAll (routing.partition is).entries).1 = .ok programs) :
    (programs.map Program.kind).Nodup ∧
      (∀ batch ∈ (routing.partition is).entries, ∃ p ∈ programs,
        (o.lower batch.1 batch.2).1 = .ok p ∧ p.kind = batch.1) ∧
      ∀ p ∈ programs, ∃ batch ∈ (routing.partition is).entries,
        (o.lower batch.1 batch.2).1 = .ok p ∧ p.kind = batch.1 ∧
          p.ops.Pairwise fun a b => a.seq ≤ b.seq := by
  have all := (ready.lowerAll_ok_iff (stock_sole r)).mp lowered
  have kinds : programs.map Program.kind = (routing.partition is).keys := by
    rw [← List.forall₂_eq_eq_eq, Table.keys, List.forall₂_map_left_iff, List.forall₂_map_right_iff]
    exact all.flip.imp fun _ _ one => ready.lower_kind made bottom one
  refine ⟨kinds ▸ partition_ordered.nodup, fun batch entry => ?_, fun p mem => ?_⟩
  · obtain ⟨p, among, one⟩ := forall₂_left all batch entry
    exact ⟨p, among, one, ready.lower_kind made bottom one⟩
  · obtain ⟨batch, entry, one⟩ := forall₂_right all p mem
    exact ⟨batch, entry, one, ready.lower_kind made bottom one,
      ready.lower_inOrder made bottom (partition_inOrder order batch entry) one⟩

theorem opsOf_batches (ready : o.Ready (stock r)) (made : Registry.Made ds r)
    (bottom : o.classical.capabilities.kind = .classical) (order : InOrder is)
    (lowered : (o.lowerAll (routing.partition is).entries).1 = .ok programs) :
    (∀ batch ∈ (routing.partition is).entries, ∃ p, p.kind = batch.1 ∧
      (o.lower batch.1 batch.2).1 = .ok p ∧
        ((schedule programs).filter fun op => decide (op.1 = batch.1)) = tagged p) ∧
      ∀ kind, kind ∉ (routing.partition is).keys → opsOf kind (schedule programs) = [] := by
  obtain ⟨nodup, covers, each⟩ := batches_of_lowered ready made bottom order lowered
  constructor
  · intro batch entry
    obtain ⟨p, among, one, kind⟩ := covers batch entry
    obtain ⟨_, _, _, _, sorted⟩ := each p among
    exact ⟨p, kind, one, kind ▸ schedule_only nodup among sorted⟩
  · intro kind without
    apply opsOf_schedule_of_none
    intro q mem same
    obtain ⟨batch, entry, _, ofBatch, _⟩ := each q mem
    apply without
    rw [← same, ofBatch]
    exact List.mem_map_of_mem entry

theorem schedule_owns (ready : o.Ready (stock r)) (made : Registry.Made ds r)
    (bottom : o.classical.capabilities.kind = .classical) (plain : ∀ d ∈ ds, d.passes = [])
    (order : InOrder is) (all : Owns o (is.zip routing.assignments) owns)
    (lowered : (o.lowerAll (routing.partition is).entries).1 = .ok programs) :
    schedule programs = owns.flatMap tagged := by
  obtain ⟨batched, unbatched⟩ := opsOf_batches ready made bottom order lowered
  have among : InOrder ((is.zip routing.assignments).map Prod.fst) :=
    order.sublist (map_zip_sublist _ _)
  have sorted := all.inOrder among fun lowered => ready.lower_seq made bottom lowered
  have one : ∀ a ∈ owns.flatMap tagged, ∀ b ∈ owns.flatMap tagged,
      a.2.seq = b.2.seq → a.1 = b.1 := by
    have symm : Std.Symm fun a b : Scheduled => a.2.seq = b.2.seq → a.1 = b.1 :=
      ⟨fun a b same seq => (same seq.symm).symm⟩
    exact (sorted.imp fun both => both.2).forall_of_forall fun _ _ _ => rfl
  refine eq_of_kinds (schedule_sorted programs) (sorted.imp fun both => both.1) one fun kind => ?_
  rw [filter_tagged]
  have ofKind := all.ofKind kind
  by_cases has : kind ∈ (routing.partition is).keys
  · obtain ⟨batch, entry, rfl⟩ := List.mem_map.mp has
    obtain ⟨p, same, made', ofBatch⟩ := batched batch entry
    rw [ofBatch]
    obtain ⟨owns', each, rfl⟩ := (ready.lower_alone made bottom plain
      (partition_some batch entry)).mp made'
    rw [← batch_eq entry] at ofKind
    have equal : owns' = owns.filter fun q => decide (q.kind = batch.1) :=
      List.right_unique_forall₂' (fun i p q first second => Except.ok.inj (first.symm.trans second))
        each ofKind
    rw [equal]
    exact tagged_flatMap fun q mem => of_decide_eq_true (List.mem_filter.mp mem).2
  · have none := unbatched kind has
    rw [opsOf, List.map_eq_nil_iff] at none
    have nothing : instructionsOf kind (is.zip routing.assignments) = [] := by
      unfold instructionsOf
      rw [List.map_eq_nil_iff, List.filter_eq_nil_iff]
      intro e mem same
      obtain ⟨batch, entry, _⟩ := distribute_has mem Table.empty
      rw [of_decide_eq_true same] at entry
      exact has (List.mem_map_of_mem (f := Prod.fst) entry)
    rw [nothing, List.forall₂_nil_left_iff] at ofKind
    rw [none, ofKind, List.flatMap_nil]

theorem lowered_of_owns (ready : o.Ready (stock r)) (made : Registry.Made ds r)
    (bottom : o.classical.capabilities.kind = .classical) (plain : ∀ d ∈ ds, d.passes = [])
    (all : Owns o (is.zip routing.assignments) owns) :
    ∃ programs, (o.lowerAll (routing.partition is).entries).1 = .ok programs := by
  have each : ∀ batch ∈ (routing.partition is).entries,
      ∃ p, (o.lower batch.1 batch.2).1 = .ok p := by
    intro batch entry
    have ofKind := all.ofKind batch.1
    rw [← batch_eq entry] at ofKind
    exact ⟨_, (ready.lower_alone made bottom plain (partition_some batch entry)).mpr
      ⟨_, ofKind, rfl⟩⟩
  obtain ⟨programs, lowers⟩ := forall₂_choose each
  exact ⟨programs, (ready.lowerAll_ok_iff (stock_sole r)).mpr lowers⟩

theorem owns_of_lowered (ready : o.Ready (stock r)) (made : Registry.Made ds r)
    (bottom : o.classical.capabilities.kind = .classical) (plain : ∀ d ∈ ds, d.passes = [])
    (order : InOrder is) (lowered : (o.lowerAll (routing.partition is).entries).1 = .ok programs) :
    ∃ owns, Owns o (is.zip routing.assignments) owns := by
  obtain ⟨_, covers, _⟩ := batches_of_lowered ready made bottom order lowered
  apply forall₂_choose
  intro e mem
  obtain ⟨batch, entry, at_e⟩ := distribute_has mem Table.empty
  obtain ⟨p, _, made', _⟩ := covers (e.2.executor, batch) entry
  obtain ⟨owns, each, rfl⟩ := (ready.lower_alone made bottom plain
    (partition_some _ entry)).mp made'
  obtain ⟨q, _, own⟩ := forall₂_left each e.1 at_e
  exact ⟨q, ready.lower_kind made bottom own, own⟩

end Interleaved

/-- Splitting a ledger by executors and scheduling what its batches are lowered to loses nothing.
    Without passes the schedule is, in ledger order, what each instruction is lowered to alone, under
    the kind of its executor. With passes it has of each kind what the kind's batch, in ledger order,
    is lowered to, and of other kinds nothing. Positions never go back. -/
theorem schedule_interleaves {ds : List Descriptor} {r : Registry}
    (made : Registry.ofDescriptors ds = .ok r) {plan : SpawnPlan} {policy : SupervisionPolicy}
    {o : Orchestrator} (reachable : Reachable r .builtin plan policy o) {table : CapabilityTable}
    {host : Kind} {is : List Instruction} (order : InOrder is) {routing : RoutingPlan}
    (planned : table.plan host is = .ok routing) :
    routing.assignments.length = is.length ∧
    ((∀ d ∈ ds, d.passes = []) → ∀ owns, Owns o (is.zip routing.assignments) owns →
      ∃ programs, (o.lowerAll (routing.partition is).entries).1 = .ok programs ∧
        schedule programs = owns.flatMap tagged) ∧
    ∀ programs, (o.lowerAll (routing.partition is).entries).1 = .ok programs →
      ((∀ d ∈ ds, d.passes = []) → ∃ owns, Owns o (is.zip routing.assignments) owns ∧
        schedule programs = owns.flatMap tagged) ∧
      (∀ kind batch, (kind, batch) ∈ (routing.partition is).entries →
        batch = instructionsOf kind (is.zip routing.assignments) ∧
        ∃ p, p.kind = kind ∧ (o.lower kind batch).1 = .ok p ∧
          opsOf kind (schedule programs) = p.ops) ∧
      (∀ kind, kind ∉ (routing.partition is).keys → opsOf kind (schedule programs) = []) ∧
      (schedule programs).Pairwise fun a b => a.2.seq ≤ b.2.seq := by
  have ready := reachable.ready (stock_staff r)
  have made := Registry.made_of_ofDescriptors made
  have bottom : o.classical.capabilities.kind = .classical :=
    reachable.evaluates ▸ made.classical_kind
  refine ⟨assignments_length planned, fun plain owns all => ?_, fun programs lowered => ?_⟩
  · obtain ⟨programs, lowered⟩ := lowered_of_owns ready made bottom plain all
    exact ⟨programs, lowered, schedule_owns ready made bottom plain order all lowered⟩
  · obtain ⟨batched, unbatched⟩ := opsOf_batches ready made bottom order lowered
    refine ⟨fun plain => ?_, fun kind batch entry => ?_, unbatched, schedule_sorted programs⟩
    · obtain ⟨owns, all⟩ := owns_of_lowered ready made bottom plain order lowered
      exact ⟨owns, all, schedule_owns ready made bottom plain order all lowered⟩
    · obtain ⟨p, same, one, ofBatch⟩ := batched (kind, batch) entry
      refine ⟨batch_eq entry, p, same, one, ?_⟩
      rw [opsOf, ofBatch]
      simp [tagged]

def braided : List Instruction :=
  [⟨0, "const", [.reg "a", .int 1], .classical⟩, ⟨1, "sync", [.qubit 0, .qubit 1], .quantum⟩,
    ⟨2, "x", [.qubit 2], aux⟩, ⟨3, "x_if", [.reg "a", .qubit 0], .quantum⟩]

def braidedOwns : List Program :=
  [⟨.classical, [.plain 0 "const" [.reg "a", .int 1]]⟩,
    ⟨.quantum, [Lowering.gate 1 "h" [0], Lowering.gate 1 "cx" [0, 1]]⟩,
    ⟨aux, [Lowering.gate 2 "x" [2]]⟩,
    ⟨.quantum, [{ Lowering.gate 3 "x" [0] with guard := some (.reg "a") }]⟩]

theorem braided_interleaves : ∃ routing programs,
    (twinOffice []).capabilities.plan .quantum braided = .ok routing ∧
    ((twinOffice []).lowerAll (routing.partition braided).entries).1 = .ok programs ∧
    schedule programs = braidedOwns.flatMap tagged := by
  have order : InOrder braided := by decide
  have plain : ∀ d ∈ (twins ["cancel-inverses"]).map Descriptor.withoutPasses, d.passes = [] := by
    intro d mem
    obtain ⟨_, _, rfl⟩ := List.mem_map.mp mem
    rfl
  obtain ⟨routing, planned⟩ : ∃ routing,
      (twinOffice []).capabilities.plan .quantum braided = .ok routing := ⟨_, rfl⟩
  have owns : Owns (twinOffice []) (braided.zip routing.assignments) braidedOwns := by
    cases planned
    exact .cons ⟨rfl, rfl⟩ (.cons ⟨rfl, rfl⟩ (.cons ⟨rfl, rfl⟩ (.cons ⟨rfl, rfl⟩ .nil)))
  obtain ⟨_, existence, _⟩ := schedule_interleaves twins_stripped (twinOffice_reachable []) order planned
  obtain ⟨programs, lowered, interleaved⟩ := existence plain braidedOwns owns
  exact ⟨routing, programs, planned, lowered, interleaved⟩

end Orchestrator
end LazyCast
