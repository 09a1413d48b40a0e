import LazyCast.Proofs.Orchestrator.Executors
import LazyCast.Proofs.Passes.Measured
/-!
Lowering instruction by instruction. A built-in sub-compiler lowers a batch to what it lowers the
instructions to alone, end to end, each operation at the position of its instruction; passes leave
some of these operations out.
-/
namespace LazyCast

theorem Except.mapM_ok_iff {ε α β : Type} {f : α → Except ε β} {as : List α} {bs : List β} :
    as.mapM f = .ok bs ↔ List.Forall₂ (fun a b => f a = .ok b) as bs := by
  induction as generalizing bs with
  | nil =>
    rw [List.forall₂_nil_left_iff]
    exact ⟨fun same => (Except.ok.inj same).symm, fun same => same ▸ rfl⟩
  | cons a as ih =>
    rw [List.mapM_cons, Except.bind_eq_ok, List.forall₂_cons_left_iff]
    refine exists_congr fun b => ?_
    constructor
    · rintro ⟨first, rest⟩
      obtain ⟨others, later, made⟩ := Except.bind_eq_ok.mp rest
      exact ⟨others, first, ih.mp later, (Except.ok.inj made).symm⟩
    · rintro ⟨others, first, later, rfl⟩
      exact ⟨first, Except.bind_eq_ok.mpr ⟨others, ih.mpr later, rfl⟩⟩

/-- Lowering that takes instructions one by one, to operations at their positions. -/
structure Piecewise (lower : List Instruction → Except Fault Program) (kind : Kind)
    (one : Instruction → Except Fault (List NativeOp)) : Prop where
  whole : ∀ batch, lower batch = (batch.mapM one).map fun ops => ⟨kind, ops.flatten⟩
  seq : ∀ {i ops}, one i = .ok ops → ∀ op ∈ ops, op.seq = i.seq

namespace Piecewise
variable {lower : List Instruction → Except Fault Program} {kind : Kind}
  {one : Instruction → Except Fault (List NativeOp)} {i : Instruction} {p : Program}

theorem single_iff (pieces : Piecewise lower kind one) :
    lower [i] = .ok p ↔ ∃ ops, one i = .ok ops ∧ p = ⟨kind, ops⟩ := by
  rw [pieces.whole, List.mapM_cons, List.mapM_nil]
  cases one i with
  | error e => simp [bind, Except.bind, Except.map]
  | ok ops =>
    simp only [bind, Except.bind, pure, Except.pure, Except.map, List.flatten_cons,
      List.flatten_nil, List.append_nil, Except.ok.injEq, exists_eq_left']
    exact eq_comm

theorem ok_iff (pieces : Piecewise lower kind one) {batch : List Instruction} :
    lower batch = .ok p ↔ ∃ owns, List.Forall₂ (fun i q => lower [i] = .ok q) batch owns ∧
      p = ⟨kind, owns.flatMap Program.ops⟩ := by
  rw [pieces.whole, Except.map_eq_ok]
  constructor
  · rintro ⟨lists, all, rfl⟩
    refine ⟨lists.map fun ops => ⟨kind, ops⟩, ?_, ?_⟩
    · rw [List.forall₂_map_right_iff]
      exact (Except.mapM_ok_iff.mp all).imp fun i ops made => pieces.single_iff.mpr ⟨ops, made, rfl⟩
    · simp [List.flatMap_map, List.flatMap_id']
  · rintro ⟨owns, all, rfl⟩
    refine ⟨owns.map Program.ops, Except.mapM_ok_iff.mpr ?_, ?_⟩
    · rw [List.forall₂_map_right_iff]
      refine all.imp fun i q made => ?_
      obtain ⟨ops, own, rfl⟩ := pieces.single_iff.mp made
      exact own
    · simp [List.flatMap_def]

theorem seq_of_single (pieces : Piecewise lower kind one) (lowered : lower [i] = .ok p) :
    p.kind = kind ∧ ∀ op ∈ p.ops, op.seq = i.seq := by
  obtain ⟨ops, made, rfl⟩ := pieces.single_iff.mp lowered
  exact ⟨rfl, pieces.seq made⟩

theorem inOrder (pieces : Piecewise lower kind one) {batch : List Instruction}
    (order : InOrder batch) (lowered : lower batch = .ok p) :
    p.ops.Pairwise fun a b => a.seq ≤ b.seq := by
  obtain ⟨owns, all, rfl⟩ := pieces.ok_iff.mp lowered
  clear lowered
  dsimp only
  induction all with
  | nil => exact List.Pairwise.nil
  | @cons i q is qs first later ih =>
    obtain ⟨less, order⟩ := List.pairwise_cons.mp order
    have here := (pieces.seq_of_single first).2
    rw [List.flatMap_cons]
    refine List.pairwise_append.mpr ⟨?_, ih order, ?_⟩
    · apply List.pairwise_of_forall_mem_list
      intro a at_a b at_b
      rw [here a at_a, here b at_b]
    · intro a at_a b at_b
      obtain ⟨q', among, at_b⟩ := List.mem_flatMap.mp at_b
      obtain ⟨j, of_batch, made⟩ := Orchestrator.forall₂_right later q' among
      rw [here a at_a, (pieces.seq_of_single made).2 b at_b]
      exact Nat.le_of_lt (less j of_batch)

end Piecewise

theorem Evaluator.piecewise (e : Evaluator) :
    Piecewise e.lower e.capabilities.kind fun i => (e.lowerOne i).map fun op => [op] where
  whole batch := by
    unfold Evaluator.lower
    induction batch with
    | nil => rfl
    | cons i is ih =>
      rw [List.mapM_cons, List.mapM_cons]
      revert ih
      cases e.lowerOne i <;> cases is.mapM e.lowerOne <;>
        cases is.mapM (fun i => (e.lowerOne i).map fun op => [op]) <;>
          simp [bind, Except.bind, Except.map, pure, Except.pure]
  seq {i ops} made op mem := by
    obtain ⟨own, lowered, rfl⟩ := Except.map_eq_ok.mp made
    rw [List.mem_singleton.mp mem]
    unfold Evaluator.lowerOne at lowered
    split at lowered
    · obtain ⟨_, _, rfl⟩ := Except.map_eq_ok.mp lowered
      rfl
    · cases lowered

theorem Simulator.piecewise (s : Simulator) :
    Piecewise s.lowerAll s.capabilities.kind s.lowerOne where
  whole _ := rfl
  seq made := Lowering.seq_lowerOne (lowerOne_eq_ok made)

structure Pieces (f plain : List Instruction → Except Fault Program) (kind : Kind) (passes : Prop) :
    Prop where
  piecewise : ∃ one, Piecewise plain kind one
  remains : ∀ {batch p}, f batch = .ok p →
    ∃ q, plain batch = .ok q ∧ p.kind = q.kind ∧ p.ops.Sublist q.ops
  unpassed : ¬ passes → f = plain

theorem Evaluator.pieces (e : Evaluator) (passes : Prop) :
    Pieces e.lower e.lower e.capabilities.kind passes where
  piecewise := ⟨_, e.piecewise⟩
  remains lowered := ⟨_, lowered, rfl, List.Sublist.refl _⟩
  unpassed _ := rfl

theorem Simulator.pieces {s : Simulator} (known : ∀ pass ∈ s.passes, (Pass.ofName? pass).isSome) :
    Pieces s.lower s.lowerAll s.capabilities.kind (s.passes ≠ []) where
  piecewise := ⟨_, s.piecewise⟩
  remains lowered := by
    obtain ⟨q, plain, kind, reduces⟩ := Simulator.lower_eq_ok known lowered
    exact ⟨q, plain, kind, reduces.sublist⟩
  unpassed none := funext fun batch => Simulator.lower_plain (of_not_not none) batch

namespace Orchestrator

def stock (r : Registry) : Staff := fun kind c =>
  ∃ d, r.require kind = .ok d ∧ ModuleTable.builtin.instantiate d = .ok c

section Stock
variable {ds : List Descriptor} {r : Registry} {o : Orchestrator} {kind : Kind}

theorem stock_staff (r : Registry) : Staffs r .builtin (stock r) :=
  fun _ d _ _ required made => ⟨d, required, made⟩

theorem stock_sole (r : Registry) : (stock r).Sole := by
  rintro kind c c' ⟨d, required, made⟩ ⟨d', required', made'⟩
  cases required.symm.trans required'
  exact Except.ok.inj (made.symm.trans made')

theorem instantiate_builtin {d : Descriptor} {c : SubCompiler}
    (made : ModuleTable.builtin.instantiate d = .ok c) :
    c = (Evaluator.ofDescriptor d).subCompiler ∨
      ∃ s, Simulator.ofDescriptor d = .ok s ∧ c = s.subCompiler := by
  unfold ModuleTable.instantiate at made
  cases found : ModuleTable.builtin.find? d.module with
  | none =>
    rw [found] at made
    cases made
  | some make =>
    rw [found] at made
    have entry := find?_ofList _ found
    simp only [List.mem_cons, Prod.mk.injEq, List.not_mem_nil, or_false] at entry
    rcases entry with ⟨_, rfl⟩ | ⟨_, rfl⟩
    · exact Or.inl (Except.ok.inj made).symm
    · obtain ⟨s, simulator, rfl⟩ := Except.map_eq_ok.mp made
      exact Or.inr ⟨s, simulator, rfl⟩

theorem Lowers.pieces (made : Registry.Made ds r)
    (bottom : o.classical.capabilities.kind = .classical)
    {f : List Instruction → Except Fault Program} (lowers : Lowers (stock r) o kind f) :
    ∃ plain, Pieces f plain kind (∃ d ∈ ds, d.passes ≠ []) := by
  cases lowers with
  | evaluator classical =>
    rw [of_decide_eq_true classical, ← bottom]
    exact ⟨_, Evaluator.pieces _ _⟩
  | @worker needed covered c belongs =>
    obtain ⟨d, required, instantiated⟩ := belongs
    have ofKind := made.kind_required required
    rcases instantiate_builtin instantiated with rfl | ⟨s, simulator, rfl⟩
    · rw [← ofKind]
      exact ⟨_, Evaluator.pieces (.ofDescriptor d) _⟩
    · have serves : r.Serves kind s := ⟨d, required, simulator⟩
      have pieces := Simulator.pieces (serves.known made)
      rw [serves.kind made] at pieces
      refine ⟨_, pieces.piecewise, pieces.remains, fun none => pieces.unpassed fun some => none ?_⟩
      rw [(Simulator.kind_ofDescriptor simulator).2] at some
      exact ⟨d, (made.found (Registry.require_eq_ok.mp required).1).1, some⟩

section Alone
variable {p q : Program} {i : Instruction} {batch : List Instruction}

theorem Ready.lower_remains (ready : o.Ready (stock r)) (made : Registry.Made ds r)
    (bottom : o.classical.capabilities.kind = .classical)
    (lowered : (o.lower kind batch).1 = .ok p) : ∃ plain one q, Piecewise plain kind one ∧
      plain batch = .ok q ∧ p.kind = kind ∧ p.ops.Sublist q.ops := by
  obtain ⟨f, lowers⟩ := ready.lowers_of_ok lowered
  rw [ready.lower_eq (stock_sole r) lowers] at lowered
  obtain ⟨plain, pieces⟩ := lowers.pieces made bottom
  obtain ⟨q, whole, same, sublist⟩ := pieces.remains lowered
  obtain ⟨one, piecewise⟩ := pieces.piecewise
  obtain ⟨owns, _, rfl⟩ := piecewise.ok_iff.mp whole
  exact ⟨plain, one, _, piecewise, whole, same, sublist⟩

theorem Ready.lower_kind (ready : o.Ready (stock r)) (made : Registry.Made ds r)
    (bottom : o.classical.capabilities.kind = .classical)
    (lowered : (o.lower kind batch).1 = .ok p) : p.kind = kind := by
  obtain ⟨_, _, _, _, _, same, _⟩ := ready.lower_remains made bottom lowered
  exact same

theorem Ready.lower_inOrder (ready : o.Ready (stock r)) (made : Registry.Made ds r)
    (bottom : o.classical.capabilities.kind = .classical) (order : InOrder batch)
    (lowered : (o.lower kind batch).1 = .ok p) : p.ops.Pairwise fun a b => a.seq ≤ b.seq := by
  obtain ⟨_, _, _, piecewise, whole, _, sublist⟩ := ready.lower_remains made bottom lowered
  exact (piecewise.inOrder order whole).sublist sublist

theorem Ready.lower_seq (ready : o.Ready (stock r)) (made : Registry.Made ds r)
    (bottom : o.classical.capabilities.kind = .classical)
    (lowered : (o.lower kind [i]).1 = .ok p) : ∀ op ∈ p.ops, op.seq = i.seq := by
  obtain ⟨_, _, _, piecewise, whole, _, sublist⟩ := ready.lower_remains made bottom lowered
  intro op mem
  exact (piecewise.seq_of_single whole).2 op (sublist.subset mem)

theorem Ready.lower_alone (ready : o.Ready (stock r)) (made : Registry.Made ds r)
    (bottom : o.classical.capabilities.kind = .classical) (plain : ∀ d ∈ ds, d.passes = [])
    (some : batch ≠ []) : (o.lower kind batch).1 = .ok p ↔
      ∃ owns, List.Forall₂ (fun i q => (o.lower kind [i]).1 = .ok q) batch owns ∧
        p = ⟨kind, owns.flatMap Program.ops⟩ := by
  have unpassed : ¬ ∃ d ∈ ds, d.passes ≠ [] := by
    rintro ⟨d, mem, passes⟩
    exact passes (plain d mem)
  have whole : ∀ {f}, Lowers (stock r) o kind f → (f batch = .ok p ↔
      ∃ owns, List.Forall₂ (fun i q => f [i] = .ok q) batch owns ∧
        p = ⟨kind, owns.flatMap Program.ops⟩) := by
    intro f lowers
    obtain ⟨g, pieces⟩ := lowers.pieces made bottom
    obtain ⟨one, piecewise⟩ := pieces.piecewise
    rw [pieces.unpassed unpassed]
    exact piecewise.ok_iff
  constructor
  · intro lowered
    obtain ⟨f, lowers⟩ := ready.lowers_of_ok lowered
    have same := ready.lower_eq (stock_sole r) lowers
    simp only [same] at lowered ⊢
    exact (whole lowers).mp lowered
  · rintro ⟨owns, each, rfl⟩
    -- The first instruction shows that something lowers the kind.
    obtain ⟨i, mem⟩ := List.exists_mem_of_ne_nil _ some
    obtain ⟨q, _, lowered⟩ := forall₂_left each i mem
    obtain ⟨f, lowers⟩ := ready.lowers_of_ok lowered
    have same := ready.lower_eq (stock_sole r) lowers
    simp only [same] at each ⊢
    exact (whole lowers).mpr ⟨owns, each, rfl⟩

end Alone

end Stock

end Orchestrator
end LazyCast
