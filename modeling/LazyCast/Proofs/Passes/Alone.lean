import LazyCast.Proofs.Orchestrator.Batches
import LazyCast.Proofs.Orchestrator.Positions
import LazyCast.Proofs.Passes.Paired
/-!
Ledgers whose only simulating executor is the host. Their schedule comes to one run, so what the
passes leave out of the host's batch is left out of that run, pair by pair.
-/
namespace LazyCast

theorem Undoes.bound {a b a' b' : NativeOp} {registers registers' : Registers}
    (undoes : Undoes a b) (binds : Program.bindOp registers a = .ok (some a'))
    (binds' : Program.bindOp registers' b = .ok (some b')) : Undoes a' b' := by
  obtain ⟨code, qubits, guard⟩ := (Program.bindOp_ok binds).2 a' rfl
  obtain ⟨code', qubits', guard'⟩ := (Program.bindOp_ok binds').2 b' rfl
  exact ⟨code ▸ undoes.involution, code.trans (undoes.code.trans code'.symm),
    qubits.trans (undoes.qubits.trans qubits'.symm), guard, guard'⟩

theorem Reduces.bound {f : NativeOp → List NativeOp} {xs ys : List NativeOp} (r : Reduces xs ys)
    (binds : ∀ op ∈ xs, ∃ registers x, Program.bindOp registers op = .ok x ∧ f op = x.toList) :
    Reduces (xs.flatMap f) (ys.flatMap f) := by
  induction r with
  | refl ops => exact .refl _
  | @fence before after _ op fence _ ih =>
    have rest := ih fun x mem => binds x (by simp at mem ⊢; tauto)
    obtain ⟨registers, x, bound, same⟩ := binds op (by simp)
    rw [List.flatMap_append] at rest ⊢
    rw [List.flatMap_cons, same]
    cases x with
    | none => exact rest
    | some b => exact .fence (((Program.bindOp_ok bound).2 b rfl).1.trans fence) rest
  | @pair before after _ a b undoes _ ih =>
    have rest := ih fun x mem => binds x (by simp at mem ⊢; tauto)
    obtain ⟨registers, x, bound, same⟩ := binds a (by simp)
    obtain ⟨registers', y, bound', same'⟩ := binds b (by simp)
    obtain ⟨a', rfl⟩ := Option.isSome_iff_exists.mp
      ((Program.bindOp_ok bound).1 undoes.unguarded.1)
    obtain ⟨b', rfl⟩ := Option.isSome_iff_exists.mp
      ((Program.bindOp_ok bound').1 undoes.unguarded.2)
    rw [List.flatMap_append] at rest ⊢
    rw [List.flatMap_cons, List.flatMap_cons, same, same']
    exact .pair (undoes.bound bound bound') rest

namespace Orchestrator

def Alone (t : CapabilityTable) (ledger : FrozenLedger) : Prop :=
  ∀ i ∈ ledger.instructions, ∀ kind, t.Executes ledger.dominantKind i kind →
    kind = ledger.dominantKind ∨ kind.isClassical = true

section Lowered
variable {ds : List Descriptor} {r : Registry} {o : Orchestrator} {programs : List Program}
  {ledger : FrozenLedger} {routing : RoutingPlan}

theorem stem_of_lowered (made : Registry.Made ds r)
    (bottom : o.classical.capabilities.kind = .classical)
    (routed : o.capabilities.plan ledger.dominantKind ledger.instructions = .ok routing)
    (lowered : List.Forall₂ (LowersAs r o) (routing.partition ledger.instructions).entries
      programs) : ∀ op ∈ schedule programs, ∃ i ∈ ledger.instructions,
        o.capabilities.Executes ledger.dominantKind i op.1 ∧ op.2.seq = i.seq ∧
          (op.1.isClassical = false → ∃ ops, Lowering.lowerOne i = .ok ops ∧ op.2 ∈ ops) := by
  intro op mem
  obtain ⟨p, among, kind, at_op⟩ := mem_schedule.mp mem
  obtain ⟨batch, entry, lowers⟩ := forall₂_right lowered p among
  have ofBatch := kind.trans (lowers.kind made bottom)
  obtain ⟨i, at_i, at_seq, stems⟩ : ∃ i ∈ batch.2, op.2.seq = i.seq ∧
      (op.1.isClassical = false → ∃ ops, Lowering.lowerOne i = .ok ops ∧ op.2 ∈ ops) := by
    cases lowers with
    | classical classical lowers =>
      obtain ⟨ops, each, rfl⟩ := Except.map_eq_ok.mp lowers
      obtain ⟨i, at_i, one⟩ := (Except.mapM_eq_ok each).2 op.2 at_op
      unfold Evaluator.lowerOne at one
      split at one
      · obtain ⟨_, _, same⟩ := Except.map_eq_ok.mp one
        refine ⟨i, at_i, by rw [← same]; rfl, fun needed => ?_⟩
        rw [ofBatch] at needed
        cases needed.symm.trans classical
      · cases one
    | simulated _ _ serves lowers =>
      obtain ⟨plain, all, _, reduces⟩ := Simulator.lower_eq_ok (serves.known made) lowers
      obtain ⟨i, at_i, ops, one, at_op⟩ :=
        (Simulator.lowerAll_eq_ok all).2.1 op.2 (reduces.sublist.subset at_op)
      exact ⟨i, at_i, Lowering.seq_lowerOne one op.2 at_op, fun _ => ⟨ops, one, at_op⟩⟩
  obtain ⟨among, executes⟩ := (mem_partition routed).1 batch entry i at_i
  exact ⟨i, among, ofBatch ▸ executes, at_seq, stems⟩

theorem origin_of_lowered (made : Registry.Made ds r)
    (bottom : o.classical.capabilities.kind = .classical)
    (routed : o.capabilities.plan ledger.dominantKind ledger.instructions = .ok routing)
    (lowered : List.Forall₂ (LowersAs r o) (routing.partition ledger.instructions).entries
      programs) : ∀ op ∈ schedule programs, ∃ i ∈ ledger.instructions,
        o.capabilities.Executes ledger.dominantKind i op.1 ∧ op.2.seq = i.seq := by
  intro op mem
  obtain ⟨i, among, executes, at_seq, _⟩ := stem_of_lowered made bottom routed lowered op mem
  exact ⟨i, among, executes, at_seq⟩

theorem kinds_of_lowered (made : Registry.Made ds r)
    (bottom : o.classical.capabilities.kind = .classical)
    {batches : List (Kind × List Instruction)} (lowered : List.Forall₂ (LowersAs r o) batches
      programs) : programs.map Program.kind = batches.map Prod.fst := by
  induction lowered with
  | nil => rfl
  | @cons batch p _ _ lowers _ ih =>
    rw [List.map_cons, List.map_cons, ih, lowers.kind made bottom]

theorem earlier_of_lowered (made : Registry.Made ds r)
    (bottom : o.classical.capabilities.kind = .classical)
    (numbered : Numbered ledger.instructions)
    (routed : o.capabilities.plan ledger.dominantKind ledger.instructions = .ok routing)
    (lowered : List.Forall₂ (LowersAs r o) (routing.partition ledger.instructions).entries
      programs) : (schedule programs).Pairwise Earlier := by
  have origin := origin_of_lowered made bottom routed lowered
  refine List.Pairwise.imp_of_mem ?_ (schedule_sorted programs)
  intro a b at_a at_b le
  refine ⟨le, fun other => Nat.lt_of_le_of_ne le fun same => other ?_⟩
  obtain ⟨i, among, executes, at_i⟩ := origin a at_a
  obtain ⟨j, among', executes', at_j⟩ := origin b at_b
  have one : i = j := by
    have nodup := List.inj_on_of_nodup_map (f := Instruction.seq) (by
      rw [numbered]
      exact List.nodup_range)
    exact nodup among among' (at_i.symm.trans (same.trans at_j))
  subst one
  rw [executes.unique executes']

end Lowered

section Alone
variable {ds : List Descriptor} {r r' : Registry} {o o' : Orchestrator} {ledger : FrozenLedger}
  {routing : RoutingPlan} {programs programs' runs runs' : List Program}

theorem Paired.opsOf_reduces (paired : Paired ds r r' o o')
    (numbered : Numbered ledger.instructions) {kind : Kind} (needed : kind.isClassical = false)
    (lowered : List.Forall₂ (LowersAs r' o') (routing.partition ledger.instructions).entries
      programs') (trims : Trimmed programs' programs) :
    Reduces (opsOf kind (schedule programs')) (opsOf kind (schedule programs)) := by
  have kinds : programs'.map Program.kind = (routing.partition ledger.instructions).keys :=
    kinds_of_lowered paired.made' paired.bottom lowered
  have nodup' : (programs'.map Program.kind).Nodup := kinds ▸ partition_ordered.nodup
  have nodup : (programs.map Program.kind).Nodup := trims.kinds.symm ▸ nodup'
  -- A kind has one batch, hence at most one program, and that is lowered in ledger order.
  by_cases some : ∃ q' ∈ programs', q'.kind = kind
  · obtain ⟨q', among', rfl⟩ := some
    obtain ⟨q, among, trim⟩ := forall₂_left trims q' among'
    obtain ⟨batch, entry, lowers⟩ := forall₂_right lowered q' among'
    have sorted' : q'.ops.Pairwise fun a b => a.seq ≤ b.seq := by
      have ofBatch := lowers.kind paired.made' paired.bottom
      cases lowers with
      | classical classical _ =>
        rw [ofBatch] at needed
        cases needed.symm.trans classical
      | simulated _ _ serves lowers =>
        rw [Simulator.lower_plain (serves.plain paired.made')] at lowers
        exact Simulator.lowerAll_inOrder
          (partition_inOrder (inOrder_of_numbered numbered) batch entry) lowers
    have sorted := sorted'.sublist trim.reduces.sublist
    have at_q := opsOf_schedule nodup among sorted
    rw [trim.kind] at at_q
    rw [opsOf_schedule nodup' among' sorted', at_q]
    exact trim.reduces
  · have none' : ∀ q ∈ programs', q.kind ≠ kind := fun q among same => some ⟨q, among, same⟩
    rw [opsOf_schedule_of_none none', opsOf_schedule_of_none]
    · exact .refl []
    · intro q among
      obtain ⟨q', among', trim⟩ := forall₂_right trims q among
      rw [trim.kind]
      exact none' q' among'

theorem Paired.reduces_bound (paired : Paired ds r r' o o') (numbered : Numbered ledger.instructions)
    {kind : Kind} (needed : kind.isClassical = false)
    (kinds' : ∀ op ∈ schedule programs', op.1 = kind ∨ op.1.isClassical = true)
    (routed : o'.capabilities.plan ledger.dominantKind ledger.instructions = .ok routing)
    (lowered : List.Forall₂ (LowersAs r' o') (routing.partition ledger.instructions).entries
      programs') (trims : Trimmed programs' programs) {bound bound' : List Scheduled}
    (all' : boundFrom o'.classical .empty (schedule programs') = .ok bound')
    (all : boundFrom o'.classical .empty (schedule programs) = .ok bound) :
    Reduces (bound'.map Prod.snd) (bound.map Prod.snd) := by
  have thins := trims.schedule
  have sorted' := earlier_of_lowered paired.made' paired.bottom numbered routed lowered
  have kinds := fun op mem => kinds' op (thins.sublist.subset mem)
  have placed := boundFrom_placed needed kinds (sorted'.sublist thins.sublist) all
  have placed' := boundFrom_placed needed kinds' sorted' all'
  -- Both are bound along the same classical operations, so one binding serves for both.
  have classical : classicalOps (schedule programs) = classicalOps (schedule programs') := by
    rw [classicalOps, classicalOps, thins.classical]
  have reduces := paired.opsOf_reduces numbered needed lowered trims
  rw [placed.all, placed'.all, classical]
  exact reduces.bound placed'.each

theorem Paired.reduces (paired : Paired ds r r' o o') (numbered : Numbered ledger.instructions)
    (alone : Alone o.capabilities ledger) (needed : ledger.dominantKind.isClassical = false)
    (routed : o'.capabilities.plan ledger.dominantKind ledger.instructions = .ok routing)
    (lowered : List.Forall₂ (LowersAs r' o') (routing.partition ledger.instructions).entries
      programs') (trims : Trimmed programs' programs)
    (planned' : runsOf o'.classical (schedule programs') = .ok runs')
    (planned : runsOf o'.classical (schedule programs) = .ok runs) {p p' : Program}
    (mem : p ∈ runs) (mem' : p' ∈ runs') :
    runs = [p] ∧ runs' = [p'] ∧ Reduces p'.ops p.ops := by
  have kinds' : ∀ op ∈ schedule programs',
      op.1 = ledger.dominantKind ∨ op.1.isClassical = true := by
    intro op mem
    obtain ⟨i, among, executes, _⟩ := origin_of_lowered paired.made' paired.bottom routed lowered op mem
    exact alone i among op.1 (paired.capabilities ▸ executes)
  have kinds := fun op mem => kinds' op (trims.schedule.sublist.subset mem)
  cases runs_single kinds planned mem
  cases runs_single kinds' planned' mem'
  have reduces := paired.reduces_bound numbered needed kinds' routed lowered trims
    (boundFrom_of_runs planned') (boundFrom_of_runs planned)
  refine ⟨rfl, rfl, ?_⟩
  simpa [tagged] using reduces

end Alone

end Orchestrator
end LazyCast
