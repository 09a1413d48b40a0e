import LazyCast.Proofs.Passes.Measured
/-!
Two orchestrators of one plan, for a registry and for the same registry without passes. They route
alike, and what one of them lowers is what the other lowers, reduced.
-/
namespace LazyCast.Orchestrator
variable {ds : List Descriptor} {r r' : Registry} {o o' : Orchestrator}

/-- Orchestrators that differ in their passes and in the work behind them; `o'` has no passes. -/
structure Paired (ds : List Descriptor) (r r' : Registry) (o o' : Orchestrator) : Prop where
  made : Registry.Made ds r
  made' : Registry.Made (ds.map Descriptor.withoutPasses) r'
  ready : o.Ready (simulators r)
  ready' : o'.Ready (simulators r')
  plan : o'.plan = o.plan
  classical : o'.classical = o.classical
  capabilities : o'.capabilities = o.capabilities
  workers : ∀ kind, o'.workers.contains kind = o.workers.contains kind
  evaluates : o.classical = Evaluator.ofDescriptor r.classical

theorem startWorkers_capabilities (made : Registry.Made ds r)
    (made' : Registry.Made (ds.map Descriptor.withoutPasses) r') (simulated : Simulated ds)
    {kinds : List Kind} (needed : ∀ kind ∈ kinds, kind.isClassical = false)
    {compilers compilers' : List (Kind × SubCompiler)}
    (started : startWorkers r .builtin kinds = .ok compilers)
    (started' : startWorkers r' .builtin kinds = .ok compilers') :
    compilers'.map (fun c => { c.2.capabilities with kind := c.1 }) =
      compilers.map fun c => { c.2.capabilities with kind := c.1 } := by
  induction kinds generalizing compilers compilers' with
  | nil =>
    cases started
    cases started'
    rfl
  | cons kind rest ih =>
    obtain ⟨d, c, others, required, instantiated, later, rfl⟩ := startWorkers_cons started
    obtain ⟨d', c', others', required', instantiated', later', rfl⟩ := startWorkers_cons started'
    have first := needed kind List.mem_cons_self
    obtain ⟨s, serves, rfl⟩ := instantiate_simulator made simulated first required instantiated
    obtain ⟨s', serves', rfl⟩ :=
      instantiate_simulator made' simulated.withoutPasses first required' instantiated'
    cases serves'.unique (serves.stripped made made')
    rw [List.map_cons, List.map_cons,
      ih (fun k mem => needed k (List.mem_cons_of_mem _ mem)) later later']
    rfl

theorem paired_of_reachable (made : Registry.Made ds r)
    (made' : Registry.Made (ds.map Descriptor.withoutPasses) r') (simulated : Simulated ds)
    {plan : SpawnPlan} {policy policy' : SupervisionPolicy}
    (reachable : Reachable r .builtin plan policy o)
    (reachable' : Reachable r' .builtin plan policy' o') : Paired ds r r' o o' := by
  obtain ⟨first, started, continues⟩ := reachable.continues
  obtain ⟨first', started', continues'⟩ := reachable'.continues
  obtain ⟨compilers, workers, rfl⟩ := start_eq started
  obtain ⟨compilers', workers', rfl⟩ := start_eq started'
  have evaluators := Registry.classical_stripped made made'
  have needed : ∀ kind ∈ plan.elems.filter fun k => !k.isClassical, kind.isClassical = false := by
    intro kind mem
    simpa using (List.mem_filter.mp mem).2
  have table := startWorkers_capabilities made made' simulated needed workers workers'
  exact {
    made := made
    made' := made'
    ready := reachable.ready (simulators_staff made simulated)
    ready' := reachable'.ready (simulators_staff made' simulated.withoutPasses)
    plan := continues'.1.plan.trans continues.1.plan.symm
    classical := continues'.1.classical.trans (evaluators.trans continues.1.classical.symm)
    capabilities := by
      rw [continues'.1.capabilities, continues.1.capabilities]
      dsimp only
      rw [table, evaluators]
    workers := by
      intro kind
      rw [continues'.2 kind, continues.2 kind]
      dsimp only
      have keys : ∀ compilers : List (Kind × SubCompiler),
          (compilers.map fun c => (c.1, Worker.start c.1 c.2)).map Prod.fst =
            compilers.map Prod.fst := by simp
      rw [contains_ofList, contains_ofList, keys, keys, startWorkers_kinds workers,
        startWorkers_kinds workers']
    evaluates := continues.1.classical }

namespace Paired

theorem bottom (paired : Paired ds r r' o o') :
    o'.classical.capabilities.kind = .classical := by
  rw [paired.classical, paired.evaluates]
  exact paired.made.classical_kind

theorem lowers (paired : Paired ds r r' o o') {batch : Kind × List Instruction} {p : Program}
    (lowers : LowersAs r' o' batch p) : ∃ q, LowersAs r o batch q ∧ Trims p q := by
  have ofBatch := lowers.kind paired.made' paired.bottom
  cases lowers with
  | classical classical lowered =>
    rw [paired.classical] at lowered
    exact ⟨p, .classical classical lowered, rfl, .refl _, fun _ => rfl⟩
  | simulated needed covered serves lowered =>
    obtain ⟨s, serving, rfl⟩ := serves.unstripped paired.made paired.made'
    obtain ⟨q, reduced, kind, reduces⟩ := s.lower_reduces (serving.known paired.made) lowered
    refine ⟨q, .simulated needed ((paired.workers _).symm.trans covered) serving reduced, kind,
      reduces, fun classical => ?_⟩
    rw [ofBatch, needed] at classical
    cases classical

theorem lowersAll (paired : Paired ds r r' o o') {batches : List (Kind × List Instruction)}
    {programs : List Program} (lowered : List.Forall₂ (LowersAs r' o') batches programs) :
    ∃ trimmed, List.Forall₂ (LowersAs r o) batches trimmed ∧ Trimmed programs trimmed := by
  exact forall₂_choose_beside (fun _ _ first => paired.lowers first) lowered

end Paired

theorem prepares_of_run {ledger : FrozenLedger} {out : RunOutput}
    (ok : (o.run ledger).1 = .ok out) : ∃ routing programs,
      o.capabilities.plan ledger.dominantKind ledger.instructions = .ok routing ∧
      (o.lowerAll (routing.partition ledger.instructions).entries).1 = .ok programs ∧
      o.Prepares ledger programs := by
  unfold Orchestrator.run at ok
  dsimp only at ok
  cases missing : ledger.kinds.elems.find? fun k => !o.plan.contains k with
  | some k =>
    rw [missing] at ok
    cases ok
  | none =>
    rw [missing] at ok
    cases routed : o.capabilities.plan ledger.dominantKind ledger.instructions with
    | error e =>
      rw [routed] at ok
      cases ok
    | ok routing =>
      rw [routed] at ok
      dsimp only at ok
      rcases lowered : o.lowerAll (routing.partition ledger.instructions).entries with
        ⟨e | programs, left⟩
      · rw [lowered] at ok
        cases ok
      · exact ⟨routing, programs, rfl, by rw [lowered], missing, routing, left, routed, lowered⟩

end LazyCast.Orchestrator
