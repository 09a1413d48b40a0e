import LazyCast.Proofs.Orchestrator.Agreement
import LazyCast.Proofs.Orchestrator.Interleaving
/-!
Ledgers instruction by instruction, whatever the passes are. A registry with passes has a twin
without them; a ledger that runs on the one comes, on the other, to what its instructions are lowered
to alone, and this is bound to the end. Where it comes to one run, the ledger runs as soon as that run
is admitted.
-/
namespace LazyCast.Orchestrator
variable {ds : List Descriptor} {r r' : Registry} {o o' : Orchestrator}

section Twin

theorem exists_stripped (made : Registry.Made ds r) :
    ∃ r', Registry.Made (ds.map Descriptor.withoutPasses) r' := by
  have found : (r.descriptors.mapValues Descriptor.withoutPasses).find? "classical" =
      some r.classical.withoutPasses := by
    rw [Table.find?_mapValues, r.classical_found]
    rfl
  exact ⟨⟨_, _, found⟩, Registry.addAll_withoutPasses made.added, made.bottom⟩

theorem startWorkers_stripped (made : Registry.Made ds r)
    (made' : Registry.Made (ds.map Descriptor.withoutPasses) r') (simulated : Simulated ds)
    {kinds : List Kind} (needed : ∀ kind ∈ kinds, kind.isClassical = false)
    {compilers : List (Kind × SubCompiler)}
    (started : startWorkers r .builtin kinds = .ok compilers) :
    ∃ compilers', startWorkers r' .builtin kinds = .ok compilers' := by
  induction kinds generalizing compilers with
  | nil => exact ⟨[], rfl⟩
  | cons kind rest ih =>
    obtain ⟨d, c, others, required, instantiated, later, rfl⟩ := startWorkers_cons started
    obtain ⟨others', later'⟩ := ih (fun k mem => needed k (List.mem_cons_of_mem _ mem)) later
    have first := needed kind List.mem_cons_self
    obtain ⟨among, other⟩ := required_other made first required
    have module := simulated d among other
    rw [instantiate_stateVector module] at instantiated
    obtain ⟨s, simulator, _⟩ := Except.map_eq_ok.mp instantiated
    have instantiated' : ModuleTable.builtin.instantiate d.withoutPasses =
        .ok s.withoutPasses.subCompiler := by
      rw [instantiate_stateVector (d := d.withoutPasses) module,
        Simulator.ofDescriptor_withoutPasses, simulator]
      rfl
    refine ⟨(kind, s.withoutPasses.subCompiler) :: others', ?_⟩
    simp only [startWorkers, bind, Except.bind, pure, Except.pure, later', instantiated',
      Registry.require_stripped made made' required]

theorem exists_twin (made : Registry.Made ds r) (simulated : Simulated ds) {plan : SpawnPlan}
    {policy : SupervisionPolicy} (reachable : Reachable r .builtin plan policy o) :
    ∃ r' o', Paired ds r r' o o' ∧ o'.Ready (stock r') := by
  obtain ⟨r', made'⟩ := exists_stripped made
  obtain ⟨first, started, _⟩ := reachable.continues
  obtain ⟨compilers, workers, _⟩ := start_eq started
  have needed : ∀ kind ∈ plan.elems.filter fun k => !k.isClassical, kind.isClassical = false := by
    intro kind mem
    simpa using (List.mem_filter.mp mem).2
  obtain ⟨compilers', workers'⟩ := startWorkers_stripped made made' simulated needed workers
  obtain ⟨o', started'⟩ : ∃ o', Orchestrator.start r' .builtin plan policy = .ok o' := by
    simp only [start, bind, Except.bind, pure, Except.pure, workers']
    exact ⟨_, rfl⟩
  have reachable' : Reachable r' .builtin plan policy o' := .start started'
  exact ⟨r', _, paired_of_reachable made made' simulated reachable reachable',
    reachable'.ready (stock_staff r')⟩

theorem Paired.plain (paired : Paired ds r r' o o') {batch : Kind × List Instruction} {q : Program}
    (lowers : LowersAs r o batch q) : ∃ p, LowersAs r' o' batch p ∧ Trims p q := by
  cases lowers with
  | classical classical lowered =>
    exact ⟨q, .classical classical (paired.classical ▸ lowered), rfl, .refl _, fun _ => rfl⟩
  | @simulated needed covered s serves lowered =>
    obtain ⟨p, plain, kind, reduces⟩ := Simulator.lower_eq_ok (serves.known paired.made) lowered
    have lowered' : s.withoutPasses.lower batch.2 = .ok p := by
      rw [Simulator.lower_plain rfl]
      exact plain
    have ofBatch : p.kind = batch.1 :=
      (Simulator.lowerAll_eq_ok plain).1.trans (serves.kind paired.made)
    refine ⟨p, .simulated needed ((paired.workers _).trans covered)
      (serves.stripped paired.made paired.made') lowered', kind, reduces, fun classical => ?_⟩
    rw [ofBatch, needed] at classical
    cases classical

theorem Paired.plainAll (paired : Paired ds r r' o o') {batches : List (Kind × List Instruction)}
    {programs : List Program} (lowered : List.Forall₂ (LowersAs r o) batches programs) :
    ∃ programs', List.Forall₂ (LowersAs r' o') batches programs' ∧ Trimmed programs' programs := by
  obtain ⟨programs', others, trims⟩ :=
    forall₂_choose_beside (T := fun q p => Trims p q) (fun _ _ first => paired.plain first)
      lowered
  exact ⟨programs', others, trims.flip⟩

end Twin

/-- What an instruction is lowered to by its executor, as long as no pass is run. -/
inductive Yields (r : Registry) (o : Orchestrator) (host : Kind) (i : Instruction) :
    Program → Prop where
  | evaluated {op : NativeOp} (executes : o.capabilities.Executes host i .classical)
      (lowered : o.classical.lowerOne i = .ok op) : Yields r o host i ⟨.classical, [op]⟩
  | simulated {kind : Kind} {s : Simulator} {ops : List NativeOp}
      (needed : kind.isClassical = false) (executes : o.capabilities.Executes host i kind)
      (covered : o.workers.contains kind = true) (serves : r.Serves kind s)
      (lowered : s.lowerOne i = .ok ops) : Yields r o host i ⟨kind, ops⟩

namespace Yields
variable {host : Kind} {i j : Instruction} {p : Program}

theorem executes (yields : Yields r o host i p) : o.capabilities.Executes host i p.kind := by
  cases yields with
  | evaluated executes _ => exact executes
  | simulated _ executes _ _ _ => exact executes

theorem alike (yields : Yields r o host i p) (alike : i.Alike j) :
    ∃ q, Yields r o host j q ∧ List.Forall₂ Scheduled.Alike (tagged p) (tagged q) := by
  have executes : ∀ {kind}, o.capabilities.Executes host i kind →
      o.capabilities.Executes host j kind := by
    rintro kind ⟨route, resolved⟩
    exact ⟨route, (o.capabilities.resolve_alike host alike).trans resolved⟩
  cases yields with
  | @evaluated op evaluates lowered =>
    have lowered' : o.classical.lowerOne j = .ok (op.placed j.seq) := by
      rw [Evaluator.lowerOne_alike o.classical alike, lowered]
      rfl
    exact ⟨_, .evaluated (executes evaluates) lowered',
      tagged_alike (.cons (op.alike_placed j.seq) .nil)⟩
  | @simulated kind s ops needed simulates covered serves lowered =>
    have lowered' : s.lowerOne j = .ok (ops.map (NativeOp.placed j.seq)) := by
      rw [Simulator.lowerOne_alike s alike, lowered]
      rfl
    exact ⟨_, .simulated needed (executes simulates) covered serves lowered',
      tagged_alike (NativeOp.alike_map_placed j.seq ops)⟩

theorem reads (yields : Yields r o host i p) : ∀ op ∈ p.ops, ∀ name ∈ op.reads, name ∈ i.registers := by
  cases yields with
  | evaluated _ lowered =>
    intro op mem name read
    rw [List.mem_singleton.mp mem, Evaluator.reads_of_lowered lowered] at read
    exact read
  | simulated _ _ _ _ lowered =>
    intro op mem
    exact (Lowering.reads_of_lowered (Simulator.lowerOne_eq_ok lowered) op mem).1

theorem stems (yields : Yields r o host i p) (needed : p.kind.isClassical = false) :
    ∀ op ∈ p.ops, op.StemsFrom i := by
  cases yields with
  | evaluated _ _ => cases needed
  | simulated _ _ _ _ lowered => exact Lowering.stems_of_lowered (Simulator.lowerOne_eq_ok lowered)

end Yields

def BindsTo (r : Registry) (o : Orchestrator) (host : Kind) (is : List Instruction)
    (bound : List Scheduled) : Prop :=
  ∃ owns, List.Forall₂ (Yields r o host) is owns ∧
    boundFrom o.classical .empty (owns.flatMap tagged) = .ok bound

theorem Paired.yields_iff (paired : Paired ds r r' o o') {host : Kind} {i : Instruction}
    {p : Program} : Yields r o host i p ↔
      o.capabilities.Executes host i p.kind ∧ (o'.lower p.kind [i]).1 = .ok p := by
  have bottom := paired.bottom
  have lower_ok : ∀ kind p, (o'.lower kind [i]).1 = .ok p ↔ LowersAs r' o' (kind, [i]) p :=
    fun kind p => @Ready.lower_ok r' o' paired.ready' (kind, [i]) p
  constructor
  · intro yields
    refine ⟨yields.executes, ?_⟩
    cases yields with
    | @evaluated op executes lowered =>
      refine (lower_ok .classical _).mpr (.classical rfl ?_)
      refine o'.classical.piecewise.single_iff.mpr ⟨[op], ?_, by rw [bottom]⟩
      rw [paired.classical, lowered]
      rfl
    | @simulated kind s ops needed executes covered serves lowered =>
      have serves' := serves.stripped paired.made paired.made'
      refine (lower_ok kind _).mpr
        (.simulated needed ((paired.workers _).trans covered) serves' ?_)
      rw [Simulator.lower_plain rfl]
      refine s.withoutPasses.piecewise.single_iff.mpr ⟨ops, lowered, ?_⟩
      rw [serves'.kind paired.made']
  · rintro ⟨executes, lowered⟩
    have lowers := (lower_ok p.kind p).mp lowered
    cases lowers with
    | classical classical lowers =>
      obtain ⟨ops, one, rfl⟩ := o'.classical.piecewise.single_iff.mp lowers
      obtain ⟨op, own, rfl⟩ := Except.map_eq_ok.mp one
      rw [bottom] at executes ⊢
      exact .evaluated executes (paired.classical ▸ own)
    | simulated needed covered serves' lowers =>
      obtain ⟨s, serves, rfl⟩ := serves'.unstripped paired.made paired.made'
      rw [Simulator.lower_plain rfl] at lowers
      obtain ⟨ops, one, same⟩ := s.withoutPasses.piecewise.single_iff.mp lowers
      have lowered' : s.lowerOne i = .ok p.ops := by
        rw [same]
        exact one
      exact .simulated needed executes ((paired.workers _).symm.trans covered) serves lowered'

section Restored
variable {e : Evaluator} {eval : EvalState} {xs ys : List Scheduled} {p q : Program}
  {programs programs' : List Program}

def Scheduled.isReading (op : Scheduled) : Bool := op.1.isClassical || !op.2.reads.isEmpty

theorem boundFrom_restored (sublist : ys.Sublist xs)
    (same : ys.filter Scheduled.isReading = xs.filter Scheduled.isReading) {left : List Scheduled}
    (bound : boundFrom e eval ys = .ok left) : ∃ whole, boundFrom e eval xs = .ok whole := by
  induction sublist generalizing eval left with
  | slnil => exact ⟨left, bound⟩
  | @cons ys xs op sublist ih =>
    cases reading : Scheduled.isReading op with
    | true =>
      have longer := (sublist.filter Scheduled.isReading).length_le
      rw [same, List.filter_cons, reading, if_pos rfl, List.length_cons] at longer
      exact absurd longer (Nat.not_succ_le_self _)
    | false =>
      rw [List.filter_cons, reading, if_neg Bool.false_ne_true] at same
      obtain ⟨needed, blind⟩ : op.1.isClassical = false ∧ op.2.reads = [] := by
        simpa [Scheduled.isReading] using reading
      obtain ⟨whole, later⟩ := ih same bound
      obtain ⟨x, binds⟩ : ∃ x, Program.bindOp eval.registers op.2 = .ok x := by
        apply Program.bindOp_written
        rw [blind]
        intro name none
        cases none
      have one : (Program.mk op.1 [op.2]).bind eval.registers = .ok ⟨op.1, x.toList⟩ :=
        Program.bind_single.mpr ⟨x, binds, rfl⟩
      refine ⟨tagged ⟨op.1, x.toList⟩ ++ whole, ?_⟩
      rw [boundFrom_needed needed, one, later]
      rfl
  | @cons_cons ys xs op sublist ih =>
    have same : ys.filter Scheduled.isReading = xs.filter Scheduled.isReading := by
      rw [List.filter_cons, List.filter_cons] at same
      split at same
      · exact List.tail_eq_of_cons_eq same
      · exact same
    cases needed : op.1.isClassical with
    | true =>
      rw [boundFrom_classical needed] at bound ⊢
      obtain ⟨eval', evaluated, later⟩ := Except.bind_eq_ok.mp bound
      obtain ⟨whole, restored⟩ := ih same later
      exact ⟨whole, Except.bind_eq_ok.mpr ⟨eval', evaluated, restored⟩⟩
    | false =>
      obtain ⟨b, left, binds, later, rfl⟩ := boundFrom_needed_ok needed bound
      obtain ⟨whole, restored⟩ := ih same later
      refine ⟨tagged b ++ whole, ?_⟩
      rw [boundFrom_needed needed, binds, restored]
      rfl

def Silent (ops : List NativeOp) : Prop :=
  ∀ op ∈ ops, op.code = "barrier" ∨ (op.code ≠ "ry" ∧ op.guard = none) → op.reads = []

theorem reading_of_reduces {xs ys : List NativeOp} (r : Reduces xs ys) (silent : Silent xs) :
    (ys.filter fun op => !op.reads.isEmpty) = xs.filter fun op => !op.reads.isEmpty := by
  have undone : ∀ code ∈ Pass.selfInverse, code ≠ "ry" := by decide
  induction r with
  | refl ops => rfl
  | @fence before after _ op fence _ ih =>
    have blind := silent op (by simp) (Or.inl fence)
    rw [ih fun x mem => silent x (by simp at mem ⊢; tauto)]
    simp [blind]
  | @pair before after _ a b undoes _ ih =>
    have first := undone _ undoes.involution
    have blind := silent a (by simp) (Or.inr ⟨first, undoes.unguarded.1⟩)
    have blind' := silent b (by simp) (Or.inr ⟨undoes.code ▸ first, undoes.unguarded.2⟩)
    rw [ih fun x mem => silent x (by simp at mem ⊢; tauto)]
    simp [blind, blind']

theorem Trims.reading (trims : Trims p q) (silent : p.kind.isClassical = false → Silent p.ops) :
    (tagged q).filter Scheduled.isReading = (tagged p).filter Scheduled.isReading := by
  cases needed : p.kind.isClassical with
  | true => rw [trims.classical needed]
  | false =>
    have reads : ∀ p : Program, p.kind.isClassical = false → (tagged p).filter Scheduled.isReading =
        (p.ops.filter fun op => !op.reads.isEmpty).map fun op => (p.kind, op) := by
      intro p needed
      rw [tagged, List.filter_map]
      congr 2
      funext op
      simp [Scheduled.isReading, needed]
    rw [reads p needed, reads q (trims.kind ▸ needed), trims.kind,
      reading_of_reduces trims.reduces (silent needed)]

theorem Trimmed.reading (trims : Trimmed programs' programs)
    (silent : ∀ p ∈ programs', p.kind.isClassical = false → Silent p.ops) :
    (Orchestrator.schedule programs).filter Scheduled.isReading =
      (Orchestrator.schedule programs').filter Scheduled.isReading := by
  have all : (programs.flatMap tagged).filter Scheduled.isReading =
      (programs'.flatMap tagged).filter Scheduled.isReading := by
    induction trims with
    | nil => rfl
    | @cons p q ps qs first _ ih =>
      rw [List.flatMap_cons, List.flatMap_cons, List.filter_append, List.filter_append,
        ih fun p mem => silent p (List.mem_cons_of_mem _ mem),
        first.reading (silent p List.mem_cons_self)]
  have sublist := trims.schedule.sublist
  refine (sublist.filter _).eq_of_length ?_
  have count := fun ps : List Program =>
    ((List.mergeSort_perm (ps.flatMap tagged) fun a b => decide (a.2.seq ≤ b.2.seq)).filter
      Scheduled.isReading).length_eq
  exact (count programs).trans ((congrArg List.length all).trans (count programs').symm)

theorem silent_of_lowered (made : Registry.Made (ds.map Descriptor.withoutPasses) r)
    (bottom : o.classical.capabilities.kind = .classical)
    {batches : List (Kind × List Instruction)}
    (lowered : List.Forall₂ (LowersAs r o) batches programs) :
    ∀ p ∈ programs, p.kind.isClassical = false → Silent p.ops := by
  intro p mem needed
  obtain ⟨batch, _, lowers⟩ := forall₂_right lowered p mem
  have ofBatch := lowers.kind made bottom
  cases lowers with
  | classical classical _ =>
    rw [ofBatch] at needed
    cases needed.symm.trans classical
  | simulated _ _ serves lowers =>
    rw [Simulator.lower_plain (serves.plain made)] at lowers
    intro op mem
    obtain ⟨_, _, _, one, at_op⟩ := (Simulator.lowerAll_eq_ok lowers).2.1 op mem
    exact (Lowering.reads_of_lowered one op at_op).2

end Restored

section Owned
variable {host : Kind} {is : List Instruction} {owns : List Program}

theorem Paired.yields_of_owns (paired : Paired ds r r' o o') {routing : RoutingPlan}
    (planned : o'.capabilities.plan host is = .ok routing)
    (all : Owns o' (is.zip routing.assignments) owns) : List.Forall₂ (Yields r o host) is owns := by
  have both := (List.forall₂_and_left _ _).mpr ⟨(zip_assignments planned).1, all⟩
  have yields : List.Forall₂ (Yields r o host) ((is.zip routing.assignments).map Prod.fst) owns := by
    rw [List.forall₂_map_left_iff]
    refine both.imp fun e p own => ?_
    obtain ⟨executes, kind, lowered⟩ := own
    rw [← kind, paired.capabilities] at executes
    rw [← kind] at lowered
    exact paired.yields_iff.mpr ⟨executes, lowered⟩
  rwa [List.map_fst_zip (assignments_length planned).ge] at yields

theorem Paired.owns_of_yields (paired : Paired ds r r' o o')
    (all : List.Forall₂ (Yields r o host) is owns) :
    ∃ routing, o'.capabilities.plan host is = .ok routing ∧
      Owns o' (is.zip routing.assignments) owns := by
  obtain ⟨assignments, assigned, owned⟩ : ∃ assignments,
      List.Forall₂ (fun i a => o'.capabilities.assign host i = .ok a) is assignments ∧
        Owns o' (is.zip assignments) owns := by
    induction all with
    | nil => exact ⟨[], .nil, .nil⟩
    | @cons i p is owns first _ ih =>
      obtain ⟨assignments, assigned, owned⟩ := ih
      obtain ⟨⟨route, resolved⟩, lowered⟩ := paired.yields_iff.mp first
      rw [← paired.capabilities] at resolved
      refine ⟨⟨i.seq, i.opcode, i.kind, p.kind, route⟩ :: assignments, .cons ?_ assigned,
        .cons ⟨rfl, lowered⟩ owned⟩
      rw [CapabilityTable.assign, resolved]
      rfl
  refine ⟨⟨host, assignments⟩, ?_, owned⟩
  rw [CapabilityTable.plan, Except.mapM_ok_iff.mpr assigned]
  rfl

end Owned

theorem plain_stripped (ds : List Descriptor) :
    ∀ d ∈ ds.map Descriptor.withoutPasses, d.passes = [] := by
  intro d mem
  obtain ⟨_, _, rfl⟩ := List.mem_map.mp mem
  rfl

section Ran
variable {ledger : FrozenLedger} {bound : List Scheduled}

theorem Paired.bindsTo_of_run (paired : Paired ds r r' o o') (stocked : o'.Ready (stock r'))
    (numbered : Numbered ledger.instructions) {out : RunOutput}
    (ok : (o.run ledger).1 = .ok out) :
    ∃ bound, BindsTo r o ledger.dominantKind ledger.instructions bound := by
  obtain ⟨routing, programs, routed, lowered, prepares⟩ := prepares_of_run ok
  have all := paired.ready.lowerAll_ok.mp lowered
  have bottom : o.classical.capabilities.kind = .classical := paired.classical ▸ paired.bottom
  obtain ⟨runs, planned, _⟩ :=
    paired.ready.run_source prepares (covers_of_lowered paired.made bottom all) ok
  obtain ⟨programs', all', trims⟩ := paired.plainAll all
  have order := inOrder_of_numbered numbered
  have plain := plain_stripped ds
  have lowered' := paired.ready'.lowerAll_ok.mpr all'
  obtain ⟨owns, owned⟩ := owns_of_lowered stocked paired.made' paired.bottom plain order lowered'
  have whole := schedule_owns stocked paired.made' paired.bottom plain order owned lowered'
  obtain ⟨bound, restored⟩ := boundFrom_restored trims.schedule.sublist
    (trims.reading (silent_of_lowered paired.made' paired.bottom all')) (boundFrom_of_runs planned)
  rw [whole] at restored
  rw [← paired.capabilities] at routed
  exact ⟨bound, owns, paired.yields_of_owns routed owned, restored⟩

theorem BindsTo.remains {host : Kind} {is : List Instruction} (binds : BindsTo r o host is bound) :
    ∀ x ∈ bound, x.2.Simulable ∧ ∀ q ∈ x.2.qubits, ∃ i ∈ is, q ∈ i.qubits := by
  obtain ⟨owns, yields, all⟩ := binds
  have stems : ∀ op ∈ owns.flatMap tagged, op.1.isClassical = false →
      ∃ i, i ∈ is ∧ op.2.StemsFrom i := by
    intro op mem needed
    obtain ⟨p, among, mem⟩ := List.mem_flatMap.mp mem
    obtain ⟨own, at_op, rfl⟩ := List.mem_map.mp mem
    obtain ⟨i, ofLedger, yields⟩ := forall₂_right yields p among
    exact ⟨i, ofLedger, yields.stems needed own at_op⟩
  have remains := remains_of_bound EvalState.literal_empty
    (fun op mem needed => (stems op mem needed).imp fun _ both => both.2) all
  intro x mem
  obtain ⟨op, among, left⟩ := remains x mem
  obtain ⟨i, ofLedger, stem⟩ := stems op among left.needed
  refine ⟨left.simulable, fun q at_q => ⟨i, ofLedger, stem.inside q ?_⟩⟩
  rw [← left.qubits]
  exact at_q

theorem sourceOf_single (host : Kind) (p : Program) : sourceOf host [p] = some p := by
  by_cases ofHost : p.kind = host <;> simp [sourceOf, lastOf, ofHost]

theorem Paired.lowered_of_bindsTo (paired : Paired ds r r' o o') (stocked : o'.Ready (stock r'))
    (numbered : Numbered ledger.instructions)
    (binds : BindsTo r o ledger.dominantKind ledger.instructions bound) :
    ∃ routing programs',
      o'.capabilities.plan ledger.dominantKind ledger.instructions = .ok routing ∧
      (o'.lowerAll (routing.partition ledger.instructions).entries).1 = .ok programs' ∧
      (∀ op ∈ schedule programs', ∃ i p, Yields r o ledger.dominantKind i p ∧ p.kind = op.1) ∧
      boundFrom o.classical .empty (schedule programs') = .ok bound := by
  obtain ⟨owns, yields, all⟩ := binds
  have order := inOrder_of_numbered numbered
  have plain := plain_stripped ds
  obtain ⟨routing, routed, owned⟩ := paired.owns_of_yields yields
  obtain ⟨programs', lowered'⟩ := lowered_of_owns stocked paired.made' paired.bottom plain owned
  have whole := schedule_owns stocked paired.made' paired.bottom plain order owned lowered'
  refine ⟨routing, programs', routed, lowered', ?_, whole ▸ all⟩
  intro op mem
  rw [whole] at mem
  obtain ⟨p, among, mem⟩ := List.mem_flatMap.mp mem
  obtain ⟨own, _, rfl⟩ := List.mem_map.mp mem
  obtain ⟨i, _, yields⟩ := forall₂_right yields p among
  exact ⟨i, p, yields, rfl⟩

theorem Circuits.of_measures {p : Program} {s : Simulator} (serves : r.Serves p.kind s)
    (closed : ∀ op ∈ p.ops, Circuit.isBound op = true) (simulable : ∀ op ∈ p.ops, op.Simulable)
    (measures : Circuit.measuredBy p.ops ≠ []) (few : (Circuit.touched p.ops).size ≤ s.maxQubits) :
    ∃ c, Circuits r p c :=
  ⟨_, s, serves, Circuit.ofOps_eq_ok.mpr
    ⟨List.all_eq_true.mpr closed, touched_of_measuredBy measures, few, simulable, rfl⟩⟩

theorem Paired.single_run (paired : Paired ds r r' o o') {routing : RoutingPlan}
    {programs programs' runs runs' : List Program}
    (sides : Sides r' o o' ledger routing programs programs' runs runs')
    (numbered : Numbered ledger.instructions) {kind : Kind} (needed : kind.isClassical = false)
    (kinds : ∀ op ∈ schedule programs', op.1 = kind ∨ op.1.isClassical = true)
    (all : boundFrom o'.classical .empty (schedule programs') = .ok bound)
    (measures : Circuit.measuredBy (bound.map Prod.snd) ≠ []) :
    ∃ p, runs = [p] ∧ p.kind = kind ∧ Reduces (bound.map Prod.snd) p.ops := by
  have left := boundFrom_of_runs sides.planned
  have kinds' := fun op mem => kinds op (sides.trims.schedule.sublist.subset mem)
  have reduces := paired.reduces_bound numbered needed kinds sides.routed sides.lowered sides.trims
    all (paired.classical ▸ left)
  have some : runs.flatMap tagged ≠ [] := by
    intro none
    rw [none] at reduces
    exact measures reduces.measuredBy.symm
  obtain ⟨p, planned, ofKind, ops⟩ := single_of_bound left kinds' some
  cases planned.symm.trans sides.planned
  exact ⟨p, rfl, ofKind, ops ▸ reduces⟩

/-- A ledger that binds to something runs, as soon as one kind simulates alone, measures, and has room
    for the qubits. Its run is what it binds to, reduced by the passes. -/
theorem Paired.run_of_bindsTo (paired : Paired ds r r' o o') (stocked : o'.Ready (stock r'))
    (numbered : Numbered ledger.instructions)
    (present : (ledger.kinds.elems.find? fun k => !o.plan.contains k) = none)
    (binds : BindsTo r o ledger.dominantKind ledger.instructions bound) {kind : Kind}
    (needed : kind.isClassical = false)
    (alone : ∀ i p, Yields r o ledger.dominantKind i p →
      p.kind = kind ∨ p.kind.isClassical = true)
    (measures : Circuit.measuredBy (bound.map Prod.snd) ≠ []) {s : Simulator}
    (serves : r.Serves kind s)
    (few : (Circuit.touched (bound.map Prod.snd)).size ≤ s.maxQubits) :
    ∃ out p m c, (o.run ledger).1 = .ok out ∧ (o.run ledger).2.ran = o.ran ++ [p] ∧
      out.sample = .measured m ∧ Samples r p c m ∧ Reduces (bound.map Prod.snd) p.ops := by
  have remains := binds.remains
  obtain ⟨routing, programs', routed, lowered', sources, all⟩ :=
    paired.lowered_of_bindsTo stocked numbered binds
  have lowers' := paired.ready'.lowerAll_ok.mp lowered'
  have kinds : ∀ op ∈ schedule programs', op.1 = kind ∨ op.1.isClassical = true := by
    intro op mem
    obtain ⟨i, p, yields, ofKind⟩ := sources op mem
    exact ofKind ▸ alone i p yields
  have some : bound ≠ [] := by
    rintro rfl
    exact measures rfl
  rw [← paired.classical] at all
  obtain ⟨p', planned', ofKind, ops⟩ := single_of_bound all kinds some
  rw [← ops] at measures few
  -- Without passes the ledger runs.
  have simulable : ∀ op ∈ p'.ops, op.Simulable := by
    intro op mem
    rw [ops] at mem
    obtain ⟨x, among, rfl⟩ := List.mem_map.mp mem
    exact (remains x among).1
  have closed := fun op at_op => (mem_runsFrom planned' p' List.mem_cons_self op at_op).1
  have serves' : r'.Serves p'.kind s.withoutPasses :=
    ofKind ▸ serves.stripped paired.made paired.made'
  have circuit := Circuits.of_measures serves' closed simulable measures few
  have prepares' : o'.Prepares ledger programs' :=
    ⟨paired.plan ▸ present, routing, _, routed, Prod.ext lowered' rfl⟩
  obtain ⟨plainly, succeeds⟩ := paired.ready'.run_of_circuits prepares'
    (covers_of_lowered paired.made' paired.bottom lowers') planned' fun q mem => by
      rw [List.mem_singleton.mp mem]
      exact circuit
  -- With passes it comes to a reduction of the same run.
  obtain ⟨routing', programs, programs'', runs, runs', sides, _⟩ := paired.sides succeeds
  cases routed.symm.trans sides.routed
  cases lowered'.symm.trans (paired.ready'.lowerAll_ok.mpr sides.lowered)
  obtain ⟨p, rfl, kind', reduces⟩ := paired.single_run sides numbered needed kinds all (ops ▸ measures)
  have admits : Admits r p := by
    intro s' serves'
    rw [kind'] at serves'
    obtain rfl : s' = s := serves'.unique serves
    rw [← ops] at reduces
    exact ⟨touched_of_measuredBy (reduces.measuredBy ▸ measures), Nat.le_trans reduces.touched few⟩
  obtain ⟨out, ok⟩ := (paired.succeeds_iff sides).mpr fun q mem => by
    rw [List.mem_singleton.mp mem]
    exact admits
  obtain ⟨runs, same, ran, _, sampled, _⟩ := paired.ready.run_source sides.prepares sides.covered ok
  cases sides.planned.symm.trans same
  obtain ⟨m, c, sample, samples⟩ := sampled p (sourceOf_single _ p)
  exact ⟨out, p, m, c, ok, ran, sample, samples, reduces⟩

end Ran

end LazyCast.Orchestrator
