import LazyCast.Proofs.Orchestrator.WellRead
import LazyCast.Proofs.Passes.Preserved
/-!
Runs that false conditions leave empty. A ledger that reads what it has written, on qubits enough
and few enough, fails for one reason only: a run whose operations all have a condition that does not
hold is executed like any other, and an empty program measures nothing.
-/
namespace LazyCast.Orchestrator

section Breaking
variable {σ : Type} {e : Evaluator} {x : Executor σ} {eval : EvalState} {current : Option Program}
  {ops : List Scheduled} {runs : List Program} {p : Program} {f : Fault}

theorem Scan.run_breaks (r : Runs e eval current ops runs) {before after : List Program}
    (split : runs = before ++ p :: after) (fine : ∀ q ∈ before, ∀ m, ∃ sample, (x q m).1 = .ok sample)
    (fails : ∀ m, (x p m).1 = .error f) {s : Scan σ} (at_eval : s.eval = eval)
    (at_current : s.current = current) : (s.run e x ops).1 = .error f := by
  induction r generalizing s before with
  | ended eval current =>
    cases current with
    | none => simp at split
    | some q =>
      obtain ⟨rfl, rfl, rfl⟩ : before = [] ∧ q = p ∧ after = [] := by
        cases before with
        | nil => simpa using split
        | cons b bs => simp at split
      have answer : x q s.memory = (.error f, (x q s.memory).2) := Prod.ext (fails _) rfl
      exact Scan.close_failed at_current answer
  | @evaluates eval eval' current op rest runs classical evaluated _ ih =>
    have step : s.step e x op = (.ok (), { s with eval := eval' }) := by
      simp only [Scan.step, classical, if_true, at_eval, evaluated]
    rw [Scan.run, step, Outcome.andThen_ok]
    exact ih split fine rfl at_current
  | @joins eval current op bound rest runs needed binds joins _ ih =>
    subst at_eval at_current
    rw [Scan.run, Scan.step_grown needed binds joins, Outcome.andThen_ok]
    exact ih split fine rfl rfl
  | @turns eval q op rest runs needed other _ ih =>
    have run : s.run e x (op :: rest) = (s.close x).andThen fun _ s => s.run e x (op :: rest) := by
      rw [Scan.run, Scan.step_turns needed at_current other, Outcome.andThen_assoc]
      rfl
    rw [run]
    cases before with
    | nil =>
      obtain ⟨rfl, rfl⟩ : q = p ∧ runs = after := by simpa using split
      have answer : x q s.memory = (.error f, (x q s.memory).2) := Prod.ext (fails _) rfl
      have closing := Scan.close_failed at_current answer
      rcases close : s.close x with ⟨g | u, s'⟩
      · rw [close] at closing
        exact closing
      · rw [close] at closing
        cases closing
    | cons b bs =>
      obtain ⟨rfl, rfl⟩ : q = b ∧ runs = bs ++ p :: after := by simpa using split
      obtain ⟨sample, ok⟩ := fine q List.mem_cons_self s.memory
      have answer : x q s.memory = (.ok sample, (x q s.memory).2) := Prod.ext ok rfl
      rw [Scan.close_some at_current answer, Outcome.andThen_ok]
      exact ih rfl (fun q mem => fine q (List.mem_cons_of_mem _ mem)) at_eval rfl

theorem Runs.occupied (r : Runs e eval current ops runs)
    (unguarded : ∀ op ∈ ops, op.1.isClassical = false → op.2.guard = none)
    (some : ∀ p, current = some p → p.ops ≠ []) : ∀ p ∈ runs, p.ops ≠ [] := by
  induction r with
  | ended eval current => exact fun p mem => some p (Option.mem_toList.mp mem)
  | evaluates _ _ _ ih => exact ih (fun op mem => unguarded op (List.mem_cons_of_mem _ mem)) some
  | @joins eval current op bound rest runs needed binds joins _ ih =>
    refine ih (fun op mem => unguarded op (List.mem_cons_of_mem _ mem)) fun p same => ?_
    cases same
    obtain ⟨b, one, rfl⟩ := Program.bind_single.mp binds
    have taken := (Program.bindOp_ok one).1 (unguarded op List.mem_cons_self needed)
    obtain ⟨b', rfl⟩ := Option.isSome_iff_exists.mp taken
    simp [Program.extend]
  | @turns eval q op rest runs needed other _ ih =>
    intro p mem
    rcases List.mem_cons.mp mem with rfl | mem
    · exact some p rfl
    · exact ih unguarded (fun _ none => by cases none) p mem

end Breaking

/-- Instructions for simulators name qubits, and not more than their simulator allows. -/
structure WithinLimits (r : Registry) (o : Orchestrator) (ledger : FrozenLedger) : Prop where
  named : ∀ i ∈ ledger.instructions, ∀ kind, kind.isClassical = false →
    o.capabilities.Executes ledger.dominantKind i kind → i.qubits ≠ []
  few : ∀ kind s, kind.isClassical = false → r.Serves kind s →
    ∃ qubits : List Qubit, qubits.length ≤ s.maxQubits ∧
      ∀ i ∈ ledger.instructions, o.capabilities.Executes ledger.dominantKind i kind →
        ∀ q ∈ i.qubits, q ∈ qubits

section Answering
variable {ds : List Descriptor} {r : Registry} {o : Orchestrator} {ledger : FrozenLedger}
  {programs : List Program} {p : Program}

theorem Ready.answers_vacated (ready : o.Ready (simulators r)) (made : Registry.Made ds r)
    (covered : o.workers.contains p.kind = true) (vacated : p.ops = []) (limit : Option Nat)
    (usage : Kind → Usage) :
    (executorOf (o.compilersOf Simulator.spare.subCompiler) limit p usage).1 =
      .error (.execution p.kind .nothingMeasured) := by
  obtain ⟨s, compiler, serves⟩ := ready.simulates p.kind
  have kind := (serves covered).kind made
  simp only [executorOf, compiler, Simulator.verdict_subCompiler, Simulator.execute, vacated,
    Circuit.ofOps_eq, kind]
  rfl

structure Sourced (o : Orchestrator) (ledger : FrozenLedger) (kind : Kind) (x : NativeOp) : Prop where
  bound : Circuit.isBound x = true
  simulable : x.Simulable
  source : ∃ i ∈ ledger.instructions, o.capabilities.Executes ledger.dominantKind i kind ∧
    ∃ op : NativeOp, op.StemsFrom i ∧ x.qubits = op.qubits

theorem circuits_of_occupied (ready : o.Ready (simulators r))
    (covered : o.workers.contains p.kind = true) (limits : WithinLimits r o ledger)
    (needed : p.kind.isClassical = false) (sourced : ∀ x ∈ p.ops, Sourced o ledger p.kind x)
    (occupied : p.ops ≠ []) : ∃ c, Circuits r p c := by
  obtain ⟨s, _, serves⟩ := ready.simulates p.kind
  have serves := serves covered
  obtain ⟨qubits, few, inside⟩ := limits.few p.kind s needed serves
  have bound : p.ops.all Circuit.isBound = true :=
    List.all_eq_true.mpr fun x mem => (sourced x mem).bound
  refine ⟨_, s, serves, Circuit.ofOps_eq_ok.mpr ⟨bound, ?_, ?_,
    fun x mem => (sourced x mem).simulable, rfl⟩⟩
  · obtain ⟨x, mem⟩ := List.exists_mem_of_ne_nil _ occupied
    obtain ⟨i, among, executes, op, stem, same⟩ := (sourced x mem).source
    have some := stem.some (limits.named i among p.kind needed executes)
    obtain ⟨q, at_q⟩ := List.exists_mem_of_ne_nil _ (same ▸ some : x.qubits ≠ [])
    exact List.length_pos_of_mem ((Circuit.mem_touched p.ops q).mpr ⟨x, mem, at_q⟩)
  · refine Nat.le_trans (List.subperm_of_subset (Circuit.nodup_touched p.ops) ?_).length_le few
    intro q mem
    obtain ⟨x, at_x, at_q⟩ := (Circuit.mem_touched p.ops q).mp mem
    obtain ⟨i, among, executes, op, stem, same⟩ := (sourced x at_x).source
    rw [same] at at_q
    exact inside i among executes q (stem.inside q at_q)

theorem Ready.run_breaks (ready : o.Ready (simulators r)) (made : Registry.Made ds r)
    (prepares : o.Prepares ledger programs) (covered : o.Covers (schedule programs))
    {before after : List Program}
    (planned : runsOf o.classical (schedule programs) = .ok (before ++ p :: after))
    (fine : ∀ q ∈ before, ∃ c, Circuits r q c) (vacated : p.ops = []) :
    (o.run ledger).1 = .error (.execution p.kind .nothingMeasured) := by
  obtain ⟨q, same, ready', drives⟩ := ready.drives prepares covered
  obtain ⟨result, _⟩ := drives _ (ready'.decides q.policy)
  have staffed : ∀ b ∈ before ++ p :: after, q.workers.contains b.kind = true := fun b mem =>
    (same.2 b.kind).trans (covers_runs covered planned b mem)
  rw [← same.1.classical] at planned
  have failed : (q.observed Simulator.spare.subCompiler (schedule programs)).1 =
      .error (.execution p.kind .nothingMeasured) := by
    refine Scan.run_breaks (runs_of_planned planned) rfl (fun b mem usage => ?_) (fun usage => ?_)
      rfl rfl
    · obtain ⟨c, circuit⟩ := fine b mem
      have answers := ready'.answers (staffed b (List.mem_append_left _ mem)) q.policy.limit usage
      cases answer : (executorOf (q.compilersOf Simulator.spare.subCompiler) q.policy.limit b
          usage).1 with
      | error f => exact absurd answer (answers.2 c f circuit)
      | ok sample => exact ⟨sample, rfl⟩
    · exact ready'.answers_vacated made (staffed p (by simp)) vacated _ _
  rw [result, failed]
  rfl

end Answering

section WellRead
variable {ds : List Descriptor} {r : Registry} {plan : SpawnPlan} {policy : SupervisionPolicy}
  {o : Orchestrator} {ledger : FrozenLedger} {programs : List Program}

/-- A ledger on simulators that reads what it has written and stays within the limits comes to its
    runs, and succeeds just when none of them is left empty by conditions that do not hold. The first
    empty run is the fault. Without conditions there is none. -/
theorem succeeds_unless_vacated (made : Registry.ofDescriptors ds = .ok r)
    (simulated : Simulated ds) (reachable : Reachable r .builtin plan policy o)
    (prepares : o.Prepares ledger programs)
    (reads : ReadsWritten o.classical .empty (schedule programs))
    (limits : WithinLimits r o ledger) :
    ∃ runs, o.Foresees ledger runs ∧
      ((∃ out, (o.run ledger).1 = .ok out) ↔ ∀ p ∈ runs, p.ops ≠ []) ∧
      (∀ before p after, runs = before ++ p :: after → (∀ q ∈ before, q.ops ≠ []) → p.ops = [] →
        (o.run ledger).1 = .error (.execution p.kind .nothingMeasured)) ∧
      ((∀ i ∈ ledger.instructions, i.opcode ≠ "x_if") → ∃ out, (o.run ledger).1 = .ok out) := by
  have made := Registry.made_of_ofDescriptors made
  have ready := reachable.ready (simulators_staff made simulated)
  have bottom : o.classical.capabilities.kind = .classical :=
    reachable.evaluates ▸ made.classical_kind
  obtain ⟨routing, left, routed, lowered⟩ := prepares.lowered
  have lowers := ready.lowerAll_ok.mp (congrArg Prod.fst lowered)
  have covered := covers_of_lowered made bottom lowers
  have stem := stem_of_lowered made bottom routed lowers
  have stems : ∀ op ∈ schedule programs, op.1.isClassical = false → ∃ i ∈ ledger.instructions,
      o.capabilities.Executes ledger.dominantKind i op.1 ∧ op.2.StemsFrom i := by
    intro op mem needed
    obtain ⟨i, among, executes, _, lowered⟩ := stem op mem
    obtain ⟨ops, one, at_op⟩ := lowered needed
    exact ⟨i, among, executes, Lowering.stems_of_lowered one op.2 at_op⟩
  obtain ⟨runs, planned, remains⟩ := runsOf_written reads fun op mem needed => by
    obtain ⟨i, _, _, stem⟩ := stems op mem needed
    exact ⟨i, stem⟩
  have circuits : ∀ p ∈ runs, p.ops ≠ [] → ∃ c, Circuits r p c := by
    intro p mem occupied
    have staffed := covers_runs covered planned p mem
    have needed : p.kind.isClassical = false := by
      obtain ⟨x, at_x⟩ := List.exists_mem_of_ne_nil _ occupied
      exact (mem_runsFrom planned p mem x at_x).2.1
    refine circuits_of_occupied ready staffed limits needed (fun x at_x => ?_) occupied
    obtain ⟨op, among, left⟩ := remains p mem x at_x
    have ofRun : op.1 = p.kind := left.kind
    obtain ⟨i, of_ledger, executes, stem⟩ := stems op among left.needed
    rw [ofRun] at executes
    exact ⟨(mem_runsFrom planned p mem x at_x).1, left.simulable, i, of_ledger, executes, op.2,
      stem, left.qubits⟩
  have fails : ∀ before p after, runs = before ++ p :: after → (∀ q ∈ before, q.ops ≠ []) →
      p.ops = [] → (o.run ledger).1 = .error (.execution p.kind .nothingMeasured) := by
    rintro before p after rfl occupied vacated
    exact ready.run_breaks made prepares covered planned (fun q mem =>
      circuits q (List.mem_append_left _ mem) (occupied q mem)) vacated
  have succeeds : (∀ p ∈ runs, p.ops ≠ []) → ∃ out, (o.run ledger).1 = .ok out := fun occupied =>
    ready.run_of_circuits prepares covered planned fun p mem => circuits p mem (occupied p mem)
  refine ⟨runs, ⟨programs, prepares, planned⟩, ⟨?_, succeeds⟩, fails, fun unconditional => ?_⟩
  · rintro ⟨out, ok⟩ p mem vacated
    obtain ⟨runs', planned', _, circuits', _⟩ := ready.run_ok prepares covered ok
    cases planned.symm.trans planned'
    obtain ⟨c, s, serves, circuit⟩ := circuits' p mem
    rw [vacated, Circuit.ofOps_eq] at circuit
    cases circuit
  · refine succeeds ((runs_of_planned planned).occupied (fun op mem needed => ?_)
      fun _ none => by cases none)
    obtain ⟨i, among, _, stem⟩ := stems op mem needed
    exact Classical.not_not.mp fun guarded => unconditional i among (stem.guarded guarded)

end WellRead

def turned : FrozenLedger where
  id := 0
  instructions := [⟨0, "const", [.reg "a", .int 1], .classical⟩,
    ⟨1, "ry", [.reg "a", .qubit 0], .quantum⟩, ⟨2, "x", [.qubit 1], aux⟩,
    ⟨3, "measure", [.qubit 0], .quantum⟩]
  kinds := ⟨[.classical, aux, .quantum]⟩
  owners := ⟨[0]⟩

def turnedPrograms : List Program :=
  [⟨.classical, [.plain 0 "const" [.reg "a", .int 1]]⟩, ⟨aux, [Lowering.gate 2 "x" [1]]⟩,
    ⟨.quantum, [.plain 1 "ry" [.reg "a", .qubit 0], Lowering.gate 3 "measure" [0]]⟩]

theorem turned_schedule : schedule turnedPrograms =
    [(.classical, .plain 0 "const" [.reg "a", .int 1]),
      (.quantum, .plain 1 "ry" [.reg "a", .qubit 0]), (aux, Lowering.gate 2 "x" [1]),
      (.quantum, Lowering.gate 3 "measure" [0])] := by
  simp [schedule, turnedPrograms, tagged, Lowering.gate, NativeOp.plain, List.mergeSort,
    List.MergeSort.Internal.splitInTwo]

theorem twins_limit {kind : Kind} {s : Simulator} (serves : (twinRegistry []).Serves kind s) :
    s.maxQubits = 16 := by
  obtain ⟨d, required, made⟩ := serves
  obtain ⟨among, _, _⟩ := (Registry.made_of_ofDescriptors twins_stripped).found
    (Registry.require_eq_ok.mp required).1
  simp only [twins, List.map_cons, List.map_nil, List.mem_cons, List.not_mem_nil, or_false] at among
  rcases among with rfl | rfl | rfl <;>
  · cases made
    rfl

theorem turned_limits : WithinLimits (twinRegistry []) (twinOffice []) turned where
  named i mem kind needed executes := by
    simp only [turned, List.mem_cons, List.not_mem_nil, or_false] at mem
    rcases mem with rfl | rfl | rfl | rfl
    · have evaluated : (twinOffice []).capabilities.Executes turned.dominantKind
          ⟨0, "const", [.reg "a", .int 1], .classical⟩ .classical := ⟨.native, rfl⟩
      rw [executes.unique evaluated] at needed
      cases needed
    all_goals exact List.cons_ne_nil _ _
  few kind s _ serves := by
    have inside : ∀ i ∈ turned.instructions, ∀ q ∈ i.qubits, q ∈ [0, 1] := by decide
    refine ⟨[0, 1], ?_, fun i mem _ => inside i mem⟩
    rw [twins_limit serves]
    decide

theorem turned_succeeds : (twinOffice []).Prepares turned turnedPrograms ∧
    ReadsWritten (twinOffice []).classical .empty (schedule turnedPrograms) ∧
    WithinLimits (twinRegistry []) (twinOffice []) turned ∧
    ∃ out, ((twinOffice []).run turned).1 = .ok out := by
  have prepares : (twinOffice []).Prepares turned turnedPrograms := ⟨rfl, _, _, rfl, rfl⟩
  have reads : ReadsWritten (twinOffice []).classical .empty (schedule turnedPrograms) := by
    rw [turned_schedule]
    exact ⟨_, rfl, by decide, by decide, by decide, trivial⟩
  have limits := turned_limits
  have unconditional : ∀ i ∈ turned.instructions, i.opcode ≠ "x_if" := by decide
  obtain ⟨_, _, _, _, succeeds⟩ := succeeds_unless_vacated twins_stripped
    (twins_simulated _).withoutPasses (twinOffice_reachable []) prepares reads limits
  exact ⟨prepares, reads, limits, succeeds unconditional⟩

def vacated : FrozenLedger where
  id := 0
  instructions := [⟨0, "x_if", [.bool false, .qubit 1], aux⟩, ⟨1, "x", [.qubit 0], .quantum⟩,
    ⟨2, "measure", [.qubit 0], .quantum⟩]
  kinds := ⟨[aux, .quantum]⟩
  owners := ⟨[0]⟩

def vacatedPrograms : List Program :=
  [⟨aux, [{ Lowering.gate 0 "x" [1] with guard := some (.bool false) }]⟩,
    ⟨.quantum, [Lowering.gate 1 "x" [0], Lowering.gate 2 "measure" [0]]⟩]

theorem vacated_schedule : schedule vacatedPrograms = vacatedPrograms.flatMap tagged := by
  simp [schedule, vacatedPrograms, tagged, Lowering.gate, NativeOp.plain, List.mergeSort,
    List.MergeSort.Internal.splitInTwo]

/-- The ledger keeps to all that is asked of it and fails, for its first run is empty. -/
theorem vacated_fails : Simulated ((twins ["cancel-inverses"]).map Descriptor.withoutPasses) ∧
    Reachable (twinRegistry []) .builtin twinPlan .escalate (twinOffice []) ∧
    (twinOffice []).Prepares vacated vacatedPrograms ∧
    ReadsWritten (twinOffice []).classical .empty (schedule vacatedPrograms) ∧
    WithinLimits (twinRegistry []) (twinOffice []) vacated ∧
    ((twinOffice []).run vacated).1 = .error (.execution aux .nothingMeasured) := by
  have prepares : (twinOffice []).Prepares vacated vacatedPrograms := ⟨rfl, _, _, rfl, rfl⟩
  have reads : ReadsWritten (twinOffice []).classical .empty (schedule vacatedPrograms) := by
    rw [vacated_schedule]
    exact ⟨by decide, by decide, by decide, trivial⟩
  have limits : WithinLimits (twinRegistry []) (twinOffice []) vacated := by
    have named : ∀ i ∈ vacated.instructions, i.qubits ≠ [] := by decide
    have inside : ∀ i ∈ vacated.instructions, ∀ q ∈ i.qubits, q ∈ [0, 1] := by decide
    refine ⟨fun i mem _ _ _ => named i mem, fun kind s _ serves => ⟨[0, 1], ?_, fun i mem _ =>
      inside i mem⟩⟩
    rw [twins_limit serves]
    decide
  have covered : (twinOffice []).Covers (schedule vacatedPrograms) := by
    rw [vacated_schedule]
    unfold Covers
    decide
  have planned : runsOf (twinOffice []).classical (schedule vacatedPrograms) =
      .ok ([] ++ ⟨aux, []⟩ ::
        [⟨.quantum, [Lowering.gate 1 "x" [0], Lowering.gate 2 "measure" [0]]⟩]) := by
    rw [vacated_schedule]
    rfl
  exact ⟨(twins_simulated _).withoutPasses, twinOffice_reachable [], prepares, reads, limits,
    twinOffice_ready.1.run_breaks (Registry.made_of_ofDescriptors twins_stripped) prepares covered
      planned (fun _ none => by cases none) rfl⟩

end LazyCast.Orchestrator
