import LazyCast.Proofs.Orchestrator.Faults
import LazyCast.Proofs.Orchestrator.Custody
import LazyCast.Proofs.Orchestrator.Recording
import LazyCast.Proofs.Passes.Measured
/-!
A run in two phases. First the ledger is routed and lowered, and only requests to lower are sent; then
its schedule is driven in a session. The faults of a program belong to the first phase: once a
schedule is driven, what fails is an execution.
-/
namespace LazyCast

def Fault.isOfDriving : Fault → Bool
  | .execution _ _ => true
  | .crashed _ => true
  | _ => false

theorem Fault.not_driving_of_compileTime {e : Fault} (compileTime : e.isCompileTime = true) :
    e.isOfDriving = false := by
  cases e <;> first | rfl | cases compileTime

abbrev Fault.isStray (e : Fault) : Bool := !e.isOfDriving

namespace Orchestrator

/-- The first phase: routes and lowers a ledger, and puts what it is lowered to in order. -/
def prepare (o : Orchestrator) (ledger : FrozenLedger) : Outcome Orchestrator (List Scheduled) :=
  match ledger.kinds.elems.find? fun k => !o.plan.contains k with
  | some missing => (.error (.unknownBackend missing.name), o)
  | none =>
    match o.capabilities.plan ledger.dominantKind ledger.instructions with
    | .error e => (.error e, o)
    | .ok routing => (o.lowerAll (routing.partition ledger.instructions).entries).map schedule

variable {o p : Orchestrator} {ledger : FrozenLedger} {ops : List Scheduled}

theorem run_eq_prepare (o : Orchestrator) (ledger : FrozenLedger) : o.run ledger =
    (o.prepare ledger).andThen fun ops left => left.execute ledger.dominantKind ops := by
  unfold run prepare
  dsimp only
  cases ledger.kinds.elems.find? fun k => !o.plan.contains k with
  | some missing => rfl
  | none =>
    cases o.capabilities.plan ledger.dominantKind ledger.instructions with
    | error e => rfl
    | ok routing =>
      dsimp only
      rcases o.lowerAll (routing.partition ledger.instructions).entries with ⟨e | programs, left⟩ <;>
        rfl

theorem prepares_of_prepare (prepared : o.prepare ledger = (.ok ops, p)) :
    ∃ programs, o.Prepares ledger programs ∧ ops = schedule programs := by
  unfold prepare at prepared
  split at prepared
  · cases prepared
  · rename_i planned
    split at prepared
    · cases prepared
    · rename_i routing routed
      rcases lowered : o.lowerAll (routing.partition ledger.instructions).entries with
        ⟨e | programs, left⟩ <;> rw [lowered] at prepared <;> cases prepared
      exact ⟨programs, ⟨planned, routing, left, routed, lowered⟩, rfl⟩

/-- The workers have been asked for nothing but lowering, and no session has begun. -/
structure Asked (o p : Orchestrator) : Prop where
  nextSession : p.nextSession = o.nextSession
  transcript : ∃ later, p.transcript = o.transcript ++ later ∧
    ∀ x ∈ later, ∃ batch, x.request = .lower batch

namespace Asked

theorem refl (o : Orchestrator) : o.Asked o :=
  ⟨rfl, [], (List.append_nil _).symm, fun _ none => by cases none⟩

theorem trans {q : Orchestrator} (first : o.Asked p) (second : p.Asked q) : o.Asked q := by
  obtain ⟨xs, transcript, lowering⟩ := first.transcript
  obtain ⟨ys, transcript', lowering'⟩ := second.transcript
  refine ⟨second.nextSession.trans first.nextSession, xs ++ ys, ?_, fun x mem => ?_⟩
  · rw [transcript', transcript, List.append_assoc]
  · exact (List.mem_append.mp mem).elim (lowering x) (lowering' x)

theorem call (o : Orchestrator) (kind : Kind) (batch : List Instruction) :
    o.Asked (o.call kind (.lower batch)).2 := by
  refine ⟨nextSession_call o kind _, ?_⟩
  cases found : o.workers.find? kind with
  | none =>
    simp only [Orchestrator.call, found]
    exact ⟨[], (List.append_nil _).symm, fun _ none => by cases none⟩
  | some w =>
    refine ⟨_, transcript_call found _, fun x mem => ⟨batch, ?_⟩⟩
    rw [List.mem_singleton.mp mem]

theorem lowerAll (o : Orchestrator) (batches : List (Kind × List Instruction)) :
    o.Asked (o.lowerAll batches).2 :=
  lowerAll_through .refl .trans Asked.call o batches

theorem prepare (o : Orchestrator) (ledger : FrozenLedger) : o.Asked (o.prepare ledger).2 := by
  unfold Orchestrator.prepare
  split
  · exact .refl o
  · split
    · exact .refl o
    · exact Asked.lowerAll o _

end Asked

/-- The classical operations that a drive hands to the evaluator, up to one that fails. -/
def Drive.evaluated (d : Drive) : List Scheduled → List NativeOp
  | [] => []
  | op :: rest =>
    (if op.1.isClassical && d.flush.1.isOk then [op.2] else []) ++
      match d.step op with
      | (.ok _, d) => evaluated d rest
      | (.error _, _) => []

/-- The classical operations that a run of a ledger evaluates. -/
def evaluatedBy (o : Orchestrator) (ledger : FrozenLedger) : List NativeOp :=
  match o.prepare ledger with
  | (.ok ops, p) =>
    (Drive.begin { p with nextSession := p.nextSession + 1 } p.nextSession).evaluated ops
  | (.error _, _) => []

section Scanning
variable {σ : Type} {e : Evaluator} {x : Executor σ} {s : Scan σ}

theorem stray_bind (p : Program) (registers : Registers) : Spares Fault.isStray (p.bind registers) :=
  (spares_mapError _ fun _ => rfl).map _

theorem Scan.spares_run (executes : ∀ p m, Spares Fault.isStray (x p m).1) (s : Scan σ)
    (ops : List Scheduled) : Spares Fault.isStray (s.run e x ops).1 := by
  have closes : ∀ s : Scan σ, Spares Fault.isStray (s.close x).1 := by
    intro s
    unfold Scan.close
    split
    · exact spares_ok ()
    · exact spares_andThen (P := fun _ => True) (executes _ _) trivial fun _ _ _ => spares_ok ()
  induction ops generalizing s with
  | nil => exact closes s
  | cons op rest ih =>
    refine spares_andThen (P := fun _ => True) ?_ trivial fun _ s _ => ih s
    unfold Scan.step
    split
    · split
      · exact spares_ok ()
      · rename_i f failed
        have steps : Spares Fault.isStray (e.step op.2 s.eval) := spares_mapError _ fun _ => rfl
        exact spares_error (steps f failed)
    · refine spares_andThen (P := fun _ => True) ?_ trivial fun _ s _ => ?_
      · unfold Scan.enter
        split
        · exact spares_ok ()
        · exact spares_andThen (P := fun _ => True) (closes s) trivial fun _ _ _ => spares_ok ()
      · unfold Scan.bindNext
        split
        · exact spares_ok ()
        · rename_i f failed
          exact spares_error (stray_bind _ _ f failed)

end Scanning

section Service
variable {ds : List Descriptor} {r : Registry} {plan : SpawnPlan} {policy : SupervisionPolicy}

theorem stray_simulator (s : Simulator) (run : Nat) (p : Program) :
    Spares Fault.isStray (s.execute run p) :=
  (spares_mapError _ fun _ => rfl).map _

theorem Ready.spares_prepared (made : Registry.Made ds r)
    (bottom : o.classical.capabilities.kind = .classical) (ready : o.Ready (simulators r))
    {programs : List Program} (prepares : o.Prepares ledger programs) :
    Spares Fault.isStray (o.run ledger).1 := by
  obtain ⟨routing, left, routed, lowered⟩ := prepares.lowered
  have lowers := ready.lowerAll_ok.mp (congrArg Prod.fst lowered)
  obtain ⟨p, same, ready', drives⟩ := ready.drives prepares (covers_of_lowered made bottom lowers)
  rw [(drives Simulator.spare.subCompiler (ready'.decides p.policy)).1]
  refine Spares.map (Scan.spares_run (fun q usage => ?_) _ _) _
  obtain ⟨s, compiler, _⟩ := ready'.simulates q.kind
  simp only [executorOf, compiler, Simulator.verdict_subCompiler]
  exact (stray_simulator s _ q).map _

/-- A run that fails with a fault of its program has come to no session: nothing was staged, executed
    or evaluated. Whatever fails once a session has begun is an execution. -/
theorem compile_faults_come_first (made : Registry.ofDescriptors ds = .ok r)
    (simulated : Simulated ds) (serving : InService r plan policy o) (ledger : FrozenLedger) :
    (∀ e, (o.run ledger).1 = .error e → e.isCompileTime = true →
      o.prepare ledger = (.error e, (o.run ledger).2) ∧
      (o.run ledger).2.nextSession = o.nextSession ∧ o.evaluatedBy ledger = [] ∧
      ∃ later, (o.run ledger).2.transcript = o.transcript ++ later ∧
        ∀ x ∈ later, ∃ batch, x.request = .lower batch) ∧
    ∀ ops left, o.prepare ledger = (.ok ops, left) →
      o.run ledger = left.execute ledger.dominantKind ops ∧
      ∀ e, (o.run ledger).1 = .error e →
        (∃ kind cause, e = .execution kind cause) ∨ ∃ kind, e = .crashed kind := by
  have made := Registry.made_of_ofDescriptors made
  have reachable := serving.reachable
  have ready := reachable.ready (simulators_staff made simulated)
  have bottom : o.classical.capabilities.kind = .classical :=
    reachable.evaluates ▸ made.classical_kind
  have driven : ∀ ops left, o.prepare ledger = (.ok ops, left) →
      Spares Fault.isStray (o.run ledger).1 := by
    intro ops left prepared
    obtain ⟨programs, prepares, _⟩ := prepares_of_prepare prepared
    exact ready.spares_prepared made bottom prepares
  refine ⟨fun e failed compileTime => ?_, fun ops left prepared => ⟨?_, fun e failed => ?_⟩⟩
  · rcases prepared : o.prepare ledger with ⟨e' | ops, left⟩
    · have whole : o.run ledger = (.error e', left) := by
        rw [run_eq_prepare, prepared]
        rfl
      have asked := Asked.prepare o ledger
      rw [whole] at failed ⊢
      cases failed
      rw [prepared] at asked
      refine ⟨rfl, asked.nextSession, ?_, asked.transcript⟩
      unfold evaluatedBy
      rw [prepared]
    · have stray := driven ops left prepared e failed
      rw [Fault.isStray, Fault.not_driving_of_compileTime compileTime] at stray
      cases stray
  · rw [run_eq_prepare, prepared]
    rfl
  · have fine := driven ops left prepared e failed
    cases e with
    | execution kind cause => exact Or.inl ⟨kind, cause, rfl⟩
    | crashed kind => exact Or.inr ⟨kind, rfl⟩
    | _ => cases fine

def misspelled : FrozenLedger where
  id := 0
  instructions :=
    [⟨0, "const", [.reg "a", .int 1], .classical⟩, ⟨1, "h", [.qubit 0, .qubit 0], .quantum⟩]
  kinds := ⟨[.classical, .quantum]⟩
  owners := ⟨[0]⟩

/-- The simulator is asked to lower it, and that is all, also when it was asked before. -/
theorem misspelled_comes_first : ∃ o e, InService .builtin (.all .builtin) .escalate o ∧
    o.transcript.length = 1 ∧ (o.run misspelled).1 = .error e ∧ e.isCompileTime = true ∧
    (o.run misspelled).2.nextSession = o.nextSession ∧ o.evaluatedBy misspelled = [] ∧
    ∃ later, (o.run misspelled).2.transcript = o.transcript ++ later ∧ later.length = 1 ∧
      ∀ x ∈ later, ∃ batch, x.request = .lower batch := by
  have simulated : Simulated [.classical, .stateVector] := by
    intro d mem other
    simp only [List.mem_cons, List.not_mem_nil, or_false] at mem
    rcases mem with rfl | rfl
    · exact absurd rfl other
    · rfl
  obtain ⟨first, e, started, asked, failed, compileTime, again⟩ :
      ∃ first e, Orchestrator.start .builtin .builtin (.all .builtin) .escalate = .ok first ∧
        (first.afterRuns [misspelled]).transcript.length = 1 ∧
        ((first.afterRuns [misspelled]).run misspelled).1 = .error e ∧ e.isCompileTime = true ∧
        ((first.afterRuns [misspelled]).run misspelled).2.transcript.length = 2 :=
    ⟨_, _, rfl, rfl, rfl, rfl, rfl⟩
  have serving : InService .builtin (.all .builtin) .escalate (first.afterRuns [misspelled]) :=
    ⟨first, _, started, rfl⟩
  obtain ⟨_, session, nothing, later, transcript, lowering⟩ :=
    (compile_faults_come_first rfl simulated serving misspelled).1 e failed compileTime
  refine ⟨_, e, serving, asked, failed, compileTime, session, nothing, later, transcript, ?_, lowering⟩
  rw [transcript, List.length_append, asked] at again
  omega

end Service

end Orchestrator
end LazyCast
