import LazyCast.Proofs.Orchestrator.Driving
import LazyCast.Proofs.Orchestrator.Readiness
/-!
Whole ledgers. A ledger that has been lowered is answered with what the scan of its schedule comes
to, and the sample handed out is picked from the samples of the scan.
-/
namespace LazyCast.Orchestrator
variable {staff : Staff} {o : Orchestrator} {σ : Type}

/-- Every kind in a schedule that needs a worker has one. -/
def Covers (o : Orchestrator) (ops : List Scheduled) : Prop :=
  ∀ op ∈ ops, op.1.isClassical = false → o.workers.contains op.1 = true

def compilersOf (o : Orchestrator) (fallback : SubCompiler) (kind : Kind) : SubCompiler :=
  match o.workers.find? kind with
  | some w => w.compiler
  | none => fallback

def usagesOf (o : Orchestrator) (kind : Kind) : Usage :=
  match o.workers.find? kind with
  | some w => w.usage
  | none => ⟨0, 0⟩

def observed (o : Orchestrator) (fallback : SubCompiler) (ops : List Scheduled) :
    Outcome (Scan (Kind → Usage)) Unit :=
  (Scan.begin o.usagesOf).run o.classical
    (executorOf (o.compilersOf fallback) o.policy.limit) ops

theorem Ready.staffed (ready : o.Ready staff) (fallback : SubCompiler) :
    o.Staffed (fun kind => o.workers.contains kind = true) (o.compilersOf fallback) o.usagesOf := by
  intro kind covered
  obtain ⟨w, found⟩ := Option.isSome_iff_exists.mp covered
  have fit := ready kind w found
  exact ⟨w, found, fit.ofKind, fit.alive, by simp only [compilersOf, found],
    by simp only [usagesOf, found]⟩

theorem Ready.compiler (ready : o.Ready staff) (fallback : SubCompiler) (kind : Kind) :
    staff kind (o.compilersOf fallback kind) ∨ o.compilersOf fallback kind = fallback := by
  unfold compilersOf
  cases found : o.workers.find? kind with
  | none => exact Or.inr rfl
  | some w => exact Or.inl (ready kind w found).belongs

theorem begin_agrees {kinds : Kind → Prop} {compilers : Kind → SubCompiler}
    {usage : Kind → Usage} (staffed : o.Staffed kinds compilers usage) {session : SessionId}
    (unstaged : ∀ kind, o.held session kind = none) :
    Agrees o kinds compilers (.begin o session) (.begin usage) where
  eval := rfl
  samples := rfl
  office := .refl o
  staffed := staffed
  ran := (List.append_nil _).symm
  pending := rfl
  covered := fun _ none => by cases none
  alone := fun kind _ => unstaged kind
  idle := fun _ => rfl
  holds := fun _ none => by cases none

theorem Ready.unstaged (ready : o.Ready staff) {session : SessionId}
    (later : o.nextSession ≤ session) (kind : Kind) : o.held session kind = none := by
  unfold held
  cases found : o.workers.find? kind with
  | none => rfl
  | some w => exact (ready kind w found).unstaged session later

theorem Ready.drive (ready : o.Ready staff) {fallback : SubCompiler}
    (decisive : Decisive o.policy (o.compilersOf fallback)) {session : SessionId}
    (unstaged : ∀ kind, o.held session kind = none) {ops : List Scheduled}
    (covered : o.Covers ops) :
    ((Drive.begin o session).run ops).1 = (o.observed fallback ops).1 ∧
      ((o.observed fallback ops).1 = .ok () →
        ((Drive.begin o session).run ops).2.samples = (o.observed fallback ops).2.samples ∧
        ((Drive.begin o session).run ops).2.eval = (o.observed fallback ops).2.eval ∧
        ((Drive.begin o session).run ops).2.orchestrator.ran =
          o.ran ++ (o.observed fallback ops).2.runs.map Prod.fst) := by
  obtain ⟨same, agree⟩ := (begin_agrees (ready.staffed fallback) unstaged).run decisive covered
  refine ⟨same, fun ok => ?_⟩
  obtain ⟨a, _⟩ := agree ok
  exact ⟨a.samples, a.eval, a.ran⟩

/-- A ledger that is routed and lowered into some programs. -/
structure Prepares (o : Orchestrator) (ledger : FrozenLedger) (programs : List Program) : Prop where
  planned : ledger.kinds.elems.find? (fun k => !o.plan.contains k) = none
  lowered : ∃ routing left, o.capabilities.plan ledger.dominantKind ledger.instructions =
      .ok routing ∧
    o.lowerAll (routing.partition ledger.instructions).entries = (.ok programs, left)

def delivered (host : Kind) (s : Scan σ) : RunOutput :=
  ⟨(hostSample? host s.samples).getD s.eval.toSample, s.eval.memberCasts⟩

def Drives (o p : Orchestrator) (ledger : FrozenLedger) (ops : List Scheduled) : Prop :=
  ∀ fallback, Decisive p.policy (p.compilersOf fallback) →
    (o.run ledger).1 = (p.observed fallback ops).1.map (fun _ =>
      delivered ledger.dominantKind (p.observed fallback ops).2) ∧
    ((p.observed fallback ops).1 = .ok () →
      (o.run ledger).2.ran = o.ran ++ (p.observed fallback ops).2.runs.map Prod.fst)

theorem Ready.drives (ready : o.Ready staff) {ledger : FrozenLedger} {programs : List Program}
    (prepares : o.Prepares ledger programs) (covered : o.Covers (schedule programs)) :
    ∃ p, Continues o p ∧ p.Ready staff ∧ Drives o p ledger (schedule programs) := by
  obtain ⟨routing, left, routed, lowered⟩ := prepares.lowered
  have ready' := ready.lowerAll (routing.partition ledger.instructions).entries
  have same := continues_lowerAll o (routing.partition ledger.instructions).entries
  have ran := ran_lowerAll o (routing.partition ledger.instructions).entries
  rw [lowered] at ready' same ran
  have ready' := ready' fun k no => by cases no
  -- Sessions are counted up, so no worker holds anything for the one that begins now.
  have fresh := ready'.unstaged (Nat.le_refl left.nextSession)
  refine ⟨{ left with nextSession := left.nextSession + 1 }, ⟨⟨same.1.plan, same.1.classical,
    same.1.capabilities, same.1.policy⟩, same.2⟩, ready'.begin.1, fun fallback decisive => ?_⟩
  obtain ⟨result, output⟩ :=
    Ready.drive (o := { left with nextSession := left.nextSession + 1 }) ready'.begin.1 decisive
      fresh fun op mem needed => (same.2 op.1).trans (covered op mem needed)
  have run : o.run ledger = left.execute ledger.dominantKind (schedule programs) := by
    simp only [Orchestrator.run, prepares.planned, routed, lowered, Outcome.andThen_ok]
  rw [run]
  refine ⟨?_, fun ok => ?_⟩
  · change Except.map _ (Drive.run _ _).1 = _
    rw [result]
    cases answer : (observed { left with nextSession := left.nextSession + 1 } fallback
        (schedule programs)).1 with
    | error e => rfl
    | ok u =>
      obtain ⟨samples, eval, _⟩ := output answer
      simp only [Except.map, outputOf, samples, eval, delivered]
  · refine (ran_closeAll _ _ _).trans ?_
    obtain ⟨_, _, driven⟩ := output ok
    rw [driven]
    exact congrArg (· ++ _) ran

section Answering
variable {answers : Answers}

def scanned (o : Orchestrator) (answers : Answers) (ops : List Scheduled) :
    Outcome (Scan Unit) Unit :=
  (Scan.begin ()).run o.classical answers.executor ops

def Answers.standIn (answers : Answers) : SubCompiler where
  name := Evaluator.builtin.name
  capabilities := Evaluator.builtin.capabilities
  lower := Evaluator.builtin.lower
  execute _ p :=
    match answers p with
    | some r => .answer 0 false r
    | none => .crash

def Answers.crew (answers : Answers) : Staff := fun kind c => c.AnswersAs kind answers

theorem Answers.standIn_steady (answers : Answers) (kind : Kind) :
    answers.standIn.AnswersAs kind answers := by
  intro usage p _
  simp only [standIn]
  cases answers p <;> rfl

theorem Ready.executor (ready : o.Ready answers.crew) (p : Program) (usage : Kind → Usage) :
    (executorOf (o.compilersOf answers.standIn) none p usage).1 = answers.result p := by
  have steady : (o.compilersOf answers.standIn p.kind).AnswersAs p.kind answers := by
    rcases ready.compiler answers.standIn p.kind with steady | other
    · exact steady
    · rw [other]
      exact answers.standIn_steady p.kind
  exact steady.result (usage p.kind) rfl

theorem Ready.observed_forget (ready : o.Ready answers.crew) (escalates : o.policy = .escalate)
    (ops : List Scheduled) :
    (o.observed answers.standIn ops).within (fun s => s.remember ()) = o.scanned answers ops := by
  unfold observed scanned
  rw [escalates]
  exact Scan.run_forget o.classical ready.executor (Scan.begin o.usagesOf) ops

theorem decisive_escalate (compilers : Kind → SubCompiler) :
    Decisive .escalate compilers := Or.inl (Nat.le_refl 1)

/-- Sub-compilers that answer as a function of the program are made for every kind. -/
abbrev Steady (answers : Answers) (r : Registry) (modules : ModuleTable) : Prop :=
  Staffs r modules answers.crew

/-- The sample handed out: that of the host's last run, else of the last run of any kind, else the
    classical state. -/
inductive HandedOut (host : Kind) (s : Scan σ) : Sample → Prop where
  | host {before after : List (Program × Sample)} {p : Program} {sample : Sample}
      (runs : s.runs = before ++ (p, sample) :: after) (ofHost : p.kind = host)
      (last : ∀ r ∈ after, r.1.kind ≠ host) : HandedOut host s sample
  | other {before : List (Program × Sample)} {p : Program} {sample : Sample}
      (runs : s.runs = before ++ [(p, sample)]) (none : ∀ r ∈ s.runs, r.1.kind ≠ host) :
      HandedOut host s sample
  | classical (runs : s.runs = []) : HandedOut host s s.eval.toSample

theorem handedOut_hostSample (host : Kind) (s : Scan σ) :
    HandedOut host s ((hostSample? host s.samples).getD s.eval.toSample) := by
  unfold hostSample?
  rw [Scan.samples, ← List.map_reverse, List.find?_map]
  cases found : s.runs.reverse.find? ((fun s => decide (s.1 = host)) ∘
      fun r : Program × Sample => (r.1.kind, r.2)) with
  | some r =>
    obtain ⟨yes, after, before, split, no⟩ := List.find?_eq_some_iff_append.mp found
    have runs : s.runs = before.reverse ++ r :: after.reverse := by
      rw [← List.reverse_reverse s.runs, split]
      simp
    refine .host (p := r.1) runs (of_decide_eq_true yes) fun x mem => ?_
    have other := no x (List.mem_reverse.mp mem)
    simpa using other
  | none =>
    have other : ∀ r ∈ s.runs, r.1.kind ≠ host := by
      intro r mem
      have no := List.find?_eq_none.mp found r (List.mem_reverse.mpr mem)
      simpa using no
    rcases List.eq_nil_or_concat s.runs with empty | ⟨before, last, runs⟩
    · rw [empty]
      exact .classical empty
    · rw [List.concat_eq_append] at runs
      have sample : ((s.runs.map fun r => (r.1.kind, r.2)).getLast?.map Prod.snd).getD
          s.eval.toSample = last.2 := by
        rw [runs]
        simp
      refine Eq.subst (motive := HandedOut host s) sample.symm ?_
      exact .other (p := last.1) runs other

/-- What is driven comes to what is scanned one operation at a time: the same samples in the same
    order, the same final state, the same first fault. A run hands out the sample of the host's last
    run, else that of the last run of any kind, else the classical state. -/
theorem run_as_scanned {r : Registry} {modules : ModuleTable} {plan : SpawnPlan}
    (steady : Steady answers r modules) (reachable : Reachable r modules plan .escalate o) :
    (∀ session ops, o.nextSession ≤ session → o.Covers ops →
      ((Drive.begin o session).run ops).1 = (o.scanned answers ops).1 ∧
        ((o.scanned answers ops).1 = .ok () →
          ((Drive.begin o session).run ops).2.samples = (o.scanned answers ops).2.samples ∧
            ((Drive.begin o session).run ops).2.eval = (o.scanned answers ops).2.eval)) ∧
      ∀ ledger programs, o.Prepares ledger programs → o.Covers (schedule programs) →
        (∀ e, (o.scanned answers (schedule programs)).1 = .error e →
          (o.run ledger).1 = .error e) ∧
        ((o.scanned answers (schedule programs)).1 = .ok () → ∃ sample,
          HandedOut ledger.dominantKind (o.scanned answers (schedule programs)).2 sample ∧
            (o.run ledger).1 =
              .ok ⟨sample, (o.scanned answers (schedule programs)).2.eval.memberCasts⟩) := by
  have ready := reachable.ready steady
  have escalates := reachable.keeps_policy
  have decisive : ∀ {p : Orchestrator}, p.policy = .escalate →
      Decisive p.policy (p.compilersOf answers.standIn) := by
    intro p same
    rw [same]
    exact decisive_escalate _
  refine ⟨fun session ops later covered => ?_, fun ledger programs prepares covered => ?_⟩
  · obtain ⟨result, output⟩ := ready.drive (decisive escalates) (ready.unstaged later) covered
    rw [← ready.observed_forget escalates ops]
    exact ⟨result, fun ok => ⟨(output ok).1, (output ok).2.1⟩⟩
  · obtain ⟨p, same, ready', drives⟩ := ready.drives prepares covered
    have escalates' := same.1.policy.trans escalates
    have run := (drives _ (decisive escalates')).1
    have scan : (p.observed answers.standIn (schedule programs)).within
        (fun s => s.remember ()) = o.scanned answers (schedule programs) := by
      rw [ready'.observed_forget escalates', scanned, scanned, same.1.classical]
    rw [← scan]
    refine ⟨fun e failed => ?_, fun ok => ⟨_, handedOut_hostSample _ _, ?_⟩⟩
    · have failed : (p.observed answers.standIn (schedule programs)).1 = .error e := failed
      rw [run, failed]
      rfl
    · have ok : (p.observed answers.standIn (schedule programs)).1 = .ok () := ok
      rw [run, ok]
      rfl

def counter (kind : Kind) : SubCompiler where
  name := "counter"
  capabilities := ⟨kind, .stateVector, true⟩
  lower batch := .ok ⟨kind, batch.map fun i => .plain i.seq i.opcode i.operands⟩
  execute _ p :=
    .answer 0 false (.ok (.deterministic (some (.int (Int64.ofNat p.ops.length))) Table.empty))

def counting : Answers := fun p =>
  some (.ok (.deterministic (some (.int (Int64.ofNat p.ops.length))) Table.empty))

def counters : ModuleTable := ⟨[(stateVectorModule, fun d => .ok (counter d.kind))]⟩

theorem counters_steady : Steady counting .builtin counters := by
  intro kind d c _ _ made usage p _
  unfold ModuleTable.instantiate counters Table.find? Table.findEntry at made
  split at made
  · rename_i found
    split at found
    · cases found
      cases made
      rfl
    · cases found
  · cases made

def folded : FrozenLedger where
  id := 0
  instructions :=
    [⟨0, "h", [.qubit 0], .quantum⟩, ⟨1, "const", [.reg "a", .int 1], .classical⟩,
      ⟨2, "ry", [.reg "a", .qubit 0], .quantum⟩]
  kinds := ⟨[.classical, .quantum]⟩
  owners := ⟨[0]⟩

def foldedPrograms : List Program :=
  [⟨.classical, [.plain 1 "const" [.reg "a", .int 1]]⟩,
    ⟨.quantum, [.plain 0 "h" [.qubit 0], .plain 2 "ry" [.reg "a", .qubit 0]]⟩]

def counterOffice : Orchestrator where
  plan := .all .builtin
  classical := .ofDescriptor .classical
  capabilities := .ofList [(counter .quantum).capabilities]
    (Evaluator.ofDescriptor .classical).capabilities
  workers := ⟨[(.quantum, .start .quantum (counter .quantum))]⟩
  policy := .escalate
  nextSession := 0
  transcript := []

theorem counterOffice_reachable :
    Reachable .builtin counters (.all .builtin) .escalate counterOffice := .start rfl

theorem folded_prepared : counterOffice.Prepares folded foldedPrograms :=
  ⟨rfl, _, _, rfl, rfl⟩

theorem folded_schedule : schedule foldedPrograms =
    [(.quantum, .plain 0 "h" [.qubit 0]), (.classical, .plain 1 "const" [.reg "a", .int 1]),
      (.quantum, .plain 2 "ry" [.reg "a", .qubit 0])] := by
  simp [schedule, foldedPrograms, tagged, List.mergeSort, List.MergeSort.Internal.splitInTwo,
    NativeOp.plain]

theorem folded_covered : counterOffice.Covers (schedule foldedPrograms) := by
  rw [folded_schedule]
  unfold Covers
  decide

theorem folded_succeeds : (counterOffice.scanned counting (schedule foldedPrograms)).1 = .ok () := by
  rw [folded_schedule]
  rfl

theorem folded_as_scanned :
    ((Drive.begin counterOffice 0).run (schedule foldedPrograms)).1 =
      (counterOffice.scanned counting (schedule foldedPrograms)).1 ∧
    ∃ sample,
      HandedOut .quantum (counterOffice.scanned counting (schedule foldedPrograms)).2 sample ∧
        (counterOffice.run folded).1 = .ok ⟨sample,
          (counterOffice.scanned counting (schedule foldedPrograms)).2.eval.memberCasts⟩ :=
  have scanned := run_as_scanned counters_steady counterOffice_reachable
  ⟨(scanned.1 0 (schedule foldedPrograms) (Nat.le_refl 0) folded_covered).1,
    (scanned.2 folded foldedPrograms folded_prepared folded_covered).2 folded_succeeds⟩

end Answering

end LazyCast.Orchestrator
