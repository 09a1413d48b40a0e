import LazyCast.Proofs.Orchestrator.Staffing
/-!
Driving and scanning side by side. What is driven may lag behind: operations of the open run wait
unbound in a segment, and their faults show when the segment is staged. Until then nothing else can
fail, so the first fault is the same.
-/
namespace LazyCast.Orchestrator

section Execution
variable {o : Orchestrator} {kinds : Kind → Prop} {compilers : Kind → SubCompiler}
  {usage : Kind → Usage}

theorem Staffed.call_stage (staffed : o.Staffed kinds compilers usage) {kind : Kind}
    (covered : kinds kind) (session : SessionId) (p : Program) :
    ∃ n b, o.call kind (.stage session p) = (.ok (.staged n), b) ∧ SameOffice o b ∧
      b.Staffed kinds compilers usage ∧ b.ran = o.ran ∧
      b.held session kind = some (((o.held session kind).getD (.empty kind)).extend p) ∧
      ∀ other, other ≠ kind → b.held session other = o.held session other := by
  obtain ⟨w, found, ofKind, alive, compiler, used⟩ := staffed kind covered
  have served := w.serve_stage alive session p
  have answer : (w.serve (.stage session p)).answer =
      .ok (.staged (((w.staged.find? session).getD (.empty w.kind)).extend p).ops.length) := by
    rw [served]
    rfl
  refine ⟨_, _, (call_eq found _).trans (congrArg (·, _) answer), sameOffice_afterServing _ _ _ _,
    ?_, ?_, ?_, fun other ne => held_afterServing_of_ne o _ w session ne⟩
  · refine staffed_afterServing staffed _ ?_ fun _ _ => rfl
    rw [served]
    exact ⟨ofKind, alive, compiler, used⟩
  · rw [ran_afterServing, served]
    exact List.append_nil _
  · rw [held_afterServing, served, held, found]
    simp only [Worker.stage, Table.find?_insert_self, ofKind, Option.bind_some]

theorem Staffed.call_execute (staffed : o.Staffed kinds compilers usage) {kind : Kind}
    (covered : kinds kind) {session : SessionId} {p : Program} (ofKind : p.kind = kind)
    (held : o.held session kind = some p) (limit : Option Nat) :
    ∃ b, o.call kind (.execute session limit) =
        ((executorOf compilers limit p usage).1.map .sample, b) ∧
      ∀ s, (executorOf compilers limit p usage).1 = .ok s → SameOffice o b ∧
        b.Staffed kinds compilers (executorOf compilers limit p usage).2 ∧ b.ran = o.ran ++ [p] ∧
        b.held session kind = none ∧
        ∀ other, other ≠ kind → b.held session other = o.held session other := by
  obtain ⟨w, found, sameKind, alive, compiler, used⟩ := staffed kind covered
  have staged : w.staged.find? session = some p := by
    rw [Orchestrator.held, found] at held
    exact held
  have served := w.serve_execute alive staged limit
  have attempt : w.compiler.execute w.usage p = (compilers p.kind).execute (usage p.kind) p := by
    rw [compiler, used, ofKind]
  have answer : (w.serve (.execute session limit)).answer =
      (executorOf compilers limit p usage).1.map .sample := by
    rw [served, Worker.run_answer, attempt, sameKind, ← ofKind]
    rfl
  refine ⟨_, (call_eq found _).trans (congrArg (·, _) answer), fun s ok => ?_⟩
  have done : (w.compiler.execute w.usage p).verdict w.kind limit = .ok s := by
    rw [attempt, sameKind, ← ofKind]
    exact ok
  have worker : (w.run session limit p).worker = _ := Worker.run_worker done
  rw [← served] at worker
  refine ⟨sameOffice_afterServing _ _ _ _, ?_, ?_, ?_,
    fun other ne => held_afterServing_of_ne o _ w session ne⟩
  · refine staffed_afterServing staffed _ ?_ fun other ne => ?_
    · rw [worker]
      refine ⟨sameKind, alive, compiler, ?_⟩
      simp only [executorOf, ofKind, if_true, ← used, ← compiler]
    · simp only [executorOf, ofKind, if_neg ne]
  · rw [ran_afterServing, served, Worker.run_ran]
    rfl
  · rw [held_afterServing, worker]
    exact Table.find?_erase_self _ _

end Execution

/-- The open run is held by its worker, but for a segment that can be bound as it stands. -/
def Drive.Holds (d : Drive) (p : Program) : Prop :=
  match d.segment with
  | none => d.orchestrator.held d.session p.kind = some p
  | some q => q.kind = p.kind ∧ ∃ b, q.bind d.eval.registers = .ok b ∧
      p = ((d.orchestrator.held d.session p.kind).getD (.empty p.kind)).extend b

/-- A drive that began with `o` is where a scan is. -/
structure Agrees (o : Orchestrator) (kinds : Kind → Prop) (compilers : Kind → SubCompiler)
    (d : Drive) (s : Scan (Kind → Usage)) : Prop where
  eval : d.eval = s.eval
  samples : d.samples = s.samples
  office : SameOffice o d.orchestrator
  staffed : d.orchestrator.Staffed kinds compilers s.memory
  ran : d.orchestrator.ran = o.ran ++ s.runs.map Prod.fst
  pending : d.pending = s.current.map Program.kind
  covered : ∀ kind, d.pending = some kind → kinds kind
  alone : ∀ kind, d.pending ≠ some kind → d.orchestrator.held d.session kind = none
  idle : s.current = none → d.segment = none
  holds : ∀ p, s.current = some p → d.Holds p

def Together (P : Drive → Scan (Kind → Usage) → Prop) (r : Outcome Drive Unit)
    (q : Outcome (Scan (Kind → Usage)) Unit) : Prop :=
  r.1 = q.1 ∧ (q.1 = .ok () → P r.2 q.2)

theorem Together.failed {P : Drive → Scan (Kind → Usage) → Prop} (e : Fault) (d : Drive)
    (s : Scan (Kind → Usage)) : Together P (.error e, d) (.error e, s) :=
  ⟨rfl, fun no => by cases no⟩

/-- Two steps after two that are together are in any relation that equal failures are in. -/
theorem Together.andThen {P : Drive → Scan (Kind → Usage) → Prop}
    {T : Outcome Drive Unit → Outcome (Scan (Kind → Usage)) Unit → Prop} {r : Outcome Drive Unit}
    {q : Outcome (Scan (Kind → Usage)) Unit} {f : Unit → Drive → Outcome Drive Unit}
    {g : Unit → Scan (Kind → Usage) → Outcome (Scan (Kind → Usage)) Unit} (t : Together P r q)
    (fails : ∀ e d s, T (.error e, d) (.error e, s)) (next : ∀ d s, P d s → T (f () d) (g () s)) :
    T (r.andThen f) (q.andThen g) := by
  obtain ⟨answer, d⟩ := r
  obtain ⟨answer', s⟩ := q
  obtain ⟨same, related⟩ := t
  dsimp only at same related
  subst same
  cases answer with
  | ok u => exact next d s (related rfl)
  | error e => exact fails e d s

/-- The scan waits while the drive takes a step that cannot fail. -/
theorem Together.andThen_waiting {P Q : Drive → Scan (Kind → Usage) → Prop}
    {r : Outcome Drive Unit} {s : Scan (Kind → Usage)} {f : Unit → Drive → Outcome Drive Unit}
    {q : Outcome (Scan (Kind → Usage)) Unit} (t : Together P r (.ok (), s))
    (next : ∀ d, P d s → Together Q (f () d) q) : Together Q (r.andThen f) q := by
  obtain ⟨answer, d⟩ := r
  obtain ⟨same, related⟩ := t
  dsimp only at same related
  subst same
  exact next d (related rfl)

/-- The segment cannot be bound: the drive has yet to meet a fault that a scan has met. -/
def Drive.Doomed (d : Drive) (e : Fault) : Prop :=
  ∃ q, d.segment = some q ∧ q.bind d.eval.registers = .error e

def Lagging (P : Drive → Scan (Kind → Usage) → Prop) (r : Outcome Drive Unit)
    (q : Outcome (Scan (Kind → Usage)) Unit) : Prop :=
  Together P r q ∨ ∃ e, q.1 = .error e ∧ r.1 = .ok () ∧ r.2.Doomed e

theorem andThen_failed {σ α β : Type} {r : Outcome σ α} {e : Fault} (failed : r.1 = .error e)
    (next : α → σ → Outcome σ β) : (r.andThen next).1 = .error e := by
  obtain ⟨answer, s⟩ := r
  dsimp only at failed
  subst failed
  rfl

namespace Drive
variable {d : Drive} {e : Fault}

theorem Doomed.flush (doomed : d.Doomed e) : d.flush.1 = .error e := by
  obtain ⟨q, segment, failed⟩ := doomed
  simp only [Drive.flush, segment, stage, failed]

theorem Doomed.step (doomed : d.Doomed e) (op : Scheduled) :
    (d.step op).1 = .error e ∨ ((d.step op).1 = .ok () ∧ (d.step op).2.Doomed e) := by
  unfold Drive.step
  split
  · exact Or.inl (andThen_failed doomed.flush _)
  · unfold openSegment
    split
    · obtain ⟨q, segment, failed⟩ := doomed
      refine Or.inr ⟨rfl, q.push op.2, by simp only [Outcome.andThen, segment, Option.map_some], ?_⟩
      rw [Program.bind_push]
      simp only [Outcome.andThen, failed]
      rfl
    · exact Or.inl (andThen_failed (andThen_failed doomed.flush _) _)

theorem Doomed.run (doomed : d.Doomed e) (ops : List Scheduled) : (d.run ops).1 = .error e := by
  induction ops generalizing d with
  | nil => exact andThen_failed doomed.flush _
  | cons op rest ih =>
    rw [Drive.run]
    rcases doomed.step op with failed | ⟨fine, doomed⟩
    · exact andThen_failed failed _
    · rcases stepped : d.step op with ⟨f | u, d'⟩ <;> rw [stepped] at fine doomed
      · cases fine
      · exact ih doomed

end Drive

section Driving
variable {o : Orchestrator} {kinds : Kind → Prop} {compilers : Kind → SubCompiler}
  {d : Drive} {s : Scan (Kind → Usage)}

theorem Drive.markStaged_eq (d : Drive) (kind : Kind) :
    ∃ kinds, d.markStaged kind = { d with staged := kinds } := by
  unfold markStaged
  split
  · exact ⟨d.staged, rfl⟩
  · exact ⟨_, rfl⟩

theorem Staffed.contains {usage : Kind → Usage} (staffed : o.Staffed kinds compilers usage)
    {kind : Kind} (covered : kinds kind) : o.workers.contains kind = true := by
  obtain ⟨w, found, _⟩ := staffed kind covered
  simp [Table.contains, found]

theorem Agrees.flush (a : Agrees o kinds compilers d s) :
    Together (fun d s => Agrees o kinds compilers d s ∧ d.segment = none) d.flush (.ok (), s) := by
  unfold Drive.flush
  cases segment : d.segment with
  | none => exact ⟨rfl, fun _ => ⟨a, segment⟩⟩
  | some q =>
    cases current : s.current with
    | none =>
      rw [a.idle current] at segment
      cases segment
    | some p =>
      have holds := a.holds p current
      unfold Drive.Holds at holds
      rw [segment] at holds
      obtain ⟨sameKind, b, bound, joined⟩ := holds
      have pending : d.pending = some q.kind := by rw [a.pending, current, sameKind]; rfl
      have covered := a.covered q.kind pending
      obtain ⟨n, left, called, office, staffed, ran, held, apart⟩ :=
        a.staffed.call_stage covered d.session b
      obtain ⟨marked, mark⟩ := Drive.markStaged_eq { d with segment := none } q.kind
      have stage : Drive.stage { d with segment := none } q =
          (.ok (), { d with segment := none, staged := marked, orchestrator := left }) := by
        simp only [Drive.stage, bound, a.staffed.contains covered, if_true, mark, called,
          Outcome.within, Outcome.andThen, Drive.withOrchestrator]
      dsimp only
      rw [stage]
      refine ⟨rfl, fun _ => ⟨?_, rfl⟩⟩
      exact {
        eval := a.eval
        samples := a.samples
        office := a.office.trans office
        staffed := staffed
        ran := ran.trans a.ran
        pending := a.pending
        covered := a.covered
        alone := by
          intro kind ne
          have other : kind ≠ q.kind := fun same => ne (same ▸ pending)
          exact (apart kind other).trans (a.alone kind ne)
        idle := fun none => by cases current.symm.trans none
        holds := by
          intro p' current'
          cases current.symm.trans current'
          unfold Drive.Holds
          dsimp only
          rw [← sameKind, held, sameKind, ← joined] }

theorem Agrees.close (decisive : Decisive o.policy compilers)
    (a : Agrees o kinds compilers d s) (staged : d.segment = none) {p : Program}
    (current : s.current = some p) :
    Together (fun d s => Agrees o kinds compilers d s ∧ d.segment = none ∧ s.current = none)
      ({ d with pending := none }.execute p.kind) (s.close (executorOf compilers o.policy.limit)) := by
  have pending : d.pending = some p.kind := by rw [a.pending, current]; rfl
  have covered := a.covered p.kind pending
  have held : d.orchestrator.held d.session p.kind = some p := by
    have holds := a.holds p current
    unfold Drive.Holds at holds
    rw [staged] at holds
    exact holds
  obtain ⟨left, called, done⟩ := a.staffed.call_execute covered rfl held o.policy.limit
  have contains := a.staffed.contains covered
  have executed : d.orchestrator.policy.execute p.kind d.session
      (fun o r => o.call p.kind r) d.orchestrator =
        ⟨(executorOf compilers o.policy.limit p s.memory).1, left, 0⟩ := by
    rw [a.office.policy, SupervisionPolicy.execute, tryExecute_once, called, sampleOf_sample]
    rw [called, sampleOf_sample]
    rcases decisive with few | final
    · exact Or.inl (by omega)
    · exact Or.inr (final p s.memory)
  unfold Scan.close
  rw [current]
  dsimp only
  unfold Drive.execute
  simp only [contains, if_true, executed, Drive.withOrchestrator]
  rcases answer : executorOf compilers o.policy.limit p s.memory with ⟨e | sample, memory⟩
  · exact ⟨rfl, fun no => by cases no⟩
  · obtain ⟨office, staffed, ran, gone, apart⟩ := done sample (by rw [answer])
    rw [answer] at staffed
    refine ⟨rfl, fun _ => ⟨?_, staged, rfl⟩⟩
    exact {
      eval := a.eval
      samples := by
        change d.samples ++ [(p.kind, sample)] =
          (s.runs ++ [(p, sample)]).map fun r => (r.1.kind, r.2)
        rw [a.samples, Scan.samples, List.map_append]
        rfl
      office := a.office.trans office
      staffed := staffed
      ran := by
        change left.ran = o.ran ++ (s.runs ++ [(p, sample)]).map Prod.fst
        rw [ran, a.ran, List.map_append, List.append_assoc]
        rfl
      pending := rfl
      covered := fun _ none => by cases none
      alone := by
        intro kind _
        by_cases same : kind = p.kind
        · rw [same]
          exact gone
        · refine (apart kind same).trans (a.alone kind fun now => same ?_)
          rw [pending] at now
          exact (Option.some.inj now).symm
      idle := fun _ => staged
      holds := fun _ none => by cases none }

theorem Agrees.opened (a : Agrees o kinds compilers d s) {kind : Kind}
    (covered : kinds kind) (p : Program) (ofKind : p.kind = kind)
    (other : ∀ k, k ≠ kind → d.orchestrator.held d.session k = none)
    (holds : (d.orchestrator.held d.session kind).getD (.empty kind) = p) :
    Agrees o kinds compilers { d with pending := some kind, segment := some (.empty kind) }
      { s with current := some p } where
  eval := a.eval
  samples := a.samples
  office := a.office
  staffed := a.staffed
  ran := a.ran
  pending := by rw [← ofKind]; rfl
  covered := by
    intro k same
    cases same
    exact covered
  alone := fun k ne => other k fun same => ne (same ▸ rfl)
  idle := fun none => by cases none
  holds := by
    intro p' same
    cases same
    refine ⟨ofKind.symm, .empty kind, Program.bind_empty kind _, ?_⟩
    dsimp only
    rw [ofKind, holds]
    simp [Program.extend, Program.empty]

theorem Agrees.openSegment (decisive : Decisive o.policy compilers) (a : Agrees o kinds compilers d s)
    {kind : Kind} (covered : kinds kind) :
    Together (fun d s => Agrees o kinds compilers d s ∧ d.segment.map Program.kind = some kind)
      (d.openSegment kind) (s.enter (executorOf compilers o.policy.limit) kind) := by
  unfold Drive.openSegment
  by_cases inside : d.segment.map Program.kind = some kind
  · obtain ⟨q, segment, ofKind⟩ := Option.map_eq_some_iff.mp inside
    cases current : s.current with
    | none =>
      rw [a.idle current] at segment
      cases segment
    | some p =>
      have holds := a.holds p current
      unfold Drive.Holds at holds
      rw [segment] at holds
      have here : s.current.map Program.kind = some kind := by
        rw [current, ← ofKind, holds.1]
        rfl
      rw [if_pos inside, Scan.enter, if_pos here]
      exact ⟨rfl, fun _ => ⟨a, inside⟩⟩
  · rw [if_neg inside]
    refine a.flush.andThen_waiting fun d ⟨a, staged⟩ => ?_
    unfold Scan.enter Drive.executeBefore
    cases current : s.current with
    | none =>
      have idle : d.pending = none := by rw [a.pending, current]; rfl
      have empty : ∀ k, d.orchestrator.held d.session k = none :=
        fun k => a.alone k (by simp [idle])
      simp only [idle, Scan.close, current, Option.map_none, reduceCtorEq, if_false,
        Outcome.andThen]
      refine ⟨rfl, fun _ => ⟨a.opened covered _ rfl (fun k _ => empty k) ?_, rfl⟩⟩
      rw [empty kind]
      rfl
    | some p =>
      have pending : d.pending = some p.kind := by rw [a.pending, current]; rfl
      by_cases same : p.kind = kind
      · have held := a.holds p current
        unfold Drive.Holds at held
        rw [staged] at held
        simp only [pending, same, Option.map_some, if_true, Outcome.andThen]
        refine ⟨rfl, fun _ => ⟨?_, rfl⟩⟩
        have opened := a.opened covered p same
          (fun k ne => a.alone k fun now => ne ?_) (by rw [← same, held]; rfl)
        · have unchanged : { s with current := some p } = s := by rw [← current]
          rw [unchanged] at opened
          exact opened
        · rw [pending, same] at now
          exact (Option.some.inj now).symm
      · have other : some p.kind ≠ some kind := fun h => same (Option.some.inj h)
        simp only [pending, Option.map_some, if_neg same, if_neg other]
        refine (a.close decisive staged current).andThen .failed fun d s ⟨a, staged, closed⟩ => ?_
        have idle : d.pending = none := by rw [a.pending, closed]; rfl
        have empty : ∀ k, d.orchestrator.held d.session k = none :=
          fun k => a.alone k (by simp [idle])
        refine ⟨rfl, fun _ => ⟨a.opened covered _ rfl (fun k _ => empty k) ?_, rfl⟩⟩
        rw [empty kind]
        rfl

theorem Agrees.push (a : Agrees o kinds compilers d s) {op : Scheduled}
    (inside : d.segment.map Program.kind = some op.1) :
    Lagging (Agrees o kinds compilers)
      (.ok (), { d with segment := d.segment.map fun p => p.push op.2 }) (s.bindNext op) := by
  obtain ⟨q, segment, ofKind⟩ := Option.map_eq_some_iff.mp inside
  cases current : s.current with
  | none =>
    rw [a.idle current] at segment
    cases segment
  | some p =>
    have holds := a.holds p current
    unfold Drive.Holds at holds
    rw [segment] at holds
    obtain ⟨sameKind, b, bound, joined⟩ := holds
    have longer := Program.bind_push q op.2 d.eval.registers
    rw [bound, ofKind] at longer
    unfold Scan.bindNext
    rw [← a.eval, segment]
    cases next : (Program.mk op.1 [op.2]).bind d.eval.registers with
    | error e =>
      rw [next] at longer
      exact Or.inr ⟨e, rfl, rfl, q.push op.2, rfl, longer⟩
    | ok c =>
      rw [next] at longer
      refine Or.inl ⟨rfl, fun _ => ?_⟩
      exact {
        eval := rfl
        samples := a.samples
        office := a.office
        staffed := a.staffed
        ran := a.ran
        pending := by
          change d.pending = (s.current.map _).map Program.kind
          rw [a.pending, current]
          rfl
        covered := a.covered
        alone := a.alone
        idle := by
          intro none
          rw [current] at none
          cases none
        holds := by
          intro p' same
          rw [current] at same
          cases same
          refine ⟨sameKind, b.extend c, longer, ?_⟩
          change p.extend c =
            ((d.orchestrator.held d.session p.kind).getD (.empty p.kind)).extend (b.extend c)
          rw [← Program.extend_assoc, ← joined] }

theorem Agrees.evaluate (a : Agrees o kinds compilers d s) (staged : d.segment = none)
    (eval : EvalState) :
    Agrees o kinds compilers { d with eval := eval } { s with eval := eval } where
  eval := rfl
  samples := a.samples
  office := a.office
  staffed := a.staffed
  ran := a.ran
  pending := a.pending
  covered := a.covered
  alone := a.alone
  idle := a.idle
  holds := by
    intro p current
    have holds := a.holds p current
    unfold Drive.Holds at holds ⊢
    rw [staged] at holds ⊢
    exact holds

theorem Agrees.step (decisive : Decisive o.policy compilers) (a : Agrees o kinds compilers d s)
    {op : Scheduled} (covered : op.1.isClassical = false → kinds op.1) :
    Lagging (Agrees o kinds compilers) (d.step op)
      (s.step o.classical (executorOf compilers o.policy.limit) op) := by
  unfold Drive.step Scan.step
  cases classical : op.1.isClassical with
  | true =>
    simp only [if_true, Drive.classicalStep]
    refine Or.inl (a.flush.andThen_waiting fun d kept => ?_)
    obtain ⟨a, staged⟩ := kept
    rw [a.office.classical, a.eval]
    cases o.classical.step op.2 s.eval with
    | ok eval => exact ⟨rfl, fun _ => a.evaluate staged eval⟩
    | error f => exact ⟨rfl, fun no => by cases no⟩
  | false =>
    simp only [Bool.false_eq_true, if_false]
    refine (a.openSegment decisive (covered classical)).andThen
      (fun e d s => Or.inl (.failed e d s)) fun d s opened => ?_
    obtain ⟨a, inside⟩ := opened
    exact a.push inside

theorem Agrees.finish (decisive : Decisive o.policy compilers) (a : Agrees o kinds compilers d s) :
    Together (fun d s => Agrees o kinds compilers d s ∧ s.current = none) d.finish
      (s.close (executorOf compilers o.policy.limit)) := by
  unfold Drive.finish
  refine a.flush.andThen_waiting fun d kept => ?_
  obtain ⟨a, staged⟩ := kept
  cases current : s.current with
  | none =>
    have idle : d.pending = none := by rw [a.pending, current]; rfl
    simp only [idle, Scan.close, current]
    exact ⟨rfl, fun _ => ⟨a, current⟩⟩
  | some p =>
    have pending : d.pending = some p.kind := by rw [a.pending, current]; rfl
    simp only [pending]
    obtain ⟨same, done⟩ := a.close decisive staged current
    exact ⟨same, fun ok => ⟨(done ok).1, (done ok).2.2⟩⟩

/-- Driving answers as scanning does. -/
theorem Agrees.run (decisive : Decisive o.policy compilers) (a : Agrees o kinds compilers d s)
    {ops : List Scheduled} (covered : ∀ op ∈ ops, op.1.isClassical = false → kinds op.1) :
    Together (fun d s => Agrees o kinds compilers d s ∧ s.current = none) (d.run ops)
      (s.run o.classical (executorOf compilers o.policy.limit) ops) := by
  induction ops generalizing d s with
  | nil => exact a.finish decisive
  | cons op rest ih =>
    have later := fun op mem => covered op (List.mem_cons_of_mem _ mem)
    rw [Drive.run, Scan.run]
    rcases a.step decisive (covered op List.mem_cons_self) with together | ⟨e, failed, fine, doomed⟩
    · exact together.andThen .failed fun d s a => ih a later
    · refine ⟨?_, fun ok => ?_⟩
      · rw [andThen_failed failed]
        rcases stepped : d.step op with ⟨f | u, d'⟩ <;> rw [stepped] at fine doomed
        · cases fine
        · exact doomed.run rest
      · rw [andThen_failed failed] at ok
        cases ok

end Driving
end LazyCast.Orchestrator
