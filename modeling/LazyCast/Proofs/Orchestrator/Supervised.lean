import LazyCast.Proofs.Orchestrator.Staging
/-!
Supervised executions and whole drives. Attempts at a program go on until one succeeds or the drive
fails, and a drive that comes to its end has paid all that it owed.
-/
namespace LazyCast.Orchestrator.Drive
variable {e : Evaluator} {session : SessionId}

section Execute
variable {d d' d'' : Drive} {kind : Kind} {p : Program} {w : Worker} {limit : Option Nat}

def Attempts (d : Drive) (kind : Kind) (p : Program) (limit : Option Nat) (x : Exchange) : Prop :=
  x.kind = kind ∧ x.request = .execute d.session limit ∧ x.ran = some p

structure Executes (d : Drive) (kind : Kind) (p : Program) (d' : Drive) : Prop where
  calm : d'.orchestrator.Calm
  transcript : ∃ later, d'.orchestrator.transcript = d.orchestrator.transcript ++ later ∧
    ∀ k, executedIn later k = if kind = k then p.ops else []
  held : ∀ k, d'.heldBy k = if kind = k then none else d.heldBy k

structure Stalls (d : Drive) (kind : Kind) (p : Program) (limit : Option Nat) (d' : Drive) :
    Prop where
  transcript : ∃ x, d.Attempts kind p limit x ∧ x.executed? = none ∧
    d'.orchestrator.transcript = d.orchestrator.transcript ++ [x]
  held : ∀ k, d'.heldBy k = d.heldBy k
  live : ∃ w, d'.orchestrator.workers.find? kind = some w ∧ w.alive = true

theorem Stalls.executes (stalls : d.Stalls kind p limit d') (later : d'.Executes kind p d'') :
    d.Executes kind p d'' where
  calm := later.calm
  transcript := by
    obtain ⟨x, _, nothing, first⟩ := stalls.transcript
    obtain ⟨xs, transcript, executed⟩ := later.transcript
    refine ⟨x :: xs, by rw [transcript, first, List.append_assoc, List.singleton_append],
      fun k => ?_⟩
    have none : executedIn [x] k = [] := executedIn_idle k fun y mem => by
      rw [List.mem_singleton.mp mem, nothing]
    rw [← List.singleton_append, executedIn_append, none, executed k, List.nil_append]
  held := fun k => by rw [later.held, stalls.held]

theorem alive_run (alive : w.alive = true) {f : Fault}
    (failed : (w.run d.session limit p).answer = .error f) (retry : mayRetry f = true) :
    (w.run d.session limit p).worker.alive = true := by
  unfold Worker.run at failed ⊢
  cases attempt : w.compiler.execute w.usage p with
  | crash =>
    rw [attempt] at failed
    cases failed
    cases retry
  | answer delay sampled result =>
    dsimp only
    split
    · exact alive
    · cases result <;> exact alive

theorem served_execute (logged : d.Logged e session)
    (found : d.orchestrator.workers.find? kind = some w) (alive : w.alive = true)
    (held : d.heldBy kind = some p) (limit : Option Nat) :
    w.serve (.execute d.session limit) = w.run d.session limit p :=
  w.serve_execute alive
    (((logged.orderly.custodian kind w found).2 alive d.session).trans held) limit

theorem Logged.attempt (logged : d.Logged e session)
    (found : d.orchestrator.workers.find? kind = some w) (alive : w.alive = true)
    (held : d.heldBy kind = some p)
    (last : ∀ y ∈ d.orchestrator.transcript.getLast?, y.Failed → d.Attempts kind p limit y) :
    (d.withOrchestrator (d.orchestrator.call kind (.execute d.session limit)).2).Logged e
      session := by
  have served := served_execute logged found alive held limit
  have ran : (w.serve (.execute d.session limit)).ran = some p := by
    rw [served, Worker.run_ran]
  have some : d.heldBy kind ≠ none := by
    rw [held]
    exact Option.some_ne_none p
  refine logged.call found (logged.marked kind some) rfl (fun l same => ?_)
    fun y mem failed => ?_
  · cases same
    exact ⟨p, held, ran⟩
  · obtain ⟨ofKind, request, program⟩ := last y mem failed
    exact Or.inl ⟨ofKind.symm, request.symm, ran.trans program.symm⟩

theorem attempt_ok (logged : d.Logged e session)
    (found : d.orchestrator.workers.find? kind = some w) (alive : w.alive = true)
    (held : d.heldBy kind = some p) {s : Sample}
    (ok : sampleOf kind (d.orchestrator.call kind (.execute d.session limit)).1 = .ok s) :
    d.Executes kind p
      (d.withOrchestrator (d.orchestrator.call kind (.execute d.session limit)).2) := by
  have served := served_execute logged found alive held limit
  have answer : (w.serve (.execute d.session limit)).answer = .ok (.sample s) := by
    rw [call_eq found, served, Worker.run_answer, sampleOf_sample] at ok
    rw [served, Worker.run_answer, ok]
    rfl
  refine ⟨?_, ⟨_, transcript_call found _, fun k => ?_⟩, fun k => ?_⟩
  · refine calm_call found ?_
    rw [answer]
    rintro ⟨_, _, _, _, no⟩
    cases no
  · rw [served, Worker.run_ran, ← served, answer]
    by_cases same : kind = k <;> simp [executedIn, Exchange.executed?, same]
  · rw [heldBy_call found, answer]
    simp [Exchange.leaves]

theorem attempt_stalls (logged : d.Logged e session)
    (found : d.orchestrator.workers.find? kind = some w) (alive : w.alive = true)
    (held : d.heldBy kind = some p) {f : Fault}
    (failed : sampleOf kind (d.orchestrator.call kind (.execute d.session limit)).1 = .error f)
    (retry : mayRetry f = true) : d.Stalls kind p limit
      (d.withOrchestrator (d.orchestrator.call kind (.execute d.session limit)).2) := by
  have served := served_execute logged found alive held limit
  have answer : (w.serve (.execute d.session limit)).answer = .error f := by
    rw [call_eq found, served, Worker.run_answer, sampleOf_sample] at failed
    rw [served, Worker.run_answer, failed]
    rfl
  refine ⟨⟨_, ⟨rfl, rfl, ?_⟩, ?_, transcript_call found _⟩, fun k => ?_, ?_⟩
  · rw [served]
    exact w.run_ran _ _ _
  · simp only [Exchange.executed?, answer]
  · rw [heldBy_call found, answer]
    simp [Exchange.leaves]
  · refine ⟨_, (congrArg (·.2.workers.find? kind) (call_eq found _)).trans
      (Table.find?_insert_self _ _ _), ?_⟩
    rw [served] at answer ⊢
    exact alive_run alive answer retry

theorem Logged.supervised (logged : d.Logged e session) (limit : Option Nat)
    (found : d.orchestrator.workers.find? kind = some w) (alive : w.alive = true)
    (held : d.heldBy kind = some p)
    (last : ∀ y ∈ d.orchestrator.transcript.getLast?, y.Failed → d.Attempts kind p limit y)
    (backoff left : Nat) {done : Supervised Orchestrator}
    (tried : tryExecute backoff kind (fun o => o.call kind (.execute d.session limit)) left
      d.orchestrator = done) :
    (d.withOrchestrator done.link).Logged e session ∧
      ∀ s, done.result = .ok s → d.Executes kind p (d.withOrchestrator done.link) := by
  induction left generalizing d w done with
  | zero =>
    subst tried
    exact ⟨logged.attempt found alive held last, fun s ok =>
      attempt_ok logged found alive held ok⟩
  | succ left ih =>
    have once := logged.attempt found alive held last
    unfold tryExecute at tried
    dsimp only at tried
    cases answer : sampleOf kind (d.orchestrator.call kind (.execute d.session limit)).1 with
    | ok s =>
      simp only [answer] at tried
      subst tried
      exact ⟨once, fun _ _ => attempt_ok logged found alive held answer⟩
    | error f =>
      simp only [answer] at tried
      cases retry : mayRetry f with
      | false =>
        simp only [retry, Bool.false_eq_true, if_false] at tried
        subst tried
        exact ⟨once, fun s no => by cases no⟩
      | true =>
        simp only [retry, if_true] at tried
        subst tried
        have stalls := attempt_stalls logged found alive held answer retry
        obtain ⟨x, attempts, _, transcript⟩ := stalls.transcript
        obtain ⟨w', found', alive'⟩ := stalls.live
        obtain ⟨logged', executes⟩ := ih once found' alive' ((stalls.held kind).trans held)
          (fun y mem _ => by
            rw [transcript, List.getLast?_concat] at mem
            cases Option.mem_some_iff.mp mem
            exact attempts) rfl
        exact ⟨logged', fun s ok => stalls.executes (executes s ok)⟩

theorem Executes.pays (executes : d.Executes kind p d') (held : d.heldBy kind = some p)
    (eval : d'.eval = d.eval) (segment : d'.segment = d.segment) :
    ∃ later, Pays e d [] later d' := by
  obtain ⟨later, transcript, executed⟩ := executes.transcript
  refine ⟨later, transcript, fun rest due owes => ?_⟩
  obtain ⟨bound, left, shares⟩ := owes
  rw [eval, segment] at left
  refine ⟨bound, left, fun k => ?_⟩
  dsimp only
  rw [executed k, shares k, executes.held k]
  by_cases same : kind = k
  · subst same
    rw [if_pos rfl, if_pos rfl, held]
    simp
  · rw [if_neg same, if_neg same, List.nil_append]

def Clear (d : Drive) : Prop := d.segment = none ∧ d.pending = none

theorem Settled.execute (settled : d.Settled) (logged : d.Logged e session)
    (segment : d.segment = none) (pending : d.pending = some kind) :
    Leads e d [] Clear ({ d with pending := none }.execute kind) := by
  obtain ⟨p, w, held, found, alive⟩ := settled.full segment kind pending
  obtain ⟨logged', executes⟩ := logged.supervised d.orchestrator.policy.limit found
    alive held (fun y mem failed => absurd failed (settled.calm y mem))
    d.orchestrator.policy.backoff (d.orchestrator.policy.maxAttempts - 1) rfl
  have contains : d.orchestrator.workers.contains kind = true := by
    simp [Table.contains, found]
  unfold Drive.execute SupervisionPolicy.execute
  rw [if_pos contains]
  dsimp only
  rcases done : tryExecute d.orchestrator.policy.backoff kind _ _ d.orchestrator with
    ⟨f | s, link, waited⟩
  · rw [done] at logged'
    exact .fail ⟨logged'.orderly, logged'.classical, rfl, logged'.apart, logged'.marked,
      logged'.covered, logged'.failing⟩
  · rw [done] at logged' executes
    have executes := executes s rfl
    refine ⟨⟨logged'.orderly, logged'.classical, rfl, logged'.apart, logged'.marked,
      logged'.covered, logged'.failing⟩, fun _ => ⟨⟨executes.calm, fun k _ => ?_, ?_, ?_, ?_⟩,
      ⟨segment, rfl⟩, ?_⟩⟩
    · refine (executes.held k).trans ?_
      split
      · rfl
      · exact settled.idle k fun same => by
          cases pending.symm.trans same
          contradiction
    · intro _ k no
      cases no
    · intro q no
      cases segment.symm.trans no
    · intro k no
      cases no
    · obtain ⟨later, pays⟩ := executes.pays (e := e) held rfl rfl
      exact ⟨later, pays.transcript, pays.owed⟩

theorem Settled.executeBefore (settled : d.Settled) (logged : d.Logged e session)
    (segment : d.segment = none) (next : Kind) :
    Leads e d [] (fun d' => d'.segment = none ∧ ∀ k, d'.pending = some k → k = next)
      (d.executeBefore next) := by
  unfold Drive.executeBefore
  cases pending : d.pending with
  | none =>
    exact .stay logged settled ⟨segment, fun k some => by cases pending.symm.trans some⟩
  | some previous =>
    dsimp only
    split
    · next same =>
      exact .stay logged settled ⟨segment, fun k some => by
        cases pending.symm.trans some
        exact same⟩
    · have led := settled.execute logged segment pending
      refine ⟨led.logged, fun ok => ?_⟩
      obtain ⟨settled', clear, pays⟩ := led.reaches ok
      exact ⟨settled', ⟨clear.1, fun k some => by cases clear.2.symm.trans some⟩, pays⟩

theorem Settled.openSegment (settled : d.Settled) (logged : d.Logged e session)
    (needed : kind.isClassical = false) :
    Leads e d [] (fun d' => d'.segment.map Program.kind = some kind) (d.openSegment kind) := by
  unfold Drive.openSegment
  split
  · next open_ => exact .stay logged settled open_
  · refine Leads.andThen [] (settled.flush logged) fun d₁ logged₁ settled₁ empty => ?_
    refine Leads.andThen [] (settled₁.executeBefore logged₁ empty kind)
      fun d₂ logged₂ settled₂ ⟨empty, only⟩ => ?_
    refine ⟨⟨logged₂.orderly, logged₂.classical, rfl, logged₂.apart, logged₂.marked,
      logged₂.covered, logged₂.failing⟩, fun _ => ⟨⟨settled₂.calm, fun k ne => ?_, nofun, ?_,
      ?_⟩, rfl, [], .of_owes rfl fun rest due owes => ?_⟩⟩
    · exact settled₂.idle k fun has => ne (congrArg Option.some (only k has).symm)
    · intro p same
      cases same
      rfl
    · intro k same
      cases same
      exact needed
    · obtain ⟨bound, left, shares⟩ := owes
      refine ⟨bound, ?_, shares⟩
      rw [empty]
      exact left

end Execute

section Run
variable {d : Drive}

theorem Settled.push (settled : d.Settled) (logged : d.Logged e session) {kind : Kind}
    (opened : d.segment.map Program.kind = some kind) (op : NativeOp) :
    Leads e d [(kind, op)] (fun _ => True)
      (.ok (), { d with segment := d.segment.map fun p => p.push op }) := by
  obtain ⟨p, segment, rfl⟩ := Option.map_eq_some_iff.mp opened
  rw [segment]
  refine ⟨⟨logged.orderly, logged.classical, rfl, logged.apart, logged.marked,
    logged.covered, logged.failing⟩, fun _ => ⟨⟨settled.calm, settled.idle, nofun, ?_,
    settled.needed⟩, trivial, [], .of_owes rfl fun rest due owes => ?_⟩⟩
  · intro q same
    cases same
    exact settled.opened p segment
  · obtain ⟨bound, left, shares⟩ := owes
    refine ⟨bound, ?_, shares⟩
    rw [segment]
    simpa [tagged, Program.push] using left

theorem Settled.evaluate (settled : d.Settled) (logged : d.Logged e session)
    (segment : d.segment = none) {op : Scheduled} (classical : op.1.isClassical = true)
    {eval : EvalState} (evaluated : d.orchestrator.classical.step op.2 d.eval = .ok eval) :
    Leads e d [op] (fun _ => True) (.ok (), { d with eval := eval }) := by
  rw [logged.classical] at evaluated
  refine ⟨⟨logged.orderly, logged.classical, rfl, logged.apart, logged.marked,
    logged.covered, logged.failing⟩, fun _ => ⟨⟨settled.calm, settled.idle, settled.full,
    settled.opened, settled.needed⟩, trivial, [], .of_owes rfl fun rest due owes => ?_⟩⟩
  obtain ⟨bound, left, shares⟩ := owes
  refine ⟨bound, ?_, shares⟩
  rw [segment]
  refine (boundFrom_classical classical rest).trans ?_
  rw [evaluated]
  rw [segment] at left
  exact left

theorem Settled.step (settled : d.Settled) (logged : d.Logged e session) (op : Scheduled) :
    Leads e d [op] (fun _ => True) (d.step op) := by
  unfold Drive.step
  split
  · next classical =>
    refine Leads.andThen [] (settled.flush logged) fun d' logged' settled' empty => ?_
    split
    · next eval evaluated => exact settled'.evaluate logged' empty classical evaluated
    · exact .fail (logged'.ofSession.symm ▸ logged')
  · next needed =>
    have needed : op.1.isClassical = false := Bool.not_eq_true _ ▸ needed
    exact Leads.andThen [] (settled.openSegment logged needed)
      fun d' logged' settled' opened => settled'.push logged' opened op.2

theorem Settled.finish (settled : d.Settled) (logged : d.Logged e session) :
    Leads e d [] Clear d.finish := by
  unfold Drive.finish
  refine Leads.andThen [] (settled.flush logged) fun d' logged' settled' empty => ?_
  cases pending : d'.pending with
  | none => exact .stay logged' settled' ⟨empty, pending⟩
  | some last => exact settled'.execute logged' empty pending

theorem Settled.run (settled : d.Settled) (logged : d.Logged e session)
    (ops : List Scheduled) : Leads e d ops Clear (d.run ops) := by
  induction ops generalizing d session with
  | nil => exact settled.finish logged
  | cons op rest ih =>
    exact Leads.andThen [op] (settled.step logged op)
      fun d' logged' settled' _ => ih settled' logged'

theorem Settled.cleared (settled : d.Settled) (clear : d.Clear) (e : Evaluator) :
    d.Owes e [] fun _ => [] := by
  refine ⟨[], ?_, fun kind => ?_⟩
  · rw [clear.1]
    rfl
  · rw [settled.idle kind (clear.2 ▸ nofun)]
    rfl

end Run

end LazyCast.Orchestrator.Drive
