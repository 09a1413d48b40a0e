import LazyCast.Proofs.Orchestrator.Continuing
/-!
Orchestrators that are ready for another ledger: their workers are alive and hold nothing for
sessions to come. An orchestrator starts so, and stays so until a sub-compiler crashes.
-/
namespace LazyCast

def Attempt.answer? : Attempt → Option (Except Fault Sample)
  | crash => none
  | answer _ _ r => some r

/-- The sub-compiler's answer to a program of a kind depends on nothing but the program. -/
def SubCompiler.AnswersAs (c : SubCompiler) (kind : Kind) (answers : Orchestrator.Answers) : Prop :=
  ∀ usage p, p.kind = kind → (c.execute usage p).answer? = answers p

theorem SubCompiler.AnswersAs.result {c : SubCompiler} {kind : Kind}
    {answers : Orchestrator.Answers} (steady : c.AnswersAs kind answers) (usage : Usage)
    {p : Program} (ofKind : p.kind = kind) :
    (c.execute usage p).verdict kind none = answers.result p := by
  have answer := steady usage p ofKind
  subst ofKind
  unfold Orchestrator.Answers.result
  rw [← answer]
  cases c.execute usage p <;> rfl

abbrev Staff := Kind → SubCompiler → Prop

namespace Worker

/-- A live worker of a kind that holds nothing for sessions from `next` on. -/
structure Fit (w : Worker) (kind : Kind) (staff : Staff) (next : SessionId) : Prop where
  ofKind : w.kind = kind
  alive : w.alive = true
  belongs : staff kind w.compiler
  unstaged : ∀ session, next ≤ session → w.staged.find? session = none

def Timely (next : SessionId) : Request → Prop
  | .lower _ => True
  | .stage session _ => session < next
  | .execute session _ => session < next
  | .close _ => True
  | .stop => False

variable {w : Worker} {kind : Kind} {staff : Staff} {next : SessionId}

theorem Fit.restage (fit : w.Fit kind staff next) (staged : Table SessionId Program)
    (usage : Usage) (unstaged : ∀ session, next ≤ session → staged.find? session = none) :
    Fit { w with staged := staged, usage := usage } kind staff next :=
  ⟨fit.ofKind, fit.alive, fit.belongs, unstaged⟩

theorem Fit.erase (fit : w.Fit kind staff next) (gone : SessionId) :
    ∀ session, next ≤ session → (w.staged.erase gone).find? session = none := by
  intro session later
  by_cases same : session = gone
  · rw [same]
    exact Table.find?_erase_self _ _
  · rw [Table.find?_erase_of_ne _ same]
    exact fit.unstaged session later

theorem Fit.serve (fit : w.Fit kind staff next) {r : Request} (timely : Timely next r)
    (survives : ∀ k, (w.serve r).answer ≠ .error (.crashed k)) :
    (w.serve r).worker.Fit kind staff next := by
  unfold Worker.serve at survives ⊢
  rw [if_pos fit.alive] at survives ⊢
  cases r with
  | lower batch => exact fit
  | stage session p =>
    refine fit.restage _ w.usage fun later after => ?_
    have ne : later ≠ session := by
      intro same
      subst same
      exact Nat.lt_irrefl _ (Nat.lt_of_lt_of_le timely after)
    rw [Table.find?_insert_of_ne _ _ ne]
    exact fit.unstaged later after
  | execute session limit =>
    simp only [Worker.execute] at survives ⊢
    cases held : w.staged.find? session with
    | none => exact fit
    | some p =>
      simp only [held, Worker.run] at survives ⊢
      cases attempt : w.compiler.execute w.usage p with
      | crash =>
        rw [attempt] at survives
        exact absurd rfl (survives w.kind)
      | answer delay sampled result =>
        dsimp only
        split
        · exact fit.restage _ _ fit.unstaged
        · cases result with
          | ok sample => exact fit.restage _ _ (fit.erase session)
          | error e => exact fit.restage _ _ fit.unstaged
  | close session => exact fit.restage _ w.usage (fit.erase session)
  | stop => cases timely

end Worker

def Survives {σ α : Type} (P : σ → Prop) (r : Outcome σ α) : Prop :=
  (∀ k, r.1 ≠ .error (.crashed k)) → P r.2

theorem Survives.andThen {σ α β : Type} {P Q : σ → Prop} {r : Outcome σ α}
    {f : α → σ → Outcome σ β} (first : Survives P r) (weaker : ∀ s, P s → Q s)
    (next : ∀ a s, P s → Survives Q (f a s)) : Survives Q (r.andThen f) := by
  obtain ⟨e | a, s⟩ := r
  · exact fun alive => weaker s (first fun k same =>
      alive k (congrArg Except.error (Except.error.inj same)))
  · exact next a s (first fun k no => by cases no)

theorem Survives.map {σ α β : Type} {P : σ → Prop} {r : Outcome σ α} (f : α → β)
    (first : Survives P r) : Survives P (r.map f) := by
  obtain ⟨e | a, s⟩ := r
  · exact fun alive => first fun k same =>
      alive k (congrArg Except.error (Except.error.inj same))
  · exact fun _ => first fun k no => by cases no

theorem tryExecute_survives {σ : Type} {P : σ → Prop} (backoff : Nat) (kind : Kind)
    {ask : σ → Except Fault Response × σ}
    (keeps : ∀ s, P s → (∀ k, (ask s).1 ≠ .error (.crashed k)) → P (ask s).2) (left : Nat)
    (s : σ) (start : P s)
    (alive : ∀ k, (tryExecute backoff kind ask left s).result ≠ .error (.crashed k)) :
    P (tryExecute backoff kind ask left s).link := by
  have passes : ∀ s k, (ask s).1 = .error (.crashed k) →
      sampleOf kind (ask s).1 = .error (.crashed k) := by
    intro s k crashed
    rw [crashed]
    rfl
  induction left generalizing s with
  | zero => exact keeps s start fun k crashed => alive k (passes s k crashed)
  | succ left ih =>
    unfold tryExecute at alive ⊢
    rcases answer : ask s with ⟨a, after⟩
    have kept := keeps s start
    have passes := passes s
    rw [answer] at alive kept passes
    dsimp only at alive kept passes ⊢
    cases sample : sampleOf kind a with
    | ok sample =>
      exact kept fun k crashed => by cases sample.symm.trans (passes k crashed)
    | error e =>
      simp only [sample] at alive ⊢
      have first : mayRetry e = true → ∀ k, a ≠ .error (.crashed k) := by
        intro retry k crashed
        cases sample.symm.trans (passes k crashed)
        cases retry
      cases retry : mayRetry e with
      | true =>
        simp only [retry, if_true] at alive ⊢
        exact ih after (kept (first retry)) alive
      | false =>
        simp only [retry, Bool.false_eq_true, if_false] at alive ⊢
        refine kept fun k crashed => alive k ?_
        cases sample.symm.trans (passes k crashed)
        rfl

namespace Orchestrator

def Ready (staff : Staff) (o : Orchestrator) : Prop :=
  ∀ kind w, o.workers.find? kind = some w → w.Fit kind staff o.nextSession

variable {staff : Staff} {o : Orchestrator}

theorem nextSession_call (o : Orchestrator) (kind : Kind) (r : Request) :
    (o.call kind r).2.nextSession = o.nextSession := by
  unfold Orchestrator.call
  split <;> rfl

theorem Ready.call (ready : o.Ready staff) (kind : Kind) {r : Request}
    (timely : Worker.Timely o.nextSession r) : Survives (Ready staff) (o.call kind r) := by
  intro survives other v at_other
  rw [nextSession_call]
  rcases workers_call at_other with ⟨_, found⟩ | ⟨rfl, w, found, rfl⟩
  · exact ready other v found
  · rw [call_eq found] at survives
    exact (ready other w found).serve timely survives

theorem Ready.lower (ready : o.Ready staff) (kind : Kind) (batch : List Instruction) :
    Survives (Ready staff) (o.lower kind batch) := by
  unfold Orchestrator.lower
  split
  · exact fun _ => ready
  · refine (ready.call kind (r := .lower batch) trivial).andThen (fun _ ready => ready) fun r o ready => ?_
    cases r <;> exact fun _ => ready

theorem Ready.lowerAll (ready : o.Ready staff) (batches : List (Kind × List Instruction)) :
    Survives (Ready staff) (o.lowerAll batches) := by
  induction batches generalizing o with
  | nil => exact fun _ => ready
  | cons batch rest ih =>
    exact (ready.lower batch.1 batch.2).andThen (fun _ ready => ready) fun p o ready =>
      (ih ready).map _

def Driven (staff : Staff) (d : Drive) : Prop :=
  d.orchestrator.Ready staff ∧ d.session < d.orchestrator.nextSession

section Drive
variable {d : Drive}

theorem Driven.call (driven : Driven staff d) (kind : Kind) {r : Request}
    (timely : Worker.Timely d.orchestrator.nextSession r) :
    Survives (Driven staff) ((d.orchestrator.call kind r).within d.withOrchestrator) := by
  intro survives
  refine ⟨driven.1.call kind timely survives, ?_⟩
  change d.session < (d.orchestrator.call kind r).2.nextSession
  rw [nextSession_call]
  exact driven.2

theorem Driven.stage (driven : Driven staff d) (p : Program) :
    Survives (Driven staff) (d.stage p) := by
  unfold Drive.stage
  cases bound : p.bind d.eval.registers with
  | error e => exact fun _ => driven
  | ok b =>
    dsimp only
    split
    · obtain ⟨kinds, marked⟩ : ∃ kinds, d.markStaged p.kind = { d with staged := kinds } := by
        unfold Drive.markStaged
        split
        · exact ⟨d.staged, rfl⟩
        · exact ⟨_, rfl⟩
      rw [marked]
      have driven' : Driven staff { d with staged := kinds } := driven
      refine (driven'.call p.kind (r := .stage d.session b) driven.2).andThen
        (fun _ driven => driven) fun r d driven => ?_
      cases r <;> exact fun _ => driven
    · exact fun _ => driven

theorem Driven.flush (driven : Driven staff d) : Survives (Driven staff) d.flush := by
  unfold Drive.flush
  cases d.segment with
  | none => exact fun _ => driven
  | some p => exact Driven.stage (d := { d with segment := none }) driven p

theorem Driven.execute (driven : Driven staff d) (kind : Kind) :
    Survives (Driven staff) (d.execute kind) := by
  unfold Drive.execute
  split
  · have keeps : ∀ o : Orchestrator, Driven staff (d.withOrchestrator o) →
        (∀ k, (o.call kind (.execute d.session d.orchestrator.policy.limit)).1 ≠
          .error (.crashed k)) →
        Driven staff (d.withOrchestrator
          (o.call kind (.execute d.session d.orchestrator.policy.limit)).2) := by
      intro o driven alive
      exact Driven.call driven kind (r := .execute d.session d.orchestrator.policy.limit)
        driven.2 alive
    have supervised := tryExecute_survives (P := fun o => Driven staff (d.withOrchestrator o))
      d.orchestrator.policy.backoff kind keeps (d.orchestrator.policy.maxAttempts - 1)
      d.orchestrator driven
    unfold SupervisionPolicy.execute
    rcases answer : tryExecute d.orchestrator.policy.backoff kind _ _ d.orchestrator with
      ⟨e | s, left, waited⟩
    · rw [answer] at supervised
      exact fun alive => supervised fun k same => alive k (by cases same; rfl)
    · rw [answer] at supervised
      exact fun _ => supervised fun k no => by cases no
  · exact fun _ => driven

theorem Driven.step (driven : Driven staff d) (op : Scheduled) :
    Survives (Driven staff) (d.step op) := by
  unfold Drive.step
  split
  · unfold Drive.classicalStep
    refine driven.flush.andThen (fun _ driven => driven) fun _ d driven => ?_
    split <;> exact fun _ => driven
  · unfold Drive.openSegment
    split
    · exact fun _ => driven
    · refine Survives.andThen (P := Driven staff) ?_ (fun _ driven => driven)
        fun _ d driven _ => driven
      refine driven.flush.andThen (fun _ driven => driven) fun _ d driven => ?_
      refine Survives.andThen (P := Driven staff) ?_ (fun _ driven => driven)
        fun _ d driven _ => driven
      unfold Drive.executeBefore
      split
      · split
        · exact fun _ => driven
        · exact Driven.execute (d := { d with pending := none }) driven _
      · exact fun _ => driven

theorem Driven.run (driven : Driven staff d) (ops : List Scheduled) :
    Survives (Driven staff) (d.run ops) := by
  induction ops generalizing d with
  | nil =>
    refine driven.flush.andThen (fun _ driven => driven) fun _ d driven => ?_
    split
    · exact Driven.execute (d := { d with pending := none }) driven _
    · exact fun _ => driven
  | cons op rest ih =>
    exact (driven.step op).andThen (fun _ driven => driven) fun _ d driven => ih driven

end Drive

theorem Ready.closeAll (ready : o.Ready staff) (session : SessionId) (kinds : List Kind) :
    (o.closeAll session kinds).Ready staff := by
  unfold Orchestrator.closeAll
  induction kinds generalizing o with
  | nil => exact ready
  | cons kind rest ih =>
    refine ih (ready.call kind (r := .close session) trivial fun k crashed => ?_)
    unfold Orchestrator.call at crashed
    cases found : o.workers.find? kind with
    | none =>
      rw [found] at crashed
      cases crashed
    | some w =>
      simp only [found, Worker.serve, (ready kind w found).alive, if_true] at crashed
      cases crashed

theorem Ready.begin (ready : o.Ready staff) :
    Driven staff (.begin { o with nextSession := o.nextSession + 1 } o.nextSession) := by
  refine ⟨fun kind w found => ?_, Nat.lt_succ_self _⟩
  have fit := ready kind w found
  exact ⟨fit.ofKind, fit.alive, fit.belongs, fun session later =>
    fit.unstaged session (Nat.le_of_succ_le later)⟩

theorem Ready.execute (ready : o.Ready staff) (host : Kind) (ops : List Scheduled) :
    Survives (Ready staff) (o.execute host ops) := by
  intro alive
  refine Ready.closeAll (ready.begin.run ops fun k crashed => alive k ?_).1 _ _
  change Except.map _ (Drive.run _ ops).1 = _
  rw [crashed]
  rfl

theorem Ready.run (ready : o.Ready staff) (ledger : FrozenLedger) :
    Survives (Ready staff) (o.run ledger) := by
  unfold Orchestrator.run
  dsimp only
  split
  · exact fun _ => ready
  · split
    · exact fun _ => ready
    · exact (ready.lowerAll _).andThen (fun _ ready => ready) fun programs o ready =>
        ready.execute _ _

def Staffs (r : Registry) (modules : ModuleTable) (staff : Staff) : Prop :=
  ∀ kind d c, kind.isClassical = false → r.require kind = .ok d →
    modules.instantiate d = .ok c → staff kind c

theorem startWorkers_cons {r : Registry} {modules : ModuleTable} {kind : Kind} {kinds : List Kind}
    {compilers : List (Kind × SubCompiler)}
    (started : startWorkers r modules (kind :: kinds) = .ok compilers) :
    ∃ d c others, r.require kind = .ok d ∧ modules.instantiate d = .ok c ∧
      startWorkers r modules kinds = .ok others ∧ compilers = (kind, c) :: others := by
  simp only [startWorkers, bind, Except.bind] at started
  cases required : r.require kind with
  | error e => simp [required] at started
  | ok d =>
    cases made : modules.instantiate d with
    | error e => simp [required, made] at started
    | ok c =>
      cases others : startWorkers r modules kinds with
      | error e => simp [required, made, others] at started
      | ok cs =>
        simp only [required, made, others, pure, Except.pure] at started
        cases started
        exact ⟨d, c, cs, rfl, made, rfl, rfl⟩

theorem startWorkers_staffed {r : Registry} {modules : ModuleTable}
    (staffs : Staffs r modules staff) {kinds : List Kind} {compilers : List (Kind × SubCompiler)}
    (needed : ∀ kind ∈ kinds, kind.isClassical = false)
    (started : startWorkers r modules kinds = .ok compilers) :
    ∀ c ∈ compilers, staff c.1 c.2 := by
  induction kinds generalizing compilers with
  | nil =>
    cases started
    simp
  | cons kind rest ih =>
    obtain ⟨d, c, others, required, made, later, rfl⟩ := startWorkers_cons started
    intro x mem
    rcases List.mem_cons.mp mem with same | mem
    · rw [same]
      exact staffs kind d c (needed kind List.mem_cons_self) required made
    · exact ih (fun k mem => needed k (List.mem_cons_of_mem _ mem)) later x mem

theorem find?_ofList {κ α : Type} [DecidableEq κ] [Key κ] (entries : List (κ × α)) {k : κ} {a : α}
    (found : (Table.ofList entries).find? k = some a) : (k, a) ∈ entries := by
  have from_start : ∀ (entries : List (κ × α)) (t : Table κ α),
      (entries.foldl (fun t e => t.insert e.1 e.2) t).find? k = some a →
        (k, a) ∈ entries ∨ t.find? k = some a := by
    intro entries
    induction entries with
    | nil => exact fun t found => Or.inr found
    | cons e rest ih =>
      intro t found
      rcases ih _ found with mem | found
      · exact Or.inl (List.mem_cons_of_mem _ mem)
      · by_cases same : k = e.1
        · subst same
          rw [Table.find?_insert_self] at found
          cases found
          exact Or.inl List.mem_cons_self
        · rw [Table.find?_insert_of_ne _ _ same] at found
          exact Or.inr found
  rcases from_start entries .empty found with mem | none
  · exact mem
  · cases none

theorem start_eq {r : Registry} {modules : ModuleTable} {plan : SpawnPlan}
    {policy : SupervisionPolicy} (started : start r modules plan policy = .ok o) :
    ∃ compilers,
      startWorkers r modules (plan.elems.filter fun k => !k.isClassical) = .ok compilers ∧
      o = { plan := plan, classical := Evaluator.ofDescriptor r.classical
            capabilities := .ofList (compilers.map fun c => { c.2.capabilities with kind := c.1 })
              (Evaluator.ofDescriptor r.classical).capabilities
            workers := Table.ofList (compilers.map fun c => (c.1, .start c.1 c.2))
            policy := policy, nextSession := 0, transcript := [] } := by
  simp only [start, bind, Except.bind] at started
  cases workers : startWorkers r modules (plan.elems.filter fun k => !k.isClassical) with
  | error e => simp [workers] at started
  | ok compilers =>
    simp only [workers, pure, Except.pure] at started
    cases started
    exact ⟨compilers, rfl, rfl⟩

theorem start_ready {r : Registry} {modules : ModuleTable} (staffs : Staffs r modules staff)
    {plan : SpawnPlan} {policy : SupervisionPolicy}
    (started : start r modules plan policy = .ok o) : o.Ready staff := by
  obtain ⟨compilers, workers, rfl⟩ := start_eq started
  intro kind w found
  obtain ⟨⟨k, c⟩, mem, made⟩ := List.mem_map.mp (find?_ofList _ found)
  cases made
  have needed : ∀ kind ∈ plan.elems.filter fun k => !k.isClassical, kind.isClassical = false := by
    intro kind mem
    simpa using (List.mem_filter.mp mem).2
  exact ⟨rfl, rfl, startWorkers_staffed staffs needed workers _ mem, fun _ _ => rfl⟩

/-- Orchestrators that run ledgers one after another, up to a crash. -/
inductive Reachable (r : Registry) (modules : ModuleTable) (plan : SpawnPlan)
    (policy : SupervisionPolicy) : Orchestrator → Prop where
  | start {o : Orchestrator} (started : Orchestrator.start r modules plan policy = .ok o) :
      Reachable r modules plan policy o
  | run {o : Orchestrator} (before : Reachable r modules plan policy o) (ledger : FrozenLedger)
      (alive : ∀ k, (o.run ledger).1 ≠ .error (.crashed k)) :
      Reachable r modules plan policy (o.run ledger).2

section Reachable
variable {r : Registry} {modules : ModuleTable} {plan : SpawnPlan} {policy : SupervisionPolicy}

theorem Reachable.ready (staffs : Staffs r modules staff)
    (reachable : Reachable r modules plan policy o) : o.Ready staff := by
  induction reachable with
  | start started => exact start_ready staffs started
  | run before ledger alive ih => exact ih.run ledger alive

theorem Reachable.continues (reachable : Reachable r modules plan policy o) :
    ∃ first, Orchestrator.start r modules plan policy = .ok first ∧ Continues first o := by
  induction reachable with
  | start started => exact ⟨_, started, .refl _⟩
  | run before ledger alive ih =>
    obtain ⟨first, started, continues⟩ := ih
    exact ⟨first, started, continues.trans (continues_run _ ledger)⟩

theorem Reachable.evaluates (reachable : Reachable r modules plan policy o) :
    o.classical = Evaluator.ofDescriptor r.classical := by
  obtain ⟨first, started, continues⟩ := reachable.continues
  obtain ⟨compilers, _, rfl⟩ := start_eq started
  exact continues.1.classical

theorem Reachable.keeps_policy (reachable : Reachable r modules plan policy o) : o.policy = policy := by
  obtain ⟨first, started, continues⟩ := reachable.continues
  obtain ⟨compilers, _, rfl⟩ := start_eq started
  exact continues.1.policy

end Reachable

end Orchestrator
end LazyCast
