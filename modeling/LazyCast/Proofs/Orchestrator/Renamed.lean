import LazyCast.Proofs.Orchestrator.Piecewise
import LazyCast.Proofs.Orchestrator.Sessions
import LazyCast.Proofs.Passes.Renamed
import Mathlib.Data.Option.Basic
/-!
Two runs that differ in their qubit numbers. A worker that is sent the renamed requests answers the
renamed responses and stages the renamed programs; so a run of a renamed ledger takes the same
course, with the same tries of the same executions, and comes to the renamed output or fault.
-/
namespace LazyCast
variable {f : Qubit → Qubit} {σ τ α β γ δ : Type}

/-- The second outcome is the first under other qubit numbers; the states left are related. -/
structure Echo (R : σ → σ → Prop) (f : Qubit → Qubit) (on : α → β) (r : Outcome σ α)
    (r' : Outcome σ β) : Prop where
  answer : r'.1 = renamed f on r.1
  left : R r.2 r'.2

namespace Echo
variable {R : σ → σ → Prop} {S : τ → τ → Prop} {on : α → β} {on' : γ → δ} {r : Outcome σ α}
  {r' : Outcome σ β}

theorem andThen (first : Echo R f on r r') {g : α → σ → Outcome σ γ} {g' : β → σ → Outcome σ δ}
    (next : ∀ a s s', R s s' → Echo R f on' (g a s) (g' (on a) s')) :
    Echo R f on' (r.andThen g) (r'.andThen g') := by
  obtain ⟨answer, s⟩ := r
  obtain ⟨answer', s'⟩ := r'
  obtain ⟨same, left⟩ := first
  dsimp only at same left
  subst same
  cases answer with
  | error e => exact ⟨rfl, left⟩
  | ok a => exact next a s s' left

theorem within (first : Echo R f on r r') {into into' : σ → τ}
    (sees : ∀ s s', R s s' → S (into s) (into' s')) :
    Echo S f on (r.within into) (r'.within into') :=
  ⟨first.answer, sees _ _ first.left⟩

theorem map (first : Echo R f on r r') {g : α → γ} {g' : β → δ} (same : ∀ a, g' (on a) = on' (g a)) :
    Echo R f on' (r.map g) (r'.map g') := by
  refine ⟨?_, first.left⟩
  change r'.1.map g' = renamed f on' (r.1.map g)
  rw [first.answer]
  cases r.1 with
  | error e => rfl
  | ok a => exact congrArg Except.ok (same a)

end Echo

theorem mayRetry_rename (e : Fault) : mayRetry (e.rename f) = mayRetry e := by
  cases e with
  | execution kind cause => cases cause <;> rfl
  | _ => rfl

def Request.rename (f : Qubit → Qubit) : Request → Request
  | lower is => lower (is.map (Instruction.rename f))
  | stage session p => stage session (p.rename f)
  | r => r

def Response.rename (f : Qubit → Qubit) : Response → Response
  | lowered p => lowered (p.rename f)
  | sample s => sample (s.rename f)
  | r => r

theorem sampleOf_rename (kind : Kind) (answer : Except Fault Response) :
    sampleOf kind (renamed f (Response.rename f) answer) =
      renamed f (Sample.rename f) (sampleOf kind answer) := by
  cases answer with
  | error e => rfl
  | ok r => cases r <;> rfl

theorem tryExecute_renamed {R : σ → σ → Prop} {ask ask' : σ → Outcome σ Response}
    (asks : ∀ s s', R s s' → Echo R f (Response.rename f) (ask s) (ask' s')) (backoff : Nat)
    (kind : Kind) (left : Nat) {s s' : σ} (related : R s s') :
    (tryExecute backoff kind ask' left s').result =
        renamed f (Sample.rename f) (tryExecute backoff kind ask left s).result ∧
      R (tryExecute backoff kind ask left s).link (tryExecute backoff kind ask' left s').link := by
  induction left generalizing s s' with
  | zero =>
    obtain ⟨answer, next⟩ := asks s s' related
    refine ⟨?_, next⟩
    change sampleOf kind (ask' s').1 = renamed f (Sample.rename f) (sampleOf kind (ask s).1)
    rw [answer, sampleOf_rename]
  | succ left ih =>
    obtain ⟨answer, next⟩ := asks s s' related
    unfold tryExecute
    rcases asked : ask s with ⟨a, t⟩
    rcases asked' : ask' s' with ⟨a', t'⟩
    rw [asked, asked'] at answer next
    dsimp only at answer next ⊢
    rw [answer, sampleOf_rename]
    cases sampleOf kind a with
    | ok sample => exact ⟨rfl, next⟩
    | error e =>
      dsimp only [renamed]
      rw [mayRetry_rename]
      split
      · exact ih next
      · exact ⟨rfl, next⟩

theorem Program.extend_rename (p q : Program) :
    (p.extend q).rename f = (p.rename f).extend (q.rename f) := by
  simp [extend, rename]

namespace Worker
variable {w w' : Worker}

structure Renamed (f : Qubit → Qubit) (w w' : Worker) : Prop where
  even : w.compiler.Even f
  kind : w'.kind = w.kind
  compiler : w'.compiler = w.compiler
  usage : w'.usage = w.usage
  alive : w'.alive = w.alive
  staged : ∀ session, w'.staged.find? session = (w.staged.find? session).map (Program.rename f)

structure ServedAlike (f : Qubit → Qubit) (s s' : Served) : Prop where
  answer : s'.answer = renamed f (Response.rename f) s.answer
  worker : s.worker.Renamed f s'.worker

theorem erase_renamed {t t' : Table SessionId Program}
    (same : ∀ session, t'.find? session = (t.find? session).map (Program.rename f))
    (gone session : SessionId) :
    (t'.erase gone).find? session = ((t.erase gone).find? session).map (Program.rename f) := by
  by_cases here : session = gone
  · rw [here, Table.find?_erase_self, Table.find?_erase_self]
    rfl
  · rw [Table.find?_erase_of_ne _ here, Table.find?_erase_of_ne _ here]
    exact same session

namespace Renamed
variable (same : w.Renamed f w')
include same

theorem run (session : SessionId) (limit : Option Nat) (p : Program) :
    ServedAlike f (w.run session limit p) (w'.run session limit (p.rename f)) := by
  obtain ⟨_, _, _, programs, _⟩ := w
  obtain ⟨ofKind, c, used, programs', live⟩ := w'
  obtain ⟨even, rfl, rfl, rfl, rfl, held⟩ := same
  have executes := SubCompiler.Even.executes even used p
  unfold Worker.run
  dsimp only at executes ⊢
  rw [executes]
  cases c.execute used p with
  | crash => exact ⟨rfl, even, rfl, rfl, rfl, rfl, held⟩
  | answer delay sampled result =>
    dsimp only [Attempt.rename]
    split
    · exact ⟨rfl, even, rfl, rfl, rfl, rfl, held⟩
    · cases result with
      | error e => exact ⟨rfl, even, rfl, rfl, rfl, rfl, held⟩
      | ok sample => exact ⟨rfl, even, rfl, rfl, rfl, rfl, erase_renamed held session⟩

theorem execute (session : SessionId) (limit : Option Nat) :
    ServedAlike f (w.execute session limit) (w'.execute session limit) := by
  have held := same.staged session
  unfold Worker.execute
  rw [held]
  cases w.staged.find? session with
  | some p => exact same.run session limit p
  | none =>
    refine ⟨?_, same⟩
    change Except.error (Fault.execution w'.kind _) = _
    rw [same.kind]
    rfl

theorem stage (session : SessionId) (p : Program) :
    ServedAlike f (w.stage session p) (w'.stage session (p.rename f)) := by
  have held := same.staged session
  have joined : ((w'.staged.find? session).getD (.empty w'.kind)).extend (p.rename f) =
      (((w.staged.find? session).getD (.empty w.kind)).extend p).rename f := by
    rw [held, same.kind, Program.extend_rename]
    cases w.staged.find? session <;> rfl
  unfold Worker.stage
  rw [joined]
  generalize ((w.staged.find? session).getD (.empty w.kind)).extend p = whole
  refine ⟨?_, same.even, same.kind, same.compiler, same.usage, same.alive, fun other => ?_⟩
  · exact congrArg (fun n => Except.ok (Response.staged n)) (List.length_map _)
  · dsimp only
    by_cases here : other = session
    · rw [here, Table.find?_insert_self, Table.find?_insert_self]
      rfl
    · rw [Table.find?_insert_of_ne _ _ here, Table.find?_insert_of_ne _ _ here]
      exact same.staged other

theorem serve (r : Request) : ServedAlike f (w.serve r) (w'.serve (r.rename f)) := by
  unfold Worker.serve
  rw [same.alive]
  split
  · cases r with
    | lower is =>
      refine ⟨?_, same⟩
      have lowers := same.even.lowers is
      change (w'.compiler.lower (is.map (Instruction.rename f))).map Response.lowered = _
      rw [same.compiler, lowers]
      dsimp only
      cases w.compiler.lower is <;> rfl
    | stage session p => exact same.stage session p
    | execute session limit => exact same.execute session limit
    | close session =>
      exact ⟨rfl, same.even, same.kind, same.compiler, same.usage, rfl,
        erase_renamed same.staged session⟩
    | stop => exact ⟨rfl, same.even, same.kind, same.compiler, same.usage, rfl, same.staged⟩
  · refine ⟨?_, same⟩
    change Except.error (Fault.crashed w'.kind) = _
    rw [same.kind]
    rfl

end Renamed
end Worker

namespace Orchestrator
variable {o o' : Orchestrator}

/-- Orchestrators whose workers hold the same programs under other qubit numbers. What was exchanged
    before does not count. -/
structure Renamed (f : Qubit → Qubit) (o o' : Orchestrator) : Prop where
  plan : o'.plan = o.plan
  classical : o'.classical = o.classical
  capabilities : o'.capabilities = o.capabilities
  policy : o'.policy = o.policy
  nextSession : o'.nextSession = o.nextSession
  workers : ∀ kind, Option.Rel (Worker.Renamed f) (o.workers.find? kind) (o'.workers.find? kind)

theorem Renamed.contains (same : o.Renamed f o') (kind : Kind) :
    o'.workers.contains kind = o.workers.contains kind := by
  have found := same.workers kind
  unfold Table.contains
  generalize o.workers.find? kind = x at found
  generalize o'.workers.find? kind = x' at found
  cases found <;> rfl

theorem Renamed.call (same : o.Renamed f o') (kind : Kind) (r : Request) :
    Echo (Renamed f) f (Response.rename f) (o.call kind r) (o'.call kind (r.rename f)) := by
  have found := same.workers kind
  unfold Orchestrator.call
  generalize o.workers.find? kind = x at found ⊢
  generalize o'.workers.find? kind = x' at found ⊢
  cases found with
  | none => exact ⟨rfl, same⟩
  | @some w w' alike =>
    obtain ⟨answer, worker⟩ := alike.serve r
    refine ⟨answer, same.plan, same.classical, same.capabilities, same.policy, same.nextSession,
      fun other => ?_⟩
    dsimp only
    by_cases here : other = kind
    · rw [here, Table.find?_insert_self, Table.find?_insert_self]
      exact .some worker
    · rw [Table.find?_insert_of_ne _ _ here, Table.find?_insert_of_ne _ _ here]
      exact same.workers other

section Lowering

theorem Renamed.lower (same : o.Renamed f o') (kind : Kind) (batch : List Instruction) :
    Echo (Renamed f) f (Program.rename f) (o.lower kind batch)
      (o'.lower kind (batch.map (Instruction.rename f))) := by
  unfold Orchestrator.lower
  split
  · refine ⟨?_, same⟩
    rw [same.classical]
    exact o.classical.even.lowers batch
  · apply (same.call kind (.lower batch)).andThen
    intro response p p' next
    cases response <;> exact ⟨rfl, next⟩

theorem Renamed.lowerAll (same : o.Renamed f o') (batches : List (Kind × List Instruction)) :
    Echo (Renamed f) f (List.map (Program.rename f)) (o.lowerAll batches)
      (o'.lowerAll (batches.map fun b => (b.1, b.2.map (Instruction.rename f)))) := by
  induction batches generalizing o o' with
  | nil => exact ⟨rfl, same⟩
  | cons batch rest ih =>
    apply (same.lower batch.1 batch.2).andThen
    intro p left left' next
    exact (ih next).map fun _ => rfl

def Scheduled.rename (f : Qubit → Qubit) (s : Scheduled) : Scheduled := (s.1, s.2.rename f)

theorem schedule_rename (programs : List Program) :
    schedule (programs.map (Program.rename f)) = (schedule programs).map (Scheduled.rename f) := by
  have tags : (programs.map (Program.rename f)).flatMap tagged =
      (programs.flatMap tagged).map (Scheduled.rename f) := by
    rw [List.flatMap_map, List.map_flatMap]
    congr 1
    funext p
    unfold tagged Program.rename
    rw [List.map_map, List.map_map]
    rfl
  unfold schedule
  rw [tags, List.map_mergeSort]
  exact fun _ _ _ _ => rfl

end Lowering

namespace Drive
variable {d d' : Drive}

structure Renamed (f : Qubit → Qubit) (d d' : Drive) : Prop where
  orchestrator : d.orchestrator.Renamed f d'.orchestrator
  session : d'.session = d.session
  eval : d'.eval = d.eval.rename f
  segment : d'.segment = d.segment.map (Program.rename f)
  pending : d'.pending = d.pending
  samples : d'.samples = d.samples.map fun s => (s.1, s.2.rename f)
  staged : d'.staged = d.staged

namespace Renamed

theorem withOrchestrator (same : d.Renamed f d') (next : o.Renamed f o') :
    (d.withOrchestrator o).Renamed f (d'.withOrchestrator o') :=
  ⟨next, same.session, same.eval, same.segment, same.pending, same.samples, same.staged⟩

theorem markStaged (same : d.Renamed f d') (kind : Kind) :
    (d.markStaged kind).Renamed f (d'.markStaged kind) := by
  unfold Drive.markStaged
  rw [same.staged]
  split
  · exact same
  · exact ⟨same.orchestrator, same.session, same.eval, same.segment, same.pending, same.samples,
      rfl⟩

theorem stage (same : d.Renamed f d') (p : Program) :
    Echo (Renamed f) f id (d.stage p) (d'.stage (p.rename f)) := by
  have registers : d'.eval.registers = d.eval.registers := by
    rw [same.eval]
    rfl
  have kind : (p.rename f).kind = p.kind := rfl
  unfold Drive.stage
  rw [registers, Program.bind_rename, kind, same.orchestrator.contains]
  cases p.bind d.eval.registers with
  | error e => exact ⟨rfl, same⟩
  | ok bound =>
    dsimp only [renamed]
    split
    · have marked := same.markStaged p.kind
      rw [marked.session]
      have asked := marked.orchestrator.call p.kind (.stage (d.markStaged p.kind).session bound)
      apply (asked.within fun _ _ next => marked.withOrchestrator next).andThen
      intro response left left' next
      cases response <;> exact ⟨rfl, next⟩
    · exact ⟨rfl, same⟩

theorem flush (same : d.Renamed f d') : Echo (Renamed f) f id d.flush d'.flush := by
  have segment := same.segment
  unfold Drive.flush
  cases held : d.segment with
  | none =>
    rw [held] at segment
    rw [segment]
    exact ⟨rfl, same⟩
  | some p =>
    rw [held] at segment
    rw [segment]
    have cleared : Renamed f { d with segment := none } { d' with segment := none } :=
      ⟨same.orchestrator, same.session, same.eval, rfl, same.pending, same.samples, same.staged⟩
    exact cleared.stage p

theorem execute (same : d.Renamed f d') (kind : Kind) :
    Echo (Renamed f) f id (d.execute kind) (d'.execute kind) := by
  let ask := fun o : Orchestrator =>
    o.call kind (.execute d.session d.orchestrator.policy.limit)
  have asks : ∀ o o', Orchestrator.Renamed f o o' →
      Echo (Orchestrator.Renamed f) f (Response.rename f) (ask o) (ask o') :=
    fun _ _ next => next.call kind (.execute d.session d.orchestrator.policy.limit)
  have tried := tryExecute_renamed asks d.orchestrator.policy.backoff kind
    (d.orchestrator.policy.maxAttempts - 1) same.orchestrator
  unfold Drive.execute SupervisionPolicy.execute
  rw [same.orchestrator.contains, same.orchestrator.policy, same.session]
  split
  · obtain ⟨result, link⟩ := tried
    have next := same.withOrchestrator link
    dsimp only
    rw [result]
    cases (tryExecute d.orchestrator.policy.backoff kind ask
        (d.orchestrator.policy.maxAttempts - 1) d.orchestrator).result with
    | error e => exact ⟨rfl, next⟩
    | ok s =>
      refine ⟨rfl, next.orchestrator, next.session, next.eval, next.segment, next.pending, ?_,
        next.staged⟩
      dsimp only
      rw [next.samples, List.map_append]
      rfl
  · exact ⟨rfl, same⟩

theorem executeBefore (same : d.Renamed f d') (next : Kind) :
    Echo (Renamed f) f id (d.executeBefore next) (d'.executeBefore next) := by
  unfold Drive.executeBefore
  rw [same.pending]
  cases d.pending with
  | none => exact ⟨rfl, same⟩
  | some previous =>
    dsimp only
    split
    · exact ⟨rfl, same⟩
    · have cleared : Renamed f { d with pending := none } { d' with pending := none } :=
        ⟨same.orchestrator, same.session, same.eval, same.segment, rfl, same.samples, same.staged⟩
      exact cleared.execute previous

theorem openSegment (same : d.Renamed f d') (kind : Kind) :
    Echo (Renamed f) f id (d.openSegment kind) (d'.openSegment kind) := by
  have kinds : d'.segment.map Program.kind = d.segment.map Program.kind := by
    rw [same.segment, Option.map_map]
    rfl
  unfold Drive.openSegment
  rw [kinds]
  split
  · exact ⟨rfl, same⟩
  · apply same.flush.andThen
    intro _ left left' flushed
    apply (flushed.executeBefore kind).andThen
    intro _ last last' executed
    exact ⟨rfl, executed.orchestrator, executed.session, executed.eval, rfl, rfl, executed.samples,
      executed.staged⟩

theorem classicalStep (same : d.Renamed f d') (op : NativeOp) :
    Echo (Renamed f) f id (d.classicalStep op) (d'.classicalStep (op.rename f)) := by
  unfold Drive.classicalStep
  apply same.flush.andThen
  intro _ left left' flushed
  rw [flushed.orchestrator.classical, flushed.eval, Evaluator.step_rename]
  cases left.orchestrator.classical.step op left.eval with
  | error e => exact ⟨rfl, flushed⟩
  | ok eval =>
    exact ⟨rfl, flushed.orchestrator, flushed.session, rfl, flushed.segment, flushed.pending,
      flushed.samples, flushed.staged⟩

theorem step (same : d.Renamed f d') (op : Scheduled) :
    Echo (Renamed f) f id (d.step op) (d'.step (op.rename f)) := by
  unfold Drive.step
  change Echo _ _ _ _ (if op.1.isClassical = true then _ else _)
  split
  · exact same.classicalStep op.2
  · apply (same.openSegment op.1).andThen
    intro _ left left' opened
    refine ⟨rfl, opened.orchestrator, opened.session, opened.eval, ?_, opened.pending,
      opened.samples, opened.staged⟩
    change left'.segment.map (fun p => p.push (op.2.rename f)) = _
    rw [opened.segment]
    cases left.segment with
    | none => rfl
    | some p => simp [Program.rename, Program.push]

theorem finish (same : d.Renamed f d') : Echo (Renamed f) f id d.finish d'.finish := by
  unfold Drive.finish
  apply same.flush.andThen
  intro _ left left' flushed
  rw [flushed.pending]
  cases left.pending with
  | none => exact ⟨rfl, flushed⟩
  | some last =>
    have cleared : Renamed f { left with pending := none } { left' with pending := none } :=
      ⟨flushed.orchestrator, flushed.session, flushed.eval, flushed.segment, rfl, flushed.samples,
        flushed.staged⟩
    exact cleared.execute last

theorem run (same : d.Renamed f d') (ops : List Scheduled) :
    Echo (Renamed f) f id (d.run ops) (d'.run (ops.map (Scheduled.rename f))) := by
  induction ops generalizing d d' with
  | nil => exact same.finish
  | cons op rest ih =>
    apply (same.step op).andThen
    intro _ left left' next
    exact ih next

end Renamed
end Drive

theorem Renamed.closeAll (same : o.Renamed f o') (session : SessionId) (kinds : List Kind) :
    (o.closeAll session kinds).Renamed f (o'.closeAll session kinds) := by
  unfold Orchestrator.closeAll
  induction kinds generalizing o o' with
  | nil => exact same
  | cons kind rest ih => exact ih (same.call kind (.close session)).left

end Orchestrator

def RunOutput.rename (f : Qubit → Qubit) (out : RunOutput) : RunOutput :=
  ⟨out.sample.rename f, out.memberCasts.map (MemberCast.rename f)⟩

/-- The frozen ledger with renamed qubits, whatever its number and its owners. -/
structure FrozenLedger.Renamed (f : Qubit → Qubit) (l l' : FrozenLedger) : Prop where
  instructions : l'.instructions = l.instructions.map (Instruction.rename f)
  kinds : l'.kinds = l.kinds

namespace Orchestrator
variable {o o' : Orchestrator} {l l' : FrozenLedger}

theorem outputOf_renamed {d d' : Drive} (same : d.Renamed f d') (host : Kind) :
    outputOf host d' = (outputOf host d).rename f := by
  have found : hostSample? host (d.samples.map fun s => (s.1, s.2.rename f)) =
      (hostSample? host d.samples).map (Sample.rename f) := by
    unfold hostSample?
    rw [← List.map_reverse, List.find?_map]
    have same : ((fun s : Kind × Sample => decide (s.1 = host)) ∘
        fun s : Kind × Sample => (s.1, s.2.rename f)) = fun s => decide (s.1 = host) := rfl
    rw [same]
    cases d.samples.reverse.find? fun s => decide (s.1 = host) with
    | some s => rfl
    | none =>
      dsimp only [Option.map_none]
      rw [List.getLast?_map, Option.map_map, Option.map_map]
      rfl
  unfold outputOf
  rw [same.samples, found, same.eval]
  cases hostSample? host d.samples <;> rfl

theorem Renamed.execute (same : Orchestrator.Renamed f o o') (host : Kind) (ops : List Scheduled) :
    Echo (Renamed f) f (RunOutput.rename f) (o.execute host ops)
      (o'.execute host (ops.map (Scheduled.rename f))) := by
  have begun : Drive.Renamed f
      (Drive.begin { o with nextSession := o.nextSession + 1 } o.nextSession)
      (Drive.begin { o' with nextSession := o'.nextSession + 1 } o'.nextSession) := by
    rw [same.nextSession]
    exact ⟨⟨same.plan, same.classical, same.capabilities, same.policy, rfl, same.workers⟩,
      rfl, rfl, rfl, rfl, rfl, rfl⟩
  obtain ⟨answer, left⟩ := begun.run ops
  unfold Orchestrator.execute
  dsimp only
  rcases ran : (Drive.begin { o with nextSession := o.nextSession + 1 } o.nextSession).run ops
    with ⟨result, d⟩
  rcases ran' : (Drive.begin { o' with nextSession := o'.nextSession + 1 } o'.nextSession).run
    (ops.map (Scheduled.rename f)) with ⟨result', d'⟩
  rw [ran, ran'] at answer left
  dsimp only at answer left ⊢
  constructor
  · change result'.map (fun _ => outputOf host d') = renamed f _ (result.map fun _ => outputOf host d)
    rw [answer, outputOf_renamed left]
    cases result <;> rfl
  · change Renamed f (d.orchestrator.closeAll o.nextSession d.staged)
      (d'.orchestrator.closeAll o'.nextSession d'.staged)
    rw [same.nextSession, left.staged]
    exact left.orchestrator.closeAll _ _

theorem plan_rename (t : CapabilityTable) (host : Kind) (is : List Instruction) :
    t.plan host (is.map (Instruction.rename f)) = t.plan host is := by
  unfold CapabilityTable.plan
  rw [List.mapM_map]
  rfl

theorem plan_rename_fault {t : CapabilityTable} {host : Kind} {is : List Instruction} {e : Fault}
    (failed : t.plan host is = .error e) : e.rename f = e := by
  obtain ⟨i, _, failed⟩ := Except.mapM_eq_error (Except.map_eq_error.mp failed)
  have failed := Except.map_eq_error.mp failed
  unfold CapabilityTable.resolve at failed
  split at failed
  · cases failed
  · split at failed
    · cases failed
    · split at failed
      · cases failed
      · split at failed
        · cases failed
        · cases failed
          rfl

theorem updateEntry_rename {κ : Type} [DecidableEq κ] [Key κ] {on : α → β} {g : Option α → α}
    {g' : Option β → β} (same : ∀ x, g' (x.map on) = on (g x)) (k : κ) (es : List (κ × α)) :
    Table.updateEntry k g' (es.map fun e => (e.1, on e.2)) =
      (Table.updateEntry k g es).map fun e => (e.1, on e.2) := by
  induction es with
  | nil => exact congrArg (fun b => [(k, b)]) (same none)
  | cons e es ih =>
    rw [List.map_cons, Table.updateEntry, Table.updateEntry, ih]
    split
    · exact congrArg (fun b => (k, b) :: es.map fun e => (e.1, on e.2)) (same (some e.2))
    · split
      · exact congrArg (fun b => (k, b) :: (e.1, on e.2) :: es.map fun e => (e.1, on e.2))
          (same none)
      · rfl

theorem partition_rename (p : RoutingPlan) (is : List Instruction) :
    (p.partition (is.map (Instruction.rename f))).entries =
      (p.partition is).entries.map fun b => (b.1, b.2.map (Instruction.rename f)) := by
  have from_start : ∀ (pairs : List (Instruction × Assignment))
      (t t' : Table Kind (List Instruction)),
      t'.entries = t.entries.map (fun b => (b.1, b.2.map (Instruction.rename f))) →
        ((pairs.map fun e => (e.1.rename f, e.2)).foldl
          (fun groups e => groups.update e.2.executor fun group => group.getD [] ++ [e.1])
            t').entries =
          (pairs.foldl
            (fun groups e => groups.update e.2.executor fun group => group.getD [] ++ [e.1])
              t).entries.map fun b => (b.1, b.2.map (Instruction.rename f)) := by
    intro pairs
    induction pairs with
    | nil => exact fun _ _ same => same
    | cons e pairs ih =>
      intro t t' same
      rw [List.map_cons, List.foldl_cons, List.foldl_cons]
      apply ih
      unfold Table.update
      dsimp only
      rw [same]
      apply updateEntry_rename
      intro group
      cases group <;> simp
  unfold RoutingPlan.partition
  rw [List.zip_map_left]
  exact from_start _ _ _ rfl

theorem Renamed.run (same : Orchestrator.Renamed f o o') (ledger : l.Renamed f l') :
    Echo (Renamed f) f (RunOutput.rename f) (o.run l) (o'.run l') := by
  have host : l'.dominantKind = l.dominantKind := by
    unfold FrozenLedger.dominantKind
    rw [ledger.kinds]
  unfold Orchestrator.run
  rw [host, ledger.kinds, ledger.instructions, same.plan, same.capabilities]
  dsimp only
  rw [plan_rename]
  cases l.kinds.elems.find? fun k => !o.plan.contains k with
  | some missing => exact ⟨rfl, same⟩
  | none =>
    cases planned : o.capabilities.plan l.dominantKind l.instructions with
    | error e => exact ⟨congrArg Except.error (plan_rename_fault planned).symm, same⟩
    | ok routing =>
      dsimp only
      rw [partition_rename]
      apply (same.lowerAll _).andThen
      intro programs left left' next
      rw [schedule_rename]
      exact next.execute _ _

/-- Between two ledgers nothing is staged, so an orchestrator is one and the same under any numbers. -/
theorem Reachable.renamed {r : Registry} {plan : SpawnPlan} {policy : SupervisionPolicy}
    (reachable : Reachable r .builtin plan policy o) (rising : StrictMono f) :
    Orchestrator.Renamed f o o := by
  have staffs : Staffs r .builtin fun _ c => c.Even f := by
    intro _ d c _ _ made
    rcases instantiate_builtin made with rfl | ⟨s, _, rfl⟩
    · exact Evaluator.even _
    · exact s.even rising
  have ready := reachable.ready staffs
  have idle := reachable.idle
  refine ⟨rfl, rfl, rfl, rfl, rfl, fun kind => ?_⟩
  cases found : o.workers.find? kind with
  | none => exact .none
  | some w =>
    have fit := ready kind w found
    refine .some ⟨fit.belongs, rfl, rfl, rfl, rfl, fun session => ?_⟩
    have unstaged : w.staged.find? session = none :=
      ((idle.orderly.custodian kind w found).2 fit.alive session).trans (idle.clean kind session)
    rw [unstaged]
    rfl

end Orchestrator
end LazyCast
