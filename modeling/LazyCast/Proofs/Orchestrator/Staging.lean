import LazyCast.Proofs.Orchestrator.Custody
import LazyCast.Proofs.Orchestrator.Thinning
import LazyCast.Proofs.Orchestrator.Positions
/-!
What a drive stages and executes. A drive owes each kind the operations staged for it and those of
the rest of the schedule, as they are bound; every execution that succeeds pays what was staged.
-/
namespace LazyCast.Orchestrator

/-- The last exchange was not an execution that failed. -/
def Calm (o : Orchestrator) : Prop := ∀ x ∈ o.transcript.getLast?, ¬ x.Failed

/-- The exchanges so far are backed, and failed executions were followed up or given up. -/
structure Orderly (o : Orchestrator) : Prop where
  custodian : o.Custodian
  backed : Backed [] o.transcript
  chain : o.transcript.IsChain Exchange.Follows

theorem Orderly.call {o : Orchestrator} (orderly : o.Orderly) {kind : Kind} {r : Request}
    {w : Worker} (found : o.workers.find? kind = some w)
    (backed : ∀ session limit, r = .execute session limit →
      ∃ p, stagedIn o.transcript kind session = some p ∧ (w.serve r).ran = some p)
    (follows : ∀ y ∈ o.transcript.getLast?,
      y.Follows ⟨kind, r, (w.serve r).ran, (w.serve r).answer⟩) :
    (o.call kind r).2.Orderly where
  custodian := orderly.custodian.call kind r
  backed := by
    rw [transcript_call found]
    exact backed_append.mpr ⟨orderly.backed, backed, trivial⟩
  chain := by
    rw [transcript_call found]
    refine List.isChain_append.mpr ⟨orderly.chain, List.isChain_singleton _, fun y last x first => ?_⟩
    cases Option.mem_some_iff.mp first
    exact follows y last

section Owing
variable {e : Evaluator} {eval : EvalState} {kind : Kind}

theorem opsOf_append (kind : Kind) (xs ys : List Scheduled) :
    opsOf kind (xs ++ ys) = opsOf kind xs ++ opsOf kind ys := by
  simp [opsOf]

theorem opsOf_tagged (kind : Kind) (p : Program) :
    opsOf kind (tagged p) = if p.kind = kind then p.ops else [] := by
  by_cases same : p.kind = kind <;> simp [opsOf, tagged, List.filter_map, Function.comp_def, same]

theorem boundFrom_tagged {p b : Program} (needed : p.kind.isClassical = false)
    (binds : p.bind eval.registers = .ok b) (rest : List Scheduled) :
    boundFrom e eval (tagged p ++ rest) =
      (boundFrom e eval rest).map fun ops => tagged b ++ ops := by
  obtain ⟨kind, ops⟩ := p
  induction ops generalizing b with
  | nil =>
    cases binds
    cases later : boundFrom e eval rest <;> simp [tagged, later, Except.map]
  | cons op ops ih =>
    have split : (Program.mk kind (op :: ops)).bind eval.registers =
        ((Program.mk kind [op]).bind eval.registers).bind fun first =>
          ((Program.mk kind ops).bind eval.registers).map first.extend := by
      unfold Program.bind
      rw [← List.singleton_append, Program.bindOps_append]
      cases Program.bindOps eval.registers [op] with
      | error e => rfl
      | ok as => cases Program.bindOps eval.registers ops <;> rfl
    rw [split] at binds
    obtain ⟨first, one, binds⟩ := Except.bind_eq_ok.mp binds
    obtain ⟨others, more, rfl⟩ := Except.map_eq_ok.mp binds
    change boundFrom e eval ((kind, op) :: (tagged ⟨kind, ops⟩ ++ rest)) = _
    rw [boundFrom_needed needed, one, ih needed more]
    have same : first.kind = others.kind :=
      (Program.kind_bind one).trans (Program.kind_bind more).symm
    rw [tagged_extend same]
    cases boundFrom e eval rest <;> simp [Except.bind, Except.map]

end Owing

namespace Drive
variable {e : Evaluator} {session : SessionId}

def heldBy (d : Drive) (kind : Kind) : Option Program :=
  stagedIn d.orchestrator.transcript kind d.session

/-- A drive, whether it goes on or has failed. -/
structure Logged (e : Evaluator) (session : SessionId) (d : Drive) : Prop where
  orderly : d.orchestrator.Orderly
  classical : d.orchestrator.classical = e
  ofSession : d.session = session
  /-- Nothing is staged for other sessions. -/
  apart : ∀ kind other, other ≠ d.session → stagedIn d.orchestrator.transcript kind other = none
  marked : ∀ kind, d.heldBy kind ≠ none → kind ∈ d.staged
  covered : ∀ kind ∈ d.staged, d.orchestrator.workers.contains kind = true
  failing : ∀ x ∈ d.orchestrator.transcript.getLast?, x.Failed →
    x.request.session? = some d.session ∧ d.staged ≠ []

/-- A drive that can go on. Work is staged for the pending kind only, unless it is in the segment. -/
structure Settled (d : Drive) : Prop where
  calm : d.orchestrator.Calm
  idle : ∀ kind, d.pending ≠ some kind → d.heldBy kind = none
  full : d.segment = none → ∀ kind, d.pending = some kind → ∃ p w, d.heldBy kind = some p ∧
    d.orchestrator.workers.find? kind = some w ∧ w.alive = true
  opened : ∀ p, d.segment = some p → d.pending = some p.kind
  needed : ∀ kind, d.pending = some kind → kind.isClassical = false

def Owes (e : Evaluator) (d : Drive) (ops : List Scheduled) (due : Kind → List NativeOp) : Prop :=
  ∃ bound, boundFrom e d.eval (d.segment.toList.flatMap tagged ++ ops) = .ok bound ∧
    ∀ kind, due kind = (d.heldBy kind).toList.flatMap Program.ops ++ opsOf kind bound

/-- What was owed before some exchanges is what they executed and what is owed after them. -/
structure Pays (e : Evaluator) (d : Drive) (ops : List Scheduled) (later : List Exchange)
    (d' : Drive) : Prop where
  transcript : d'.orchestrator.transcript = d.orchestrator.transcript ++ later
  owed : ∀ rest due, d'.Owes e rest due →
    d.Owes e (ops ++ rest) fun kind => executedIn later kind ++ due kind

theorem Pays.of_owes {d d' : Drive} {ops : List Scheduled}
    (same : d'.orchestrator.transcript = d.orchestrator.transcript)
    (owed : ∀ rest due, d'.Owes e rest due → d.Owes e (ops ++ rest) due) :
    Pays e d ops [] d' := by
  refine ⟨by rw [same, List.append_nil], fun rest due owes => ?_⟩
  exact owed rest due owes

theorem Pays.trans {d d' d'' : Drive} {ops ops' : List Scheduled} {later later' : List Exchange}
    (first : Pays e d ops later d') (second : Pays e d' ops' later' d'') :
    Pays e d (ops ++ ops') (later ++ later') d'' := by
  refine ⟨by rw [second.transcript, first.transcript, List.append_assoc], fun rest due owes => ?_⟩
  have owed := first.owed _ _ (second.owed rest due owes)
  simpa only [executedIn_append, List.append_assoc] using owed

/-- An outcome that is logged and, after a success, has dealt with some operations. -/
structure Leads (e : Evaluator) (d : Drive) (ops : List Scheduled) (Q : Drive → Prop)
    (r : Outcome Drive Unit) : Prop where
  logged : r.2.Logged e d.session
  reaches : r.1 = .ok () → r.2.Settled ∧ Q r.2 ∧ ∃ later, Pays e d ops later r.2

theorem Leads.fail {d d' : Drive} {ops : List Scheduled} {Q : Drive → Prop} {f : Fault}
    (logged : d'.Logged e d.session) : Leads e d ops Q (.error f, d') :=
  ⟨logged, fun no => by cases no⟩

theorem Leads.stay {d : Drive} {Q : Drive → Prop} (logged : d.Logged e session)
    (settled : d.Settled) (there : Q d) : Leads e d [] Q (.ok (), d) :=
  ⟨logged.ofSession.symm ▸ logged, fun _ =>
    ⟨settled, there, [], .of_owes rfl fun _ _ owes => owes⟩⟩

theorem Leads.andThen {d : Drive} (ops : List Scheduled) {ops' : List Scheduled} {P Q : Drive → Prop}
    {r : Outcome Drive Unit} {f : Unit → Drive → Outcome Drive Unit} (first : Leads e d ops P r)
    (next : ∀ d', d'.Logged e d.session → d'.Settled → P d' → Leads e d' ops' Q (f () d')) :
    Leads e d (ops ++ ops') Q (r.andThen f) := by
  obtain ⟨f' | u, d'⟩ := r
  · exact .fail first.logged
  · obtain ⟨settled, there, later, pays⟩ := first.reaches rfl
    have led := next d' first.logged settled there
    have same : d'.session = d.session := first.logged.ofSession
    refine ⟨same ▸ led.logged, fun ok => ?_⟩
    obtain ⟨settled', there', later', pays'⟩ := led.reaches ok
    exact ⟨settled', there', later ++ later', pays.trans pays'⟩

section Call
variable {d : Drive} {kind : Kind} {w : Worker} {r : Request}

theorem heldBy_call (found : d.orchestrator.workers.find? kind = some w) (r : Request)
    (other : Kind) : (d.withOrchestrator (d.orchestrator.call kind r).2).heldBy other =
      if kind = other then
        Exchange.leaves ⟨kind, r, (w.serve r).ran, (w.serve r).answer⟩ d.session (d.heldBy other)
      else d.heldBy other := by
  unfold heldBy withOrchestrator
  dsimp only
  rw [transcript_call found, stagedIn_concat]

theorem Logged.call (logged : d.Logged e session)
    (found : d.orchestrator.workers.find? kind = some w) (mark : kind ∈ d.staged)
    (ofSession : r.session? = some d.session)
    (backed : ∀ limit, r = .execute d.session limit →
      ∃ p, d.heldBy kind = some p ∧ (w.serve r).ran = some p)
    (follows : ∀ y ∈ d.orchestrator.transcript.getLast?,
      y.Follows ⟨kind, r, (w.serve r).ran, (w.serve r).answer⟩) :
    (d.withOrchestrator (d.orchestrator.call kind r).2).Logged e session where
  orderly := by
    refine logged.orderly.call found (fun s limit same => ?_) follows
    subst same
    cases ofSession
    exact backed limit rfl
  classical := ((continues_call d.orchestrator kind r).1.classical).trans logged.classical
  ofSession := logged.ofSession
  apart := by
    intro k other ne
    have apart := logged.apart k other ne
    change stagedIn (d.orchestrator.call kind r).2.transcript k other = none
    rw [transcript_call found, stagedIn_other, apart]
    intro x mem
    rw [List.mem_singleton.mp mem]
    simp only [ofSession]
    exact fun same => ne (Option.some.inj same).symm
  marked := by
    intro k some
    rw [heldBy_call found] at some
    by_cases same : kind = k
    · exact same ▸ mark
    · rw [if_neg same] at some
      exact logged.marked k some
  covered := fun k mem =>
    ((continues_call d.orchestrator kind r).2 k).trans (logged.covered k mem)
  failing := by
    intro x last _
    change x ∈ (d.orchestrator.call kind r).2.transcript.getLast? at last
    rw [transcript_call found, List.getLast?_concat] at last
    cases Option.mem_some_iff.mp last
    exact ⟨ofSession, List.ne_nil_of_mem mark⟩

theorem calm_call (found : d.orchestrator.workers.find? kind = some w)
    (fine : ¬ Exchange.Failed ⟨kind, r, (w.serve r).ran, (w.serve r).answer⟩) :
    (d.orchestrator.call kind r).2.Calm := by
  intro x last
  rw [transcript_call found, List.getLast?_concat] at last
  cases Option.mem_some_iff.mp last
  exact fine

end Call

section Stage
variable {d : Drive} {p b : Program} {w : Worker}

theorem Logged.mark (logged : d.Logged e session) {kind : Kind}
    (covered : d.orchestrator.workers.contains kind = true) :
    ∃ kinds, d.markStaged kind = { d with staged := kinds } ∧ kind ∈ kinds ∧
      Logged e session { d with staged := kinds } := by
  unfold markStaged
  split
  · exact ⟨d.staged, rfl, ‹_›, logged⟩
  · refine ⟨_, rfl, by simp, logged.orderly, logged.classical, logged.ofSession,
      logged.apart, fun k some => List.mem_append_left _ (logged.marked k some), ?_,
      fun x last failed => ⟨(logged.failing x last failed).1, by simp⟩⟩
    intro k mem
    rcases List.mem_append.mp mem with mem | mem
    · exact logged.covered k mem
    · rw [List.mem_singleton.mp mem]
      exact covered

structure Stages (d : Drive) (p b : Program) (d' : Drive) : Prop where
  eval : d'.eval = d.eval
  segment : d'.segment = none
  pending : d'.pending = d.pending
  transcript : ∃ x : Exchange, x.request = .stage d.session b ∧
    d'.orchestrator.transcript = d.orchestrator.transcript ++ [x]
  held : ∀ kind, d'.heldBy kind =
    if p.kind = kind then some (((d.heldBy kind).getD (.empty kind)).extend b) else d.heldBy kind
  live : ∃ w, d'.orchestrator.workers.find? p.kind = some w ∧ w.alive = true

theorem Settled.stages {d' : Drive} (settled : d.Settled) (segment : d.segment = some p)
    (stages : Stages d p b d') : d'.Settled where
  calm := by
    obtain ⟨x, request, transcript⟩ := stages.transcript
    intro y last
    rw [transcript, List.getLast?_concat] at last
    cases Option.mem_some_iff.mp last
    rintro ⟨s, limit, f, execute, _⟩
    cases request.symm.trans execute
  idle := by
    intro kind ne
    rw [stages.pending] at ne
    have other : p.kind ≠ kind := fun same => ne (same ▸ settled.opened p segment)
    rw [stages.held, if_neg other]
    exact settled.idle kind ne
  full := by
    intro _ kind same
    cases (settled.opened p segment).symm.trans (stages.pending.symm.trans same)
    obtain ⟨w, found, alive⟩ := stages.live
    exact ⟨_, w, (stages.held p.kind).trans (if_pos rfl), found, alive⟩
  opened := by
    intro q no
    cases stages.segment.symm.trans no
  needed := fun kind same => settled.needed kind (stages.pending.symm.trans same)

theorem Stages.pays {d' : Drive} (stages : Stages d p b d') (segment : d.segment = some p)
    (needed : p.kind.isClassical = false) (binds : p.bind d.eval.registers = .ok b) :
    ∃ later, Pays e d [] later d' := by
  obtain ⟨x, request, transcript⟩ := stages.transcript
  refine ⟨[x], transcript, fun rest due owes => ?_⟩
  have nothing : ∀ kind, executedIn [x] kind = [] := fun kind =>
    executedIn_idle kind fun y mem => by
      rw [List.mem_singleton.mp mem]
      unfold Exchange.executed?
      rw [request]
  obtain ⟨bound, left, shares⟩ := owes
  rw [stages.segment, stages.eval] at left
  have left : boundFrom e d.eval rest = .ok bound := left
  refine ⟨tagged b ++ bound, ?_, fun kind => ?_⟩
  · rw [segment, Option.toList_some, List.flatMap_singleton, List.nil_append,
      boundFrom_tagged needed binds, left]
    rfl
  · change executedIn [x] kind ++ due kind = _
    rw [nothing, List.nil_append, shares kind, stages.held kind, opsOf_append, opsOf_tagged,
      Program.kind_bind binds]
    by_cases same : p.kind = kind
    · rw [if_pos same, if_pos same]
      cases d.heldBy kind <;> simp [Program.extend, Program.empty]
    · rw [if_neg same, if_neg same]
      rfl

theorem stages_call (found : d.orchestrator.workers.find? p.kind = some w)
    (alive : w.alive = true) (kinds : List Kind) :
    Stages d p b (withOrchestrator { d with segment := none, staged := kinds }
      (d.orchestrator.call p.kind (.stage d.session b)).2) where
  eval := rfl
  segment := rfl
  pending := rfl
  transcript := ⟨_, rfl, transcript_call found _⟩
  held := by
    intro kind
    refine (heldBy_call (d := d) found (.stage d.session b) kind).trans ?_
    by_cases same : p.kind = kind
    · subst same
      rw [if_pos rfl, if_pos rfl, w.serve_stage alive]
      exact if_pos rfl
    · rw [if_neg same, if_neg same]
  live := by
    refine ⟨_, (congrArg (·.2.workers.find? p.kind) (call_eq found _)).trans
      (Table.find?_insert_self _ _ _), ?_⟩
    rw [w.serve_stage alive]
    exact alive

theorem Settled.flush (settled : d.Settled) (logged : d.Logged e session) :
    Leads e d [] (fun d' => d'.segment = none) d.flush := by
  unfold Drive.flush
  cases segment : d.segment with
  | none => exact .stay logged settled segment
  | some p =>
    have emptied : Logged e d.session { d with segment := none } :=
      ⟨logged.orderly, logged.classical, rfl, logged.apart, logged.marked,
        logged.covered, logged.failing⟩
    dsimp only
    unfold Drive.stage
    cases binds : p.bind d.eval.registers with
    | error f => exact .fail emptied
    | ok b =>
      dsimp only
      cases contains : d.orchestrator.workers.contains p.kind with
      | false => exact .fail emptied
      | true =>
        obtain ⟨w, found⟩ := Option.isSome_iff_exists.mp contains
        obtain ⟨kinds, same, mark, marked⟩ := emptied.mark contains
        have sent := Logged.call marked found mark (r := .stage d.session b) rfl nofun
          fun y last failed => absurd failed (settled.calm y last)
        rw [if_pos rfl, same]
        have answer := congrArg Prod.fst (call_eq found (.stage d.session b))
        cases alive : w.alive with
        | false =>
          have refused : (w.serve (.stage d.session b)).answer = .error (.crashed w.kind) := by
            simp [Worker.serve, alive]
          simp only [Outcome.within, answer, refused, Outcome.andThen]
          exact .fail sent
        | true =>
          have stages := stages_call (b := b) found alive kinds
          simp only [Outcome.within, answer, w.serve_stage alive, Worker.stage, Outcome.andThen]
          exact ⟨sent, fun _ => ⟨settled.stages segment stages, rfl,
            stages.pays segment (settled.needed _ (settled.opened p segment)) binds⟩⟩

end Stage

end Drive
end LazyCast.Orchestrator
