import Mathlib.Data.List.DropRight
import LazyCast.Proofs.Orchestrator.Custody
/-!
Sessions of a worker. A worker keeps what it has to run by session, so what it answers to one session
does not depend on the requests of others, in whatever order they come between. What it holds for a
session can be read off the exchanges: all that was staged since an execution of the session last
succeeded or the session was closed.
-/
namespace LazyCast

/-- Whether a sub-compiler answers in time, and what, depends on the program alone. -/
def SubCompiler.Settles (c : SubCompiler) (outcome : Program → Nat × Except Fault Sample) : Prop :=
  ∀ usage p, ∃ sampled, c.execute usage p = .answer (outcome p).1 sampled (outcome p).2

/-- What comes of a settled execution within a limit. -/
def settledWithin (kind : Kind) (limit : Option Nat) (outcome : Nat × Except Fault Sample) :
    Except Fault Sample :=
  (Attempt.answer outcome.1 false outcome.2).verdict kind limit

namespace Exchange

/-- A session holds nothing after it was closed or has run with success. -/
def ends (x : Exchange) (session : SessionId) : Bool :=
  match x.request, x.answer with
  | .execute s _, .ok _ => decide (s = session)
  | .close s, _ => decide (s = session)
  | _, _ => false

def stages (x : Exchange) (session : SessionId) : Option Program :=
  match x.request with
  | .stage s p => if s = session then some p else none
  | _ => none

end Exchange

def ofSession (xs : List Exchange) (session : SessionId) : List Exchange :=
  xs.filter fun x => decide (x.request.session? = some session)

/-- What was staged for a session since it last held nothing. -/
def awaiting (xs : List Exchange) (session : SessionId) : List Program :=
  (xs.rtakeWhile fun x => !x.ends session).filterMap fun x => x.stages session

theorem awaiting_concat (xs : List Exchange) (x : Exchange) (session : SessionId) :
    awaiting (xs ++ [x]) session =
      if x.ends session then [] else awaiting xs session ++ (x.stages session).toList := by
  unfold awaiting
  rw [List.rtakeWhile_concat]
  cases x.ends session with
  | true => rfl
  | false =>
    rw [Bool.not_false, if_pos rfl, if_neg Bool.false_ne_true, List.filterMap_append]
    cases stages : x.stages session <;> simp [stages]

def joined (kind : Kind) : List Program → Option Program
  | [] => none
  | p :: ps => some ⟨kind, (p :: ps).flatMap Program.ops⟩

theorem joined_concat (kind : Kind) (ps : List Program) (p : Program) :
    joined kind (ps ++ [p]) = some (((joined kind ps).getD (.empty kind)).extend p) := by
  cases ps with
  | nil => simp [joined, Program.extend, Program.empty]
  | cons q qs => simp [joined, Program.extend]

theorem leaves_joined {x : Exchange} (xs : List Exchange) (session : SessionId)
    (granted : ∀ s p, x.request = .stage s p → ∃ response, x.answer = .ok response) :
    x.leaves session (joined x.kind (awaiting xs session)) =
      joined x.kind (awaiting (xs ++ [x]) session) := by
  rw [awaiting_concat]
  unfold Exchange.leaves Exchange.ends Exchange.stages
  cases request : x.request with
  | lower batch => simp
  | stop => simp
  | stage s p =>
    obtain ⟨response, answer⟩ := granted s p request
    by_cases same : s = session
    · simp [answer, same, joined_concat]
    · simp [answer, same]
  | execute s limit =>
    cases answer : x.answer <;> by_cases same : s = session <;> simp [same, joined]
  | close s => by_cases same : s = session <;> simp [same, joined]

namespace Worker
variable {w v : Worker} {kind : Kind} {c : SubCompiler} {r : Request} {rs : List Request}
  {session : SessionId} {outcome : Program → Nat × Except Fault Sample}

def exchange (w : Worker) (r : Request) : Exchange :=
  ⟨w.kind, r, (w.serve r).ran, (w.serve r).answer⟩

def after (w : Worker) (rs : List Request) : Worker := rs.foldl (fun w r => (w.serve r).worker) w

def log (w : Worker) : List Request → List Exchange
  | [] => []
  | r :: rs => w.exchange r :: log (w.serve r).worker rs

theorem log_concat (w : Worker) (rs : List Request) (r : Request) :
    w.log (rs ++ [r]) = w.log rs ++ [(w.after rs).exchange r] := by
  induction rs generalizing w with
  | nil => rfl
  | cons q qs ih =>
    rw [List.cons_append, log, ih]
    rfl

theorem after_concat (w : Worker) (rs : List Request) (r : Request) :
    w.after (rs ++ [r]) = ((w.after rs).serve r).worker := by
  simp [after]

structure Serves (w : Worker) (kind : Kind) (c : SubCompiler) : Prop where
  alive : w.alive = true
  ofKind : w.kind = kind
  compiler : w.compiler = c

theorem Serves.serve (serves : w.Serves kind c) (settles : c.Settles outcome) (runs : r ≠ .stop) :
    (w.serve r).worker.Serves kind c := by
  obtain ⟨alive, ofKind, compiler⟩ := serves
  have still : w.Serves kind c := ⟨alive, ofKind, compiler⟩
  unfold Worker.serve
  rw [if_pos alive]
  cases r with
  | stop => exact absurd rfl runs
  | lower batch => exact still
  | stage s p => exact ⟨alive, ofKind, compiler⟩
  | close s => exact ⟨alive, ofKind, compiler⟩
  | execute s limit =>
    simp only [execute]
    cases w.staged.find? s with
    | none => exact still
    | some p =>
      obtain ⟨sampled, attempt⟩ := settles w.usage p
      rw [← compiler] at attempt
      simp only [Worker.run, attempt]
      split
      · exact ⟨alive, ofKind, compiler⟩
      · cases (outcome p).2 <;> exact ⟨alive, ofKind, compiler⟩

theorem Serves.after (serves : w.Serves kind c) (settles : c.Settles outcome)
    (running : ∀ r ∈ rs, r ≠ .stop) : (w.after rs).Serves kind c := by
  induction rs generalizing w with
  | nil => exact serves
  | cons r rs ih =>
    obtain ⟨here, later⟩ := List.forall_mem_cons.mp running
    exact ih (serves.serve settles here) later

theorem Serves.run_answer (serves : w.Serves kind c) (settles : c.Settles outcome)
    (limit : Option Nat) (p : Program) : (w.run session limit p).answer =
      (settledWithin kind limit (outcome p)).map .sample := by
  obtain ⟨sampled, attempt⟩ := settles w.usage p
  rw [Worker.run_answer, serves.compiler, attempt, serves.ofKind]
  rfl

theorem Serves.serve_other (serves : w.Serves kind c) (settles : c.Settles outcome)
    (runs : r ≠ .stop) (other : r.session? ≠ some session) :
    (w.serve r).worker.staged.find? session = w.staged.find? session := by
  rw [staged_serve (serves.serve settles runs).alive]
  exact Exchange.leaves_other other _

theorem Serves.exchange_eq (serves : w.Serves kind c) (serves' : v.Serves kind c)
    (settles : c.Settles outcome) (same : w.staged.find? session = v.staged.find? session)
    (own : r.session? = some session) : w.exchange r = v.exchange r := by
  have kinds : w.kind = v.kind := serves.ofKind.trans serves'.ofKind.symm
  unfold exchange Worker.serve
  rw [if_pos serves.alive, if_pos serves'.alive]
  cases r with
  | lower batch => cases own
  | stop => cases own
  | stage s p =>
    obtain rfl : s = session := Option.some.inj own
    simp only [stage, same, kinds]
  | close s => simp only [kinds]
  | execute s limit =>
    obtain rfl : s = session := Option.some.inj own
    simp only [execute, same]
    cases v.staged.find? s with
    | none => simp only [kinds]
    | some p =>
      simp only [run_ran, serves.run_answer settles, serves'.run_answer settles, kinds]

theorem ofSession_own (own : r.session? = some session) : ofSession (w.log (r :: rs)) session =
    w.exchange r :: ofSession ((w.serve r).worker.log rs) session :=
  List.filter_cons_of_pos (p := fun x : Exchange => decide (x.request.session? = some session))
    (decide_eq_true own)

theorem ofSession_other (other : r.session? ≠ some session) :
    ofSession (w.log (r :: rs)) session = ofSession ((w.serve r).worker.log rs) session :=
  List.filter_cons_of_neg (p := fun x : Exchange => decide (x.request.session? = some session))
    fun own => other (of_decide_eq_true own)

theorem Serves.log_own (serves : w.Serves kind c) (serves' : v.Serves kind c)
    (settles : c.Settles outcome) (running : ∀ r ∈ rs, r ≠ .stop)
    (same : w.staged.find? session = v.staged.find? session) {keep : Request → Bool}
    (kept : ∀ r, r.session? = some session → keep r = true) :
    ofSession (w.log rs) session = ofSession (v.log (rs.filter keep)) session := by
  induction rs generalizing w v with
  | nil => rfl
  | cons r rs ih =>
    obtain ⟨here, later⟩ := List.forall_mem_cons.mp running
    have next := serves.serve settles here
    have next' := serves'.serve settles here
    by_cases own : r.session? = some session
    · have exchanges := serves.exchange_eq serves' settles same own
      rw [List.filter_cons_of_pos (kept r own), ofSession_own own, ofSession_own own, exchanges]
      refine congrArg _ (ih next next' later ?_)
      rw [staged_serve next.alive, staged_serve next'.alive, same]
      exact congrArg (fun x : Exchange => x.leaves session _) exchanges
    · have held := (serves.serve_other settles here own).trans same
      rw [ofSession_other own]
      by_cases keeps : keep r = true
      · rw [List.filter_cons_of_pos keeps, ofSession_other own]
        exact ih next next' later (held.trans (serves'.serve_other settles here own).symm)
      · rw [List.filter_cons_of_neg keeps]
        exact ih next serves' later held

theorem staged_after (settles : c.Settles outcome) (running : ∀ r ∈ rs, r ≠ .stop)
    (session : SessionId) : ((start kind c).after rs).staged.find? session =
      joined kind (awaiting ((start kind c).log rs) session) := by
  induction rs using List.reverseRecOn with
  | nil => rfl
  | append_singleton rs r ih =>
    have earlier : ∀ q ∈ rs, q ≠ .stop := fun q mem => running q (List.mem_append_left _ mem)
    have here : r ≠ .stop := running r (by simp)
    have serves : ((start kind c).after rs).Serves kind c :=
      Serves.after ⟨rfl, rfl, rfl⟩ settles earlier
    have left := leaves_joined (x := ((start kind c).after rs).exchange r) ((start kind c).log rs)
      session fun s p staging => by
        obtain rfl : r = .stage s p := staging
        exact ⟨_, congrArg Served.answer (serve_stage serves.alive s p)⟩
    rw [exchange, serves.ofKind] at left
    rw [after_concat, log_concat, staged_serve (serves.serve settles here).alive, ih earlier,
      exchange, serves.ofKind]
    exact left

theorem joined_eq_none {ps : List Program} (empty : ps = []) : joined kind ps = none := by
  rw [empty]
  rfl

theorem joined_some {ps : List Program} (some : ps ≠ []) :
    joined kind ps = .some ⟨kind, ps.flatMap Program.ops⟩ := by
  cases ps with
  | nil => exact absurd rfl some
  | cons p ps => rfl

theorem Serves.serve_unstaged (serves : w.Serves kind c) (unstaged : w.staged.find? session = none)
    (limit : Option Nat) : w.serve (.execute session limit) =
      ⟨.error (.execution kind (.nothingStaged session)), none, w⟩ := by
  simp only [Worker.serve, serves.alive, if_true, execute, unstaged, serves.ofKind]

theorem ran_execute (alive : w.alive = true) (session : SessionId) (limit : Option Nat) :
    (w.serve (.execute session limit)).ran = w.staged.find? session := by
  rw [Worker.serve, if_pos alive]
  simp only [execute]
  cases w.staged.find? session with
  | none => rfl
  | some p => exact run_ran w session limit p

theorem Serves.staged_others (serves : w.Serves kind c) (settles : c.Settles outcome)
    (running : ∀ r ∈ rs, r ≠ .stop) (others : ∀ r ∈ rs, r.session? ≠ some session) :
    (w.after rs).staged.find? session = w.staged.find? session := by
  induction rs generalizing w with
  | nil => rfl
  | cons r rs ih =>
    obtain ⟨here, later⟩ := List.forall_mem_cons.mp running
    obtain ⟨other, others⟩ := List.forall_mem_cons.mp others
    exact (ih (serves.serve settles here) later others).trans
      (serves.serve_other settles here other)

theorem Serves.reruns (serves : w.Serves kind c) (settles : c.Settles outcome) {limit : Option Nat}
    {e : Fault} (failed : (w.serve (.execute session limit)).answer = .error e)
    (running : ∀ r ∈ rs, r ≠ .stop) (others : ∀ r ∈ rs, r.session? ≠ some session)
    (limit' : Option Nat) :
    (((w.serve (.execute session limit)).worker.after rs).serve (.execute session limit')).ran =
      (w.serve (.execute session limit)).ran := by
  have next := serves.serve settles (r := .execute session limit) fun no => by cases no
  have stays : (w.serve (.execute session limit)).worker.staged.find? session =
      w.staged.find? session := by
    rw [staged_serve next.alive, failed]
    rfl
  rw [ran_execute (next.after settles running).alive, next.staged_others settles running others,
    stays, ran_execute serves.alive]

/-- Sessions of a worker are isolated. A session has the same exchanges when requests of others are
    taken away. It is told how much is staged for it since it last ran with success or was closed; that
    is what it executes, in the order of staging, and what it executes again after a failure. With
    nothing staged an execution fails and leaves the worker as it was. -/
theorem sessions_isolated (settles : c.Settles outcome) (running : ∀ r ∈ rs, r ≠ .stop)
    (session : SessionId) :
    (∀ keep : Request → Bool, (∀ r, r.session? = some session → keep r = true) →
      ofSession ((start kind c).log rs) session =
        ofSession ((start kind c).log (rs.filter keep)) session) ∧
    (∀ batch, ((start kind c).after rs).serve (.lower batch) =
      ⟨(c.lower batch).map .lowered, none, (start kind c).after rs⟩) ∧
    (∀ p, (((start kind c).after rs).serve (.stage session p)).answer = .ok (.staged
      ((awaiting ((start kind c).log rs) session ++ [p]).flatMap Program.ops).length)) ∧
    (∀ limit, awaiting ((start kind c).log rs) session ≠ [] →
      let staged := ⟨kind, (awaiting ((start kind c).log rs) session).flatMap Program.ops⟩
      (((start kind c).after rs).serve (.execute session limit)).ran = some staged ∧
        (((start kind c).after rs).serve (.execute session limit)).answer =
          (settledWithin kind limit (outcome staged)).map .sample) ∧
    (∀ limit e others limit',
      (((start kind c).after rs).serve (.execute session limit)).answer = .error e →
      (∀ r ∈ others, r ≠ .stop) → (∀ r ∈ others, r.session? ≠ some session) →
      (((((start kind c).after rs).serve (.execute session limit)).worker.after others).serve
          (.execute session limit')).ran =
        (((start kind c).after rs).serve (.execute session limit)).ran) ∧
    (awaiting ((start kind c).log rs) session = [] → ∀ limit,
      ((start kind c).after rs).serve (.execute session limit) =
        ⟨.error (.execution kind (.nothingStaged session)), none, (start kind c).after rs⟩) := by
  have fresh : (start kind c).Serves kind c := ⟨rfl, rfl, rfl⟩
  have serves := fresh.after settles running
  have held : ((start kind c).after rs).staged.find? session = _ :=
    staged_after settles running session
  refine ⟨fun keep kept => fresh.log_own fresh settles running rfl kept, fun batch => ?_,
    fun p => ?_, fun limit some => ?_, fun limit e others limit' failed running' apart =>
      serves.reruns settles failed running' apart limit', fun none limit =>
        serves.serve_unstaged (held.trans (joined_eq_none none)) limit⟩
  · simp only [Worker.serve, serves.alive, if_true, serves.compiler]
  · have whole := joined_concat kind (awaiting ((start kind c).log rs) session) p
    rw [joined_some (by simp)] at whole
    rw [serve_stage serves.alive, stage, held, serves.ofKind, ← Option.some.inj whole]
  · rw [joined_some some] at held
    rw [serve_execute serves.alive held]
    exact ⟨run_ran _ _ _ _, serves.run_answer settles limit _⟩

def unhurried : SubCompiler where
  name := Evaluator.builtin.name
  capabilities := Evaluator.builtin.capabilities
  lower := Evaluator.builtin.lower
  execute _ p := .answer p.ops.length false (Evaluator.builtin.execute p)

theorem unhurried_settles :
    unhurried.Settles fun p => (p.ops.length, Evaluator.builtin.execute p) :=
  fun _ _ => ⟨false, rfl⟩

def fence : NativeOp := .plain 0 "barrier" []

/-- Two sessions in turn. The first one runs out of time, the second one succeeds. -/
def interleaved : List Request :=
  [.stage 1 ⟨.quantum, [fence, fence]⟩, .stage 2 ⟨.quantum, [fence]⟩, .execute 1 (some 1),
    .lower [], .execute 2 (some 1), .stage 1 ⟨.quantum, [fence]⟩, .close 3]

/-- The requests of one session, and those of none. -/
def concerns (session : SessionId) (r : Request) : Bool :=
  r.session?.all fun s => decide (s = session)

theorem interleaved_isolated : (∀ r ∈ interleaved, r ≠ .stop) ∧
    ofSession ((start .quantum unhurried).log interleaved) 1 =
      ofSession ((start .quantum unhurried).log (interleaved.filter (concerns 1))) 1 ∧
    (((start .quantum unhurried).after interleaved).serve (.stage 1 ⟨.quantum, [fence]⟩)).answer =
      .ok (.staged 4) ∧
    (((start .quantum unhurried).after interleaved).serve (.execute 1 (some 1))).ran =
      some ⟨.quantum, [fence, fence, fence]⟩ ∧
    (((start .quantum unhurried).after interleaved).serve (.execute 1 (some 1))).answer =
      .error (.execution .quantum (.timedOut 1)) ∧
    ((start .quantum unhurried).after interleaved).serve (.execute 2 none) =
      ⟨.error (.execution .quantum (.nothingStaged 2)), none,
        (start .quantum unhurried).after interleaved⟩ := by
  have running : ∀ r ∈ interleaved, r ≠ .stop := by
    intro r mem
    simp only [interleaved, List.mem_cons, List.not_mem_nil, or_false] at mem
    rcases mem with rfl | rfl | rfl | rfl | rfl | rfl | rfl <;> exact fun no => by cases no
  obtain ⟨own, _, staged, executed, _, _⟩ :=
    @sessions_isolated .quantum _ _ _ unhurried_settles running 1
  obtain ⟨_, _, _, _, _, idle⟩ :=
    @sessions_isolated .quantum _ _ _ unhurried_settles running 2
  obtain ⟨ran, answer⟩ := executed (some 1) fun none => by cases none
  exact ⟨running, own (concerns 1) fun r mine => by simp [concerns, mine], staged _, ran, answer,
    idle rfl none⟩

end Worker
end LazyCast
