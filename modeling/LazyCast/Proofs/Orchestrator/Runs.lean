import LazyCast.Proofs.Orchestrator.Staffing
/-!
The runs of a schedule. Which programs are executed does not depend on what executions answer, as
long as they succeed: samples are not fed back into the registers.
-/
namespace LazyCast.Orchestrator
variable {σ : Type}

/-- The programs that are executed from an open run on, bound, when no execution fails. -/
def runsFrom (e : Evaluator) (eval : EvalState) (current : Option Program) :
    List Scheduled → Except Fault (List Program)
  | [] => .ok current.toList
  | op :: rest =>
    if op.1.isClassical then (e.step op.2 eval).bind fun eval => runsFrom e eval current rest
    else
      ((Program.mk op.1 [op.2]).bind eval.registers).bind fun bound =>
        match current with
        | some p =>
          if p.kind = op.1 then runsFrom e eval (some (p.extend bound)) rest
          else (runsFrom e eval (some bound) rest).map fun runs => p :: runs
        | none => runsFrom e eval (some bound) rest

/-- The programs that a schedule executes, in order, when no execution fails. -/
def runsOf (e : Evaluator) (ops : List Scheduled) : Except Fault (List Program) :=
  runsFrom e .empty none ops

namespace Scan
variable {e : Evaluator} {x : Executor σ} {s : Scan σ} {op : Scheduled}

def closed (s : Scan σ) (p : Program) (sample : Sample) (memory : σ) : Scan σ :=
  { s with current := none, memory := memory, runs := s.runs ++ [(p, sample)] }

def grown (s : Scan σ) (bound : Program) : Scan σ :=
  { s with current := some ((s.current.getD (.empty bound.kind)).extend bound) }

theorem close_some {p : Program} {sample : Sample} {m : σ} (current : s.current = some p)
    (answer : x p s.memory = (.ok sample, m)) : s.close x = (.ok (), s.closed p sample m) := by
  simp only [close, current, answer]
  rfl

theorem close_failed {p : Program} {f : Fault} {m : σ} (current : s.current = some p)
    (answer : x p s.memory = (.error f, m)) : (s.close x).1 = .error f := by
  simp only [close, current, answer]
  rfl

theorem step_grown {bound : Program} (needed : op.1.isClassical = false)
    (binds : (Program.mk op.1 [op.2]).bind s.eval.registers = .ok bound)
    (joins : ∀ p, s.current = some p → p.kind = op.1) :
    s.step e x op = (.ok (), s.grown bound) := by
  have kind : bound.kind = op.1 := Program.kind_bind binds
  unfold step
  rw [needed, if_neg Bool.false_ne_true, enter]
  cases current : s.current with
  | none =>
    simp only [Option.map_none, reduceCtorEq, if_false, close, current, Outcome.andThen, bindNext,
      binds, grown, kind, Option.map_some, Option.getD_none]
  | some p =>
    simp only [Option.map_some, joins p current, if_true, Outcome.andThen, bindNext, binds,
      grown, current, Option.getD_some]

theorem step_unbound {f : Fault} (needed : op.1.isClassical = false)
    (unbound : (Program.mk op.1 [op.2]).bind s.eval.registers = .error f)
    (joins : ∀ p, s.current = some p → p.kind = op.1) : (s.step e x op).1 = .error f := by
  unfold step
  rw [needed, if_neg Bool.false_ne_true, enter]
  cases current : s.current with
  | none =>
    simp only [Option.map_none, reduceCtorEq, if_false, close, current, Outcome.andThen, bindNext,
      unbound]
  | some p =>
    simp only [Option.map_some, joins p current, if_true, Outcome.andThen, bindNext, unbound]

theorem step_turns {p : Program} (needed : op.1.isClassical = false)
    (current : s.current = some p) (other : p.kind ≠ op.1) :
    s.step e x op = (s.close x).andThen fun _ s => s.step e x op := by
  have ne : s.current.map Program.kind ≠ some op.1 := by
    rw [current]
    exact fun same => other (Option.some.inj same)
  rcases answer : x p s.memory with ⟨f | sample, m⟩
  · have failed := close_failed current answer
    unfold step
    rw [needed, if_neg Bool.false_ne_true, enter, if_neg ne]
    rcases closing : s.close x with ⟨g | u, s'⟩
    · rfl
    · rw [closing] at failed
      cases failed
  · rw [close_some current answer, Outcome.andThen_ok]
    unfold step
    rw [needed, if_neg Bool.false_ne_true, if_neg Bool.false_ne_true, enter, enter, if_neg ne,
      close_some current answer]
    rfl

/-- What is executed from a scan on, as far as no execution fails. -/
def Executes (e : Evaluator) (x : Executor σ) (s : Scan σ) (ops : List Scheduled)
    (runs : List Program) : Prop :=
  (s.run e x ops).1 = .ok () ∧
    (s.run e x ops).2.runs.map Prod.fst = s.runs.map Prod.fst ++ runs ∧
      ∀ r ∈ (s.run e x ops).2.runs, r ∈ s.runs ∨ ∃ m, (x r.1 m).1 = .ok r.2

theorem Executes.closed {p : Program} {sample : Sample} {m : σ} {ops : List Scheduled}
    {runs : List Program} (answer : x p s.memory = (.ok sample, m))
    (rest : Executes e x (s.closed p sample m) ops runs)
    (run : s.run e x ops = (s.closed p sample m).run e x ops) :
    Executes e x s ops (p :: runs) := by
  obtain ⟨ok, executed, answered⟩ := rest
  unfold Executes
  rw [run]
  refine ⟨ok, ?_, fun r mem => ?_⟩
  · rw [executed]
    simp [Scan.closed]
  · rcases answered r mem with before | ⟨m', done⟩
    · rcases List.mem_append.mp before with before | now
      · exact Or.inl before
      · rw [List.mem_singleton.mp now]
        exact Or.inr ⟨s.memory, by rw [answer]⟩
    · exact Or.inr ⟨m', done⟩

theorem runsFrom_grown {eval : EvalState} {current : Option Program} {bound : Program}
    {rest : List Scheduled} (needed : op.1.isClassical = false)
    (binds : (Program.mk op.1 [op.2]).bind eval.registers = .ok bound)
    (joins : ∀ p, current = some p → p.kind = op.1) :
    runsFrom e eval current (op :: rest) =
      runsFrom e eval (some ((current.getD (.empty bound.kind)).extend bound)) rest := by
  rw [runsFrom, needed, if_neg Bool.false_ne_true, binds]
  cases current with
  | none => simp only [Except.bind, Option.getD_none, Program.empty_extend]
  | some p => simp only [Except.bind, joins p rfl, if_true, Option.getD_some]

theorem runsFrom_turns {eval : EvalState} {p : Program} {rest : List Scheduled}
    (needed : op.1.isClassical = false) (other : p.kind ≠ op.1) :
    runsFrom e eval (some p) (op :: rest) =
      (runsFrom e eval none (op :: rest)).map fun runs => p :: runs := by
  rw [runsFrom, runsFrom, needed, if_neg Bool.false_ne_true, if_neg Bool.false_ne_true]
  cases (Program.mk op.1 [op.2]).bind eval.registers with
  | error f => rfl
  | ok bound => simp only [Except.bind, other, if_false]

inductive Ends (e : Evaluator) (x : Executor σ) (s : Scan σ) (ops : List Scheduled) : Prop where
  /-- An operation failed. -/
  | stopped {f : Fault} (planned : runsFrom e s.eval s.current ops = .error f)
      (failed : (s.run e x ops).1 ≠ .ok ())
  | done {runs : List Program} (planned : runsFrom e s.eval s.current ops = .ok runs)
      (executes : Executes e x s ops runs)
  /-- A run failed. -/
  | broken {runs : List Program} (planned : runsFrom e s.eval s.current ops = .ok runs)
      {p : Program} (mem : p ∈ runs) {m : σ} {f : Fault} (answer : (x p m).1 = .error f)
      (failed : (s.run e x ops).1 ≠ .ok ())

theorem Ends.step {s' : Scan σ} {rest : List Scheduled} (ends : Ends e x s' rest)
    (step : s.step e x op = (.ok (), s')) (runs : s'.runs = s.runs)
    (planned : runsFrom e s.eval s.current (op :: rest) = runsFrom e s'.eval s'.current rest) :
    Ends e x s (op :: rest) := by
  have run : s.run e x (op :: rest) = s'.run e x rest := by
    rw [Scan.run, step, Outcome.andThen_ok]
  cases ends with
  | stopped plan failed => exact .stopped (planned.trans plan) (by rwa [run])
  | done plan executes =>
    refine .done (planned.trans plan) ?_
    unfold Executes at executes ⊢
    rwa [run, ← runs]
  | broken plan mem answer failed => exact .broken (planned.trans plan) mem answer (by rwa [run])

theorem Ends.stop {f g : Fault} {rest : List Scheduled}
    (planned : runsFrom e s.eval s.current (op :: rest) = .error f)
    (failed : (s.step e x op).1 = .error g) : Ends e x s (op :: rest) := by
  refine .stopped planned ?_
  rw [Scan.run]
  rcases stepped : s.step e x op with ⟨h | u, s'⟩
  · exact fun no => by cases no
  · rw [stepped] at failed
    cases failed

theorem Ends.turn {p : Program} {rest : List Scheduled} (needed : op.1.isClassical = false)
    (current : s.current = some p) (other : p.kind ≠ op.1)
    (later : ∀ sample m, Ends e x (s.closed p sample m) (op :: rest)) :
    Ends e x s (op :: rest) := by
  have planned : runsFrom e s.eval s.current (op :: rest) =
      (runsFrom e s.eval none (op :: rest)).map fun runs => p :: runs := by
    rw [current]
    exact runsFrom_turns needed other
  have run : s.run e x (op :: rest) = (s.close x).andThen fun _ s => s.run e x (op :: rest) := by
    rw [Scan.run, step_turns needed current other, Outcome.andThen_assoc]
    rfl
  rcases answer : x p s.memory with ⟨f | sample, m⟩
  · have failed : (s.run e x (op :: rest)).1 ≠ .ok () := by
      have closing := close_failed current answer
      rw [run]
      rcases close : s.close x with ⟨g | u, s'⟩
      · exact fun no => by cases no
      · rw [close] at closing
        cases closing
    cases plan : runsFrom e s.eval none (op :: rest) with
    | error g =>
      rw [plan] at planned
      exact .stopped planned failed
    | ok runs =>
      rw [plan] at planned
      exact .broken planned List.mem_cons_self (m := s.memory) (by rw [answer]) failed
  · rw [close_some current answer, Outcome.andThen_ok] at run
    have plan : runsFrom e s.eval none (op :: rest) = runsFrom e (s.closed p sample m).eval
      (s.closed p sample m).current (op :: rest) := rfl
    rw [plan] at planned
    cases later sample m with
    | stopped plan failed =>
      rw [plan] at planned
      exact .stopped planned (by rwa [run])
    | done plan executes =>
      rw [plan] at planned
      exact .done planned (.closed answer executes run)
    | broken plan mem failure failed =>
      rw [plan] at planned
      exact .broken planned (List.mem_cons_of_mem p mem) failure (by rwa [run])

theorem ends_nil (e : Evaluator) (x : Executor σ) (s : Scan σ) : Ends e x s [] := by
  cases current : s.current with
  | none =>
    have close : s.run e x [] = (.ok (), s) := by simp only [run, Scan.close, current]
    have planned : runsFrom e s.eval s.current [] = .ok [] := by
      rw [current]
      rfl
    refine .done planned ?_
    unfold Executes
    rw [close]
    exact ⟨rfl, (List.append_nil _).symm, fun r mem => Or.inl mem⟩
  | some p =>
    have planned : runsFrom e s.eval s.current [] = .ok [p] := by
      rw [current]
      rfl
    rcases answer : x p s.memory with ⟨f | sample, m⟩
    · have failed := close_failed current answer
      exact .broken planned (List.mem_singleton.mpr rfl) (m := s.memory) (by rw [answer])
        fun ok => by cases failed.symm.trans ok
    · refine .done planned (.closed answer ?_ (close_some current answer))
      exact ⟨rfl, (List.append_nil _).symm, fun r mem => Or.inl mem⟩

theorem ends (e : Evaluator) (x : Executor σ) (s : Scan σ) (ops : List Scheduled) :
    Ends e x s ops := by
  induction ops generalizing s with
  | nil => exact ends_nil e x s
  | cons op rest ih =>
    cases needed : op.1.isClassical with
    | true =>
      have plan : runsFrom e s.eval s.current (op :: rest) =
          (e.step op.2 s.eval).bind fun eval => runsFrom e eval s.current rest := by
        rw [runsFrom, needed, if_pos rfl]
      cases evaluated : e.step op.2 s.eval with
      | error f =>
        rw [evaluated] at plan
        refine .stop plan (g := f) ?_
        simp only [Scan.step, needed, if_true, evaluated]
      | ok eval =>
        rw [evaluated] at plan
        refine (ih { s with eval := eval }).step ?_ rfl plan
        simp only [Scan.step, needed, if_true, evaluated]
    | false =>
      -- A turn comes back to the same operation with no run open, so joining is shown for any scan.
      have joined : ∀ s : Scan σ, (∀ p, s.current = some p → p.kind = op.1) →
          Ends e x s (op :: rest) := by
        intro s joins
        cases binds : (Program.mk op.1 [op.2]).bind s.eval.registers with
        | error f =>
          refine .stop (f := f) ?_ (step_unbound needed binds joins)
          rw [runsFrom, needed, if_neg Bool.false_ne_true, binds]
          rfl
        | ok bound =>
          exact (ih (s.grown bound)).step (step_grown needed binds joins) rfl
            (runsFrom_grown needed binds joins)
      by_cases joins : ∀ p, s.current = some p → p.kind = op.1
      · exact joined s joins
      · obtain ⟨p, turns⟩ := Classical.not_forall.mp joins
        obtain ⟨current, other⟩ := Classical.not_imp.mp turns
        exact .turn needed current other fun sample m =>
          joined (s.closed p sample m) fun p none => by cases none

theorem executes_of_ok {ops : List Scheduled} (ok : (s.run e x ops).1 = .ok ()) :
    ∃ runs, runsFrom e s.eval s.current ops = .ok runs ∧ Executes e x s ops runs := by
  cases ends e x s ops with
  | stopped plan failed => exact absurd ok failed
  | done plan executes => exact ⟨_, plan, executes⟩
  | broken plan mem answer failed => exact absurd ok failed

theorem executes_of_answered {ops : List Scheduled} {runs : List Program}
    (planned : runsFrom e s.eval s.current ops = .ok runs)
    (answered : ∀ p ∈ runs, ∀ m f, (x p m).1 ≠ .error f) : Executes e x s ops runs := by
  cases ends e x s ops with
  | stopped plan failed => cases planned.symm.trans plan
  | done plan executes =>
    cases planned.symm.trans plan
    exact executes
  | broken plan mem answer failed =>
    cases planned.symm.trans plan
    exact absurd answer (answered _ mem _ _)

end Scan
end LazyCast.Orchestrator
