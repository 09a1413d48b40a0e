import LazyCast.Proofs.Orchestrator.Scan
/-!
What requests do to the workers. A live worker joins what is staged with it and, when it executes,
answers as its sub-compiler does on the joined program.
-/
namespace LazyCast

namespace Program

theorem extend_assoc (p q r : Program) : (p.extend q).extend r = p.extend (q.extend r) := by
  simp [extend]

theorem empty_extend (p : Program) : (empty p.kind).extend p = p := by
  simp [extend, empty]

theorem bindOps_append (registers : Registers) (xs ys : List NativeOp) :
    bindOps registers (xs ++ ys) =
      (bindOps registers xs).bind fun as => (bindOps registers ys).map fun bs => as ++ bs := by
  induction xs with
  | nil => cases h : bindOps registers ys <;> simp [bindOps, Except.bind, Except.map, h]
  | cons x xs ih =>
    simp only [List.cons_append, bindOps, ih]
    cases bindOp registers x with
    | error e => rfl
    | ok first =>
      cases bindOps registers xs with
      | error e => rfl
      | ok as =>
        cases bindOps registers ys with
        | error e => rfl
        | ok bs => simp [Bind.bind, Except.bind, Except.map, pure, Except.pure]

theorem bind_push (p : Program) (op : NativeOp) (registers : Registers) :
    (p.push op).bind registers =
      (p.bind registers).bind fun b => ((mk p.kind [op]).bind registers).map b.extend := by
  simp only [bind, push, bindOps_append]
  cases bindOps registers p.ops with
  | error e => rfl
  | ok as => cases bindOps registers [op] <;> rfl

theorem kind_bind {p b : Program} {registers : Registers} (bound : p.bind registers = .ok b) :
    b.kind = p.kind := by
  unfold bind at bound
  cases h : bindOps registers p.ops with
  | error e =>
    rw [h] at bound
    cases bound
  | ok ops =>
    rw [h] at bound
    cases bound
    rfl

theorem bind_empty (kind : Kind) (registers : Registers) :
    (empty kind).bind registers = .ok (empty kind) := rfl

end Program

namespace Attempt

/-- The answer to an attempt within a limit. -/
def verdict (kind : Kind) (limit : Option Nat) : Attempt → Except Fault Sample
  | crash => .error (.crashed kind)
  | answer delay _ r =>
    if Worker.isLate limit delay then .error (.execution kind (.timedOut (limit.getD 0))) else r

def leaves (u : Usage) (limit : Option Nat) : Attempt → Usage
  | crash => { u with attempts := u.attempts + 1 }
  | answer delay sampled _ =>
    if Worker.isLate limit delay then { u with attempts := u.attempts + 1 }
    else ⟨u.attempts + 1, u.samplings + if sampled then 1 else 0⟩

end Attempt

theorem sampleOf_sample (kind : Kind) (r : Except Fault Sample) :
    sampleOf kind (r.map .sample) = r := by
  cases r <;> rfl

theorem tryExecute_once {σ : Type} (backoff : Nat) (kind : Kind)
    (ask : σ → Except Fault Response × σ) {left : Nat} {link : σ}
    (final : left = 0 ∨ ∀ e, sampleOf kind (ask link).1 = .error e → mayRetry e = false) :
    tryExecute backoff kind ask left link = ⟨sampleOf kind (ask link).1, (ask link).2, 0⟩ := by
  cases left with
  | zero => rfl
  | succ left =>
    have final : ∀ e, sampleOf kind (ask link).1 = .error e → mayRetry e = false := by
      rcases final with none | final
      · cases none
      · exact final
    simp only [tryExecute]
    cases answer : sampleOf kind (ask link).1 with
    | ok s => rfl
    | error e => simp only [final e answer, Bool.false_eq_true, if_false]

namespace Worker
variable {w : Worker}

theorem serve_stage (alive : w.alive = true) (session : SessionId) (p : Program) :
    w.serve (.stage session p) = w.stage session p := by
  simp [serve, alive]

theorem serve_execute (alive : w.alive = true) {session : SessionId} {p : Program}
    (held : w.staged.find? session = some p) (limit : Option Nat) :
    w.serve (.execute session limit) = w.run session limit p := by
  simp [serve, alive, execute, held]

theorem run_answer (w : Worker) (session : SessionId) (limit : Option Nat) (p : Program) :
    (w.run session limit p).answer =
      ((w.compiler.execute w.usage p).verdict w.kind limit).map .sample := by
  unfold run
  cases w.compiler.execute w.usage p with
  | crash => rfl
  | answer delay sampled r =>
    cases late : isLate limit delay with
    | true => simp only [Attempt.verdict, late, if_true, Except.map]
    | false =>
      simp only [Attempt.verdict, late, Bool.false_eq_true, if_false]
      cases r <;> rfl

theorem run_ran (w : Worker) (session : SessionId) (limit : Option Nat) (p : Program) :
    (w.run session limit p).ran = some p := by
  unfold run
  cases w.compiler.execute w.usage p with
  | crash => rfl
  | answer delay sampled r =>
    cases late : isLate limit delay with
    | true => simp only [late, if_true]
    | false =>
      simp only [late, Bool.false_eq_true, if_false]
      cases r <;> rfl

theorem run_worker {session : SessionId} {limit : Option Nat} {p : Program} {s : Sample}
    (ok : (w.compiler.execute w.usage p).verdict w.kind limit = .ok s) :
    (w.run session limit p).worker =
      { w with
        usage := (w.compiler.execute w.usage p).leaves w.usage limit
        staged := w.staged.erase session } := by
  unfold run
  cases h : w.compiler.execute w.usage p with
  | crash =>
    rw [h] at ok
    cases ok
  | answer delay sampled r =>
    rw [h] at ok
    cases late : isLate limit delay with
    | true =>
      simp only [Attempt.verdict, late, if_true] at ok
      cases ok
    | false =>
      simp only [Attempt.verdict, late, Bool.false_eq_true, if_false] at ok
      subst ok
      simp only [Attempt.leaves, late, Bool.false_eq_true, if_false]

end Worker

namespace Orchestrator
variable {o : Orchestrator} {kind : Kind} {w : Worker}

def held (o : Orchestrator) (session : SessionId) (kind : Kind) : Option Program :=
  (o.workers.find? kind).bind fun w => w.staged.find? session

def ran (o : Orchestrator) : List Program := o.transcript.filterMap Exchange.ran

def Staffed (o : Orchestrator) (kinds : Kind → Prop) (compilers : Kind → SubCompiler)
    (usage : Kind → Usage) : Prop :=
  ∀ kind, kinds kind → ∃ w, o.workers.find? kind = some w ∧ w.kind = kind ∧ w.alive = true ∧
    w.compiler = compilers kind ∧ w.usage = usage kind

structure SameOffice (o p : Orchestrator) : Prop where
  plan : p.plan = o.plan
  classical : p.classical = o.classical
  capabilities : p.capabilities = o.capabilities
  policy : p.policy = o.policy

theorem SameOffice.refl (o : Orchestrator) : SameOffice o o := ⟨rfl, rfl, rfl, rfl⟩

theorem SameOffice.trans {p q : Orchestrator} (first : SameOffice o p) (second : SameOffice p q) :
    SameOffice o q :=
  ⟨second.plan.trans first.plan, second.classical.trans first.classical,
    second.capabilities.trans first.capabilities, second.policy.trans first.policy⟩

def afterServing (o : Orchestrator) (kind : Kind) (r : Request) (w : Worker) : Orchestrator :=
  { o with
    workers := o.workers.insert kind (w.serve r).worker
    transcript := o.transcript ++ [⟨kind, r, (w.serve r).ran, (w.serve r).answer⟩] }

theorem call_eq (found : o.workers.find? kind = some w) (r : Request) :
    o.call kind r = ((w.serve r).answer, o.afterServing kind r w) := by
  simp only [call, found, afterServing]

theorem workers_call {other : Kind} {r : Request} {v : Worker}
    (at_other : (o.call kind r).2.workers.find? other = some v) :
    (other ≠ kind ∧ o.workers.find? other = some v) ∨
      (other = kind ∧ ∃ w, o.workers.find? kind = some w ∧ v = (w.serve r).worker) := by
  cases found : o.workers.find? kind with
  | none =>
    simp only [call, found] at at_other
    refine Or.inl ⟨?_, at_other⟩
    rintro rfl
    cases found.symm.trans at_other
  | some w =>
    rw [call_eq found, afterServing] at at_other
    by_cases same : other = kind
    · subst same
      rw [Table.find?_insert_self] at at_other
      cases at_other
      exact Or.inr ⟨rfl, w, rfl, rfl⟩
    · rw [Table.find?_insert_of_ne _ _ same] at at_other
      exact Or.inl ⟨same, at_other⟩

theorem sameOffice_afterServing (o : Orchestrator) (kind : Kind) (r : Request) (w : Worker) :
    SameOffice o (o.afterServing kind r w) := ⟨rfl, rfl, rfl, rfl⟩

theorem ran_afterServing (o : Orchestrator) (kind : Kind) (r : Request) (w : Worker) :
    (o.afterServing kind r w).ran = o.ran ++ (w.serve r).ran.toList := by
  simp only [ran, afterServing, List.filterMap_append]
  cases (w.serve r).ran <;> simp

theorem held_afterServing (o : Orchestrator) (kind : Kind) (r : Request) (w : Worker)
    (session : SessionId) : (o.afterServing kind r w).held session kind =
      (w.serve r).worker.staged.find? session := by
  simp only [held, afterServing, Table.find?_insert_self, Option.bind_some]

theorem held_afterServing_of_ne (o : Orchestrator) {kind other : Kind} (r : Request) (w : Worker)
    (session : SessionId) (ne : other ≠ kind) :
    (o.afterServing kind r w).held session other = o.held session other := by
  simp only [held, afterServing, Table.find?_insert_of_ne _ _ ne]

theorem staffed_afterServing {kinds : Kind → Prop} {compilers : Kind → SubCompiler}
    {usage usage' : Kind → Usage} (staffed : o.Staffed kinds compilers usage) (r : Request)
    (here : (w.serve r).worker.kind = kind ∧ (w.serve r).worker.alive = true ∧
      (w.serve r).worker.compiler = compilers kind ∧ (w.serve r).worker.usage = usage' kind)
    (elsewhere : ∀ other, other ≠ kind → usage' other = usage other) :
    (o.afterServing kind r w).Staffed kinds compilers usage' := by
  intro other covered
  by_cases same : other = kind
  · subst same
    exact ⟨(w.serve r).worker, Table.find?_insert_self _ _ _, here⟩
  · obtain ⟨v, found, ofKind, alive, compiler, used⟩ := staffed other covered
    exact ⟨v, (Table.find?_insert_of_ne _ _ same).trans found, ofKind, alive, compiler,
      used.trans (elsewhere other same).symm⟩

def executorOf (compilers : Kind → SubCompiler) (limit : Option Nat) :
    Executor (Kind → Usage) := fun p usage =>
  let attempt := (compilers p.kind).execute (usage p.kind) p
  (attempt.verdict p.kind limit,
    fun kind => if kind = p.kind then attempt.leaves (usage kind) limit else usage kind)

/-- No execution is tried a second time. -/
def Decisive (policy : SupervisionPolicy) (compilers : Kind → SubCompiler) : Prop :=
  policy.maxAttempts ≤ 1 ∨
    ∀ p usage e, (executorOf compilers policy.limit p usage).1 = .error e → mayRetry e = false

end Orchestrator
end LazyCast
