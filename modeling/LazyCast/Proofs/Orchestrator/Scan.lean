import LazyCast.Orchestrator
/-!
A schedule scanned one operation at a time. Classical operations are evaluated and all others bound
as they come; the run of a kind is executed as soon as an operation of another kind follows, or the
schedule ends. Nothing is kept unbound and nothing is staged.
-/
namespace LazyCast.Orchestrator
variable {σ τ : Type}

/-- What executes a bound program; `σ` is what it remembers. -/
abbrev Executor (σ : Type) := Program → σ → Outcome σ Sample

structure Scan (σ : Type) where
  eval : EvalState
  /-- The run that is open, all of it bound. -/
  current : Option Program
  /-- The runs executed so far with their samples, in order. -/
  runs : List (Program × Sample)
  memory : σ

namespace Scan

def begin (memory : σ) : Scan σ := ⟨.empty, none, [], memory⟩

def close (x : Executor σ) (s : Scan σ) : Outcome (Scan σ) Unit :=
  match s.current with
  | none => (.ok (), s)
  | some p =>
    ((x p s.memory).within fun m => { s with current := none, memory := m }).andThen
      fun sample s => (.ok (), { s with runs := s.runs ++ [(p, sample)] })

/-- Goes on with the open run if it is of `kind`; else executes it and opens another. -/
def enter (x : Executor σ) (s : Scan σ) (kind : Kind) : Outcome (Scan σ) Unit :=
  if s.current.map Program.kind = some kind then (.ok (), s)
  else (s.close x).andThen fun _ s => (.ok (), { s with current := some (.empty kind) })

def bindNext (s : Scan σ) (op : Scheduled) : Outcome (Scan σ) Unit :=
  match (Program.mk op.1 [op.2]).bind s.eval.registers with
  | .ok bound => (.ok (), { s with current := s.current.map fun p => p.extend bound })
  | .error e => (.error e, s)

def step (e : Evaluator) (x : Executor σ) (s : Scan σ) (op : Scheduled) :
    Outcome (Scan σ) Unit :=
  if op.1.isClassical then
    match e.step op.2 s.eval with
    | .ok eval => (.ok (), { s with eval := eval })
    | .error f => (.error f, s)
  else (s.enter x op.1).andThen fun _ s => s.bindNext op

def run (e : Evaluator) (x : Executor σ) (s : Scan σ) : List Scheduled → Outcome (Scan σ) Unit
  | [] => s.close x
  | op :: rest => (s.step e x op).andThen fun _ s => run e x s rest

def samples (s : Scan σ) : List (Kind × Sample) := s.runs.map fun r => (r.1.kind, r.2)

def remember (s : Scan σ) (memory : τ) : Scan τ := ⟨s.eval, s.current, s.runs, memory⟩

end Scan

/-- What sub-compilers answer to bound programs; none stands for a crash. -/
abbrev Answers := Program → Option (Except Fault Sample)

def Answers.result (f : Answers) (p : Program) : Except Fault Sample :=
  match f p with
  | some r => r
  | none => .error (.crashed p.kind)

def Answers.executor (f : Answers) : Executor Unit := fun p _ => (f.result p, ())

namespace Scan
variable {x : Executor σ} {f : Answers}

theorem close_forget (steady : ∀ p m, (x p m).1 = f.result p) (s : Scan σ) :
    (s.close x).within (fun s => s.remember ()) = (s.remember ()).close f.executor := by
  unfold close
  cases current : s.current with
  | none => simp [remember, Outcome.within, current]
  | some p =>
    simp only [remember, current, Answers.executor, ← steady p s.memory]
    rcases x p s.memory with ⟨e | sample, m⟩ <;> rfl

theorem enter_forget (steady : ∀ p m, (x p m).1 = f.result p) (s : Scan σ) (kind : Kind) :
    (s.enter x kind).within (fun s => s.remember ()) = (s.remember ()).enter f.executor kind := by
  unfold enter
  have current : (s.remember ()).current = s.current := rfl
  rw [current, ← close_forget steady]
  split
  · rfl
  · rcases s.close x with ⟨e | u, s'⟩ <;> rfl

theorem bindNext_forget (s : Scan σ) (op : Scheduled) :
    (s.bindNext op).within (fun s => s.remember ()) = (s.remember ()).bindNext op := by
  unfold bindNext
  have eval : (s.remember ()).eval = s.eval := rfl
  rw [eval]
  cases (Program.mk op.1 [op.2]).bind s.eval.registers <;> rfl

theorem step_forget (e : Evaluator) (steady : ∀ p m, (x p m).1 = f.result p) (s : Scan σ)
    (op : Scheduled) :
    (s.step e x op).within (fun s => s.remember ()) = (s.remember ()).step e f.executor op := by
  unfold step
  have eval : (s.remember ()).eval = s.eval := rfl
  split
  · rw [eval]
    cases e.step op.2 s.eval <;> rfl
  · rw [← enter_forget steady]
    rcases s.enter x op.1 with ⟨e | u, s'⟩
    · rfl
    · exact bindNext_forget s' op

theorem run_forget (e : Evaluator) (steady : ∀ p m, (x p m).1 = f.result p) (s : Scan σ)
    (ops : List Scheduled) :
    (s.run e x ops).within (fun s => s.remember ()) = (s.remember ()).run e f.executor ops := by
  induction ops generalizing s with
  | nil => exact close_forget steady s
  | cons op rest ih =>
    rw [run, run, ← step_forget e steady]
    rcases s.step e x op with ⟨f | u, s'⟩
    · rfl
    · exact ih s'

end Scan
end LazyCast.Orchestrator
