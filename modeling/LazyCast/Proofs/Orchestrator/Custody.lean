import Mathlib.Data.List.Induction
import Mathlib.Data.List.Chain
import LazyCast.Proofs.Orchestrator.Continuing
/-!
What the exchanges say of the workers. The programs staged with a live worker are those that the
transcript tells to be staged and not executed since, so what an execution runs can be read off the
exchanges before it.
-/
namespace LazyCast

def Request.session? : Request → Option SessionId
  | .stage session _ => some session
  | .execute session _ => some session
  | .close session => some session
  | .lower _ => none
  | .stop => none

namespace Exchange

/-- What a session has staged with a worker after an exchange, given what it had before. -/
def leaves (x : Exchange) (session : SessionId) (before : Option Program) : Option Program :=
  match x.request, x.answer with
  | .stage s p, .ok _ =>
    if s = session then some ((before.getD (.empty x.kind)).extend p) else before
  | .execute s _, .ok _ => if s = session then none else before
  | .close s, _ => if s = session then none else before
  | _, _ => before

def executed? (x : Exchange) : Option Program :=
  match x.request, x.answer with
  | .execute _ _, .ok _ => x.ran
  | _, _ => none

def Failed (x : Exchange) : Prop :=
  ∃ session limit e, x.request = .execute session limit ∧ x.answer = .error e

/-- A failed execution is followed by the same request for the same program, or by the end of its
    session. -/
def Follows (x y : Exchange) : Prop :=
  x.Failed → (y.kind = x.kind ∧ y.request = x.request ∧ y.ran = x.ran) ∨
    ∃ session, x.request.session? = some session ∧ y.request = .close session

theorem leaves_other {x : Exchange} {session : SessionId} (other : x.request.session? ≠ some session)
    (before : Option Program) : x.leaves session before = before := by
  unfold leaves
  cases request : x.request with
  | lower batch => rfl
  | stop => rfl
  | stage s p =>
    have ne : s ≠ session := fun same => other (by rw [request, same]; rfl)
    cases x.answer <;> simp [ne]
  | execute s limit =>
    have ne : s ≠ session := fun same => other (by rw [request, same]; rfl)
    cases x.answer <;> simp [ne]
  | close s =>
    have ne : s ≠ session := fun same => other (by rw [request, same]; rfl)
    simp [ne]

end Exchange

section History
variable {xs ys zs : List Exchange} {kind : Kind} {session : SessionId}

def stagedIn (xs : List Exchange) (kind : Kind) (session : SessionId) : Option Program :=
  xs.foldl (fun held x => if x.kind = kind then x.leaves session held else held) none

theorem stagedIn_concat (xs : List Exchange) (x : Exchange) (kind : Kind) (session : SessionId) :
    stagedIn (xs ++ [x]) kind session =
      if x.kind = kind then x.leaves session (stagedIn xs kind session)
      else stagedIn xs kind session := by
  simp [stagedIn, List.foldl_append]

theorem stagedIn_other (others : ∀ y ∈ ys, y.request.session? ≠ some session) :
    stagedIn (xs ++ ys) kind session = stagedIn xs kind session := by
  induction ys using List.reverseRecOn with
  | nil => rw [List.append_nil]
  | append_singleton ys y ih =>
    have rest := ih fun z mem => others z (List.mem_append_left _ mem)
    rw [← List.append_assoc, stagedIn_concat, rest,
      Exchange.leaves_other (others y (by simp)), ite_self]

/-- Every execution runs what its session has staged with the worker by then. -/
def Backed (history : List Exchange) : List Exchange → Prop
  | [] => True
  | x :: xs =>
    (∀ session limit, x.request = .execute session limit →
      ∃ p, stagedIn history x.kind session = some p ∧ x.ran = some p) ∧
      Backed (history ++ [x]) xs

theorem backed_append : Backed xs (ys ++ zs) ↔ Backed xs ys ∧ Backed (xs ++ ys) zs := by
  induction ys generalizing xs with
  | nil => simp [Backed]
  | cons y ys ih => simp [Backed, ih, and_assoc]

/-- The operations that a kind has executed with success, in order. -/
def executedIn (xs : List Exchange) (kind : Kind) : List NativeOp :=
  ((xs.filter fun x => decide (x.kind = kind)).filterMap Exchange.executed?).flatMap Program.ops

theorem executedIn_append (xs ys : List Exchange) (kind : Kind) :
    executedIn (xs ++ ys) kind = executedIn xs kind ++ executedIn ys kind := by
  simp [executedIn]

theorem executedIn_idle (kind : Kind) (idle : ∀ x ∈ xs, x.executed? = none) :
    executedIn xs kind = [] := by
  unfold executedIn
  rw [List.filterMap_eq_nil_iff.mpr fun x mem => idle x (List.mem_filter.mp mem).1]
  rfl

end History

/-- The workers of a kind go by the kind's name, and the live ones hold what the transcript tells. -/
def Orchestrator.Custodian (o : Orchestrator) : Prop :=
  ∀ kind w, o.workers.find? kind = some w → w.kind = kind ∧
    (w.alive = true → ∀ session, w.staged.find? session = stagedIn o.transcript kind session)

namespace Worker
variable {w : Worker} {r : Request}

theorem kind_serve (w : Worker) (r : Request) : (w.serve r).worker.kind = w.kind := by
  unfold serve
  split
  · cases r with
    | execute session limit =>
      dsimp only
      unfold execute
      cases w.staged.find? session with
      | none => rfl
      | some p =>
        dsimp only
        unfold run
        cases w.compiler.execute w.usage p with
        | crash => rfl
        | answer delay sampled result =>
          dsimp only
          split
          · rfl
          · cases result <;> rfl
    | _ => rfl
  · rfl

theorem alive_of_serve (alive : (w.serve r).worker.alive = true) : w.alive = true := by
  unfold serve at alive
  split at alive
  · assumption
  · exact alive

theorem staged_serve (alive : (w.serve r).worker.alive = true) (session : SessionId) :
    (w.serve r).worker.staged.find? session =
      Exchange.leaves ⟨w.kind, r, (w.serve r).ran, (w.serve r).answer⟩ session
        (w.staged.find? session) := by
  have living := alive_of_serve alive
  unfold serve at alive ⊢
  rw [if_pos living] at alive ⊢
  cases r with
  | lower batch => rfl
  | stop => cases alive
  | stage s p =>
    simp only [stage, Exchange.leaves]
    by_cases same : s = session
    · subst same
      rw [if_pos rfl, Table.find?_insert_self]
    · rw [if_neg same, Table.find?_insert_of_ne _ _ (Ne.symm same)]
  | close s =>
    simp only [Exchange.leaves]
    by_cases same : s = session
    · subst same
      rw [if_pos rfl, Table.find?_erase_self]
    · rw [if_neg same, Table.find?_erase_of_ne _ (Ne.symm same)]
  | execute s limit =>
    simp only [execute] at alive ⊢
    cases held : w.staged.find? s with
    | none => rfl
    | some p =>
      simp only [held, run] at alive ⊢
      cases attempt : w.compiler.execute w.usage p with
      | crash =>
        rw [attempt] at alive
        cases alive
      | answer delay sampled result =>
        dsimp only
        split
        · rfl
        · cases result with
          | error e => rfl
          | ok sample =>
            simp only [Exchange.leaves]
            by_cases same : s = session
            · subst same
              rw [if_pos rfl, Table.find?_erase_self]
            · rw [if_neg same, Table.find?_erase_of_ne _ (Ne.symm same)]

end Worker

namespace Orchestrator
variable {o : Orchestrator} {kind : Kind} {w : Worker}

theorem transcript_call (found : o.workers.find? kind = some w) (r : Request) :
    (o.call kind r).2.transcript =
      o.transcript ++ [⟨kind, r, (w.serve r).ran, (w.serve r).answer⟩] := by
  rw [call_eq found]
  rfl

theorem Custodian.call (custodian : o.Custodian) (kind : Kind) (r : Request) :
    (o.call kind r).2.Custodian := by
  cases found : o.workers.find? kind with
  | none =>
    simp only [Orchestrator.call, found]
    exact custodian
  | some w =>
    intro other v at_other
    rw [transcript_call found]
    rcases workers_call at_other with ⟨ne, found⟩ | ⟨rfl, w', found', rfl⟩
    · obtain ⟨ofOther, held⟩ := custodian other v found
      refine ⟨ofOther, fun alive session => ?_⟩
      rw [stagedIn_concat, if_neg (Ne.symm ne)]
      exact held alive session
    · cases found.symm.trans found'
      obtain ⟨ofKind, holds⟩ := custodian other w found
      refine ⟨(w.kind_serve r).trans ofKind, fun alive session => ?_⟩
      rw [stagedIn_concat, if_pos rfl, ← holds (Worker.alive_of_serve alive) session,
        Worker.staged_serve alive session, ofKind]

end Orchestrator
end LazyCast
