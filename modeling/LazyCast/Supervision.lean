import LazyCast.Worker
/-!
How often an execution is tried. A failure that may pass is tried again after a pause, a bounded
number of times; a crash or a wrong configuration ends the matter at once. Time is counted, not
spent.
-/
namespace LazyCast

structure SupervisionPolicy where
  /-- Attempts in all, the first one included. -/
  maxAttempts : Nat
  /-- Pause before another attempt, in milliseconds. -/
  backoff : Nat
  /-- Limit of one attempt, in milliseconds. -/
  limit : Option Nat
  deriving DecidableEq

namespace SupervisionPolicy

/-- One attempt, however long it takes. -/
def escalate : SupervisionPolicy := ⟨1, 0, none⟩

/-- Three attempts of at most thirty seconds, a tenth of a second apart. -/
def retryTransient : SupervisionPolicy := ⟨3, 100, some 30000⟩

end SupervisionPolicy

structure Supervised (σ : Type) where
  result : Except Fault Sample
  link : σ
  /-- Time spent in pauses. -/
  waited : Nat

/-- An execution's answer; a response of another sort is a failure of the backend. -/
def sampleOf (kind : Kind) : Except Fault Response → Except Fault Sample
  | .ok (.sample s) => .ok s
  | .ok r => .error (.execution kind (.unexpectedReply "execute" r.text))
  | .error e => .error e

/-- A failure after which another attempt makes sense. -/
def mayRetry (e : Fault) : Bool := !e.isFatal && e.isTransient

/-- Tries once and then up to `left` times more. `ask` sends one request over a link. -/
def tryExecute {σ : Type} (backoff : Nat) (kind : Kind)
    (ask : σ → Except Fault Response × σ) : Nat → σ → Supervised σ
  | 0, link => ⟨sampleOf kind (ask link).1, (ask link).2, 0⟩
  | left + 1, link =>
    match ask link with
    | (answer, link) =>
      match sampleOf kind answer with
      | .ok s => ⟨.ok s, link, 0⟩
      | .error e =>
        if mayRetry e then
          let later := tryExecute backoff kind ask left link
          { later with waited := backoff + later.waited }
        else ⟨.error e, link, 0⟩

/-- Executes what a session has staged, as often as the policy allows. -/
def SupervisionPolicy.execute {σ : Type} (policy : SupervisionPolicy) (kind : Kind)
    (session : SessionId) (send : σ → Request → Except Fault Response × σ) (link : σ) :
    Supervised σ :=
  tryExecute policy.backoff kind (fun link => send link (.execute session policy.limit))
    (policy.maxAttempts - 1) link

end LazyCast
