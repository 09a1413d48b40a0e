import LazyCast.Proofs.Orchestrator.Staffing
import Mathlib.Data.Nat.Find
import Mathlib.Order.Bounds.Basic
/-!
How many attempts an execution takes. The supervisor's loop has no bound of its own: the policy is asked
after every failure, with the number of the attempt. It ends all the same, with the first answer that
is not a failure that may pass, or with the last attempt that the policy allows.
-/
namespace LazyCast

inductive Decision where
  | retry (pause : Nat)
  | escalate

def SupervisionPolicy.onFailure (p : SupervisionPolicy) (attempt : Nat) (e : Fault) : Decision :=
  if e.isTransient && decide (attempt < p.maxAttempts) then .retry p.backoff else .escalate

def Passing (answer : Except Fault Response) : Prop := ∃ e, answer = .error e ∧ e.isTransient = true

theorem mayRetry_eq (e : Fault) : mayRetry e = e.isTransient := by
  cases e <;> rfl

theorem passing_iff {answer : Except Fault Response} (kind : Kind) :
    Passing answer ↔ ∃ e, sampleOf kind answer = .error e ∧ mayRetry e = true := by
  constructor
  · rintro ⟨e, rfl, transient⟩
    exact ⟨e, rfl, (mayRetry_eq e).trans transient⟩
  · rintro ⟨e, failed, again⟩
    rw [mayRetry_eq] at again
    cases answer with
    | error e' =>
      cases failed
      exact ⟨e, rfl, again⟩
    | ok reply => cases reply <;> cases failed <;> cases again

section Answers
variable {σ : Type} (ask : σ → Except Fault Response × σ) (link : σ)

def linkAfter : Nat → σ
  | 0 => link
  | n + 1 => (ask (linkAfter n)).2

/-- The answer to the request of a number, the first one having the number 1. -/
def answerTo (i : Nat) : Except Fault Response := (ask (linkAfter ask link (i - 1))).1

end Answers

/-- Attempts under way, with all that was sent and every pause that was made. -/
structure Attempting (σ : Type) where
  attempt : Nat
  link : σ
  requests : List Request
  pauses : List Nat

section Rounds
variable {σ : Type} (policy : SupervisionPolicy) (kind : Kind) (session : SessionId)
  (send : σ → Request → Except Fault Response × σ)

def SupervisionPolicy.request : Request := .execute session policy.limit

def Attempting.asked (s : Attempting σ) : Attempting σ :=
  { s with
    link := (send s.link (policy.request session)).2
    requests := s.requests ++ [policy.request session] }

def Attempting.paused (s : Attempting σ) (pause : Nat) : Attempting σ :=
  { s with attempt := s.attempt + 1, pauses := s.pauses ++ [pause] }

def round (s : Attempting σ) : Attempting σ ⊕ Except Fault Sample × Attempting σ :=
  let asked := s.asked policy session send
  match sampleOf kind (send s.link (policy.request session)).1 with
  | .ok sample => .inr (.ok sample, asked)
  | .error e =>
    if e.isFatal then .inr (.error e, asked)
    else
      match policy.onFailure s.attempt e with
      | .retry pause => .inl (asked.paused pause)
      | .escalate => .inr (.error e, asked)

/-- Attempts from a state on come to a result, in a state. -/
inductive Loops : Attempting σ → Except Fault Sample → Attempting σ → Prop
  | ends {s s' : Attempting σ} {r : Except Fault Sample} :
    round policy kind session send s = .inr (r, s') → Loops s r s'
  | again {s next s' : Attempting σ} {r : Except Fault Sample} :
    round policy kind session send s = .inl next → Loops next r s' → Loops s r s'

variable {policy kind session send} {s s' : Attempting σ} {link : σ} {r : Except Fault Sample}
  {i k : Nat}

theorem round_again (passing : Passing (send s.link (policy.request session)).1)
    (left : s.attempt < policy.maxAttempts) : round policy kind session send s =
      .inl ((s.asked policy session send).paused policy.backoff) := by
  obtain ⟨e, failed, again⟩ := (passing_iff kind).mp passing
  have transient : e.isTransient = true := mayRetry_eq e ▸ again
  have survives : e.isFatal = false := by
    unfold mayRetry at again
    simp only [Bool.and_eq_true, Bool.not_eq_true'] at again
    exact again.1
  have retry : policy.onFailure s.attempt e = .retry policy.backoff :=
    if_pos (by simp [transient, left])
  unfold round
  rw [failed]
  simp only [survives, retry]
  rfl

theorem round_ends (final : ¬ Passing (send s.link (policy.request session)).1 ∨
      policy.maxAttempts ≤ s.attempt) : round policy kind session send s =
    .inr (sampleOf kind (send s.link (policy.request session)).1, s.asked policy session send) := by
  unfold round
  cases sampled : sampleOf kind (send s.link (policy.request session)).1 with
  | ok sample => rfl
  | error e =>
    by_cases fatal : e.isFatal = true
    · simp only [fatal]
      rfl
    have escalated : policy.onFailure s.attempt e = .escalate := by
      refine if_neg fun retry => ?_
      obtain ⟨transient, left⟩ := Bool.and_eq_true_iff.mp retry
      have left : s.attempt < policy.maxAttempts := of_decide_eq_true left
      rcases final with lasting | last
      · exact lasting ((passing_iff kind).mpr ⟨e, sampled, (mayRetry_eq e).trans transient⟩)
      · omega
    simp only [fatal, escalated]
    rfl

theorem tryExecute_again {backoff left : Nat} {ask : σ → Except Fault Response × σ}
    (passing : Passing (ask link).1) : tryExecute backoff kind ask (left + 1) link =
      { tryExecute backoff kind ask left (ask link).2 with
        waited := backoff + (tryExecute backoff kind ask left (ask link).2).waited } := by
  obtain ⟨e, failed, again⟩ := (passing_iff kind).mp passing
  simp only [tryExecute, failed, again, if_true]

theorem sumOf_replicate (n a : Nat) : sumOf (List.replicate n a) = n * a := by
  induction n with
  | zero => exact (Nat.zero_mul a).symm
  | succ n ih => rw [List.replicate_succ, sumOf_cons, ih, Nat.succ_mul, Nat.add_comm]

theorem passing_or_final (answer : Except Fault Response) (attempt maxAttempts : Nat) :
    Passing answer ∧ attempt < maxAttempts ∨ ¬ Passing answer ∨ maxAttempts ≤ attempt := by
  by_cases passing : Passing answer
  · rcases Nat.lt_or_ge attempt maxAttempts with left | last
    · exact Or.inl ⟨passing, left⟩
    · exact Or.inr (Or.inr last)
  · exact Or.inr (Or.inl passing)

/-- The bounded recursion counts the attempts that are left, where the loop counts those made. -/
theorem tryExecute_of_loops (loops : Loops policy kind session send s r s')
    (numbered : 1 ≤ s.attempt) : ∃ more, s'.pauses = s.pauses ++ more ∧
      tryExecute policy.backoff kind (fun link => send link (policy.request session))
        (policy.maxAttempts - s.attempt) s.link = ⟨r, s'.link, sumOf more⟩ := by
  induction loops with
  | @ends s s' r ended =>
    rcases passing_or_final (send s.link (policy.request session)).1 s.attempt policy.maxAttempts
      with ⟨passing, left⟩ | final
    · rw [round_again passing left] at ended
      cases ended
    rw [round_ends final] at ended
    cases ended
    refine ⟨[], (List.append_nil _).symm, ?_⟩
    rw [tryExecute_once]
    · rfl
    · rcases final with lasting | last
      · refine Or.inr fun e failed => Bool.eq_false_iff.mpr fun again => ?_
        exact lasting ((passing_iff kind).mpr ⟨e, failed, again⟩)
      · exact Or.inl (by omega)
  | @again s next s' r goes rest ih =>
    rcases passing_or_final (send s.link (policy.request session)).1 s.attempt policy.maxAttempts
      with ⟨passing, left⟩ | final
    · rw [round_again passing left] at goes
      cases goes
      obtain ⟨more, pauses, tried⟩ := ih (Nat.le_add_left 1 s.attempt)
      refine ⟨policy.backoff :: more, ?_, ?_⟩
      · rw [pauses]
        exact List.append_assoc _ _ _
      · have one : policy.maxAttempts - s.attempt = policy.maxAttempts - (s.attempt + 1) + 1 := by
          omega
        have tried : tryExecute policy.backoff kind
            (fun link => send link (policy.request session))
            (policy.maxAttempts - (s.attempt + 1)) (send s.link (policy.request session)).2 =
              ⟨r, s'.link, sumOf more⟩ := tried
        rw [one, tryExecute_again passing, tried, sumOf_cons]
    · rw [round_ends final] at goes
      cases goes

theorem Loops.iff_again {next : Attempting σ} (goes : round policy kind session send s = .inl next) :
    Loops policy kind session send s r s' ↔ Loops policy kind session send next r s' := by
  constructor
  · intro loops
    cases loops with
    | ends ended => cases goes.symm.trans ended
    | again goes' rest =>
      cases goes.symm.trans goes'
      exact rest
  · exact .again goes

theorem Loops.iff_ends {result : Except Fault Sample} {last : Attempting σ}
    (ended : round policy kind session send s = .inr (result, last)) :
    Loops policy kind session send s r s' ↔ r = result ∧ s' = last := by
  constructor
  · intro loops
    cases loops with
    | ends ended' =>
      cases ended.symm.trans ended'
      exact ⟨rfl, rfl⟩
    | again goes _ => cases ended.symm.trans goes
  · rintro ⟨rfl, rfl⟩
    exact .ends ended

end Rounds

section Counting
variable {σ : Type} (policy : SupervisionPolicy) (kind : Kind) (session : SessionId)
  (send : σ → Request → Except Fault Response × σ) (link : σ)

def SupervisionPolicy.ask : σ → Except Fault Response × σ :=
  fun link => send link (policy.request session)

def failedAttempts (n : Nat) : Attempting σ :=
  ⟨n + 1, linkAfter (policy.ask session send) link n, List.replicate n (policy.request session),
    List.replicate n policy.backoff⟩

/-- Where the loop stands after so many attempts, only the last of which did not fail to be repeated. -/
def lastAttempt (k : Nat) : Attempting σ :=
  ⟨k, linkAfter (policy.ask session send) link k, List.replicate k (policy.request session),
    List.replicate (k - 1) policy.backoff⟩

/-- The numbers of the attempts that can be the last: the answer is no failure that may pass, or the
    policy allows no further attempt. There is a first attempt under every policy. -/
def Last (i : Nat) : Prop :=
  1 ≤ i ∧ (¬ Passing (answerTo (policy.ask session send) link i) ∨ max 1 policy.maxAttempts ≤ i)

variable {policy kind session send link} {i k : Nat} {r : Except Fault Sample} {s : Attempting σ}

theorem loops_failedAttempts (before : ∀ i, 1 ≤ i → i ≤ k → ¬ Last policy session send link i) :
    Loops policy kind session send (failedAttempts policy session send link 0) r s ↔
      Loops policy kind session send (failedAttempts policy session send link k) r s := by
  induction k with
  | zero => rfl
  | succ k ih =>
    have more := before (k + 1) (Nat.le_add_left 1 k) (Nat.le_refl _)
    obtain ⟨passing, room⟩ := not_or.mp fun final => more ⟨Nat.le_add_left 1 k, final⟩
    have goes : round policy kind session send (failedAttempts policy session send link k) = _ :=
      round_again (not_not.mp passing) (show k + 1 < policy.maxAttempts by omega)
    have next : ((failedAttempts policy session send link k).asked policy session send).paused
        policy.backoff = failedAttempts policy session send link (k + 1) := by
      unfold failedAttempts
      rw [List.replicate_succ', List.replicate_succ']
      rfl
    rw [next] at goes
    rw [ih fun i one le => before i one (Nat.le_succ_of_le le), Loops.iff_again goes]

theorem loops_last (last : Last policy session send link k) :
    Loops policy kind session send (failedAttempts policy session send link (k - 1)) r s ↔
      r = sampleOf kind (answerTo (policy.ask session send) link k) ∧
        s = lastAttempt policy session send link k := by
  obtain ⟨numbered, final⟩ := last
  obtain ⟨n, rfl⟩ := Nat.exists_eq_add_of_le' numbered
  have ended : round policy kind session send (failedAttempts policy session send link n) = _ :=
    round_ends (final.imp_right fun all => show policy.maxAttempts ≤ n + 1 by omega)
  have asked : (failedAttempts policy session send link n).asked policy session send =
      lastAttempt policy session send link (n + 1) := by
    unfold lastAttempt
    rw [List.replicate_succ']
    rfl
  rw [asked] at ended
  exact Loops.iff_ends ended

theorem exists_last (policy : SupervisionPolicy) (session : SessionId)
    (send : σ → Request → Except Fault Response × σ) (link : σ) :
    ∃ k, IsLeast { i | Last policy session send link i } k := by
  classical
  have some : ∃ i, Last policy session send link i :=
    ⟨max 1 policy.maxAttempts, Nat.le_max_left _ _, Or.inr (Nat.le_refl _)⟩
  exact ⟨Nat.find some, Nat.find_spec some, fun i among => Nat.find_min' some among⟩

theorem passing_before (least : IsLeast { i | Last policy session send link i } k) (one : 1 ≤ i)
    (lt : i < k) : Passing (answerTo (policy.ask session send) link i) := by
  by_contra lasting
  have le : k ≤ i := least.2 ⟨one, Or.inl lasting⟩
  omega

theorem loops_iff (least : IsLeast { i | Last policy session send link i } k) :
    Loops policy kind session send ⟨1, link, [], []⟩ r s ↔
      r = sampleOf kind (answerTo (policy.ask session send) link k) ∧
        s = lastAttempt policy session send link k := by
  have one := least.1.1
  have before : ∀ i, 1 ≤ i → i ≤ k - 1 → ¬ Last policy session send link i := by
    intro i _ le last
    have least := least.2 last
    omega
  exact (loops_failedAttempts before).trans (loops_last least.1)

theorem execute_eq (least : IsLeast { i | Last policy session send link i } k) :
    policy.execute kind session send link =
      ⟨sampleOf kind (answerTo (policy.ask session send) link k),
        linkAfter (policy.ask session send) link k, (k - 1) * policy.backoff⟩ := by
  obtain ⟨more, pauses, tried⟩ :=
    tryExecute_of_loops ((loops_iff least).mpr ⟨rfl, rfl⟩ : Loops policy kind session send _ _ _)
      (Nat.le_refl 1)
  have pauses : List.replicate (k - 1) policy.backoff = more := pauses
  rw [← pauses, sumOf_replicate] at tried
  exact tried

/-- Under every policy and for all answers there is a last attempt: the first whose answer is not a
    failure that may pass, or the last that the policy allows. The loop ends with it and with its
    answer, has sent one request for each attempt and paused between any two of them, and comes to
    nothing else; and so does the execution. -/
theorem execute_attempts (policy : SupervisionPolicy) (kind : Kind) (session : SessionId)
    (send : σ → Request → Except Fault Response × σ) (link : σ) :
    ∃ k, IsLeast { i | Last policy session send link i } k ∧
      (∀ i, 1 ≤ i → i < k → Passing (answerTo (policy.ask session send) link i)) ∧
      (∀ r s, Loops policy kind session send ⟨1, link, [], []⟩ r s ↔
        r = sampleOf kind (answerTo (policy.ask session send) link k) ∧
          s = lastAttempt policy session send link k) ∧
      policy.execute kind session send link =
        ⟨sampleOf kind (answerTo (policy.ask session send) link k),
          linkAfter (policy.ask session send) link k, (k - 1) * policy.backoff⟩ := by
  obtain ⟨k, least⟩ := exists_last policy session send link
  exact ⟨k, least, fun i one lt => passing_before least one lt, fun r s => loops_iff least,
    execute_eq least⟩

def busyTwice (asked : Nat) (_ : Request) : Except Fault Response × Nat :=
  (if asked < 2 then .error (.execution .quantum (.reported "busy" true))
    else .ok (.sample (.deterministic (some (.bool true)) Table.empty)), asked + 1)

/-- The third of three attempts brings the sample, after two pauses; where no attempt is allowed one is
    made, and its failure is the result. -/
theorem busyTwice_attempts :
    (∃ s, Loops ⟨3, 100, none⟩ .quantum 0 busyTwice ⟨1, 0, [], []⟩
      (.ok (.deterministic (some (.bool true)) Table.empty)) s ∧
      s.requests.length = 3 ∧ s.pauses = [100, 100]) ∧
    ∃ s, Loops ⟨0, 100, none⟩ .quantum 0 busyTwice ⟨1, 0, [], []⟩
      (.error (.execution .quantum (.reported "busy" true))) s ∧
      s.requests.length = 1 ∧ s.pauses = [] := by
  constructor
  · obtain ⟨k, least, _, loops, executed⟩ :=
      execute_attempts ⟨3, 100, none⟩ .quantum 0 busyTwice 0
    have one := least.1.1
    have waited : 200 = (k - 1) * 100 := congrArg Supervised.waited executed
    obtain rfl : k = 3 := by omega
    exact ⟨_, (loops _ _).mpr ⟨rfl, rfl⟩, rfl, rfl⟩
  · obtain ⟨k, least, _, loops, _⟩ := execute_attempts ⟨0, 100, none⟩ .quantum 0 busyTwice 0
    have first : Last ⟨0, 100, none⟩ 0 busyTwice 0 1 := ⟨Nat.le_refl 1, Or.inr (Nat.le_refl 1)⟩
    obtain rfl : k = 1 := Nat.le_antisymm (least.2 first) least.1.1
    exact ⟨_, (loops _ _).mpr ⟨rfl, rfl⟩, rfl, rfl⟩

end Counting

namespace Orchestrator
variable {o : Orchestrator} {kind : Kind} {w : Worker}

end Orchestrator

end LazyCast
