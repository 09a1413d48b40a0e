import LazyCast.Session.Casting
import Mathlib.Data.List.Induction
/-!
Calls on a session as data, so that one can speak of all sequences of them. The lazy values, plans
and tickets they name are any: current ones, spent ones, and ones never handed out.
-/
namespace LazyCast.Session

inductive Call where
  | defineComposite (name : TypeName) (members : List (String × TypeName))
  | lazyValue (type : TypeName)
  | apply (v : LazyValue) (kind : Kind) (opcode : String) (operands : List Operand)
  | interact (how : Interaction) (values : List LazyValue) (independent : Bool)
  | cast (source : CastSource) (target : TypeName)
  | castMember (root : LazyValue) (name : String) (target : TypeName)
  | encode (v : Value) (target : TypeName)
  | dispatch (plan : CastPlan) (source : CastSource)
  | redeem (t : MemberTicket)
  | dropValue (v : LazyValue)
  | finish

inductive Answer where
  | done (answer : Except Fault Unit)
  | lazyValue (answer : Except Fault LazyValue)
  | position (answer : Except Fault Nat)
  | pooled (answer : Except Fault Bool)
  | cast (answer : Except Fault CastOutcome)
  | redeemed (found : Option (Except Fault Value))
  | dropped
  | reports (ds : List Diagnostic)

abbrev History := List (Call × Answer)

namespace Call

def castsLazily? : Call → Option LazyValue
  | cast (.deferred v) _ => some v
  | dispatch _ (.deferred v) => some v
  | _ => none

def defers? : Call → Option LazyValue
  | castMember root _ _ => some root
  | dispatch _ (.member root _) => some root
  | _ => none

/-- No instruction that `apply` writes reads as the member cast of the ticket. -/
def Spares (t : Nat) : Call → Prop
  | apply _ kind opcode operands => ticketOf? ⟨0, opcode, operands, kind⟩ ≠ some t
  | _ => True

/-- An instruction of opcode `cast` is not for `apply` to write: member casts write it. -/
def WritesNoCast : Call → Prop
  | apply _ _ opcode _ => opcode ≠ "cast"
  | _ => True

end Call

namespace Answer

def issued? : Answer → Option Nat
  | cast (.ok (.ticket t)) => some t.ticket
  | _ => none

/-- The lazy value that an answer hands out. -/
def handedOut? : Answer → Option LazyValue
  | lazyValue (.ok v) => some v
  | cast (.ok (.encoded v)) => some v
  | _ => none

end Answer

namespace History

def issued (past : History) : List Nat := past.filterMap fun e => e.2.issued?

def redeemed? : Call × Answer → Option Nat
  | (.redeem t, .redeemed (some _)) => some t.ticket
  | _ => none

def redeemed (past : History) : List Nat := past.filterMap redeemed?

def values (past : History) : List LazyValue := past.filterMap fun e => e.2.handedOut?

end History

def perform (s : Session) : Call → Answer × Session
  | .defineComposite name members =>
    (.done (s.defineComposite name members).1, (s.defineComposite name members).2)
  | .lazyValue type => (.lazyValue (s.lazyValue type).1, (s.lazyValue type).2)
  | .apply v kind opcode operands =>
    (.position (s.applyWith v kind opcode operands).1, (s.applyWith v kind opcode operands).2)
  | .interact how values independent =>
    (.pooled (s.interact how values independent).1, (s.interact how values independent).2)
  | .cast source target =>
    (.cast ((s.cast source target).1.map .value), (s.cast source target).2)
  | .castMember root name target =>
    (.cast ((s.castMember root name target).1.map .ticket), (s.castMember root name target).2)
  | .encode v target => (.cast ((s.encode v target).1.map .encoded), (s.encode v target).2)
  | .dispatch plan source => (.cast (s.dispatch plan source).1, (s.dispatch plan source).2)
  | .redeem t => (.redeemed (s.redeem t).1, (s.redeem t).2)
  | .dropValue v => (.dropped, s.dropValue v)
  | .finish => (.reports s.finish.1, s.finish.2)

def run (s : Session) : List Call → History × Session
  | [] => ([], s)
  | c :: rest =>
    let (answer, s) := s.perform c
    let (past, s) := s.run rest
    ((c, answer) :: past, s)

theorem run_append (s : Session) (calls more : List Call) :
    s.run (calls ++ more) =
      ((s.run calls).1 ++ ((s.run calls).2.run more).1, ((s.run calls).2.run more).2) := by
  induction calls generalizing s with
  | nil => rfl
  | cons c rest ih => simp only [List.cons_append, run, ih]

/-- A session as calls may leave it, with what was answered. -/
def Reached (setup : SessionSetup) (past : History) (s : Session) : Prop :=
  ∃ first calls, setup.start = .ok first ∧ first.run calls = (past, s)

theorem reached_run {setup : SessionSetup} {first : Session} (started : setup.start = .ok first)
    (calls : List Call) : Reached setup (first.run calls).1 (first.run calls).2 :=
  ⟨first, calls, started, rfl⟩

theorem Reached.next {setup : SessionSetup} {past : History} {s : Session}
    (reached : Reached setup past s) (c : Call) :
    Reached setup (past ++ [(c, (s.perform c).1)]) (s.perform c).2 := by
  obtain ⟨first, calls, started, ran⟩ := reached
  refine ⟨first, calls ++ [c], started, ?_⟩
  rw [run_append, ran]
  rfl

theorem Reached.run {setup : SessionSetup} {past : History} {s : Session}
    (reached : Reached setup past s) (more : List Call) :
    Reached setup (past ++ (s.run more).1) (s.run more).2 := by
  obtain ⟨first, calls, started, ran⟩ := reached
  refine ⟨first, calls ++ more, started, ?_⟩
  rw [run_append, ran]

/-- Induction over the calls, the last one made last. -/
theorem Reached.induct {setup : SessionSetup} {motive : History → Session → Prop}
    (start : ∀ first, setup.start = .ok first → motive [] first)
    (next : ∀ past s c, Reached setup past s → motive past s →
      motive (past ++ [(c, (s.perform c).1)]) (s.perform c).2)
    {past : History} {s : Session} (reached : Reached setup past s) : motive past s := by
  obtain ⟨first, calls, started, ran⟩ := reached
  induction calls using List.reverseRecOn generalizing past s with
  | nil =>
    cases ran
    exact start first started
  | append_singleton calls c ih =>
    rw [run_append] at ran
    cases ran
    exact next _ _ c ⟨first, calls, started, rfl⟩ (ih rfl)

end LazyCast.Session
