import LazyCast.SubCompiler
/-!
One sub-compiler behind requests. Programs are staged here by session and run together; what failed
stays staged for another try. A crashed worker answers nothing but its crash. A request is answered
before the next one is sent, so there is no queue of them to be full.
-/
namespace LazyCast

/-- One execution of a ledger, as the workers know it. -/
abbrev SessionId := Nat

inductive Request where
  | lower (instructions : List Instruction)
  /-- Adds a bound program to what the session has staged. -/
  | stage (session : SessionId) (program : Program)
  /-- Runs what the session has staged since it last ran, within a limit in milliseconds. -/
  | execute (session : SessionId) (limit : Option Nat)
  /-- Forgets a session. -/
  | close (session : SessionId)
  | stop

inductive Response where
  | lowered (program : Program)
  | staged (ops : Nat)
  | sample (sample : Sample)
  | closed
  | stopped

def Response.text : Response → String
  | lowered _ => "Lowered"
  | staged ops => "Staged \x7b ops: " ++ toString ops ++ " \x7d"
  | sample _ => "Sample"
  | closed => "Closed"
  | stopped => "Stopped"

structure Worker where
  kind : Kind
  compiler : SubCompiler
  usage : Usage
  staged : Table SessionId Program
  alive : Bool

structure Served where
  answer : Except Fault Response
  /-- The program that the sub-compiler was given to run. -/
  ran : Option Program
  worker : Worker

namespace Worker

def start (kind : Kind) (compiler : SubCompiler) : Worker :=
  ⟨kind, compiler, ⟨0, 0⟩, Table.empty, true⟩

/-- Whether an answer after `delay` comes too late. -/
def isLate (limit : Option Nat) (delay : Nat) : Bool :=
  match limit with
  | some limit => decide (limit < delay)
  | none => false

/-- Runs a staged program. An attempt that comes too late is dropped, whatever it would have been. -/
def run (w : Worker) (session : SessionId) (limit : Option Nat) (p : Program) : Served :=
  let begun : Worker := { w with usage := { w.usage with attempts := w.usage.attempts + 1 } }
  match w.compiler.execute w.usage p with
  | .crash => ⟨.error (.crashed w.kind), some p, { begun with alive := false }⟩
  | .answer delay sampled result =>
    if isLate limit delay then
      ⟨.error (.execution w.kind (.timedOut (limit.getD 0))), some p, begun⟩
    else
      let samplings := w.usage.samplings + if sampled then 1 else 0
      let done : Worker := { begun with usage := ⟨w.usage.attempts + 1, samplings⟩ }
      match result with
      | .ok sample =>
        ⟨.ok (.sample sample), some p, { done with staged := done.staged.erase session }⟩
      | .error e => ⟨.error e, some p, done⟩

def execute (w : Worker) (session : SessionId) (limit : Option Nat) : Served :=
  match w.staged.find? session with
  | some p => w.run session limit p
  | none => ⟨.error (.execution w.kind (.nothingStaged session)), none, w⟩

def stage (w : Worker) (session : SessionId) (p : Program) : Served :=
  let joined := ((w.staged.find? session).getD (.empty w.kind)).extend p
  ⟨.ok (.staged joined.ops.length), none, { w with staged := w.staged.insert session joined }⟩

def serve (w : Worker) (r : Request) : Served :=
  if w.alive then
    match r with
    | .lower instructions => ⟨(w.compiler.lower instructions).map .lowered, none, w⟩
    | .stage session p => w.stage session p
    | .execute session limit => w.execute session limit
    | .close session => ⟨.ok .closed, none, { w with staged := w.staged.erase session }⟩
    | .stop => ⟨.ok .stopped, none, { w with alive := false }⟩
  else ⟨.error (.crashed w.kind), none, w⟩

end Worker
end LazyCast
