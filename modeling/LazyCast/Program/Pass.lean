import LazyCast.Program
/-!
Optimization passes on lowered programs. Two like self-inverse gates side by side cancel; a stack
of the gates kept so far makes new neighbours meet as soon as a pair between them is gone.
-/
namespace LazyCast

inductive Pass where
  | cancelInverses
  | dropBarriers
  deriving DecidableEq

namespace Pass

def name : Pass → String
  | cancelInverses => "cancel-inverses"
  | dropBarriers => "drop-barriers"

def ofName? (name : String) : Option Pass :=
  [cancelInverses, dropBarriers].find? fun p => decide (p.name = name)

def selfInverse : List String := ["x", "z", "h", "cx", "cz", "swap"]

/-- Running both operations is running neither. -/
def cancels (a b : NativeOp) : Bool :=
  selfInverse.contains a.code && a.code == b.code && a.args == b.args && a.guard.isNone &&
    b.guard.isNone

/-- `kept` holds the operations before this one, the nearest first. -/
def cancelStep (kept : List NativeOp) (op : NativeOp) : List NativeOp :=
  match kept with
  | last :: rest => if cancels last op then rest else op :: kept
  | [] => [op]

def cancelPairs (ops : List NativeOp) : List NativeOp := (ops.foldl cancelStep []).reverse

def runOps : Pass → List NativeOp → List NativeOp
  | cancelInverses, ops => cancelPairs ops
  | dropBarriers, ops => ops.filter fun op => op.code != "barrier"

def run (pass : Pass) (p : Program) : Program := { p with ops := pass.runOps p.ops }

def runNamed (name : String) (p : Program) : Except Fault Program :=
  match ofName? name with
  | some pass => .ok (pass.run p)
  | none => .error (.configuration (.unknownPass name))

end Pass
end LazyCast
