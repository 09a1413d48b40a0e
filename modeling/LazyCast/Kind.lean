import LazyCast.Ordered
/-!
Kinds of execution target. Kinds are ordered by level, then by name. A higher level subsumes a
lower one; two kinds of one level with different names are unrelated, although the order ranks them.
-/
namespace LazyCast

structure Kind where
  name : String
  level : Nat
  deriving DecidableEq

namespace Kind

/-- The bottom of the hierarchy, whose instructions run in process. -/
def classical : Kind := ⟨"classical", 0⟩

def quantum : Kind := ⟨"quantum", 1⟩

def isClassical (k : Kind) : Bool := decide (k = classical)

/-- Strictly above: by level alone. -/
def isAbove (a b : Kind) : Bool := decide (b.level < a.level)

def subsumes (a b : Kind) : Bool := decide (a = b) || a.isAbove b

/-- The higher of two kinds; the first of two on one level. -/
def join (a b : Kind) : Kind := if b.isAbove a then b else a

instance : Key Kind where
  before a b := decide (a.level < b.level) || (decide (a.level = b.level) && Key.before a.name b.name)

def compare (a b : Kind) : Ordering :=
  if a = b then .eq else if Key.before a b then .lt else .gt

/-- The greatest kind of a list, the classical one for an empty list. -/
def dominant (kinds : List Kind) : Kind :=
  match kinds with
  | [] => classical
  | k :: ks => ks.foldl (fun best next => if Key.before best next then next else best) k

theorem subsumes_refl (k : Kind) : k.subsumes k = true := by simp [subsumes]

theorem isAbove_irrefl (k : Kind) : k.isAbove k = false := by simp [isAbove]

end Kind
end LazyCast
