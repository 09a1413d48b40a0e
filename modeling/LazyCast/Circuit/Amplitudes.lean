import LazyCast.Arithmetic
/-!
Vectors of real amplitudes. Qubit `k` of `n` is bit `k` of the index of a basis state. Each gate is
a loop over the basis states that changes the vector in place; every pair of states is visited once.
The scalars are any ring, so that what holds of the loops holds for floats and reals alike as far as
their laws go.
-/
namespace LazyCast

abbrev Amplitudes (α : Type) := Array α

namespace Amplitudes
variable {α : Type}

/-- The state with bit `k` turned over. -/
def flip (k i : Nat) : Nat := i ^^^ pow2 k

/-- Visits every basis state of a vector in order. -/
def sweep (v : Amplitudes α) (visit : Amplitudes α → Nat → Amplitudes α) : Amplitudes α :=
  (List.range v.size).foldl visit v

def zeroState [Zero α] [One α] (n : Nat) : Amplitudes α :=
  (Array.replicate (pow2 n) 0).setIfInBounds 0 1

def x (k : Nat) (v : Amplitudes α) : Amplitudes α :=
  v.sweep fun w i => if i.testBit k then w else w.swapIfInBounds i (flip k i)

def z [Neg α] (k : Nat) (v : Amplitudes α) : Amplitudes α :=
  v.sweep fun w i => if i.testBit k then w.modify i (fun a => -a) else w

/-- The matrix `[[a, b], [c, d]]` on qubit `k`. -/
def rotate [Add α] [Mul α] (k : Nat) (a b c d : α) (v : Amplitudes α) : Amplitudes α :=
  v.sweep fun w i =>
    if i.testBit k then w
    else
      match w[i]?, w[flip k i]? with
      | some low, some high =>
        (w.setIfInBounds i (a * low + b * high)).setIfInBounds (flip k i) (c * low + d * high)
      | _, _ => w

def cx (control target : Nat) (v : Amplitudes α) : Amplitudes α :=
  v.sweep fun w i =>
    if i.testBit control && !i.testBit target then w.swapIfInBounds i (flip target i) else w

def cz [Neg α] (p q : Nat) (v : Amplitudes α) : Amplitudes α :=
  v.sweep fun w i => if i.testBit p && i.testBit q then w.modify i (fun a => -a) else w

def swap (p q : Nat) (v : Amplitudes α) : Amplitudes α :=
  v.sweep fun w i =>
    if i.testBit p && !i.testBit q then w.swapIfInBounds i (flip q (flip p i)) else w

/-- The states whose probability is above a threshold, each with the sum of these probabilities up
    to and including its own. -/
def runningSums [Add α] [Mul α] [LE α] [DecidableLE α] (threshold : α) (sum : α) (i : Nat) :
    List α → List (Nat × α)
  | [] => []
  | a :: rest =>
    if a * a ≤ threshold then runningSums threshold sum (i + 1) rest
    else (i, sum + a * a) :: runningSums threshold (sum + a * a) (i + 1) rest

/-- The first state whose running sum exceeds `r`; the last one when none does. -/
def pick [LT α] [DecidableLT α] (sums : List (Nat × α)) (r : α) : Nat :=
  match sums.find? fun s => decide (r < s.2) with
  | some s => s.1
  | none => match sums.getLast? with
    | some s => s.1
    | none => 0

end Amplitudes
end LazyCast
