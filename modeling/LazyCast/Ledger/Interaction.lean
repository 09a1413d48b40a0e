import LazyCast.Ledger.Arena
/-!
Lazy values that meet in a call, a branch or a match must be measured together: their ledgers are
pooled into one, in the order of the values.
-/
namespace LazyCast

/-- How lazy values came to depend on each other. -/
inductive Interaction where
  | call
  | branch
  | scrutiny
  deriving DecidableEq

namespace Arena

/-- Merges the remaining ledgers into the one behind `root`, up to the first that is frozen. What
    was merged before a failure stays merged. -/
def mergeAll (a : Arena) (root : Handle) : List Handle → Outcome Arena Handle
  | [] => (.ok root, a)
  | next :: rest => (a.merge root next).andThen fun root a => mergeAll a root rest

/-- Pools the ledgers of interacting values. None when there is nothing to pool: fewer than two
    values, or values known to be independent. -/
def interact (a : Arena) (_how : Interaction) (values : List Handle) (independent : Bool) :
    Outcome Arena (Option Handle) :=
  match values with
  | first :: second :: rest =>
    if independent then (.ok none, a) else (a.mergeAll first (second :: rest)).map some
  | _ => (.ok none, a)

end Arena
end LazyCast
