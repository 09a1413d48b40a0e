/-!
Powers of two and of ten, and sums of a list, over the natural numbers, so that a law about widths,
scales or counts never opens the definition.
-/
namespace LazyCast

def pow2 (n : Nat) : Nat := Nat.pow 2 n

def pow10 (n : Nat) : Nat := Nat.pow 10 n

def sumOf (ns : List Nat) : Nat := ns.foldr (fun a b => a + b) 0

theorem pow2_succ (n : Nat) : pow2 (n + 1) = 2 * pow2 n := Nat.mul_comm _ _

theorem pow2_pos (n : Nat) : 0 < pow2 n := Nat.pow_pos (by decide)

theorem pow10_pos (n : Nat) : 0 < pow10 n := Nat.pow_pos (by decide)

theorem sumOf_cons (n : Nat) (ns : List Nat) : sumOf (n :: ns) = n + sumOf ns := rfl

theorem sumOf_append (ms ns : List Nat) : sumOf (ms ++ ns) = sumOf ms + sumOf ns := by
  induction ms with
  | nil => exact (Nat.zero_add _).symm
  | cons m ms ih => rw [List.cons_append, sumOf_cons, sumOf_cons, ih, Nat.add_assoc]

theorem sumOf_perm {ms ns : List Nat} (perm : ms.Perm ns) : sumOf ms = sumOf ns :=
  perm.foldr_eq' (fun a _ b _ n => by omega) 0

end LazyCast
