import Mathlib.Data.Nat.Digits.Defs
import LazyCast.Proofs.Sample.Parts
/-!
Outcomes as numbers. The digits of an outcome write a number in base two, the last one the least
significant. Of outcomes with equally many digits the order of the texts is that of the numbers, so
the first outcome by text is the least one by number.
-/
namespace LazyCast

def Binary (outcome : String) : Prop := ∀ c ∈ outcome.toList, c = '0' ∨ c = '1'

instance (outcome : String) : Decidable (Binary outcome) :=
  List.decidableBAll (fun c : Char => c = '0' ∨ c = '1') outcome.toList

def valueOf (digits : List Char) : Nat :=
  Nat.ofDigits 2 (digits.reverse.map fun c => if c = '1' then 1 else 0)

def numeral (outcome : String) : Nat := valueOf outcome.toList

theorem valueOf_cons (c : Char) (digits : List Char) :
    valueOf (c :: digits) = valueOf digits + 2 ^ digits.length * if c = '1' then 1 else 0 := by
  unfold valueOf
  rw [List.reverse_cons, List.map_append, Nat.ofDigits_append, List.length_map,
    List.length_reverse, List.map_singleton, Nat.ofDigits_singleton]

theorem valueOf_lt (digits : List Char) : valueOf digits < 2 ^ digits.length := by
  induction digits with
  | nil => exact Nat.one_pos
  | cons c digits ih =>
    rw [valueOf_cons, List.length_cons, Nat.pow_succ]
    split <;> omega

theorem valueOf_lt_valueOf {xs ys : List Char} (long : xs.length = ys.length)
    (left : ∀ c ∈ xs, c = '0' ∨ c = '1') (right : ∀ c ∈ ys, c = '0' ∨ c = '1') (less : xs < ys) :
    valueOf xs < valueOf ys := by
  induction xs generalizing ys with
  | nil =>
    cases List.length_eq_zero_iff.mp long.symm
    exact absurd less (List.lt_irrefl [])
  | cons x xs ih =>
    obtain ⟨y, ys, rfl⟩ := List.exists_cons_of_length_eq_add_one long.symm
    have longer : xs.length = ys.length := Nat.succ.inj long
    have below := valueOf_lt xs
    rw [valueOf_cons, valueOf_cons, longer]
    rcases List.cons_lt_cons_iff.mp less with first | ⟨rfl, later⟩
    · -- The first digits differ, so they are 0 and 1, and the others cannot make up for it.
      have zero : x = '0' ∧ y = '1' := by
        rcases left x List.mem_cons_self with rfl | rfl <;>
          rcases right y List.mem_cons_self with rfl | rfl <;> revert first <;> decide
      obtain ⟨rfl, rfl⟩ := zero
      rw [longer] at below
      simp only [if_true]
      rw [if_neg (by decide)]
      omega
    · have rest := ih longer (fun c mem => left c (List.mem_cons_of_mem x mem))
        (fun c mem => right c (List.mem_cons_of_mem x mem)) later
      omega

theorem binaryValue?_eq {digits : List Char} (binary : ∀ c ∈ digits, c = '0' ∨ c = '1')
    (acc : Nat) : binaryValue? acc digits = some (valueOf digits + 2 ^ digits.length * acc) := by
  induction digits generalizing acc with
  | nil =>
    rw [binaryValue?, List.length_nil, Nat.pow_zero, Nat.one_mul]
    exact congrArg some (Nat.zero_add acc).symm
  | cons c digits ih =>
    have rest := ih fun d mem => binary d (List.mem_cons_of_mem c mem)
    rw [valueOf_cons, List.length_cons, Nat.pow_succ]
    rcases binary c List.mem_cons_self with rfl | rfl
    · rw [binaryValue?, rest, if_neg (by decide)]
      congr 1
      ring
    · rw [binaryValue?, rest, if_pos rfl]
      congr 1
      ring

section Outcomes
variable {o o' : String} {n : Nat}

theorem Binary.ascii (binary : Binary o) : Ascii o := by
  intro c mem
  rcases binary c mem with rfl | rfl <;> decide

theorem wellFormedOutcome_iff :
    Interpreter.wellFormedOutcome o n = true ↔ o.length = n ∧ Binary o := by
  have digits : (o.toList.all fun c => c == '0' || c == '1') = true ↔ Binary o := by
    rw [List.all_eq_true]
    refine forall₂_congr fun c _ => ?_
    rw [Bool.or_eq_true, beq_iff_eq, beq_iff_eq]
  rw [Interpreter.wellFormedOutcome, Bool.and_eq_true, decide_eq_true_iff, digits]
  constructor
  · rintro ⟨size, binary⟩
    exact ⟨binary.ascii.utf8ByteSize ▸ size, binary⟩
  · rintro ⟨long, binary⟩
    exact ⟨binary.ascii.utf8ByteSize.trans long, binary⟩

theorem numeral_lt (o : String) : numeral o < 2 ^ o.length := valueOf_lt o.toList

theorem outcomeValue?_eq (binary : Binary o) (some : o.length ≠ 0) (few : o.length ≤ 64) :
    outcomeValue? o = .some (numeral o) := by
  have bytes : ¬ (o.utf8ByteSize = 0 ∨ 64 < o.utf8ByteSize) := by
    rw [binary.ascii.utf8ByteSize]
    omega
  have read := binaryValue?_eq binary 0
  rw [outcomeValue?, if_neg bytes]
  cases digits : o.toList with
  | nil => exact absurd (congrArg List.length digits) some
  | cons c rest =>
    rw [digits] at read
    have first := binary c (digits ▸ List.mem_cons_self)
    rcases first with rfl | rfl <;> simpa [numeral, digits] using read

theorem numeral_lt_numeral (long : o.length = o'.length) (binary : Binary o)
    (binary' : Binary o') (less : o < o') : numeral o < numeral o' :=
  valueOf_lt_valueOf long binary binary' (String.lt_iff.mp less)

theorem numeral_injective (long : o.length = o'.length) (binary : Binary o)
    (binary' : Binary o') (same : numeral o = numeral o') : o = o' := by
  by_contra other
  by_cases less : o' < o
  · have lesser := numeral_lt_numeral long.symm binary' binary less
    omega
  · have before : Key.before o o' = true :=
      LawfulKey.connected other (by simpa [Key.before] using less)
    have lesser := numeral_lt_numeral long binary binary' (of_decide_eq_true before)
    omega

end Outcomes
end LazyCast
