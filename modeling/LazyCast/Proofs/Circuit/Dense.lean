import LazyCast.Proofs.Circuit.Waves
import Mathlib.Algebra.BigOperators.Group.Finset.Basic
import Mathlib.Data.List.Nodup
/-!
Dense numbers. The amplitudes of a circuit are those of a wave on the basis states in which no qubit
is set but those in use, so an outcome has the probability that it has on the wave.
-/
namespace LazyCast

/-- The basis state with the bits of `i` at the qubits of a list, in its order. -/
def spread : List Qubit → Nat → Nat
  | [], _ => 0
  | q :: qs, i => (if i.testBit 0 then pow2 q else 0) ||| spread qs (i / 2)

def gather : List Qubit → Nat → Nat
  | [], _ => 0
  | q :: qs, s => (s.testBit q).toNat + 2 * gather qs s

section Spreading
variable {qs : List Qubit}

theorem testBit_ite_pow2 (b : Bool) (p k : Nat) :
    (if b = true then pow2 p else 0).testBit k = (b && decide (p = k)) := by
  cases b
  · simp
  · simp only [if_true, Bool.true_and]
    exact Nat.testBit_two_pow

theorem testBit_spread (nodup : qs.Nodup) (i k : Nat) :
    (spread qs i).testBit k = (decide (k ∈ qs) && i.testBit (qs.idxOf k)) := by
  induction qs generalizing i with
  | nil => simp [spread]
  | cons q qs ih =>
    obtain ⟨fresh, nodup⟩ := List.nodup_cons.mp nodup
    rw [spread, Nat.testBit_or, testBit_ite_pow2, ih nodup]
    by_cases same : q = k
    · subst same
      simp [fresh]
    · have other : k ≠ q := fun h => same h.symm
      simp [same, other, List.idxOf_cons_ne _ same, Nat.testBit_succ]

theorem testBit_gather {j : Nat} (qs : List Qubit) (inside : j < qs.length) (s : Nat) :
    (gather qs s).testBit j = s.testBit qs[j] := by
  induction qs generalizing j with
  | nil => cases inside
  | cons q qs ih =>
    rw [gather]
    cases j with
    | zero => cases h : s.testBit q <;> simp [Nat.testBit_zero, h]
    | succ j =>
      have half : ((s.testBit q).toNat + 2 * gather qs s) / 2 = gather qs s := by
        cases s.testBit q <;> simp
        omega
      rw [Nat.testBit_succ, half]
      exact ih (Nat.lt_of_succ_lt_succ inside)

theorem gather_lt (qs : List Qubit) (s : Nat) : gather qs s < pow2 qs.length := by
  induction qs with
  | nil => exact Nat.one_pos
  | cons q qs ih =>
    rw [gather, List.length_cons, pow2_succ]
    cases s.testBit q with
    | false => simp [ih]
    | true =>
      rw [Bool.toNat_true]
      omega

theorem spread_gather (nodup : qs.Nodup) {s : Nat} (held : ∀ k, s.testBit k = true → k ∈ qs) :
    spread qs (gather qs s) = s := by
  refine Nat.eq_of_testBit_eq fun k => ?_
  rw [testBit_spread nodup]
  by_cases mem : k ∈ qs
  · rw [testBit_gather qs (List.idxOf_lt_length_of_mem mem), List.getElem_idxOf]
    simp [mem]
  · cases set : s.testBit k with
    | true => exact absurd (held k set) mem
    | false => simp [mem]

theorem spread_injective (nodup : qs.Nodup) {i j : Nat} (hi : i < pow2 qs.length)
    (hj : j < pow2 qs.length) (same : spread qs i = spread qs j) : i = j := by
  refine Nat.eq_of_testBit_eq fun k => ?_
  by_cases inside : k < qs.length
  · have bit : ∀ i, (spread qs i).testBit qs[k] = i.testBit k := by
      intro i
      rw [testBit_spread nodup, nodup.idxOf_getElem]
      simp
    rw [← bit i, ← bit j, same]
  · have le := Nat.le_of_not_lt inside
    have small : pow2 qs.length ≤ 2 ^ k := Nat.pow_le_pow_right (by decide) le
    rw [Nat.testBit_eq_false_of_lt (Nat.lt_of_lt_of_le hi small),
      Nat.testBit_eq_false_of_lt (Nat.lt_of_lt_of_le hj small)]

theorem spread_zero (qs : List Qubit) : spread qs 0 = 0 := by
  induction qs with
  | nil => rfl
  | cons q qs ih => simp [spread, ih]

theorem spreads (nodup : qs.Nodup) {ks : List Nat} (inside : ∀ k ∈ ks, k ∈ qs) :
    Gate.Spreads (spread qs) qs.idxOf ks where
  injective p hp q hq same := (List.idxOf_inj (inside p hp)).mp same
  testBit q hq i := by simp [testBit_spread nodup, inside q hq]
  flip q hq i := by
    refine Nat.eq_of_testBit_eq fun k => ?_
    rw [testBit_spread nodup, Amplitudes.testBit_flip, Amplitudes.testBit_flip,
      testBit_spread nodup]
    by_cases mem : k ∈ qs
    · have same : qs.idxOf q = qs.idxOf k ↔ q = k := List.idxOf_inj (inside q hq)
      simp [mem, same]
    · have other : q ≠ k := fun h => mem (h ▸ inside q hq)
      simp [mem, other]

end Spreading

theorem OrderedSet.mem_foldl_insert {α : Type} [DecidableEq α] [Key α] (xs : List α)
    (s : OrderedSet α) (y : α) : y ∈ (xs.foldl OrderedSet.insert s).elems ↔ y ∈ xs ∨ y ∈ s.elems := by
  induction xs generalizing s with
  | nil => simp
  | cons x xs ih =>
    rw [List.foldl_cons, ih, OrderedSet.insert, OrderedSet.mem_insertElem, List.mem_cons]
    tauto

theorem OrderedSet.pairwise_insertElem {x : Nat} {ys : List Nat} (sorted : ys.Pairwise (· < ·)) :
    (OrderedSet.insertElem x ys).Pairwise (· < ·) := by
  induction ys with
  | nil => simp [OrderedSet.insertElem]
  | cons y ys ih =>
    obtain ⟨first, sorted⟩ := List.pairwise_cons.mp sorted
    by_cases same : x = y
    · simpa [OrderedSet.insertElem, same] using ⟨first, sorted⟩
    · by_cases before : x < y
      · have all : ∀ z ∈ y :: ys, x < z := by
          intro z mem
          rcases List.mem_cons.mp mem with rfl | mem
          · exact before
          · exact Nat.lt_trans before (first z mem)
        simpa [OrderedSet.insertElem, same, Key.before, before] using
          ⟨fun z mem => all z (List.mem_cons_of_mem _ mem), first, sorted⟩
      · simp only [OrderedSet.insertElem, same, if_false, Key.before, before, decide_false,
          Bool.false_eq_true]
        refine List.pairwise_cons.mpr ⟨fun z mem => ?_, ih sorted⟩
        rcases (OrderedSet.mem_insertElem x z ys).mp mem with rfl | mem
        · omega
        · exact first z mem

theorem OrderedSet.nodup_ofList (xs : List Nat) : (OrderedSet.ofList xs).elems.Nodup := by
  have sorted : ∀ (xs : List Nat) (s : OrderedSet Nat), s.elems.Pairwise (· < ·) →
      (xs.foldl OrderedSet.insert s).elems.Pairwise (· < ·) := by
    intro xs
    induction xs with
    | nil => exact fun _ sorted => sorted
    | cons x xs ih => exact fun s sorted => ih _ (OrderedSet.pairwise_insertElem sorted)
  exact (sorted xs .empty List.Pairwise.nil).imp fun lt => Nat.ne_of_lt lt

namespace Circuit

theorem find?_denseNumbers (s : OrderedSet Qubit) (q : Qubit) :
    (denseNumbers s).find? q = if q ∈ s.elems then some (s.elems.idxOf q) else none := by
  have from_start : ∀ (qs : List Qubit) (n : Nat), Table.findEntry q (qs.zipIdx n) =
      if q ∈ qs then some (n + qs.idxOf q) else none := by
    intro qs
    induction qs with
    | nil => exact fun _ => rfl
    | cons p qs ih =>
      intro n
      rw [List.zipIdx_cons, Table.findEntry, ih]
      by_cases same : p = q
      · simp [same]
      · have other : q ≠ p := fun h => same h.symm
        simp only [same, other, if_false, List.mem_cons, false_or, List.idxOf_cons_ne _ same]
        split
        · congr 1
          omega
        · rfl
  refine (from_start s.elems 0).trans ?_
  rw [Nat.zero_add]

theorem denseOf_denseNumbers {s : OrderedSet Qubit} {q : Qubit} (mem : q ∈ s.elems) :
    denseOf (denseNumbers s) q = s.elems.idxOf q := by
  simp [denseOf, find?_denseNumbers, mem]

theorem mem_touched (ops : List NativeOp) (q : Qubit) :
    q ∈ (touched ops).elems ↔ ∃ op ∈ ops, q ∈ op.qubits := by
  rw [touched, OrderedSet.ofList, OrderedSet.mem_foldl_insert, List.mem_flatMap]
  simp [OrderedSet.empty]

theorem nodup_touched (ops : List NativeOp) : (touched ops).elems.Nodup :=
  OrderedSet.nodup_ofList _

theorem mem_distinct (qs : List Qubit) (q : Qubit) : q ∈ distinct qs ↔ q ∈ qs := by
  have from_start : ∀ (qs seen : List Qubit),
      q ∈ qs.foldl (fun seen q => if q ∈ seen then seen else seen ++ [q]) seen ↔
        q ∈ seen ∨ q ∈ qs := by
    intro qs
    induction qs with
    | nil => simp
    | cons p qs ih =>
      intro seen
      rw [List.foldl_cons, ih]
      by_cases mem : p ∈ seen
      · simp only [mem, if_true, List.mem_cons]
        constructor
        · tauto
        · rintro (h | rfl | h) <;> tauto
      · simp only [mem, if_false, List.mem_append, List.mem_cons]
        tauto
  simpa [distinct] using from_start qs []

theorem nodup_distinct (qs : List Qubit) : (distinct qs).Nodup := by
  have from_start : ∀ (qs seen : List Qubit), seen.Nodup →
      (qs.foldl (fun seen q => if q ∈ seen then seen else seen ++ [q]) seen).Nodup := by
    intro qs
    induction qs with
    | nil => exact fun _ nodup => nodup
    | cons p qs ih =>
      intro seen nodup
      rw [List.foldl_cons]
      apply ih
      split
      · exact nodup
      · rename_i fresh
        exact List.nodup_append.mpr ⟨nodup, List.nodup_singleton p, fun a old b new same =>
          fresh (List.mem_singleton.mp new ▸ same ▸ old)⟩
  exact from_start qs [] List.nodup_nil

/-- What is read out: the measured qubits, or all in use when none is. -/
def readout (ops : List NativeOp) : List Qubit :=
  if (measuredBy ops).isEmpty then (touched ops).elems else measuredBy ops

theorem readout_touched (ops : List NativeOp) : ∀ q ∈ readout ops, q ∈ (touched ops).elems := by
  intro q mem
  unfold readout at mem
  split at mem
  · exact mem
  · rw [measuredBy, mem_distinct, List.mem_flatMap] at mem
    obtain ⟨op, mem, at_q⟩ := mem
    exact (mem_touched ops q).mpr ⟨op, List.mem_of_mem_filter mem, at_q⟩

theorem nodup_readout (ops : List NativeOp) : (readout ops).Nodup := by
  unfold readout
  split
  · exact nodup_touched ops
  · exact nodup_distinct _

theorem readout_eq_nil (ops : List NativeOp) : readout ops = [] ↔ (touched ops).size = 0 := by
  constructor
  · intro none
    unfold readout at none
    split at none
    · rw [OrderedSet.size, none]
      rfl
    · rename_i some
      exact absurd (by rw [none]; rfl) some
  · intro none
    have empty : (touched ops).elems = [] := List.length_eq_zero_iff.mp none
    refine List.eq_nil_iff_forall_not_mem.mpr fun q mem => ?_
    have mem := readout_touched ops q mem
    rw [empty] at mem
    cases mem

end Circuit

/-- The gate of an operation on its own qubits. -/
def NativeOp.gate? (op : NativeOp) : Option Gate :=
  match Gate.ofOp op op.qubits with
  | .ok g => g
  | .error _ => none

def NativeOp.Simulable (op : NativeOp) : Prop := ∃ g, Gate.ofOp op op.qubits = .ok g

namespace Gate

def codes : List String := ["x", "z", "h", "ry", "cx", "cz", "swap", "measure", "barrier"]

theorem ofOp_map (op : NativeOp) (f : Qubit → Nat) (qs : List Qubit) :
    ofOp op (qs.map f) = (ofOp op qs).map (Option.map (rename f)) := by
  by_cases known : op.code ∈ codes
  · simp only [codes, List.mem_cons, List.not_mem_nil, or_false] at known
    rcases known with c | c | c | c | c | c | c | c | c <;>
      rcases qs with _ | ⟨p, _ | ⟨q, qs⟩⟩ <;> simp [ofOp, c, Except.map, rename]
    all_goals cases angleOf? op <;> rfl
  · simp only [codes, List.mem_cons, List.not_mem_nil, or_false, not_or] at known
    rcases qs with _ | ⟨p, _ | ⟨q, qs⟩⟩ <;> simp [ofOp, known, Except.map]

theorem rename_congr {g : Gate} {f f' : Nat → Nat} (same : ∀ q ∈ g.qubits, f q = f' q) :
    g.rename f = g.rename f' := by
  cases g <;> simp_all [qubits, rename]

theorem qubits_rename (g : Gate) (f : Nat → Nat) : (g.rename f).qubits = g.qubits.map f := by
  cases g <;> rfl

theorem sublist_ofOp {op : NativeOp} {qs : List Nat} {g : Gate}
    (made : ofOp op qs = .ok (some g)) : g.qubits.Sublist qs := by
  unfold ofOp at made
  split at made
  case h_4 =>
    split at made
    · cases made
      simp [qubits]
    · cases made
  case h_8 | h_9 => cases made
  case h_10 =>
    split at made
    · cases made
    · split at made <;> cases made
  all_goals
    cases made
    simp [qubits]

theorem qubits_ofOp {op : NativeOp} {qs : List Qubit} {g : Gate}
    (made : ofOp op qs = .ok (some g)) : ∀ q ∈ g.qubits, q ∈ qs :=
  fun _ mem => (sublist_ofOp made).subset mem

end Gate

def gatesOn (ops : List NativeOp) : List Gate := ops.filterMap NativeOp.gate?

def vacuum {α : Type} [Zero α] [One α] (i : Nat) : α := if i = 0 then 1 else 0

def waveOf {α : Type} [Zero α] [One α] [Add α] [Mul α] [Neg α] (t : Trigonometry α)
    (ops : List NativeOp) : Nat → α :=
  (gatesOn ops).foldl (fun ψ g => g.wave t ψ) vacuum

theorem mem_gatesOn {ops : List NativeOp} {g : Gate} (mem : g ∈ gatesOn ops) :
    ∃ op ∈ ops, Gate.ofOp op op.qubits = .ok (some g) := by
  obtain ⟨op, mem, made⟩ := List.mem_filterMap.mp mem
  refine ⟨op, mem, ?_⟩
  unfold NativeOp.gate? at made
  cases shape : Gate.ofOp op op.qubits with
  | error e =>
    rw [shape] at made
    cases made
  | ok g' =>
    rw [shape] at made
    exact congrArg Except.ok made

theorem qubits_gatesOn {ops : List NativeOp} {g : Gate} (mem : g ∈ gatesOn ops) :
    ∀ q ∈ g.qubits, q ∈ (Circuit.touched ops).elems := by
  intro q at_q
  obtain ⟨op, mem, made⟩ := mem_gatesOn mem
  exact (Circuit.mem_touched ops q).mpr ⟨op, mem, Gate.qubits_ofOp made q at_q⟩

namespace Circuit

theorem gatesOf_eq_ok {dense : Table Qubit Nat} {ops : List NativeOp} {gs : List Gate} :
    gatesOf dense ops = .ok gs ↔
      (∀ op ∈ ops, op.Simulable) ∧ gs = (gatesOn ops).map (Gate.rename (denseOf dense)) := by
  have cons : ∀ (op : NativeOp) (ops : List NativeOp), gatesOf dense (op :: ops) =
      (Gate.ofOp op (op.qubits.map (denseOf dense))).bind fun g =>
        (gatesOf dense ops).map fun gs => g.toList ++ gs := by
    intro op ops
    unfold gatesOf
    rw [List.mapM_cons]
    rcases Gate.ofOp op (op.qubits.map (denseOf dense)) with e | g
    · rfl
    · rcases ops.mapM fun op => Gate.ofOp op (op.qubits.map (denseOf dense)) with e | gs
      · rfl
      · cases g <;> rfl
  induction ops generalizing gs with
  | nil =>
    constructor
    · intro made
      cases made
      exact ⟨fun _ none => (by cases none), rfl⟩
    · rintro ⟨_, rfl⟩
      rfl
  | cons op ops ih =>
    rw [cons, Gate.ofOp_map]
    cases shape : Gate.ofOp op op.qubits with
    | error e =>
      refine ⟨fun no => (by cases no), fun ⟨all, _⟩ => ?_⟩
      obtain ⟨g, made⟩ := all op List.mem_cons_self
      rw [shape] at made
      cases made
    | ok g =>
      have first : op.Simulable := ⟨g, shape⟩
      have gate : op.gate? = g := by simp only [NativeOp.gate?, shape]
      have gates : gatesOn (op :: ops) = g.toList ++ gatesOn ops := by
        unfold gatesOn
        cases g <;> simp [gate]
      rw [gates]
      cases rest : gatesOf dense ops with
      | error e =>
        refine ⟨fun no => (by cases no), fun ⟨all, _⟩ => ?_⟩
        have made := ih.mpr ⟨fun op mem => all op (List.mem_cons_of_mem _ mem), rfl⟩
        rw [rest] at made
        cases made
      | ok gs' =>
        obtain ⟨all, same⟩ := ih.mp rest
        subst same
        constructor
        · intro made
          refine ⟨?_, ?_⟩
          · simpa using ⟨first, all⟩
          · cases made
            cases g <;> simp
        · rintro ⟨_, rfl⟩
          cases g <;> rfl

theorem ofOps_eq (allowed : Nat) (ops : List NativeOp) : ofOps allowed ops =
    if ops.all isBound = true then
      if readout ops = [] then .error .nothingMeasured
      else if allowed < (touched ops).size then
        .error (.tooManyQubits (touched ops).size allowed)
      else (gatesOf (denseNumbers (touched ops)) ops).map fun gs =>
        ⟨denseNumbers (touched ops), readout ops, gs⟩
    else .error .unboundRegisters := by
  unfold ofOps
  cases ops.all isBound with
  | false => rfl
  | true =>
    change (if (readout ops).isEmpty then _ else _) = _
    by_cases none : readout ops = []
    · simp only [none, if_true]
      rfl
    · have some : ¬ (readout ops).isEmpty = true := fun empty => none (List.isEmpty_iff.mp empty)
      simp only [some, none, Bool.false_eq_true, if_false, if_true]
      split
      · rfl
      · cases gatesOf (denseNumbers (touched ops)) ops <;> rfl

theorem ofOps_eq_ok {allowed : Nat} {ops : List NativeOp} {c : Circuit} :
    ofOps allowed ops = .ok c ↔
      ops.all isBound = true ∧ 0 < (touched ops).size ∧ (touched ops).size ≤ allowed ∧
        (∀ op ∈ ops, op.Simulable) ∧
          c = ⟨denseNumbers (touched ops), readout ops,
            (gatesOn ops).map (Gate.rename (denseOf (denseNumbers (touched ops))))⟩ := by
  rw [ofOps_eq]
  by_cases bound : ops.all isBound = true
  · by_cases none : readout ops = []
    · have zero := (readout_eq_nil ops).mp none
      simp [bound, none, zero]
    · have some : 0 < (touched ops).size :=
        Nat.pos_of_ne_zero fun zero => none ((readout_eq_nil ops).mpr zero)
      by_cases many : allowed < (touched ops).size
      · simp [bound, none, many]
      · have few := Nat.le_of_not_lt many
        simp only [bound, none, many, if_true, if_false, some, few, true_and]
        constructor
        · intro made
          cases gates : gatesOf (denseNumbers (touched ops)) ops with
          | error e =>
            rw [gates] at made
            cases made
          | ok gs =>
            rw [gates] at made
            obtain ⟨all, same⟩ := gatesOf_eq_ok.mp gates
            cases made
            exact ⟨all, by rw [same]⟩
        · rintro ⟨all, rfl⟩
          rw [gatesOf_eq_ok.mpr ⟨all, rfl⟩]
          rfl
  · simp [bound]

end Circuit
end LazyCast
