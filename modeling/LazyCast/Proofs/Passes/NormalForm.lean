import LazyCast.Proofs.Passes.Reduction
import LazyCast.Proofs.Value.Equality
/-!
The normal form of cancelling. Pairs of neighbours that cancel can be left out in any order: when there
are none left, what remains is the same, up to where its operations come from, and it is what a single
reading with a stack ends with. Reading a pair that cancels leaves the stack as it was, and what has no
pair is read as it stands.
-/
namespace LazyCast

structure NativeOp.Matches (a b : NativeOp) : Prop where
  code : a.code = b.code
  args : (a.args == b.args) = true
  guard : a.guard = b.guard

/-- An operation with no NaN among its operands, which matches itself. -/
theorem NativeOp.matches_self {op : NativeOp}
    (numbers : ∀ x, Operand.float x ∈ op.args → x.isNaN = false) : op.Matches op where
  code := rfl
  args := beq_iff_forall₂.mpr <| List.forall₂_same.mpr fun _ mem =>
    Operand.beq_self fun x same => numbers x (same ▸ mem)
  guard := rfl

section Matching
variable {a b c a' b' : NativeOp}

theorem NativeOp.Matches.symm (same : a.Matches b) : b.Matches a :=
  ⟨same.code.symm, BEq.symm same.args, same.guard.symm⟩

theorem NativeOp.Matches.trans (first : a.Matches b) (second : b.Matches c) : a.Matches c :=
  ⟨first.code.trans second.code, BEq.trans first.args second.args, first.guard.trans second.guard⟩

namespace Pass

theorem cancels_iff : cancels a b = true ↔
    a.code ∈ selfInverse ∧ a.guard = none ∧ a.Matches b := by
  simp only [cancels, Bool.and_eq_true, beq_iff_eq, List.contains_iff_mem,
    Option.isNone_iff_eq_none]
  constructor
  · rintro ⟨⟨⟨⟨listed, code⟩, args⟩, first⟩, second⟩
    exact ⟨listed, first, code, args, first.trans second.symm⟩
  · rintro ⟨listed, first, code, args, guard⟩
    exact ⟨⟨⟨⟨listed, code⟩, args⟩, first⟩, guard ▸ first⟩

theorem cancels_congr (first : a.Matches a') (second : b.Matches b') :
    cancels a b = cancels a' b' := by
  rw [Bool.eq_iff_iff, cancels_iff, cancels_iff, first.code, first.guard]
  have both : a.Matches b ↔ a'.Matches b' :=
    ⟨fun same => first.symm.trans (same.trans second),
      fun same => first.trans (same.trans second.symm)⟩
  rw [both]

end Pass
end Matching

def Reduced (ops : List NativeOp) : Prop := ops.IsChain fun a b => Pass.cancels a b = false

section Deleting
variable {xs ys : List NativeOp}

theorem Deletes.sublist (deletes : Deletes xs ys) : ys.Sublist xs := by
  cases deletes with
  | @pair before after a b _ =>
    have shorter : after.Sublist (a :: b :: after) := ((List.Sublist.refl after).cons b).cons a
    exact (List.Sublist.refl before).append shorter

theorem Deletes.parity (deletes : Deletes xs ys) (code : String) (args : List Operand) :
    (ys.countP fun op => op.code == code && op.args == args) % 2 =
      (xs.countP fun op => op.code == code && op.args == args) % 2 := by
  cases deletes with
  | @pair before after a b cancels =>
    obtain ⟨_, _, same⟩ := Pass.cancels_iff.mp cancels
    have alike : (a.args == args) = (b.args == args) := by
      rw [Bool.eq_iff_iff]
      exact ⟨fun here => BEq.trans (BEq.symm same.args) here, fun here => BEq.trans same.args here⟩
    rw [List.countP_append, List.countP_append, List.countP_cons, List.countP_cons, same.code, alike]
    split <;> omega

theorem sublist_of_deletes (deletes : Relation.ReflTransGen Deletes xs ys) : ys.Sublist xs := by
  induction deletes with
  | refl => exact List.Sublist.refl xs
  | tail _ deletes ih => exact deletes.sublist.trans ih

theorem parity_of_deletes (deletes : Relation.ReflTransGen Deletes xs ys) (code : String)
    (args : List Operand) :
    (ys.countP fun op => op.code == code && op.args == args) % 2 =
      (xs.countP fun op => op.code == code && op.args == args) % 2 := by
  induction deletes with
  | refl => rfl
  | tail _ deletes ih => exact (deletes.parity code args).trans ih

end Deleting

namespace Pass
variable {ops kept kept' : List NativeOp} {a b op : NativeOp}

/-- The stack holds what was kept with the latest on top, so it is read backwards. -/
theorem reduced_reverse :
    Reduced kept.reverse ↔ kept.IsChain fun later sooner => cancels sooner later = false :=
  List.isChain_reverse

theorem reduced_nil : Reduced ([] : List NativeOp).reverse := List.IsChain.nil

theorem reduced_cancelStep (reduced : Reduced kept.reverse) (op : NativeOp) :
    Reduced (cancelStep kept op).reverse := by
  rw [reduced_reverse] at *
  cases kept with
  | nil => exact List.IsChain.singleton op
  | cons last rest =>
    rw [cancelStep]
    split
    · exact reduced.tail
    · next apart => exact List.isChain_cons_cons.mpr ⟨Bool.eq_false_iff.mpr apart, reduced⟩

theorem reduced_foldl (reduced : Reduced kept.reverse) (ops : List NativeOp) :
    Reduced (ops.foldl cancelStep kept).reverse := by
  induction ops generalizing kept with
  | nil => exact reduced
  | cons op ops ih => exact ih (reduced_cancelStep reduced op)

theorem reduced_cancelPairs (ops : List NativeOp) : Reduced (cancelPairs ops) :=
  reduced_foldl reduced_nil ops

theorem cancelStep_of_reduced {rest : List NativeOp} (reduced : Reduced (kept.reverse ++ op :: rest)) :
    cancelStep kept op = op :: kept := by
  cases kept with
  | nil => rfl
  | cons last kept =>
    have apart : cancels last op = false := by
      rw [List.reverse_cons, List.append_assoc] at reduced
      exact List.isChain_iff_forall_rel_of_append_cons_cons.mp reduced rfl
    rw [cancelStep, apart]
    rfl

theorem foldl_of_reduced (reduced : Reduced (kept.reverse ++ ops)) :
    ops.foldl cancelStep kept = ops.reverse ++ kept := by
  induction ops generalizing kept with
  | nil => rfl
  | cons op ops ih =>
    rw [List.foldl_cons, cancelStep_of_reduced reduced, ih, List.reverse_cons, List.append_assoc]
    · rfl
    · rwa [List.reverse_cons, List.append_assoc]

theorem cancelPairs_of_reduced (reduced : Reduced ops) : cancelPairs ops = ops := by
  have pushed : ops.foldl cancelStep [] = ops.reverse ++ [] := foldl_of_reduced reduced
  rw [cancelPairs, pushed, List.append_nil, List.reverse_reverse]

theorem cancelStep_congr (same : List.Forall₂ NativeOp.Matches kept kept') (here : a.Matches b) :
    List.Forall₂ NativeOp.Matches (cancelStep kept a) (cancelStep kept' b) := by
  cases same with
  | nil => exact .cons here .nil
  | cons last rest =>
    rw [cancelStep, cancelStep, cancels_congr last here]
    split
    · exact rest
    · exact .cons here (.cons last rest)

theorem foldl_congr {ops' : List NativeOp} (same : List.Forall₂ NativeOp.Matches kept kept')
    (later : List.Forall₂ NativeOp.Matches ops ops') :
    List.Forall₂ NativeOp.Matches (ops.foldl cancelStep kept) (ops'.foldl cancelStep kept') := by
  have step : Relator.LiftFun (List.Forall₂ NativeOp.Matches)
      (Relator.LiftFun NativeOp.Matches (List.Forall₂ NativeOp.Matches)) cancelStep cancelStep :=
    fun _ _ same _ _ here => cancelStep_congr same here
  exact List.rel_foldl step same later

/-- Reading a pair that cancels leaves the stack as it was. Where the first of the pair cancels the
    latest operation kept, the second takes that operation's place: it is the same, so what lies
    below does not cancel it either. -/
theorem cancelStep_pair (reduced : Reduced kept.reverse) (selves : ∀ op ∈ kept, op.Matches op)
    (cancelled : cancels a b = true) :
    List.Forall₂ NativeOp.Matches (cancelStep (cancelStep kept a) b) kept := by
  have pop : ∀ rest, cancelStep (a :: rest) b = rest := fun rest => by
    rw [cancelStep, if_pos cancelled]
  obtain ⟨_, _, same⟩ := cancels_iff.mp cancelled
  have self := List.forall₂_same.mpr selves
  cases kept with
  | nil =>
    have push : cancelStep [] a = [a] := rfl
    rw [push, pop]
    exact self
  | cons last rest =>
    by_cases meets : cancels last a = true
    · obtain ⟨_, _, latest⟩ := cancels_iff.mp meets
      have replaces : b.Matches last := (latest.trans same).symm
      have pushed : cancelStep rest b = b :: rest := by
        rw [reduced_reverse] at reduced
        cases rest with
        | nil => rfl
        | cons below rest =>
          have apart : cancels below b = false := by
            rw [cancels_congr (selves below (by simp)) replaces]
            exact (List.isChain_cons_cons.mp reduced).1
          rw [cancelStep, apart]
          rfl
      rw [cancelStep, if_pos meets, pushed]
      exact .cons replaces (List.forall₂_cons.mp self).2
    · rw [cancelStep, if_neg meets, pop]
      exact self

theorem cancelPairs_congr {xs ys : List NativeOp} (selves : ∀ op ∈ xs, op.Matches op)
    (deletes : Deletes xs ys) :
    List.Forall₂ NativeOp.Matches (cancelPairs xs) (cancelPairs ys) := by
  cases deletes with
  | @pair before after a b cancelled =>
    have reduced := reduced_foldl reduced_nil before
    have inside : ∀ op ∈ before.foldl cancelStep [], op.Matches op := by
      intro op mem
      have kept := (sublist_of_deletes (cancelPairs_deletes before)).subset (List.mem_reverse.mpr mem)
      exact selves op (List.mem_append_left _ kept)
    have later : ∀ op ∈ after, op.Matches op := fun op mem => selves op (by simp [mem])
    unfold cancelPairs
    rw [List.forall₂_reverse_iff, List.foldl_append, List.foldl_append, List.foldl_cons,
      List.foldl_cons]
    exact foldl_congr (cancelStep_pair reduced inside cancelled) (List.forall₂_same.mpr later)

theorem cancelPairs_of_deletes {xs ys : List NativeOp} (selves : ∀ op ∈ xs, op.Matches op)
    (deletes : Relation.ReflTransGen Deletes xs ys) :
    List.Forall₂ NativeOp.Matches (cancelPairs ys) (cancelPairs xs) := by
  induction deletes with
  | refl =>
    have sublist := sublist_of_deletes (cancelPairs_deletes xs)
    exact List.forall₂_same.mpr fun op mem => selves op (sublist.subset mem)
  | tail before deletes ih =>
    have inside := fun op mem => selves op ((sublist_of_deletes before).subset mem)
    have step := ((cancelPairs_congr inside deletes).imp fun _ _ same => same.symm).flip
    exact forall₂_trans (fun _ _ _ first second => first.trans second) step ih

end Pass

/-- What is left of some operations when no pair of neighbours that cancel is left, in whatever order
    pairs are left out. -/
structure NormalForm (ops left : List NativeOp) : Prop where
  reduced : Reduced left
  reached : Relation.ReflTransGen Deletes ops left
  unique : ∀ other, Relation.ReflTransGen Deletes ops other → Reduced other →
    List.Forall₂ NativeOp.Matches other left

theorem normalForm_cancelPairs {ops : List NativeOp} (selves : ∀ op ∈ ops, op.Matches op) :
    NormalForm ops (Pass.cancelPairs ops) where
  reduced := Pass.reduced_cancelPairs ops
  reached := Pass.cancelPairs_deletes ops
  unique other deletes reduced := by
    have same := Pass.cancelPairs_of_deletes selves deletes
    rwa [Pass.cancelPairs_of_reduced reduced] at same

/-- Cancelling leaves the normal form of a program whose operands hold no NaN: no two neighbours of it
    cancel, and leaving out pairs in any other order ends with the same operations but for their
    places in the ledger, their operands compared as the pass compares them. Another run changes
    nothing. What is kept is in its order, and of each operation an even number is left out. -/
theorem cancelling_normalises (p : Program)
    (numbers : ∀ op ∈ p.ops, ∀ x, Operand.float x ∈ op.args → x.isNaN = false) :
    ∃ q, Pass.runNamed "cancel-inverses" p = .ok q ∧ q.kind = p.kind ∧ NormalForm p.ops q.ops ∧
      Pass.runNamed "cancel-inverses" q = .ok q ∧ q.ops.Sublist p.ops ∧
      ∀ code args, (q.ops.countP fun op => op.code == code && op.args == args) % 2 =
        (p.ops.countP fun op => op.code == code && op.args == args) % 2 := by
  have normal := normalForm_cancelPairs fun op mem => NativeOp.matches_self (numbers op mem)
  have again : Pass.cancelInverses.run (Pass.cancelInverses.run p) = Pass.cancelInverses.run p :=
    congrArg (Program.mk p.kind) (Pass.cancelPairs_of_reduced normal.reduced)
  exact ⟨Pass.cancelInverses.run p, rfl, rfl, normal, congrArg Except.ok again,
    sublist_of_deletes normal.reached, parity_of_deletes normal.reached⟩

def guardedFlip : NativeOp := { NativeOp.plain 3 "x" [.qubit 1] with guard := some (.reg "r") }

def numberedSwap (seq : Nat) (x : Float) : NativeOp :=
  .plain seq "swap" [.float x, .qubit 0, .qubit 2]

def ahead : List NativeOp := [.plain 0 "x" [.qubit 1], guardedFlip, numberedSwap 4 0]

def behind : List NativeOp :=
  [numberedSwap 7 (-0), numberedSwap 8 0, .plain 9 "measure" [.qubit 1]]

def crossed : Program :=
  ⟨.quantum, [.plain 0 "x" [.qubit 1], .plain 1 "x" [.qubit 1], .plain 2 "x" [.qubit 1], guardedFlip,
    numberedSwap 4 0] ++ .plain 5 "h" [.qubit 0] :: .plain 6 "h" [.qubit 0] :: behind⟩

/-- The last flip and swap are kept, or the first ones when pairs are left out in another order. -/
theorem crossed_normalised : ∃ q other, Pass.runNamed "cancel-inverses" crossed = .ok q ∧
    q.ops.map NativeOp.seq = [2, 3, 8, 9] ∧ Relation.ReflTransGen Deletes crossed.ops other ∧
    Reduced other ∧ other.map NativeOp.seq = [0, 3, 4, 9] ∧
    List.Forall₂ NativeOp.Matches other q.ops := by
  have zero : (0 : Float).isNaN = false := by decide +kernel
  have negative : (-0 : Float).isNaN = false := by decide +kernel
  have numbers : ∀ op ∈ crossed.ops, ∀ x, Operand.float x ∈ op.args → x.isNaN = false := by
    intro op mem x among
    simp only [crossed, behind, guardedFlip, numberedSwap, NativeOp.plain, List.cons_append,
      List.nil_append, List.mem_cons, List.not_mem_nil, or_false] at mem
    rcases mem with rfl | rfl | rfl | rfl | rfl | rfl | rfl | rfl | rfl | rfl <;>
      simp at among <;> subst among
    · exact zero
    · exact negative
    · exact zero
  have flips : Deletes crossed.ops
      (ahead ++ .plain 5 "h" [.qubit 0] :: .plain 6 "h" [.qubit 0] :: behind) :=
    .pair [.plain 0 "x" [.qubit 1]] _ (by decide +kernel)
  have spreads : Deletes (ahead ++ .plain 5 "h" [.qubit 0] :: .plain 6 "h" [.qubit 0] :: behind)
      (ahead ++ behind) := .pair ahead behind (by decide +kernel)
  have swaps : Deletes (ahead ++ behind) (ahead ++ [.plain 9 "measure" [.qubit 1]]) :=
    .pair ahead _ (by decide +kernel)
  have reached := ((Relation.ReflTransGen.single flips).tail spreads).tail swaps
  have reduced : Reduced (ahead ++ [.plain 9 "measure" [.qubit 1]]) := by
    unfold Reduced
    decide +kernel
  obtain ⟨q, ran, _, normal, _⟩ := cancelling_normalises crossed numbers
  refine ⟨q, _, ran, ?_, reached, reduced, rfl, normal.unique _ reached reduced⟩
  cases ran
  decide +kernel

end LazyCast
