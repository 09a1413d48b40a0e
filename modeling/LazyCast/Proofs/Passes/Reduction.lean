import LazyCast.Program.Pass
import LazyCast.Proofs.Circuit.Distribution
/-!
What passes do to a list of operations: fences go, and pairs of neighbours go that undo each other.
Neither changes the wave that the operations end with, nor what they measure.
-/
namespace LazyCast

/-- The same self-inverse gate twice. -/
structure Undoes (a b : NativeOp) : Prop where
  involution : a.code ∈ Pass.selfInverse
  code : a.code = b.code
  qubits : a.qubits = b.qubits
  unguarded : a.guard = none ∧ b.guard = none

/-- Some operations with fences and pairs of neighbours that undo each other left out. -/
inductive Reduces : List NativeOp → List NativeOp → Prop where
  | refl (ops : List NativeOp) : Reduces ops ops
  | fence {before after ops : List NativeOp} {op : NativeOp} (fence : op.code = "barrier")
      (rest : Reduces (before ++ after) ops) : Reduces (before ++ op :: after) ops
  | pair {before after ops : List NativeOp} {a b : NativeOp} (undoes : Undoes a b)
      (rest : Reduces (before ++ after) ops) : Reduces (before ++ a :: b :: after) ops

namespace Reduces
variable {xs ys zs : List NativeOp}

theorem trans (first : Reduces xs ys) (second : Reduces ys zs) : Reduces xs zs := by
  induction first with
  | refl ops => exact second
  | fence fence _ ih => exact .fence fence (ih second)
  | pair undoes _ ih => exact .pair undoes (ih second)

theorem sublist (r : Reduces xs ys) : ys.Sublist xs := by
  induction r with
  | refl ops => exact List.Sublist.refl _
  | @fence before after _ op _ _ ih =>
    exact ih.trans ((List.Sublist.refl before).append (List.sublist_cons_self op after))
  | @pair before after _ a b _ _ ih =>
    refine ih.trans ((List.Sublist.refl before).append ?_)
    exact (List.sublist_cons_self b after).trans (List.sublist_cons_self a (b :: after))

theorem measures (r : Reduces xs ys) : (ys.filter fun op => op.code == "measure") =
    xs.filter fun op => op.code == "measure" := by
  induction r with
  | refl ops => rfl
  | fence fence _ ih => simp [ih, fence]
  | pair undoes _ ih =>
    have other : ∀ code ∈ Pass.selfInverse, code ≠ "measure" := by decide
    have first := other _ undoes.involution
    have second := undoes.code ▸ first
    simp [ih, first, second]

theorem measuredBy (r : Reduces xs ys) : Circuit.measuredBy ys = Circuit.measuredBy xs := by
  rw [Circuit.measuredBy, r.measures]
  rfl

end Reduces

section Waves
variable {α : Type} [CommRing α] {t : Trigonometry α} {a b : NativeOp}

theorem gate?_fence {op : NativeOp} (fence : op.code = "barrier") : op.gate? = none := by
  simp [NativeOp.gate?, Gate.ofOp, fence]

theorem Undoes.gate? (undoes : Undoes a b) :
    a.gate? = b.gate? ∧ ∀ g, b.gate? = some g → g.isInvolution = true := by
  obtain ⟨involution, code, qubits, _⟩ := undoes
  unfold NativeOp.gate?
  rw [code] at involution
  simp only [Pass.selfInverse, List.mem_cons, List.not_mem_nil, or_false] at involution
  rw [← qubits]
  rcases involution with c | c | c | c | c | c <;>
    rcases a.qubits with _ | ⟨p, _ | ⟨q, qs⟩⟩ <;>
      simp [Gate.ofOp, code, c, Gate.isInvolution]

theorem waveOf_append (xs ys : List NativeOp) : waveOf t (xs ++ ys) =
    (gatesOn ys).foldl (fun ψ g => g.wave t ψ) (waveOf t xs) := by
  simp [waveOf, gatesOn]

theorem Reduces.waveOf (unit : 2 * t.diagonal * t.diagonal = 1) {xs ys : List NativeOp}
    (r : Reduces xs ys) : waveOf t ys = waveOf t xs := by
  induction r with
  | refl ops => rfl
  | fence fence _ ih =>
    rw [ih, waveOf_append, waveOf_append, gatesOn, gatesOn, List.filterMap_cons, gate?_fence fence]
  | pair undoes _ ih =>
    obtain ⟨same, involution⟩ := undoes.gate?
    rw [ih, waveOf_append, waveOf_append, gatesOn, gatesOn, List.filterMap_cons,
      List.filterMap_cons, same]
    cases gate : NativeOp.gate? _ with
    | none => rfl
    | some g => simp only [List.foldl_cons, Gate.wave_wave unit (involution g gate)]

section Circuits
variable {xs ys : List NativeOp} {c d : Circuit} {allowed allowed' : Nat}

theorem Reduces.touched (r : Reduces xs ys) :
    (Circuit.touched ys).size ≤ (Circuit.touched xs).size := by
  refine (List.subperm_of_subset (Circuit.nodup_touched ys) fun q mem => ?_).length_le
  obtain ⟨op, mem, at_q⟩ := (Circuit.mem_touched ys q).mp mem
  exact (Circuit.mem_touched xs q).mpr ⟨op, r.sublist.subset mem, at_q⟩

theorem touched_of_measuredBy {ops : List NativeOp} (some : Circuit.measuredBy ops ≠ []) :
    0 < (Circuit.touched ops).size := by
  obtain ⟨q, mem⟩ := List.exists_mem_of_ne_nil _ some
  rw [Circuit.measuredBy, Circuit.mem_distinct, List.mem_flatMap] at mem
  obtain ⟨op, mem, at_q⟩ := mem
  exact List.length_pos_of_mem ((Circuit.mem_touched ops q).mpr ⟨op, (List.mem_filter.mp mem).1, at_q⟩)

theorem Reduces.readout (r : Reduces xs ys) (some : Circuit.measuredBy xs ≠ []) :
    Circuit.readout ys = Circuit.readout xs := by
  have first : (Circuit.measuredBy xs).isEmpty = false := by simpa using some
  unfold Circuit.readout
  rw [r.measuredBy, first]
  rfl

theorem Reduces.measured (r : Reduces xs ys) (made : Circuit.ofOps allowed xs = .ok c)
    (made' : Circuit.ofOps allowed' ys = .ok d) (some : Circuit.measuredBy xs ≠ []) :
    d.measured = c.measured := by
  obtain ⟨_, _, _, _, rfl⟩ := Circuit.ofOps_eq_ok.mp made
  obtain ⟨_, _, _, _, rfl⟩ := Circuit.ofOps_eq_ok.mp made'
  exact r.readout some

theorem Reduces.probability (unit : 2 * t.diagonal * t.diagonal = 1) (r : Reduces xs ys)
    (made : Circuit.ofOps allowed xs = .ok c) (made' : Circuit.ofOps allowed' ys = .ok d)
    (some : Circuit.measuredBy xs ≠ []) (outcome : String) :
    d.probability t outcome = c.probability t outcome := by
  exact Circuit.probability_congr made' made (r.readout some) (r.waveOf unit) outcome

end Circuits

end Waves

/-- A pair of neighbours that cancel is left out. -/
inductive Deletes : List NativeOp → List NativeOp → Prop where
  | pair (before after : List NativeOp) {a b : NativeOp} (cancels : Pass.cancels a b = true) :
      Deletes (before ++ a :: b :: after) (before ++ after)

namespace Pass

theorem qubit?_congr {o p : Operand} (same : (o == p) = true) : o.qubit? = p.qubit? := by
  cases o <;> cases p
  case qubit.qubit q r => exact congrArg some (of_decide_eq_true same)
  all_goals first | rfl | cases same

theorem qubitsOf_congr {os ps : List Operand} (same : (os == ps) = true) :
    qubitsOf os = qubitsOf ps := by
  induction os generalizing ps with
  | nil =>
    cases ps with
    | nil => rfl
    | cons p ps => cases same
  | cons o os ih =>
    cases ps with
    | nil => cases same
    | cons p ps =>
      rw [List.cons_beq_cons, Bool.and_eq_true] at same
      simp only [qubitsOf, List.filterMap_cons, qubit?_congr same.1]
      have rest := ih same.2
      unfold qubitsOf at rest
      rw [rest]

theorem undoes_of_cancels {a b : NativeOp} (cancels : Pass.cancels a b = true) : Undoes a b := by
  simp only [Pass.cancels, Bool.and_eq_true, beq_iff_eq, List.contains_iff_mem,
    Option.isNone_iff_eq_none] at cancels
  obtain ⟨⟨⟨⟨involution, code⟩, args⟩, first⟩, second⟩ := cancels
  exact ⟨involution, code, qubitsOf_congr args, first, second⟩

theorem cancelPairs_deletes (ops : List NativeOp) :
    Relation.ReflTransGen Deletes ops (cancelPairs ops) := by
  have upto : ∀ (ops kept : List NativeOp),
      Relation.ReflTransGen Deletes (kept.reverse ++ ops) (ops.foldl cancelStep kept).reverse := by
    intro ops
    induction ops with
    | nil =>
      intro kept
      rw [List.append_nil]
      exact .refl
    | cons op ops ih =>
      intro kept
      rw [List.foldl_cons]
      -- The stack holds what was kept with the latest on top, so it is read backwards.
      have push : Relation.ReflTransGen Deletes (kept.reverse ++ op :: ops)
          (ops.foldl cancelStep (op :: kept)).reverse := by
        have next := ih (op :: kept)
        rwa [List.reverse_cons, List.append_assoc] at next
      cases kept with
      | nil => exact push
      | cons last rest =>
        rw [cancelStep]
        split
        · rename_i cancels
          rw [List.reverse_cons, List.append_assoc]
          exact .head (.pair rest.reverse ops cancels) (ih rest)
        · exact push
  exact upto ops []

theorem reduces_of_deletes {xs ys : List NativeOp} (deletes : Relation.ReflTransGen Deletes xs ys) :
    Reduces xs ys := by
  induction deletes using Relation.ReflTransGen.head_induction_on with
  | refl => exact .refl _
  | head step _ ih =>
    cases step with
    | pair before after cancels => exact .pair (undoes_of_cancels cancels) ih

theorem cancelPairs_reduces (ops : List NativeOp) : Reduces ops (cancelPairs ops) :=
  reduces_of_deletes (cancelPairs_deletes ops)

theorem dropBarriers_reduces (ops : List NativeOp) :
    Reduces ops (ops.filter fun op => op.code != "barrier") := by
  have upto : ∀ ops before : List NativeOp,
      Reduces (before ++ ops) (before ++ ops.filter fun op => op.code != "barrier") := by
    intro ops
    induction ops with
    | nil => exact fun before => .refl _
    | cons op ops ih =>
      intro before
      by_cases fence : op.code = "barrier"
      · simpa [fence] using Reduces.fence fence (ih before)
      · have kept := ih (before ++ [op])
        simp only [List.append_assoc, List.singleton_append] at kept
        simpa [fence] using kept
  exact upto ops []

theorem runOps_reduces (pass : Pass) (ops : List NativeOp) : Reduces ops (pass.runOps ops) := by
  cases pass with
  | cancelInverses => exact cancelPairs_reduces ops
  | dropBarriers => exact dropBarriers_reduces ops

theorem runAll_reduces {names : List String} (known : ∀ name ∈ names, (ofName? name).isSome)
    (p : Program) : ∃ q, names.foldlM (fun p name => runNamed name p) p = .ok q ∧
      q.kind = p.kind ∧ Reduces p.ops q.ops := by
  induction names generalizing p with
  | nil => exact ⟨p, rfl, rfl, .refl _⟩
  | cons name names ih =>
    obtain ⟨pass, found⟩ := Option.isSome_iff_exists.mp (known name List.mem_cons_self)
    obtain ⟨q, ran, kind, reduces⟩ :=
      ih (fun name mem => known name (List.mem_cons_of_mem _ mem)) (pass.run p)
    refine ⟨q, ?_, kind, (runOps_reduces pass p.ops).trans reduces⟩
    rw [List.foldlM_cons, runNamed, found]
    exact ran

end Pass
end LazyCast
