import LazyCast.Proofs.Orchestrator.Binding
import LazyCast.Proofs.Orchestrator.Scheduling
/-!
Schedules of one host. Where all operations but the classical ones are the host's, they come to one
run, and what an operation is bound to depends only on the classical operations before it.
-/
namespace LazyCast.Orchestrator

def classicalOps (ops : List Scheduled) : List NativeOp :=
  (ops.filter fun op => op.1.isClassical).map Prod.snd

def opsOf (kind : Kind) (ops : List Scheduled) : List NativeOp :=
  (ops.filter fun op => decide (op.1 = kind)).map Prod.snd

section Splitting
variable {host : Kind} {op : Scheduled}

theorem classicalOps_cons (classical : op.1.isClassical = true) (ops : List Scheduled) :
    classicalOps (op :: ops) = op.2 :: classicalOps ops := by
  simp [classicalOps, classical]

theorem classicalOps_cons_needed (needed : op.1.isClassical = false) (ops : List Scheduled) :
    classicalOps (op :: ops) = classicalOps ops := by
  simp [classicalOps, needed]

theorem opsOf_cons (same : op.1 = host) (ops : List Scheduled) :
    opsOf host (op :: ops) = op.2 :: opsOf host ops := by
  simp [opsOf, same]

theorem opsOf_cons_classical (needed : host.isClassical = false)
    (classical : op.1.isClassical = true) (ops : List Scheduled) :
    opsOf host (op :: ops) = opsOf host ops := by
  have other : op.1 ≠ host := by
    intro same
    rw [same, needed] at classical
    cases classical
  simp [opsOf, other]

end Splitting

section Scheduled
variable {programs : List Program} {kind : Kind}

theorem opsOf_schedule {p : Program} (nodup : (programs.map Program.kind).Nodup)
    (mem : p ∈ programs) (sorted : p.ops.Pairwise fun a b => a.seq ≤ b.seq) :
    opsOf p.kind (schedule programs) = p.ops := by
  rw [opsOf, schedule_only nodup mem sorted]
  simp [tagged]

theorem opsOf_schedule_of_none (none : ∀ q ∈ programs, q.kind ≠ kind) :
    opsOf kind (schedule programs) = [] := by
  refine List.map_eq_nil_iff.mpr (List.filter_eq_nil_iff.mpr fun op mem => ?_)
  obtain ⟨q, among, same, _⟩ := mem_schedule.mp mem
  simpa [same] using none q among

theorem opsOf_schedule_cases {P : List NativeOp → Prop} (nodup : (programs.map Program.kind).Nodup)
    (one : ∀ p ∈ programs, p.kind = kind → (p.ops.Pairwise fun a b => a.seq ≤ b.seq) ∧ P p.ops)
    (none : (∀ q ∈ programs, q.kind ≠ kind) → P []) : P (opsOf kind (schedule programs)) := by
  by_cases some : ∃ p ∈ programs, p.kind = kind
  · obtain ⟨p, mem, rfl⟩ := some
    obtain ⟨sorted, holds⟩ := one p mem rfl
    rwa [opsOf_schedule nodup mem sorted]
  · have without : ∀ q ∈ programs, q.kind ≠ kind := fun q mem same => some ⟨q, mem, same⟩
    rw [opsOf_schedule_of_none without]
    exact none without

end Scheduled

def boundAt (e : Evaluator) (eval : EvalState) (classical : List NativeOp) (op : NativeOp) :
    List NativeOp :=
  match e.run eval (classical.filter fun c => decide (c.seq < op.seq)) with
  | .ok eval =>
    match Program.bindOp eval.registers op with
    | .ok bound => bound.toList
    | .error _ => []
  | .error _ => []

/-- Earlier and, where one of the two is classical, strictly so. -/
def Earlier (a b : Scheduled) : Prop :=
  a.2.seq ≤ b.2.seq ∧ (a.1.isClassical ≠ b.1.isClassical → a.2.seq < b.2.seq)

variable {e : Evaluator} {eval : EvalState} {host : Kind} {ops bound : List Scheduled}

section Before
variable {c op : NativeOp} {eval' : EvalState}

theorem run_before (before : c.seq < op.seq) (evaluated : e.step c eval = .ok eval')
    (classical : List NativeOp) :
    e.run eval ((c :: classical).filter fun c => decide (c.seq < op.seq)) =
      e.run eval' (classical.filter fun c => decide (c.seq < op.seq)) := by
  rw [List.filter_cons, if_pos (decide_eq_true before)]
  unfold Evaluator.run
  rw [List.foldlM_cons, evaluated]
  rfl

theorem none_before {classical : List NativeOp} (first : ∀ c ∈ classical, op.seq < c.seq) :
    classical.filter (fun c => decide (c.seq < op.seq)) = [] := by
  refine List.filter_eq_nil_iff.mpr fun c mem => ?_
  simpa using Nat.le_of_lt (first c mem)

theorem boundAt_before (before : c.seq < op.seq) (evaluated : e.step c eval = .ok eval')
    (classical : List NativeOp) :
    boundAt e eval (c :: classical) op = boundAt e eval' classical op := by
  unfold boundAt
  rw [run_before before evaluated]

theorem boundAt_first {x : Option NativeOp} {classical : List NativeOp}
    (first : ∀ c ∈ classical, op.seq < c.seq)
    (binds : Program.bindOp eval.registers op = .ok x) :
    boundAt e eval classical op = x.toList := by
  unfold boundAt
  rw [none_before first, Evaluator.run, List.foldlM_nil]
  change (match Program.bindOp eval.registers op with
    | .ok bound => bound.toList | .error _ => []) = _
  rw [binds]

end Before

theorem opsOf_later {op : Scheduled} (needed : host.isClassical = false)
    (classical : op.1.isClassical = true) (first : ∀ x ∈ ops, Earlier op x) :
    ∀ x ∈ opsOf host ops, op.2.seq < x.seq := by
  intro x mem
  obtain ⟨y, among, rfl⟩ := List.mem_map.mp mem
  obtain ⟨mem, ofHost⟩ := List.mem_filter.mp among
  have ofHost : y.1 = host := of_decide_eq_true ofHost
  refine (first y mem).2 ?_
  rw [classical, ofHost, needed]
  exact Bool.false_ne_true.symm

theorem classicalOps_later {op : Scheduled} (needed : op.1.isClassical = false)
    (first : ∀ x ∈ ops, Earlier op x) : ∀ c ∈ classicalOps ops, op.2.seq < c.seq := by
  intro c mem
  obtain ⟨y, among, rfl⟩ := List.mem_map.mp mem
  obtain ⟨mem, classical⟩ := List.mem_filter.mp among
  refine (first y mem).2 ?_
  rw [needed, classical]
  exact Bool.false_ne_true

structure Placed (e : Evaluator) (eval : EvalState) (host : Kind) (ops bound : List Scheduled) :
    Prop where
  all : bound.map Prod.snd = (opsOf host ops).flatMap (boundAt e eval (classicalOps ops))
  each : ∀ op ∈ opsOf host ops, ∃ registers x, Program.bindOp registers op = .ok x ∧
    boundAt e eval (classicalOps ops) op = x.toList

theorem Placed.evaluates {op : Scheduled} {eval' : EvalState}
    (placed : Placed e eval' host ops bound) (needed : host.isClassical = false)
    (classical : op.1.isClassical = true) (evaluated : e.step op.2 eval = .ok eval')
    (first : ∀ x ∈ ops, Earlier op x) : Placed e eval host (op :: ops) bound := by
  have moves : ∀ x ∈ opsOf host ops, boundAt e eval (op.2 :: classicalOps ops) x =
      boundAt e eval' (classicalOps ops) x := fun x mem =>
    boundAt_before (opsOf_later needed classical first x mem) evaluated _
  constructor
  · rw [opsOf_cons_classical needed classical, classicalOps_cons classical, placed.all]
    exact List.flatMap_congr fun x mem => (moves x mem).symm
  · rw [opsOf_cons_classical needed classical, classicalOps_cons classical]
    intro x mem
    obtain ⟨registers, y, binds, same⟩ := placed.each x mem
    exact ⟨registers, y, binds, (moves x mem).trans same⟩

theorem Placed.binds {op : NativeOp} {x : Option NativeOp} (placed : Placed e eval host ops bound)
    (needed : host.isClassical = false) (one : Program.bindOp eval.registers op = .ok x)
    (first : ∀ y ∈ ops, Earlier (host, op) y) :
    Placed e eval host ((host, op) :: ops) (tagged ⟨host, x.toList⟩ ++ bound) := by
  have host_cons : opsOf host ((host, op) :: ops) = op :: opsOf host ops := opsOf_cons rfl ops
  have classical_cons : classicalOps ((host, op) :: ops) = classicalOps ops :=
    classicalOps_cons_needed needed ops
  have here := boundAt_first (e := e) (classicalOps_later needed first) one
  constructor
  · rw [host_cons, classical_cons, List.flatMap_cons, here, ← placed.all, List.map_append]
    simp [tagged]
  · rw [host_cons, classical_cons]
    intro y mem
    rcases List.mem_cons.mp mem with rfl | mem
    · exact ⟨eval.registers, x, one, here⟩
    · exact placed.each y mem

theorem boundFrom_placed (needed : host.isClassical = false)
    (kinds : ∀ op ∈ ops, op.1 = host ∨ op.1.isClassical = true) (sorted : ops.Pairwise Earlier)
    (all : boundFrom e eval ops = .ok bound) : Placed e eval host ops bound := by
  induction ops generalizing eval bound with
  | nil =>
    cases all
    exact ⟨rfl, fun _ none => by cases none⟩
  | cons op rest ih =>
    obtain ⟨first, sorted⟩ := List.pairwise_cons.mp sorted
    have kinds' := fun x mem => kinds x (List.mem_cons_of_mem _ mem)
    rcases kinds op List.mem_cons_self with rfl | classical
    · obtain ⟨b, left, binds, later, rfl⟩ := boundFrom_needed_ok needed all
      obtain ⟨x, one, rfl⟩ := Program.bind_single.mp binds
      exact (ih kinds' sorted later).binds needed one first
    · rw [boundFrom_classical classical] at all
      cases evaluated : e.step op.2 eval with
      | error f =>
        rw [evaluated] at all
        cases all
      | ok eval' =>
        rw [evaluated] at all
        exact (ih kinds' sorted all).evaluates needed classical evaluated first

theorem Runs.length_le {current : Option Program} {runs : List Program}
    (r : Runs e eval current ops runs) (opened : ∀ p, current = some p → p.kind = host)
    (kinds : ∀ op ∈ ops, op.1 = host ∨ op.1.isClassical = true) : runs.length ≤ 1 := by
  induction r with
  | ended eval current => cases current <;> simp
  | evaluates _ _ _ ih => exact ih opened fun x mem => kinds x (List.mem_cons_of_mem _ mem)
  | @joins eval current op bound rest runs needed binds joins _ ih =>
    refine ih (fun p same => ?_) fun x mem => kinds x (List.mem_cons_of_mem _ mem)
    cases same
    cases current with
    | some q => exact opened q rfl
    | none =>
      have ofOp : bound.kind = op.1 := Program.kind_bind binds
      rcases kinds op List.mem_cons_self with ofHost | classical
      · exact ofOp.trans ofHost
      · cases needed.symm.trans classical
  | @turns eval p op rest runs needed different _ _ =>
    rcases kinds op List.mem_cons_self with ofHost | classical
    · exact absurd ((opened p rfl).trans ofHost.symm) different
    · cases needed.symm.trans classical

theorem runs_single {runs : List Program} {p : Program}
    (kinds : ∀ op ∈ ops, op.1 = host ∨ op.1.isClassical = true)
    (planned : runsOf e ops = .ok runs) (mem : p ∈ runs) : runs = [p] := by
  have few := (runs_of_planned planned).length_le (fun _ no => by cases no) kinds
  match runs, few, mem with
  | [q], _, mem => rw [List.mem_singleton.mp mem]

end LazyCast.Orchestrator
