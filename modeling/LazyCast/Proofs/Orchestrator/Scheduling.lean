import LazyCast.Proofs.Orchestrator.Thinning
import LazyCast.Proofs.Passes.Reduction
/-!
Schedules in ledger order. Sorting is stable, so operations that are left out of the programs are
left out of the schedule, and all others stay in their order.
-/
namespace LazyCast.Orchestrator

section Sorting
variable {α : Type} {le : α → α → Bool}

theorem filter_mergeSort_cons {a : α} {before after : List α}
    (sorted : (before ++ a :: after).Pairwise fun a b => le a b = true)
    (less : ∀ b ∈ before, (!le a b) = true) :
    (before ++ after).filter (fun b => !le a b) = before ∧
      (before ++ after).filter (fun b => le a b) = after := by
  have greater : ∀ b ∈ after, le a b = true :=
    (List.pairwise_cons.mp (List.pairwise_append.mp sorted).2.1).1
  have less' : ∀ b ∈ before, ¬ le a b = true := by
    intro b mem le
    have no := less b mem
    rw [le] at no
    cases no
  rw [List.filter_append, List.filter_append]
  refine ⟨?_, ?_⟩
  · rw [List.filter_eq_self.mpr less, List.filter_eq_nil_iff.mpr fun b mem => by simp [greater b mem],
      List.append_nil]
  · rw [List.filter_eq_self.mpr greater, List.filter_eq_nil_iff.mpr less', List.nil_append]

theorem mergeSort_sublist (trans : ∀ a b c, le a b = true → le b c = true → le a c = true)
    (total : ∀ a b, (le a b || le b a) = true) {xs ys : List α} (sublist : ys.Sublist xs) :
    (ys.mergeSort le).Sublist (xs.mergeSort le) := by
  induction sublist with
  | slnil => exact List.Sublist.refl _
  | @cons ys xs a _ ih =>
    obtain ⟨before, after, sorted, whole, _⟩ := List.mergeSort_cons trans total a xs
    rw [sorted]
    rw [whole] at ih
    exact ih.trans ((List.Sublist.refl before).append (List.sublist_cons_self a after))
  | @cons_cons ys xs a _ ih =>
    obtain ⟨before, after, sorted, whole, less⟩ := List.mergeSort_cons trans total a ys
    obtain ⟨before', after', sorted', whole', less'⟩ := List.mergeSort_cons trans total a xs
    have order := List.pairwise_mergeSort trans total (a :: ys)
    have order' := List.pairwise_mergeSort trans total (a :: xs)
    rw [sorted] at order ⊢
    rw [sorted'] at order' ⊢
    rw [whole, whole'] at ih
    obtain ⟨low, high⟩ := filter_mergeSort_cons order less
    obtain ⟨low', high'⟩ := filter_mergeSort_cons order' less'
    have first := ih.filter fun b => !le a b
    have second := ih.filter fun b => le a b
    rw [low, low'] at first
    rw [high, high'] at second
    exact first.append (second.cons_cons a)

theorem filter_mergeSort (trans : ∀ a b c, le a b = true → le b c = true → le a c = true)
    (total : ∀ a b, (le a b || le b a) = true) (p : α → Bool) (xs : List α) :
    (xs.mergeSort le).filter p = (xs.filter p).mergeSort le := by
  have part := (mergeSort_sublist trans total (List.filter_sublist : (xs.filter p).Sublist xs)).filter p
  have all : ((xs.filter p).mergeSort le).filter p = (xs.filter p).mergeSort le :=
    List.filter_eq_self.mpr fun a mem => (List.mem_filter.mp (List.mem_mergeSort.mp mem)).2
  rw [all] at part
  refine (part.eq_of_length ?_).symm
  rw [List.length_mergeSort]
  exact ((List.mergeSort_perm xs le).filter p).length_eq.symm

end Sorting

theorem seq_trans (a b c : Scheduled) (first : decide (a.2.seq ≤ b.2.seq) = true)
    (second : decide (b.2.seq ≤ c.2.seq) = true) : decide (a.2.seq ≤ c.2.seq) = true := by
  simp only [decide_eq_true_eq] at first second ⊢
  exact Nat.le_trans first second

theorem seq_total (a b : Scheduled) :
    (decide (a.2.seq ≤ b.2.seq) || decide (b.2.seq ≤ a.2.seq)) = true := by
  simp only [Bool.or_eq_true, decide_eq_true_eq]
  exact Nat.le_total _ _

theorem schedule_sorted (programs : List Program) :
    (schedule programs).Pairwise fun a b => a.2.seq ≤ b.2.seq :=
  (List.pairwise_mergeSort seq_trans seq_total _).imp fun le => of_decide_eq_true le

theorem mem_schedule {programs : List Program} {op : Scheduled} :
    op ∈ schedule programs ↔ ∃ p ∈ programs, op.1 = p.kind ∧ op.2 ∈ p.ops := by
  rw [schedule, List.mem_mergeSort, List.mem_flatMap]
  refine exists_congr fun p => and_congr_right fun _ => ?_
  rw [tagged, List.mem_map]
  constructor
  · rintro ⟨op, mem, rfl⟩
    exact ⟨rfl, mem⟩
  · rintro ⟨kind, mem⟩
    exact ⟨op.2, mem, Prod.ext kind.symm rfl⟩

theorem schedule_of_ordered {programs : List Program}
    (ordered : (programs.flatMap tagged).Pairwise fun a b => decide (a.2.seq ≤ b.2.seq) = true) :
    schedule programs = programs.flatMap tagged :=
  List.mergeSort_of_pairwise ordered

theorem run_of_ordered {o : Orchestrator} {l : FrozenLedger} (routing : RoutingPlan)
    (programs : List Program) (present : (l.kinds.elems.find? fun k => !o.plan.contains k) = none)
    (routed : o.capabilities.plan l.dominantKind l.instructions = .ok routing)
    (lowered : (o.lowerAll (routing.partition l.instructions).entries).1 = .ok programs)
    (ordered : (programs.flatMap tagged).Pairwise fun a b => decide (a.2.seq ≤ b.2.seq) = true) :
    o.run l = (o.lowerAll (routing.partition l.instructions).entries).2.execute l.dominantKind
      (programs.flatMap tagged) := by
  unfold run
  rw [present]
  dsimp only
  rw [routed]
  dsimp only
  rw [← schedule_of_ordered ordered]
  generalize o.lowerAll _ = r at lowered
  obtain ⟨r, left⟩ := r
  cases lowered
  rfl

section Only
variable {programs : List Program} {p : Program}

theorem only_of_nodup (nodup : (programs.map Program.kind).Nodup) (mem : p ∈ programs) :
    (programs.filter fun q => decide (q.kind = p.kind)) = [p] := by
  induction programs with
  | nil => cases mem
  | cons q qs ih =>
    rw [List.map_cons, List.nodup_cons] at nodup
    obtain ⟨fresh, nodup⟩ := nodup
    rcases List.mem_cons.mp mem with rfl | mem
    · have none : (qs.filter fun q => decide (q.kind = p.kind)) = [] := by
        refine List.filter_eq_nil_iff.mpr fun q among => ?_
        have other : q.kind ≠ p.kind := fun same => fresh (same ▸ List.mem_map_of_mem among)
        simpa using other
      simp [none]
    · have other : q.kind ≠ p.kind := fun same => fresh (same ▸ List.mem_map_of_mem mem)
      simpa [other] using ih nodup mem

theorem filter_tagged (kind : Kind) (programs : List Program) :
    ((programs.flatMap tagged).filter fun op => decide (op.1 = kind)) =
      (programs.filter fun q => decide (q.kind = kind)).flatMap tagged := by
  induction programs with
  | nil => rfl
  | cons q qs ih =>
    rw [List.flatMap_cons, List.filter_append, ih, List.filter_cons]
    by_cases same : q.kind = kind
    · have all : ((tagged q).filter fun op => decide (op.1 = kind)) = tagged q :=
        List.filter_eq_self.mpr fun op mem => by
          obtain ⟨_, _, rfl⟩ := List.mem_map.mp mem
          simpa using same
      simp [all, same]
    · have none : ((tagged q).filter fun op => decide (op.1 = kind)) = [] :=
        List.filter_eq_nil_iff.mpr fun op mem => by
          obtain ⟨_, _, rfl⟩ := List.mem_map.mp mem
          simpa using same
      simp [none, same]

theorem schedule_only (nodup : (programs.map Program.kind).Nodup) (mem : p ∈ programs)
    (sorted : p.ops.Pairwise fun a b => a.seq ≤ b.seq) :
    ((schedule programs).filter fun op => decide (op.1 = p.kind)) = tagged p := by
  have order : (tagged p).Pairwise fun a b => decide (a.2.seq ≤ b.2.seq) = true := by
    refine List.pairwise_map.mpr (sorted.imp fun le => ?_)
    simpa using le
  rw [schedule, filter_mergeSort seq_trans seq_total, filter_tagged, only_of_nodup nodup mem,
    List.flatMap_singleton, List.mergeSort_of_pairwise order]

end Only

structure Trims (p q : Program) : Prop where
  kind : q.kind = p.kind
  reduces : Reduces p.ops q.ops
  classical : p.kind.isClassical = true → q = p

abbrev Trimmed : List Program → List Program → Prop := List.Forall₂ Trims

theorem Trimmed.sublist {ps qs : List Program} (trimmed : Trimmed ps qs) :
    (qs.flatMap tagged).Sublist (ps.flatMap tagged) := by
  induction trimmed with
  | nil => exact List.Sublist.refl _
  | cons trims _ ih =>
    rw [List.flatMap_cons, List.flatMap_cons, tagged, tagged, trims.kind]
    exact (trims.reduces.sublist.map _).append ih

theorem Trimmed.classical {ps qs : List Program} (trimmed : Trimmed ps qs) :
    ((qs.flatMap tagged).filter fun op => op.1.isClassical) =
      (ps.flatMap tagged).filter fun op => op.1.isClassical := by
  induction trimmed with
  | nil => rfl
  | @cons p q ps qs trims _ ih =>
    rw [List.flatMap_cons, List.flatMap_cons, List.filter_append, List.filter_append, ih]
    congr 1
    cases classical : p.kind.isClassical with
    | true => rw [trims.classical classical]
    | false =>
      have none : ∀ r : Program, r.kind = p.kind →
          ((tagged r).filter fun op => op.1.isClassical) = [] := by
        intro r same
        refine List.filter_eq_nil_iff.mpr fun op mem => ?_
        obtain ⟨_, _, rfl⟩ := List.mem_map.mp mem
        simp [same, classical]
      rw [none q trims.kind, none p rfl]

theorem Trimmed.kinds {ps qs : List Program} (trimmed : Trimmed ps qs) :
    qs.map Program.kind = ps.map Program.kind := by
  induction trimmed with
  | nil => rfl
  | cons trims _ ih => rw [List.map_cons, List.map_cons, trims.kind, ih]

theorem Trimmed.schedule {ps qs : List Program} (trimmed : Trimmed ps qs) :
    Thins (schedule ps) (schedule qs) := by
  have sublist := mergeSort_sublist seq_trans seq_total trimmed.sublist
  refine thins_of_sublist sublist ((sublist.filter _).eq_of_length ?_)
  have count := fun ps : List Program =>
    ((List.mergeSort_perm (ps.flatMap tagged) fun a b => decide (a.2.seq ≤ b.2.seq)).filter
      fun op => op.1.isClassical).length_eq
  exact (count qs).trans ((congrArg List.length trimmed.classical).trans (count ps).symm)

end LazyCast.Orchestrator
