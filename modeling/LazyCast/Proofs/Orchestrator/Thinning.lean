import LazyCast.Proofs.Orchestrator.Runs
/-!
Schedules with operations left out. As long as the classical ones stay, the others are bound as
before, although they may come to stand in other runs.
-/
namespace LazyCast.Orchestrator

def boundFrom (e : Evaluator) (eval : EvalState) : List Scheduled → Except Fault (List Scheduled)
  | [] => .ok []
  | op :: rest =>
    if op.1.isClassical then (e.step op.2 eval).bind fun eval => boundFrom e eval rest
    else
      ((Program.mk op.1 [op.2]).bind eval.registers).bind fun bound =>
        (boundFrom e eval rest).map fun ops => tagged bound ++ ops

section Bound
variable {e : Evaluator} {eval : EvalState} {current : Option Program}

theorem tagged_extend {p q : Program} (kind : p.kind = q.kind) :
    tagged (p.extend q) = tagged p ++ tagged q := by
  simp [tagged, Program.extend, kind]

theorem flatMap_runsFrom (e : Evaluator) (eval : EvalState) (current : Option Program)
    (ops : List Scheduled) :
    (runsFrom e eval current ops).map (fun runs => runs.flatMap tagged) =
      (boundFrom e eval ops).map fun bound => current.toList.flatMap tagged ++ bound := by
  induction ops generalizing eval current with
  | nil => simp [runsFrom, boundFrom, Except.map]
  | cons op rest ih =>
    cases needed : op.1.isClassical with
    | true =>
      rw [runsFrom, boundFrom, needed, if_pos rfl, if_pos rfl]
      cases e.step op.2 eval with
      | error f => rfl
      | ok eval => exact ih eval current
    | false =>
      have joined : ∀ current : Option Program, (∀ p, current = some p → p.kind = op.1) →
          (runsFrom e eval current (op :: rest)).map (fun runs => runs.flatMap tagged) =
            (boundFrom e eval (op :: rest)).map fun bound =>
              current.toList.flatMap tagged ++ bound := by
        intro current joins
        rw [boundFrom, needed, if_neg Bool.false_ne_true]
        cases binds : (Program.mk op.1 [op.2]).bind eval.registers with
        | error f =>
          rw [runsFrom, needed, if_neg Bool.false_ne_true, binds]
          rfl
        | ok bound =>
          have kind : bound.kind = op.1 := Program.kind_bind binds
          rw [Scan.runsFrom_grown needed binds joins, ih]
          have grown : tagged ((current.getD (.empty bound.kind)).extend bound) =
              current.toList.flatMap tagged ++ tagged bound := by
            cases current with
            | none => simp [Program.empty_extend]
            | some p =>
              rw [Option.getD_some, tagged_extend ((joins p rfl).trans kind.symm)]
              simp
          cases boundFrom e eval rest with
          | error f => rfl
          | ok ops => simp [Except.map, Except.bind, grown]
      cases current with
      | none => exact joined none fun p no => by cases no
      | some p =>
        by_cases same : p.kind = op.1
        · exact joined (some p) fun q is => by cases is; exact same
        · have later := joined none fun q no => by cases no
          have before : ((runsFrom e eval none (op :: rest)).map fun runs => p :: runs).map
                (fun runs => runs.flatMap tagged) =
              ((runsFrom e eval none (op :: rest)).map fun runs => runs.flatMap tagged).map
                fun ops => tagged p ++ ops := by
            cases runsFrom e eval none (op :: rest) <;> rfl
          rw [Scan.runsFrom_turns needed same, before, later]
          cases boundFrom e eval (op :: rest) <;> simp [Except.map]

theorem boundFrom_classical {op : Scheduled} (classical : op.1.isClassical = true)
    (rest : List Scheduled) : boundFrom e eval (op :: rest) =
      (e.step op.2 eval).bind fun eval => boundFrom e eval rest := by
  rw [boundFrom, classical, if_pos rfl]

theorem boundFrom_needed {op : Scheduled} (needed : op.1.isClassical = false)
    (rest : List Scheduled) : boundFrom e eval (op :: rest) =
      ((Program.mk op.1 [op.2]).bind eval.registers).bind fun bound =>
        (boundFrom e eval rest).map fun ops => tagged bound ++ ops := by
  rw [boundFrom, needed, if_neg Bool.false_ne_true]

theorem boundFrom_needed_ok {op : Scheduled} (needed : op.1.isClassical = false)
    {rest ops : List Scheduled} (all : boundFrom e eval (op :: rest) = .ok ops) :
    ∃ bound left, (Program.mk op.1 [op.2]).bind eval.registers = .ok bound ∧
      boundFrom e eval rest = .ok left ∧ ops = tagged bound ++ left := by
  rw [boundFrom_needed needed] at all
  cases binds : (Program.mk op.1 [op.2]).bind eval.registers with
  | error f =>
    rw [binds] at all
    cases all
  | ok bound =>
    rw [binds] at all
    cases later : boundFrom e eval rest with
    | error f =>
      simp only [Except.bind, later] at all
      cases all
    | ok left =>
      simp only [Except.bind, later] at all
      cases all
      exact ⟨bound, left, rfl, rfl, rfl⟩

theorem boundFrom_of_runs {ops : List Scheduled} {runs : List Program}
    (planned : runsFrom e eval none ops = .ok runs) :
    boundFrom e eval ops = .ok (runs.flatMap tagged) := by
  have whole := flatMap_runsFrom e eval none ops
  rw [planned] at whole
  cases all : boundFrom e eval ops with
  | error f =>
    rw [all] at whole
    cases whole
  | ok bound =>
    rw [all] at whole
    exact congrArg Except.ok (Except.ok.inj whole).symm

theorem runs_of_boundFrom {ops bound : List Scheduled} (all : boundFrom e eval ops = .ok bound) :
    ∃ runs, runsFrom e eval none ops = .ok runs ∧ runs.flatMap tagged = bound := by
  have whole := flatMap_runsFrom e eval none ops
  rw [all] at whole
  cases planned : runsFrom e eval none ops with
  | error f =>
    rw [planned] at whole
    cases whole
  | ok runs =>
    rw [planned] at whole
    exact ⟨runs, rfl, Except.ok.inj whole⟩

inductive Thins : List Scheduled → List Scheduled → Prop where
  | nil : Thins [] []
  | keep (op : Scheduled) {xs ys : List Scheduled} (rest : Thins xs ys) :
      Thins (op :: xs) (op :: ys)
  | drop {op : Scheduled} (needed : op.1.isClassical = false) {xs ys : List Scheduled}
      (rest : Thins xs ys) : Thins (op :: xs) ys

theorem thins_of_sublist {xs ys : List Scheduled} (sublist : ys.Sublist xs)
    (classical : (ys.filter fun op => op.1.isClassical) = xs.filter fun op => op.1.isClassical) :
    Thins xs ys := by
  induction sublist with
  | slnil => exact .nil
  | @cons ys xs op sublist ih =>
    cases needed : op.1.isClassical with
    | true =>
      have longer := (sublist.filter fun op => op.1.isClassical).length_le
      rw [classical, List.filter_cons, needed, if_pos rfl, List.length_cons] at longer
      exact absurd longer (Nat.not_succ_le_self _)
    | false =>
      rw [List.filter_cons, needed, if_neg Bool.false_ne_true] at classical
      exact .drop needed (ih classical)
  | @cons_cons ys xs op sublist ih =>
    refine .keep op (ih ?_)
    rw [List.filter_cons, List.filter_cons] at classical
    split at classical
    · exact List.tail_eq_of_cons_eq classical
    · exact classical

theorem Thins.sublist {xs ys : List Scheduled} (thins : Thins xs ys) : ys.Sublist xs := by
  induction thins with
  | nil => exact List.Sublist.refl _
  | keep op _ ih => exact ih.cons_cons op
  | drop _ _ ih => exact ih.cons _

theorem Thins.classical {xs ys : List Scheduled} (thins : Thins xs ys) :
    (ys.filter fun op => op.1.isClassical) = xs.filter fun op => op.1.isClassical := by
  induction thins with
  | nil => rfl
  | keep op _ ih => rw [List.filter_cons, List.filter_cons, ih]
  | drop needed _ ih => rw [List.filter_cons, needed, if_neg Bool.false_ne_true, ih]

theorem Thins.bound {xs ys : List Scheduled} (thins : Thins xs ys) {ops : List Scheduled}
    (bound : boundFrom e eval xs = .ok ops) :
    ∃ left, boundFrom e eval ys = .ok left ∧ left.Sublist ops := by
  induction thins generalizing eval ops with
  | nil => exact ⟨ops, bound, List.Sublist.refl ops⟩
  | keep op rest ih =>
    cases needed : op.1.isClassical with
    | true =>
      rw [boundFrom_classical needed] at bound ⊢
      cases evaluated : e.step op.2 eval with
      | error f =>
        rw [evaluated] at bound
        cases bound
      | ok eval' =>
        rw [evaluated] at bound
        exact ih bound
    | false =>
      obtain ⟨b, ops, binds, later, rfl⟩ := boundFrom_needed_ok needed bound
      obtain ⟨left, thinned, sublist⟩ := ih later
      refine ⟨tagged b ++ left, ?_, (List.Sublist.refl _).append sublist⟩
      rw [boundFrom_needed needed, binds, thinned]
      rfl
  | drop needed rest ih =>
    obtain ⟨b, ops, _, later, rfl⟩ := boundFrom_needed_ok needed bound
    obtain ⟨left, thinned, sublist⟩ := ih later
    exact ⟨left, thinned, sublist.trans (List.sublist_append_right _ _)⟩

theorem Thins.runs {xs ys : List Scheduled} (thins : Thins xs ys) {runs : List Program}
    (planned : runsFrom e eval none xs = .ok runs) :
    ∃ left, runsFrom e eval none ys = .ok left ∧
      (left.flatMap tagged).Sublist (runs.flatMap tagged) := by
  obtain ⟨left, thinned, sublist⟩ := thins.bound (boundFrom_of_runs planned)
  obtain ⟨runs', plan, rfl⟩ := runs_of_boundFrom thinned
  exact ⟨runs', plan, sublist⟩

end Bound

/-- The last of some programs that is of a kind. -/
def lastOf (kind : Kind) (runs : List Program) : Option Program :=
  (runs.filter fun p => decide (p.kind = kind)).getLast?

theorem mem_of_lastOf {kind : Kind} {runs : List Program} {p : Program}
    (last : lastOf kind runs = some p) : p ∈ runs ∧ p.kind = kind := by
  simpa using List.mem_filter.mp (List.mem_of_getLast? last)

section Last
variable {e : Evaluator} {eval : EvalState} {current : Option Program} {kind : Kind}

inductive Runs (e : Evaluator) :
    EvalState → Option Program → List Scheduled → List Program → Prop where
  | ended (eval : EvalState) (current : Option Program) : Runs e eval current [] current.toList
  | evaluates {eval eval' : EvalState} {current : Option Program} {op : Scheduled}
      {rest : List Scheduled} {runs : List Program} (classical : op.1.isClassical = true)
      (evaluated : e.step op.2 eval = .ok eval') (later : Runs e eval' current rest runs) :
      Runs e eval current (op :: rest) runs
  | joins {eval : EvalState} {current : Option Program} {op : Scheduled} {bound : Program}
      {rest : List Scheduled} {runs : List Program} (needed : op.1.isClassical = false)
      (binds : (Program.mk op.1 [op.2]).bind eval.registers = .ok bound)
      (joins : ∀ p, current = some p → p.kind = op.1)
      (later : Runs e eval (some ((current.getD (.empty bound.kind)).extend bound)) rest runs) :
      Runs e eval current (op :: rest) runs
  | turns {eval : EvalState} {p : Program} {op : Scheduled} {rest : List Scheduled}
      {runs : List Program} (needed : op.1.isClassical = false) (other : p.kind ≠ op.1)
      (later : Runs e eval none (op :: rest) runs) : Runs e eval (some p) (op :: rest) (p :: runs)

theorem runs_of_planned {ops : List Scheduled} {runs : List Program}
    (planned : runsFrom e eval current ops = .ok runs) : Runs e eval current ops runs := by
  induction ops generalizing eval current runs with
  | nil =>
    cases planned
    exact .ended eval current
  | cons op rest ih =>
    cases needed : op.1.isClassical with
    | true =>
      rw [runsFrom, needed, if_pos rfl] at planned
      cases evaluated : e.step op.2 eval with
      | error f =>
        rw [evaluated] at planned
        cases planned
      | ok eval' =>
        rw [evaluated] at planned
        exact .evaluates needed evaluated (ih planned)
    | false =>
      have joined : ∀ current runs, (∀ p, current = some p → p.kind = op.1) →
          runsFrom e eval current (op :: rest) = .ok runs →
          Runs e eval current (op :: rest) runs := by
        intro current runs joins planned
        cases binds : (Program.mk op.1 [op.2]).bind eval.registers with
        | error f =>
          rw [runsFrom, needed, if_neg Bool.false_ne_true, binds] at planned
          cases planned
        | ok bound =>
          rw [Scan.runsFrom_grown needed binds joins] at planned
          exact .joins needed binds joins (ih planned)
      by_cases joins : ∀ p, current = some p → p.kind = op.1
      · exact joined current runs joins planned
      · obtain ⟨p, turns⟩ := Classical.not_forall.mp joins
        obtain ⟨rfl, other⟩ := Classical.not_imp.mp turns
        rw [Scan.runsFrom_turns needed other] at planned
        cases later : runsFrom e eval none (op :: rest) with
        | error f =>
          rw [later] at planned
          cases planned
        | ok runs' =>
          rw [later] at planned
          cases planned
          exact .turns needed other (joined none runs' (fun p no => by cases no) later)

theorem Runs.without {ops : List Scheduled} {runs : List Program}
    (r : Runs e eval current ops runs) (without : ∀ op ∈ ops, op.1 ≠ kind) :
    runs.filter (fun p => decide (p.kind = kind)) =
      current.toList.filter fun p => decide (p.kind = kind) := by
  induction r with
  | ended eval current => rfl
  | evaluates classical evaluated later ih =>
    exact ih fun op mem => without op (List.mem_cons_of_mem _ mem)
  | @joins eval current op bound rest runs needed binds joins later ih =>
    have other : op.1 ≠ kind := without op List.mem_cons_self
    have ofOp : bound.kind = op.1 := Program.kind_bind binds
    rw [ih fun op mem => without op (List.mem_cons_of_mem _ mem)]
    cases current with
    | none =>
      rw [Option.getD_none, Program.empty_extend]
      simp [ofOp, other]
    | some p =>
      have ofRun : (p.extend bound).kind = op.1 := joins p rfl
      simp [joins p rfl, ofRun, other]
  | turns needed different later ih =>
    rw [List.filter_cons, ih without]
    simp [List.filter_cons]

theorem Runs.kinds {ops : List Scheduled} {runs : List Program} (r : Runs e eval current ops runs) :
    ∀ p ∈ runs, (∃ q, current = some q ∧ q.kind = p.kind) ∨
      ∃ op ∈ ops, op.1 = p.kind ∧ op.1.isClassical = false := by
  induction r with
  | ended eval current =>
    intro p mem
    exact Or.inl ⟨p, Option.mem_toList.mp mem, rfl⟩
  | evaluates _ _ _ ih =>
    intro p mem
    rcases ih p mem with open_ | ⟨op, among, kind⟩
    · exact Or.inl open_
    · exact Or.inr ⟨op, List.mem_cons_of_mem _ among, kind⟩
  | @joins eval current op bound rest runs needed binds joins _ ih =>
    intro p mem
    rcases ih p mem with ⟨q, same, kind⟩ | ⟨x, among, kind⟩
    · cases same
      have ofOp : bound.kind = op.1 := Program.kind_bind binds
      refine Or.inr ⟨op, List.mem_cons_self, ?_, needed⟩
      cases current with
      | none => exact ofOp.symm.trans kind
      | some q => exact (joins q rfl).symm.trans kind
    · exact Or.inr ⟨x, List.mem_cons_of_mem _ among, kind⟩
  | @turns eval q op rest runs _ _ _ ih =>
    intro p mem
    rcases List.mem_cons.mp mem with rfl | mem
    · exact Or.inl ⟨p, rfl, rfl⟩
    · rcases ih p mem with ⟨_, none, _⟩ | later
      · cases none
      · exact Or.inr later

/-- The scheduled operation `m` is bound into an open run `q`, and the rest is scanned with `q`
open. -/
theorem Runs.joined {ops before after : List Scheduled} {m : Scheduled} {runs : List Program}
    (r : Runs e eval current ops runs) (split : ops = before ++ m :: after)
    (needed : m.1.isClassical = false) :
    ∃ eval' q bound front back,
      (Program.mk m.1 [m.2]).bind eval'.registers = .ok bound ∧ q.kind = m.1 ∧
      (∀ op ∈ bound.ops, op ∈ q.ops) ∧ runs = front ++ back ∧
      Runs e eval' (some q) after back := by
  induction r generalizing before with
  | ended eval current => simp at split
  | evaluates classical evaluated later ih =>
    cases before with
    | nil =>
      cases split
      rw [classical] at needed
      cases needed
    | cons b before =>
      cases split
      exact ih rfl
  | @joins eval current op bound rest runs _ binds joins later ih =>
    cases before with
    | nil =>
      cases split
      have kind : bound.kind = m.1 := Program.kind_bind binds
      have ofKind : ((current.getD (.empty bound.kind)).extend bound).kind = m.1 := by
        cases current with
        | none => exact kind
        | some p => exact joins p rfl
      exact ⟨eval, _, bound, [], runs, binds, ofKind,
        fun op mem => List.mem_append_right _ mem, rfl, later⟩
    | cons b before =>
      cases split
      exact ih rfl
  | @turns eval p op rest runs _ _ later ih =>
    obtain ⟨eval', q, bound, front, back, binds, kind, inside, parts, rest⟩ := ih split
    exact ⟨eval', q, bound, p :: front, back, binds, kind, inside, by rw [parts, List.cons_append],
      rest⟩

theorem Runs.last {ops before after : List Scheduled} {m : Scheduled} {runs : List Program}
    (r : Runs e eval current ops runs) (split : ops = before ++ m :: after)
    (needed : m.1.isClassical = false) (without : ∀ op ∈ after, op.1 ≠ m.1) :
    ∃ p registers bound, lastOf m.1 runs = some p ∧
      (Program.mk m.1 [m.2]).bind registers = .ok bound ∧ ∀ op ∈ bound.ops, op ∈ p.ops := by
  obtain ⟨eval', q, bound, front, back, binds, kind, inside, rfl, rest⟩ := r.joined split needed
  refine ⟨q, eval'.registers, bound, ?_, binds, inside⟩
  rw [lastOf, List.filter_append, rest.without without]
  simp [kind]

theorem Runs.ends {ops before : List Scheduled} {m : Scheduled} {runs : List Program}
    (r : Runs e eval current ops runs) (split : ops = before ++ [m])
    (needed : m.1.isClassical = false) :
    ∃ p registers bound, runs.getLast? = some p ∧ p.kind = m.1 ∧
      (Program.mk m.1 [m.2]).bind registers = .ok bound ∧ ∀ op ∈ bound.ops, op ∈ p.ops := by
  obtain ⟨eval', q, bound, front, back, binds, kind, inside, rfl, rest⟩ := r.joined split needed
  cases rest with
  | ended =>
    exact ⟨q, eval'.registers, bound, List.getLast?_concat, kind, binds, inside⟩

end Last
end LazyCast.Orchestrator
