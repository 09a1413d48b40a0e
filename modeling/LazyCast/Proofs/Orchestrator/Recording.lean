import LazyCast.Proofs.Orchestrator.Continuing
import LazyCast.Proofs.Orchestrator.Routed
import LazyCast.Proofs.Orchestrator.Scheduling
import LazyCast.Session.Casting
/-!
Member casts in a run. Where no sub-compiler claims their opcode, they are the evaluator's, and a run
that succeeds has recorded every one of its ledger.
-/
namespace LazyCast

theorem Classical.stepCause_keeps {op : NativeOp} {s after : EvalState}
    (ok : stepCause op s = .ok after) {c : MemberCast} (mem : c ∈ s.memberCasts) :
    c ∈ after.memberCasts := by
  unfold stepCause at ok
  split at ok
  · cases ok
    exact mem
  · obtain ⟨ticket, _, rfl⟩ := Except.map_eq_ok.mp ok
    exact List.mem_append_left _ mem
  · obtain ⟨v, _, ok⟩ := Except.bind_eq_ok.mp ok
    obtain ⟨name, _, ok⟩ := Except.bind_eq_ok.mp ok
    cases ok
    exact mem

def Orchestrator.Asks (t : Nat) (op : Orchestrator.Scheduled) : Prop :=
  op.1.isClassical = true ∧ op.2.code = "cast" ∧ Classical.ticketOf op.2 = .ok t

theorem Classical.stepCause_records {op : NativeOp} {s after : EvalState} {t : Nat}
    (ok : stepCause op s = .ok after) (code : op.code = "cast") (ticket : ticketOf op = .ok t) :
    ∃ c ∈ after.memberCasts, c.ticket = t := by
  unfold stepCause at ok
  rw [code, ticket] at ok
  cases ok
  exact ⟨⟨t, op.qubits⟩, List.mem_append_right _ List.mem_cons_self, rfl⟩

namespace Orchestrator
variable {o : Orchestrator} {d : Drive} {t : Nat}

section Evaluating
variable {e : EvalState}

theorem eval_stage (start : d.eval = e) (p : Program) : (d.stage p).2.eval = e := by
  unfold Drive.stage
  split
  · exact start
  · dsimp only
    split
    · have marked : (d.markStaged p.kind).eval = d.eval := by
        unfold Drive.markStaged
        split <;> rfl
      refine keeps_andThen (P := fun d : Drive => d.eval = e) (marked.trans start) fun r d kept => ?_
      cases r <;> exact kept
    · exact start

theorem eval_flush (start : d.eval = e) : d.flush.2.eval = e := by
  unfold Drive.flush
  split
  · exact eval_stage (d := { d with segment := none }) start _
  · exact start

theorem eval_execute (start : d.eval = e) (kind : Kind) : (d.execute kind).2.eval = e := by
  unfold Drive.execute
  split
  · dsimp only
    split <;> exact start
  · exact start

theorem eval_openSegment (start : d.eval = e) (kind : Kind) : (d.openSegment kind).2.eval = e := by
  unfold Drive.openSegment
  split
  · exact start
  · refine keeps_andThen (P := fun d : Drive => d.eval = e) (eval_flush start) fun _ d kept => ?_
    refine keeps_andThen (P := fun d : Drive => d.eval = e) ?_ fun _ d kept => kept
    unfold Drive.executeBefore
    split
    · split
      · exact kept
      · exact eval_execute (d := { d with pending := none }) kept _
    · exact kept

theorem eval_finish (start : d.eval = e) : d.finish.2.eval = e := by
  refine keeps_andThen (P := fun d : Drive => d.eval = e) (eval_flush start) fun _ d kept => ?_
  split
  · exact eval_execute (d := { d with pending := none }) kept _
  · exact kept

end Evaluating

def Drive.Recorded (t : Nat) (d : Drive) : Prop := ∃ c ∈ d.eval.memberCasts, c.ticket = t

theorem eval_classicalStep (d : Drive) (op : NativeOp) :
    (d.classicalStep op).2.eval = d.eval ∧ (d.classicalStep op).1 ≠ .ok () ∨
      Classical.stepCause op d.eval = .ok (d.classicalStep op).2.eval := by
  have kept := eval_flush (d := d) rfl
  unfold Drive.classicalStep
  rcases flushed : d.flush with ⟨e | u, d'⟩ <;> rw [flushed] at kept
  · exact Or.inl ⟨kept, fun no => by cases no⟩
  · rw [Outcome.andThen_ok]
    dsimp only at kept ⊢
    unfold Evaluator.step
    rw [kept]
    cases Classical.stepCause op d.eval with
    | error cause => exact Or.inl ⟨kept, fun no => by cases no⟩
    | ok after => exact Or.inr rfl

theorem Drive.Recorded.step (recorded : d.Recorded t) (op : Scheduled) :
    (d.step op).2.Recorded t := by
  obtain ⟨c, mem, ticket⟩ := recorded
  refine ⟨c, ?_, ticket⟩
  unfold Drive.step
  split
  · rcases eval_classicalStep d op.2 with ⟨kept, _⟩ | stepped
    · rwa [kept]
    · exact Classical.stepCause_keeps stepped mem
  · have opened := eval_openSegment (d := d) rfl op.1
    have kept := keeps_andThen (P := fun d' : Drive => d'.eval = d.eval) (r := d.openSegment op.1)
      (f := fun _ d => (.ok (), { d with segment := d.segment.map fun p => p.push op.2 })) opened
      fun _ d kept => kept
    rwa [kept]

theorem Drive.Recorded.run (recorded : d.Recorded t) (ops : List Scheduled) :
    (d.run ops).2.Recorded t := by
  induction ops generalizing d with
  | nil =>
    unfold Recorded
    rw [Drive.run, eval_finish rfl]
    exact recorded
  | cons op rest ih =>
    exact keeps_andThen (P := Recorded t) (recorded.step op) fun _ d kept => ih kept

theorem andThen_eq_ok {σ α β : Type} {r : Outcome σ α} {f : α → σ → Outcome σ β} {b : β}
    (ok : (r.andThen f).1 = .ok b) : ∃ a s, r = (.ok a, s) ∧ (f a s).1 = .ok b := by
  obtain ⟨e | a, s⟩ := r
  · cases ok
  · exact ⟨a, s, rfl, ok⟩

theorem Drive.records {ops : List Scheduled} (ok : (d.run ops).1 = .ok ()) {op : Scheduled}
    (mem : op ∈ ops) (asks : Asks t op) : (d.run ops).2.Recorded t := by
  induction ops generalizing d with
  | nil => cases mem
  | cons next rest ih =>
    rw [Drive.run] at ok ⊢
    obtain ⟨u, d', stepped, later⟩ := andThen_eq_ok ok
    rw [stepped, Outcome.andThen_ok]
    rcases List.mem_cons.mp mem with rfl | mem
    · refine Recorded.run ?_ rest
      obtain ⟨classical, code, ticket⟩ := asks
      rw [Drive.step, if_pos classical] at stepped
      rcases eval_classicalStep d op.2 with ⟨_, failed⟩ | evaluated
      · exact absurd (by rw [stepped]) failed
      · rw [stepped] at evaluated
        exact Classical.stepCause_records evaluated code ticket
    · exact ih later mem

/-- Member casts are left to the evaluator of the classical kind: no sub-compiler claims them. -/
structure LeavesCasts (o : Orchestrator) : Prop where
  universal : o.capabilities.universal = o.classical.capabilities
  classical : o.classical.capabilities.kind.isClassical = true
  unclaimed : ∀ c ∈ o.capabilities.entries, c.supports "cast" = false

theorem LeavesCasts.kindSupports (leaves : o.LeavesCasts) {kind : Kind}
    (supports : o.capabilities.kindSupports kind "cast" = true) :
    kind = o.capabilities.universal.kind := by
  unfold CapabilityTable.kindSupports CapabilityTable.find? at supports
  split at supports
  · rename_i c found
    split at found
    · assumption
    · rw [leaves.unclaimed c (List.mem_of_find?_eq_some found)] at supports
      cases supports
  · cases supports

theorem LeavesCasts.executes (leaves : o.LeavesCasts) {host kind : Kind} {i : Instruction}
    (cast : i.opcode = "cast") (executes : o.capabilities.Executes host i kind) :
    kind = o.capabilities.universal.kind := by
  obtain ⟨route, resolved⟩ := executes
  unfold CapabilityTable.resolve at resolved
  rw [cast] at resolved
  split at resolved
  · rename_i embedded
    cases resolved
    exact leaves.kindSupports (Bool.and_eq_true_iff.mp embedded).2
  · split at resolved
    · rename_i native
      cases resolved
      exact leaves.kindSupports native
    · split at resolved
      · rename_i higher found
        have above := List.mem_of_find?_eq_some found
        have claims := List.find?_some found
        rw [leaves.unclaimed higher (List.mem_filter.mp above).1] at claims
        cases claims
      · split at resolved
        · cases resolved
          rfl
        · cases resolved

theorem lowerAll_ok {batches : List (Kind × List Instruction)} {programs : List Program}
    {left : Orchestrator} (lowered : o.lowerAll batches = (.ok programs, left))
    {batch : Kind × List Instruction} (mem : batch ∈ batches) :
    ∃ p ∈ programs, ∃ q, SameOffice o q ∧ (q.lower batch.1 batch.2).1 = .ok p := by
  induction batches generalizing o programs with
  | nil => cases mem
  | cons next rest ih =>
    have same := (continues_lower o next.1 next.2).1
    unfold lowerAll at lowered
    obtain ⟨p, q, first, later⟩ := andThen_eq_ok (congrArg Prod.fst lowered)
    rw [first] at same
    rw [first, Outcome.andThen_ok] at lowered
    rcases rested : q.lowerAll rest with ⟨e | ps, left'⟩
    · rw [rested] at later
      cases later
    · rw [rested] at lowered
      cases lowered
      rcases List.mem_cons.mp mem with rfl | mem
      · exact ⟨p, List.mem_cons_self, o, .refl o, by rw [first]⟩
      · obtain ⟨p', among, q', office, made⟩ := ih rested mem
        exact ⟨p', List.mem_cons_of_mem p among, q', same.trans office, made⟩

theorem asks_of_ticket {i : Instruction} (ticket : Session.ticketOf? i = some t) {kind : Kind}
    (classical : kind.isClassical = true) :
    i.opcode = "cast" ∧ Asks t (kind, .plain i.seq i.opcode i.operands) := by
  unfold Session.ticketOf? at ticket
  split at ticket
  · rename_i code
    refine ⟨code, classical, code, ?_⟩
    split at ticket
    · rename_i n rest operands
      obtain ⟨u, fits, rfl⟩ := Option.map_eq_some_iff.mp ticket
      simp only [Classical.ticketOf, Classical.argument, NativeOp.plain, operands,
        List.getElem?_cons_zero, bind, Except.bind, fits]
      rfl
    · cases ticket
  · cases ticket

theorem LeavesCasts.records (leaves : o.LeavesCasts) {l : FrozenLedger} {output : RunOutput}
    (ran : (o.run l).1 = .ok output) {i : Instruction} (mem : i ∈ l.instructions)
    (ticket : Session.ticketOf? i = some t) :
    output.memberCasts.any (fun c => decide (c.ticket = t)) = true := by
  have classical : o.capabilities.universal.kind.isClassical = true :=
    leaves.universal ▸ leaves.classical
  obtain ⟨cast, asks⟩ := asks_of_ticket ticket classical
  unfold Orchestrator.run at ran
  dsimp only at ran
  split at ran
  · cases ran
  · split at ran
    · cases ran
    · rename_i routing routed
      obtain ⟨programs, left, lowered, executed⟩ := andThen_eq_ok ran
      obtain ⟨batch, among, inside, executes⟩ := (mem_partition routed).2 i mem
      obtain ⟨p, has, q, office, made⟩ := lowerAll_ok lowered among
      rw [leaves.executes cast executes, lower, if_pos classical, office.classical] at made
      obtain ⟨ops, each, rfl⟩ := Except.map_eq_ok.mp made
      obtain ⟨op, listed, one⟩ := (Except.mapM_eq_ok each).1 i inside
      have plain : op = .plain i.seq i.opcode i.operands := by
        unfold Evaluator.lowerOne at one
        split at one
        · obtain ⟨_, _, rfl⟩ := Except.map_eq_ok.mp one
          rfl
        · cases one
      rw [plain] at listed
      have scheduled : (o.classical.capabilities.kind, _) ∈ schedule programs :=
        mem_schedule.mpr ⟨_, has, rfl, listed⟩
      rw [leaves.universal] at asks
      unfold execute at executed
      obtain ⟨done, ok, rfl⟩ := Except.map_eq_ok.mp executed
      obtain ⟨c, recorded, same⟩ := Drive.records ok scheduled asks
      exact List.any_eq_true.mpr ⟨c, recorded, decide_eq_true same⟩

end Orchestrator
end LazyCast
