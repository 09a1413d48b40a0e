import LazyCast.Proofs.Orchestrator.Staffing
/-!
What requests leave alone. Whatever comes of a run, the orchestrator keeps its office and its
workers; and only requests for an execution run anything.
-/
namespace LazyCast.Orchestrator
variable {o : Orchestrator}

def Continues (o p : Orchestrator) : Prop :=
  SameOffice o p ∧ ∀ kind, p.workers.contains kind = o.workers.contains kind

theorem Continues.refl (o : Orchestrator) : Continues o o := ⟨.refl o, fun _ => rfl⟩

theorem Continues.trans {p q : Orchestrator} (first : Continues o p) (second : Continues p q) :
    Continues o q :=
  ⟨first.1.trans second.1, fun kind => (second.2 kind).trans (first.2 kind)⟩

theorem ran_call (o : Orchestrator) (kind : Kind) {r : Request}
    (idle : ∀ session limit, r ≠ .execute session limit) : (o.call kind r).2.ran = o.ran := by
  cases found : o.workers.find? kind with
  | none => simp only [call, found]
  | some w =>
    rw [call_eq found]
    have none : (w.serve r).ran = none := by
      unfold Worker.serve
      split
      · cases r with
        | execute session limit => exact absurd rfl (idle session limit)
        | _ => rfl
      · rfl
    rw [ran_afterServing, none]
    exact List.append_nil _

theorem contains_insert {κ α : Type} [DecidableEq κ] [Key κ] (t : Table κ α) (k l : κ) (a : α) :
    (t.insert k a).contains l = (decide (l = k) || t.contains l) := by
  unfold Table.contains
  by_cases same : l = k
  · subst same
    simp [Table.find?_insert_self]
  · simp [Table.find?_insert_of_ne _ _ same, same]

theorem continues_call (o : Orchestrator) (kind : Kind) (r : Request) :
    Continues o (o.call kind r).2 := by
  cases found : o.workers.find? kind with
  | none =>
    simp only [call, found]
    exact .refl o
  | some w =>
    rw [call_eq found]
    refine ⟨sameOffice_afterServing o kind r w, fun other => ?_⟩
    rw [afterServing, contains_insert]
    by_cases same : other = kind
    · subst same
      simp [Table.contains, found]
    · simp [same]

theorem lower_through {R : Orchestrator → Orchestrator → Prop} (refl : ∀ o, R o o)
    (calls : ∀ o kind batch, R o (o.call kind (.lower batch)).2) (o : Orchestrator) (kind : Kind)
    (batch : List Instruction) : R o (o.lower kind batch).2 := by
  have called := calls o kind batch
  unfold lower
  split
  · exact refl o
  · rcases answer : o.call kind (.lower batch) with ⟨e | r, left⟩ <;> rw [answer] at called
    · exact called
    · cases r <;> exact called

/-- Lowering many batches is one request after the other, up to the first that fails. -/
theorem lowerAll_through {R : Orchestrator → Orchestrator → Prop} (refl : ∀ o, R o o)
    (trans : ∀ {o p q}, R o p → R p q → R o q)
    (calls : ∀ o kind batch, R o (o.call kind (.lower batch)).2) (o : Orchestrator)
    (batches : List (Kind × List Instruction)) : R o (o.lowerAll batches).2 := by
  induction batches generalizing o with
  | nil => exact refl o
  | cons batch rest ih =>
    have lowered := lower_through refl calls o batch.1 batch.2
    unfold lowerAll
    rcases answer : o.lower batch.1 batch.2 with ⟨e | p, left⟩ <;> rw [answer] at lowered
    · exact lowered
    · exact trans lowered (ih left)

theorem continues_lower (o : Orchestrator) (kind : Kind) (batch : List Instruction) :
    Continues o (o.lower kind batch).2 :=
  lower_through .refl (fun o kind _ => continues_call o kind _) o kind batch

theorem continues_lowerAll (o : Orchestrator) (batches : List (Kind × List Instruction)) :
    Continues o (o.lowerAll batches).2 :=
  lowerAll_through .refl .trans (fun o kind _ => continues_call o kind _) o batches

theorem ran_lowerAll (o : Orchestrator) (batches : List (Kind × List Instruction)) :
    (o.lowerAll batches).2.ran = o.ran :=
  lowerAll_through (R := fun o p => p.ran = o.ran) (fun _ => rfl)
    (fun first second => second.trans first)
    (fun o kind _ => ran_call o kind fun _ _ no => by cases no) o batches

theorem ran_closeAll (o : Orchestrator) (session : SessionId) (kinds : List Kind) :
    (o.closeAll session kinds).ran = o.ran := by
  unfold closeAll
  induction kinds generalizing o with
  | nil => rfl
  | cons kind rest ih =>
    exact (ih _).trans (ran_call o kind (r := .close session) fun _ _ no => by cases no)

theorem keeps_andThen {σ α β : Type} {P : σ → Prop} {r : Outcome σ α} {f : α → σ → Outcome σ β}
    (first : P r.2) (next : ∀ a s, P s → P (f a s).2) : P (r.andThen f).2 := by
  obtain ⟨e | a, s⟩ := r
  · exact first
  · exact next a s first

section Keeping
variable {P : Orchestrator → Prop} {d : Drive}

theorem tryExecute_keeps {σ : Type} {P : σ → Prop} (backoff : Nat) (kind : Kind)
    (ask : σ → Except Fault Response × σ) (keeps : ∀ s, P s → P (ask s).2) (left : Nat) (s : σ)
    (start : P s) : P (tryExecute backoff kind ask left s).link := by
  induction left generalizing s with
  | zero => exact keeps s start
  | succ left ih =>
    have kept := keeps s start
    unfold tryExecute
    rcases answer : ask s with ⟨a, after⟩
    rw [answer] at kept
    dsimp only
    cases sampleOf kind a with
    | ok sample => exact kept
    | error e =>
      dsimp only
      split
      · exact ih after kept
      · exact kept

-- No run tells a worker to stop, so a property that stopping would end is kept as well.
variable (keeps : ∀ o kind r, r ≠ .stop → P o → P (o.call kind r).2)
include keeps

theorem stage_keeps (p : Program) (start : P d.orchestrator) : P (d.stage p).2.orchestrator := by
  unfold Drive.stage
  cases p.bind d.eval.registers with
  | error e => exact start
  | ok b =>
    dsimp only
    split
    · have marked : (d.markStaged p.kind).orchestrator = d.orchestrator := by
        unfold Drive.markStaged
        split <;> rfl
      refine keeps_andThen (P := fun d : Drive => P d.orchestrator) ?_ fun r d kept => ?_
      · exact keeps _ _ _ nofun (marked.symm ▸ start)
      · cases r <;> exact kept
    · exact start

theorem flush_keeps (start : P d.orchestrator) : P d.flush.2.orchestrator := by
  unfold Drive.flush
  split
  · exact stage_keeps keeps _ start
  · exact start

theorem execute_keeps (kind : Kind) (start : P d.orchestrator) :
    P (d.execute kind).2.orchestrator := by
  unfold Drive.execute
  split
  · have kept := tryExecute_keeps d.orchestrator.policy.backoff kind
      (fun o => o.call kind (.execute d.session d.orchestrator.policy.limit))
      (fun o held => keeps o kind (.execute d.session d.orchestrator.policy.limit) nofun held)
      (d.orchestrator.policy.maxAttempts - 1) d.orchestrator start
    unfold SupervisionPolicy.execute
    dsimp only
    split <;> exact kept
  · exact start

theorem step_keeps (op : Scheduled) (start : P d.orchestrator) :
    P (d.step op).2.orchestrator := by
  unfold Drive.step
  split
  · refine keeps_andThen (P := fun d : Drive => P d.orchestrator) (flush_keeps keeps start)
      fun _ d kept => ?_
    split <;> exact kept
  · refine keeps_andThen (P := fun d : Drive => P d.orchestrator) ?_ fun _ d kept => kept
    unfold Drive.openSegment
    split
    · exact start
    · refine keeps_andThen (P := fun d : Drive => P d.orchestrator) (flush_keeps keeps start)
        fun _ d kept => ?_
      refine keeps_andThen (P := fun d : Drive => P d.orchestrator) ?_ fun _ d kept => kept
      unfold Drive.executeBefore
      split
      · split
        · exact kept
        · exact execute_keeps keeps _ kept
      · exact kept

theorem drive_keeps (ops : List Scheduled) (start : P d.orchestrator) :
    P (d.run ops).2.orchestrator := by
  induction ops generalizing d with
  | nil =>
    refine keeps_andThen (P := fun d : Drive => P d.orchestrator) (flush_keeps keeps start)
      fun _ d kept => ?_
    split
    · exact execute_keeps keeps _ kept
    · exact kept
  | cons op rest ih =>
    exact keeps_andThen (P := fun d : Drive => P d.orchestrator) (step_keeps keeps op start)
      fun _ d kept => ih kept

omit keeps in
theorem closeAll_keeps (keeps : ∀ o kind r, r ≠ .stop → P o → P (o.call kind r).2)
    (session : SessionId) (kinds : List Kind) (start : P o) : P (o.closeAll session kinds) := by
  unfold closeAll
  induction kinds generalizing o with
  | nil => exact start
  | cons kind rest ih => exact ih (keeps o kind _ nofun start)

end Keeping

theorem continues_run (o : Orchestrator) (ledger : FrozenLedger) :
    Continues o (o.run ledger).2 := by
  have keeps : ∀ p kind r, r ≠ Request.stop → Continues o p → Continues o (p.call kind r).2 :=
    fun p kind r _ before => before.trans (continues_call p kind r)
  unfold Orchestrator.run
  dsimp only
  split
  · exact .refl o
  · split
    · exact .refl o
    · refine keeps_andThen (P := Continues o) (continues_lowerAll o _) fun programs p kept => ?_
      have begun : Continues o { p with nextSession := p.nextSession + 1 } :=
        ⟨⟨kept.1.plan, kept.1.classical, kept.1.capabilities, kept.1.policy⟩, kept.2⟩
      exact closeAll_keeps keeps _ _ (drive_keeps keeps _ begun)

end LazyCast.Orchestrator
