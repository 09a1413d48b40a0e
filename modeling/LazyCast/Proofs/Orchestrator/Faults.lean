import LazyCast.Proofs.Orchestrator.Readiness
import LazyCast.Proofs.Orchestrator.Routed
/-!
Which faults a run answers with. The faults that say something about a cast as such, that there is
no function for it, no such cast or type, or that the value is spent, never come from a run: not
from routing, binding or supervision, and from a sub-compiler only if it makes them up. Neither does
a crash, as long as no sub-compiler crashes.
-/
namespace LazyCast

namespace Fault

/-- Faults about a cast, which are raised before anything runs. -/
def isOfCast : Fault → Bool
  | noCastFunction _ _ => true
  | unsupportedCast _ _ => true
  | unknownType _ => true
  | doubleCast _ => true
  | _ => false

def isCrash : Fault → Bool
  | crashed _ => true
  | _ => false

/-- A sort of faults that runs do not raise on their own account. -/
def Foreign (bad : Fault → Bool) : Prop :=
  ∀ e, e.isOfCast = false → e.isCrash = false → bad e = false

theorem foreign_isOfCast : Foreign isOfCast := fun _ other _ => other

theorem foreign_isCrash : Foreign isCrash := fun _ _ other => other

end Fault

def Spares (bad : Fault → Bool) {α : Type} (r : Except Fault α) : Prop :=
  ∀ e, r = .error e → bad e = false

abbrev NoCastFault {α : Type} (r : Except Fault α) : Prop := Spares Fault.isOfCast r

variable {bad : Fault → Bool}

section Spares
variable {α β ε : Type} {r : Except Fault α}

theorem spares_ok (a : α) : Spares bad (.ok a : Except Fault α) := fun _ no => by cases no

theorem spares_error {e : Fault} (other : bad e = false) :
    Spares bad (.error e : Except Fault α) := by
  rintro _ same
  cases same
  exact other

theorem Spares.map (first : Spares bad r) (f : α → β) : Spares bad (r.map f) := by
  cases r with
  | ok a => exact spares_ok (f a)
  | error e => exact spares_error (first e rfl)

theorem Spares.bind (first : Spares bad r) {f : α → Except Fault β}
    (next : ∀ a, Spares bad (f a)) : Spares bad (r >>= f) := by
  cases r with
  | ok a => exact next a
  | error e => exact spares_error (first e rfl)

theorem spares_mapError (x : Except ε α) {f : ε → Fault} (other : ∀ e, bad (f e) = false) :
    Spares bad (x.mapError f) := by
  cases x with
  | ok a => exact spares_ok a
  | error e => exact spares_error (other e)

theorem spares_mapM {f : α → Except Fault β} (each : ∀ a, Spares bad (f a)) (as : List α) :
    Spares bad (as.mapM f) := by
  induction as with
  | nil => exact spares_ok []
  | cons a as ih =>
    rw [List.mapM_cons]
    exact (each a).bind fun b => ih.bind fun bs => spares_ok (b :: bs)

theorem spares_foldlM {f : β → α → Except Fault β} (each : ∀ b a, Spares bad (f b a))
    (b : β) (as : List α) : Spares bad (as.foldlM f b) := by
  induction as generalizing b with
  | nil => exact spares_ok b
  | cons a as ih =>
    rw [List.foldlM_cons]
    exact (each b a).bind fun b => ih b

end Spares

/-- A sub-compiler that answers with no fault of some sort. A crash is answered for it, so it does
    not crash if crashes are of that sort. -/
structure SubCompiler.Sparing (bad : Fault → Bool) (c : SubCompiler) : Prop where
  lower : ∀ batch, Spares bad (c.lower batch)
  execute : ∀ usage p delay sampled r, c.execute usage p = .answer delay sampled r → Spares bad r
  survives : ∀ usage p, c.execute usage p = .crash → ∀ kind, bad (.crashed kind) = false

def ModuleTable.Sparing (bad : Fault → Bool) (t : ModuleTable) : Prop :=
  ∀ d c, t.instantiate d = .ok c → c.Sparing bad

/-- A table of sub-compilers that speak of instructions and executions only. -/
abbrev ModuleTable.Discreet (t : ModuleTable) : Prop := t.Sparing Fault.isOfCast

section Leaves
variable (foreign : Fault.Foreign bad)
include foreign

theorem Evaluator.spares_lower (e : Evaluator) (batch : List Instruction) :
    Spares bad (e.lower batch) := by
  refine (spares_mapM (fun i => ?_) batch).map _
  unfold Evaluator.lowerOne
  split
  · refine Spares.map ?_ _
    unfold Classical.checkOperands
    dsimp only
    split
    · exact spares_ok ()
    · exact spares_error (foreign _ rfl rfl)
  · exact spares_error (foreign _ rfl rfl)

theorem Evaluator.spares_step (e : Evaluator) (op : NativeOp) (s : EvalState) :
    Spares bad (e.step op s) := spares_mapError _ fun _ => foreign _ rfl rfl

theorem Evaluator.sparing (e : Evaluator) : e.subCompiler.Sparing bad where
  lower := e.spares_lower foreign
  execute := by
    rintro _ p _ _ _ ⟨⟩
    exact (spares_foldlM (fun s op => e.spares_step foreign op s) _ p.ops).map _
  survives _ _ no := by cases no

theorem Simulator.spares_lower (s : Simulator) (batch : List Instruction) :
    Spares bad (s.lower batch) := by
  have each : ∀ i, Spares bad (s.lowerOne i) := by
    intro i
    unfold Simulator.lowerOne Lowering.lowerOne
    split
    · split
      · exact spares_mapError _ fun _ => foreign _ rfl rfl
      · exact spares_error (foreign _ rfl rfl)
    · exact spares_error (foreign _ rfl rfl)
  refine Spares.bind ((spares_mapM each batch).map _) fun p => ?_
  refine spares_foldlM (fun p name => ?_) p s.passes
  unfold Pass.runNamed
  split
  · exact spares_ok _
  · exact spares_error (foreign _ rfl rfl)

theorem Simulator.sparing (s : Simulator) : s.subCompiler.Sparing bad where
  lower := s.spares_lower foreign
  execute := by
    intro usage p delay sampled r answered
    have faults : Spares bad (s.execute usage.samplings p) :=
      (spares_mapError _ fun _ => foreign _ rfl rfl).map _
    unfold Simulator.subCompiler at answered
    dsimp only at answered
    split at answered
    · cases answered
      exact spares_ok _
    · rename_i e failed
      cases answered
      exact spares_error (faults e failed)
  survives usage p crashed := by
    unfold Simulator.subCompiler at crashed
    dsimp only at crashed
    split at crashed <;> cases crashed

theorem ModuleTable.builtin_sparing : ModuleTable.builtin.Sparing bad := by
  intro d c made
  unfold ModuleTable.instantiate at made
  cases found : builtin.find? d.module with
  | none =>
    rw [found] at made
    cases made
  | some make =>
    rw [found] at made
    have mem := Orchestrator.find?_ofList _ found
    simp only [List.mem_cons, Prod.mk.injEq, List.not_mem_nil, or_false] at mem
    rcases mem with ⟨_, rfl⟩ | ⟨_, rfl⟩
    · cases made
      exact Evaluator.sparing foreign _
    · obtain ⟨s, _, rfl⟩ := Except.map_eq_ok.mp made
      exact s.sparing foreign

end Leaves

theorem ModuleTable.builtin_discreet : ModuleTable.builtin.Discreet :=
  builtin_sparing Fault.foreign_isOfCast

theorem Worker.compiler_serve (w : Worker) (r : Request) :
    (w.serve r).worker.compiler = w.compiler := by
  unfold Worker.serve
  split
  · cases r with
    | execute session limit =>
      dsimp only [Worker.execute]
      split
      · unfold Worker.run
        split
        · rfl
        · dsimp only
          split
          · rfl
          · split <;> rfl
      · rfl
    | _ => rfl
  · rfl

structure Worker.Sparing (bad : Fault → Bool) (w : Worker) : Prop where
  compiler : w.compiler.Sparing bad
  alive : w.alive = false → ∀ kind, bad (.crashed kind) = false

theorem Worker.Sparing.serve {w : Worker} (sparing : w.Sparing bad) {r : Request}
    (goes_on : r ≠ .stop) : (w.serve r).worker.Sparing bad := by
  refine ⟨w.compiler_serve r ▸ sparing.compiler, ?_⟩
  unfold Worker.serve
  split
  · cases r with
    | stop => exact absurd rfl goes_on
    | execute session limit =>
      dsimp only [Worker.execute]
      split
      · unfold Worker.run
        split
        · rename_i crashed
          exact fun _ => sparing.compiler.survives _ _ crashed
        · dsimp only
          split
          · exact sparing.alive
          · split <;> exact sparing.alive
      · exact sparing.alive
    | _ => exact sparing.alive
  · exact sparing.alive

section Workers
variable (foreign : Fault.Foreign bad)
include foreign

theorem Worker.Sparing.spares_serve {w : Worker} (sparing : w.Sparing bad) (r : Request) :
    Spares bad (w.serve r).answer := by
  unfold Worker.serve
  split
  · cases r with
    | lower batch => exact (sparing.compiler.lower batch).map _
    | stage session p => exact spares_ok _
    | execute session limit =>
      dsimp only [Worker.execute]
      split
      · rw [Worker.run_answer]
        refine Spares.map ?_ _
        cases attempt : w.compiler.execute w.usage _ with
        | crash => exact spares_error (sparing.compiler.survives _ _ attempt _)
        | answer delay sampled result =>
          rw [Attempt.verdict]
          split
          · exact spares_error (foreign _ rfl rfl)
          · exact sparing.compiler.execute _ _ _ _ _ attempt
      · exact spares_error (foreign _ rfl rfl)
    | close session => exact spares_ok _
    | stop => exact spares_ok _
  · rename_i dead
    exact spares_error (sparing.alive (Bool.eq_false_iff.mpr dead) _)

theorem spares_sampleOf (kind : Kind) {r : Except Fault Response} (answer : Spares bad r) :
    Spares bad (sampleOf kind r) := by
  cases r with
  | error e => exact spares_error (answer e rfl)
  | ok response =>
    cases response with
    | sample s => exact spares_ok s
    | _ => exact spares_error (foreign _ rfl rfl)

theorem spares_tryExecute {σ : Type} {P : σ → Prop} (backoff : Nat) (kind : Kind)
    {ask : σ → Except Fault Response × σ} (keeps : ∀ s, P s → P (ask s).2)
    (answers : ∀ s, P s → Spares bad (ask s).1) (left : Nat) (s : σ) (start : P s) :
    Spares bad (tryExecute backoff kind ask left s).result := by
  induction left generalizing s with
  | zero => exact spares_sampleOf foreign kind (answers s start)
  | succ left ih =>
    have kept := keeps s start
    have answered := spares_sampleOf foreign kind (answers s start)
    unfold tryExecute
    rcases asked : ask s with ⟨answer, after⟩
    rw [asked] at kept answered
    dsimp only at kept answered ⊢
    split
    · exact spares_ok _
    · rename_i e failed
      split
      · exact ih after kept
      · exact spares_error (answered e failed)

end Workers

theorem spares_andThen {σ α β : Type} {P : σ → Prop} {r : Outcome σ α}
    {f : α → σ → Outcome σ β} (first : Spares bad r.1) (kept : P r.2)
    (next : ∀ a s, P s → Spares bad (f a s).1) : Spares bad (r.andThen f).1 := by
  obtain ⟨e | a, s⟩ := r
  · exact spares_error (first e rfl)
  · exact next a s kept

namespace Orchestrator
variable {o : Orchestrator} {d : Drive}

def Sparing (bad : Fault → Bool) (o : Orchestrator) : Prop :=
  ∀ kind w, o.workers.find? kind = some w → w.Sparing bad

theorem Sparing.call (sparing : o.Sparing bad) (kind : Kind) {r : Request} (goes_on : r ≠ .stop) :
    (o.call kind r).2.Sparing bad := by
  intro other v at_other
  rcases workers_call at_other with ⟨_, found⟩ | ⟨rfl, w, found, rfl⟩
  · exact sparing other v found
  · exact (sparing other w found).serve goes_on

section Running
variable (foreign : Fault.Foreign bad)
include foreign

theorem Sparing.spares_call (sparing : o.Sparing bad) (kind : Kind) (r : Request) :
    Spares bad (o.call kind r).1 := by
  cases found : o.workers.find? kind with
  | none =>
    simp only [Orchestrator.call, found]
    exact spares_error (foreign _ rfl rfl)
  | some w =>
    rw [call_eq found]
    exact (sparing kind w found).spares_serve foreign r

theorem Sparing.lower (sparing : o.Sparing bad) (kind : Kind) (batch : List Instruction) :
    (o.lower kind batch).2.Sparing bad ∧ Spares bad (o.lower kind batch).1 := by
  unfold Orchestrator.lower
  split
  · exact ⟨sparing, o.classical.spares_lower foreign batch⟩
  · have kept := sparing.call kind (r := .lower batch) nofun
    refine ⟨keeps_andThen kept fun r o kept => ?_,
      spares_andThen (sparing.spares_call foreign kind _) kept fun r o _ => ?_⟩
    · cases r <;> exact kept
    · cases r with
      | lowered p => exact spares_ok p
      | _ => exact spares_error (foreign _ rfl rfl)

theorem Sparing.lowerAll (sparing : o.Sparing bad) (batches : List (Kind × List Instruction)) :
    (o.lowerAll batches).2.Sparing bad ∧ Spares bad (o.lowerAll batches).1 := by
  induction batches generalizing o with
  | nil => exact ⟨sparing, spares_ok []⟩
  | cons batch rest ih =>
    obtain ⟨kept, faults⟩ := sparing.lower foreign batch.1 batch.2
    exact ⟨keeps_andThen kept fun p o kept => (ih kept).1,
      spares_andThen faults kept fun p o kept => (ih kept).2.map _⟩

section Drive
variable (sparing : d.orchestrator.Sparing bad)
include sparing

theorem spares_stage (p : Program) : Spares bad (d.stage p).1 := by
  unfold Drive.stage
  cases bound : p.bind d.eval.registers with
  | error e =>
    have faults : Spares bad (p.bind d.eval.registers) :=
      (spares_mapError _ fun _ => foreign _ rfl rfl).map _
    exact spares_error (faults e bound)
  | ok b =>
    dsimp only
    split
    · have marked : (d.markStaged p.kind).orchestrator = d.orchestrator := by
        unfold Drive.markStaged
        split <;> rfl
      refine spares_andThen (P := fun _ => True) ?_ trivial fun r d _ => ?_
      · exact Sparing.spares_call foreign (marked.symm ▸ sparing) p.kind _
      · cases r with
        | staged n => exact spares_ok ()
        | _ => exact spares_error (foreign _ rfl rfl)
    · exact spares_error (foreign _ rfl rfl)

theorem spares_flush : Spares bad d.flush.1 := by
  unfold Drive.flush
  split
  · exact spares_stage foreign (d := { d with segment := none }) sparing _
  · exact spares_ok ()

theorem spares_execute (kind : Kind) : Spares bad (d.execute kind).1 := by
  unfold Drive.execute
  split
  · have faults := spares_tryExecute foreign (P := Sparing bad) d.orchestrator.policy.backoff kind
      (fun o held => held.call kind (r := .execute d.session d.orchestrator.policy.limit)
        fun no => by cases no)
      (fun o held => held.spares_call foreign kind _)
      (d.orchestrator.policy.maxAttempts - 1) d.orchestrator sparing
    dsimp only
    cases result : (d.orchestrator.policy.execute kind d.session (fun o r => o.call kind r)
        d.orchestrator).result with
    | ok sample => exact spares_ok ()
    | error e => exact spares_error (faults e result)
  · exact spares_error (foreign _ rfl rfl)

theorem spares_openSegment (kind : Kind) : Spares bad (d.openSegment kind).1 := by
  unfold Drive.openSegment
  split
  · exact spares_ok ()
  · refine spares_andThen (P := fun d => d.orchestrator.Sparing bad) (spares_flush foreign sparing)
      (flush_keeps (fun _ _ _ on held => held.call _ on) sparing) fun _ d sparing => ?_
    refine spares_andThen (P := fun _ => True) ?_ trivial fun _ d _ => spares_ok ()
    unfold Drive.executeBefore
    split
    · split
      · exact spares_ok ()
      · exact spares_execute foreign (d := { d with pending := none }) sparing _
    · exact spares_ok ()

theorem spares_step (op : Scheduled) : Spares bad (d.step op).1 := by
  unfold Drive.step
  split
  · refine spares_andThen (P := fun _ => True) (spares_flush foreign sparing) trivial
      fun _ d _ => ?_
    split
    · exact spares_ok ()
    · rename_i e failed
      exact spares_error (d.orchestrator.classical.spares_step foreign op.2 d.eval e failed)
  · exact spares_andThen (P := fun _ => True) (spares_openSegment foreign sparing op.1) trivial
      fun _ d _ => spares_ok ()

theorem spares_drive (ops : List Scheduled) : Spares bad (d.run ops).1 := by
  induction ops generalizing d with
  | nil =>
    refine spares_andThen (P := fun d => d.orchestrator.Sparing bad) (spares_flush foreign sparing)
      (flush_keeps (fun _ _ _ on held => held.call _ on) sparing) fun _ d sparing => ?_
    split
    · exact spares_execute foreign (d := { d with pending := none }) sparing _
    · exact spares_ok ()
  | cons op rest ih =>
    exact spares_andThen (P := fun d => d.orchestrator.Sparing bad)
      (spares_step foreign sparing op) (step_keeps (fun _ _ _ on held => held.call _ on) op sparing)
      fun _ d sparing => ih sparing

end Drive

theorem spares_plan (t : CapabilityTable) (host : Kind) (is : List Instruction) :
    Spares bad (t.plan host is) := by
  refine (spares_mapM (fun i => Spares.map ?_ _) is).map _
  unfold CapabilityTable.resolve
  split
  · exact spares_ok _
  · split
    · exact spares_ok _
    · split
      · exact spares_ok _
      · split
        · exact spares_ok _
        · exact spares_error (foreign _ rfl rfl)

theorem Sparing.run (sparing : o.Sparing bad) (ledger : FrozenLedger) :
    (o.run ledger).2.Sparing bad ∧ Spares bad (o.run ledger).1 := by
  unfold Orchestrator.run
  dsimp only
  split
  · exact ⟨sparing, spares_error (foreign _ rfl rfl)⟩
  · split
    · rename_i e failed
      exact ⟨sparing, spares_error (spares_plan foreign _ _ _ e failed)⟩
    · rename_i routing _
      obtain ⟨kept, faults⟩ :=
        sparing.lowerAll foreign (routing.partition ledger.instructions).entries
      refine ⟨keeps_andThen (P := Sparing bad) kept fun programs p kept => ?_,
        spares_andThen (P := Sparing bad) faults kept fun programs p kept => ?_⟩
      · have begun : Sparing bad { p with nextSession := p.nextSession + 1 } := kept
        exact closeAll_keeps (fun _ _ _ on held => held.call _ on) _ _
          (drive_keeps (fun _ _ _ on held => held.call _ on) _ begun)
      · exact Spares.map (spares_drive foreign
          (d := .begin { p with nextSession := p.nextSession + 1 } p.nextSession) kept _) _

end Running

theorem start_sparing {r : Registry} {modules : ModuleTable} (sparing : modules.Sparing bad)
    {plan : SpawnPlan} {policy : SupervisionPolicy}
    (started : start r modules plan policy = .ok o) : o.Sparing bad := by
  have staffs : Staffs r modules fun _ c => c.Sparing bad := fun _ d c _ _ made => sparing d c made
  intro kind w found
  have fit := start_ready staffs started kind w found
  exact ⟨fit.belongs, fun dead => by rw [fit.alive] at dead; cases dead⟩

def afterRuns (o : Orchestrator) (past : List FrozenLedger) : Orchestrator :=
  past.foldl (fun o ledger => (o.run ledger).2) o

theorem reachable_afterRuns {r : Registry} {plan : SpawnPlan} {policy : SupervisionPolicy}
    (started : start r .builtin plan policy = .ok o) (past : List FrozenLedger) :
    Reachable r .builtin plan policy (o.afterRuns past) := by
  have along : ∀ (past : List FrozenLedger) (p : Orchestrator),
      Reachable r .builtin plan policy p → p.Sparing Fault.isCrash →
        Reachable r .builtin plan policy (p.afterRuns past) := by
    intro past
    induction past with
    | nil => exact fun p reachable _ => reachable
    | cons ledger rest ih =>
      intro p reachable sparing
      obtain ⟨kept, spares⟩ := sparing.run Fault.foreign_isCrash ledger
      exact ih _ (.run reachable ledger fun k crashed => by cases spares _ crashed) kept
  exact along past o (.start started)
    (start_sparing (ModuleTable.builtin_sparing Fault.foreign_isCrash) started)

/-- An orchestrator of the built-in sub-compilers, some ledgers after its start. -/
def InService (r : Registry) (plan : SpawnPlan) (policy : SupervisionPolicy) (o : Orchestrator) :
    Prop :=
  ∃ first past, start r .builtin plan policy = .ok first ∧ o = first.afterRuns past

theorem InService.reachable {r : Registry} {plan : SpawnPlan} {policy : SupervisionPolicy}
    (serving : InService r plan policy o) : Reachable r .builtin plan policy o := by
  obtain ⟨first, past, started, rfl⟩ := serving
  exact reachable_afterRuns started past

end Orchestrator
end LazyCast
