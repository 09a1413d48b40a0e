import LazyCast.Proofs.Orchestrator.Positions
import LazyCast.Proofs.Passes.Measured
/-!
What comes of a ledger on simulators: runs of bound operations, which are foreseen from the ledger
alone, and for each run a circuit, or the ledger fails.
-/
namespace LazyCast

namespace Orchestrator

section Runs
variable {e : Evaluator} {eval : EvalState} {ops bound : List Scheduled}

theorem mem_boundFrom (all : boundFrom e eval ops = .ok bound) : ∀ x ∈ bound,
    Circuit.isBound x.2 = true ∧ x.1.isClassical = false ∧ ∃ op ∈ ops, op.1 = x.1 := by
  induction ops generalizing eval bound with
  | nil =>
    cases all
    simp
  | cons op rest ih =>
    cases needed : op.1.isClassical with
    | true =>
      rw [boundFrom_classical needed] at all
      cases evaluated : e.step op.2 eval with
      | error f =>
        rw [evaluated] at all
        cases all
      | ok eval' =>
        rw [evaluated] at all
        intro x mem
        obtain ⟨fine, other, y, among, kind⟩ := ih all x mem
        exact ⟨fine, other, y, List.mem_cons_of_mem _ among, kind⟩
    | false =>
      obtain ⟨b, left, binds, later, rfl⟩ := boundFrom_needed_ok needed all
      intro x mem
      rcases List.mem_append.mp mem with mem | mem
      · obtain ⟨y, at_y, rfl⟩ := List.mem_map.mp mem
        have kind : b.kind = op.1 := Program.kind_bind binds
        exact ⟨Program.isBound_bind binds y at_y, kind.symm ▸ needed,
          op, List.mem_cons_self, kind.symm⟩
      · obtain ⟨fine, other, y, among, kind⟩ := ih later x mem
        exact ⟨fine, other, y, List.mem_cons_of_mem _ among, kind⟩

theorem mem_runsFrom {runs : List Program} (planned : runsFrom e eval none ops = .ok runs) :
    ∀ p ∈ runs, ∀ x ∈ p.ops, Circuit.isBound x = true ∧ p.kind.isClassical = false ∧
      ∃ op ∈ ops, op.1 = p.kind := by
  intro p among x mem
  refine mem_boundFrom (boundFrom_of_runs planned) (p.kind, x) ?_
  exact List.mem_flatMap.mpr ⟨p, among, List.mem_map_of_mem mem⟩

theorem single_of_bound {kind : Kind} (all : boundFrom e .empty ops = .ok bound)
    (kinds : ∀ op ∈ ops, op.1 = kind ∨ op.1.isClassical = true) (some : bound ≠ []) :
    ∃ p, runsOf e ops = .ok [p] ∧ p.kind = kind ∧ p.ops = bound.map Prod.snd := by
  obtain ⟨runs, planned, same⟩ := runs_of_boundFrom all
  obtain ⟨x, mem⟩ := List.exists_mem_of_ne_nil _ some
  rw [← same] at mem
  obtain ⟨p, among, at_x⟩ := List.mem_flatMap.mp mem
  obtain ⟨op, at_op, rfl⟩ := List.mem_map.mp at_x
  cases runs_single kinds planned among
  obtain ⟨_, needed, source, at_source, ofRun⟩ := mem_runsFrom planned p among op at_op
  refine ⟨p, planned, ?_, ?_⟩
  · rcases kinds source at_source with ofKind | classical
    · exact ofRun.symm.trans ofKind
    · rw [ofRun, needed] at classical
      cases classical
  · rw [← same]
    simp [tagged]

end Runs

/-- The run whose sample is handed out: the last of the host, else the last of any kind. -/
def sourceOf (host : Kind) (runs : List Program) : Option Program :=
  (lastOf host runs).or runs.getLast?

section Source
variable {σ : Type} {host : Kind} {runs : List Program} {p : Program}

theorem lastOf_eq_none : lastOf host runs = none ↔ ∀ q ∈ runs, q.kind ≠ host := by
  simp [lastOf]

theorem sourceOf_of_last (last : lastOf host runs = some p) : sourceOf host runs = some p := by
  rw [sourceOf, last, Option.some_or]

theorem sourceOf_of_ending (ends : runs.getLast? = some p)
    (hosted : p.kind = host ∨ ∀ q ∈ runs, q.kind ≠ host) : sourceOf host runs = some p := by
  rcases hosted with ofHost | without
  · obtain ⟨before, rfl⟩ := List.getLast?_eq_some_iff.mp ends
    refine sourceOf_of_last ?_
    simp [lastOf, ofHost]
  · rw [sourceOf, lastOf_eq_none.mpr without, Option.none_or, ends]

theorem exists_sourceOf (some : runs ≠ []) : ∃ p, sourceOf host runs = .some p := by
  cases last : lastOf host runs with
  | some p => exact ⟨p, sourceOf_of_last last⟩
  | none => exact ⟨_, by rw [sourceOf, last, Option.none_or, List.getLast?_eq_some_getLast some]⟩

theorem HandedOut.of_last {s : Scan σ} {sample : Sample} (handed : HandedOut host s sample)
    (last : lastOf host (s.runs.map Prod.fst) = some p) : (p, sample) ∈ s.runs := by
  obtain ⟨⟨r, among, rfl⟩, ofHost⟩ := And.imp_left List.mem_map.mp (mem_of_lastOf last)
  cases handed with
  | @host before after q sample runs kind later =>
    have none : (after.map Prod.fst).filter (fun p => decide (p.kind = host)) = [] := by
      refine List.filter_eq_nil_iff.mpr fun q mem => ?_
      obtain ⟨r, among, rfl⟩ := List.mem_map.mp mem
      simpa using later r among
    have same : q = r.1 := by
      rw [lastOf, runs, List.map_append, List.map_cons, List.filter_append, List.filter_cons,
        none, if_pos (by simpa using kind), List.getLast?_concat] at last
      exact Option.some.inj last
    rw [runs, ← same]
    exact List.mem_append_right _ List.mem_cons_self
  | other runs none => exact absurd ofHost (none r among)
  | classical runs =>
    rw [runs] at among
    cases among

theorem HandedOut.of_source {s : Scan σ} {sample : Sample} (handed : HandedOut host s sample)
    (source : sourceOf host (s.runs.map Prod.fst) = some p) : (p, sample) ∈ s.runs := by
  cases last : lastOf host (s.runs.map Prod.fst) with
  | some q =>
    cases (sourceOf_of_last last).symm.trans source
    exact handed.of_last last
  | none =>
    rw [sourceOf, last, Option.none_or] at source
    cases handed with
    | @host before after q sample runs kind later =>
      exact absurd kind (lastOf_eq_none.mp last q (by simp [runs]))
    | other runs none =>
      rw [runs, List.map_append, List.map_singleton, List.getLast?_concat] at source
      cases source
      rw [runs]
      exact List.mem_append_right _ List.mem_cons_self
    | classical runs =>
      rw [runs] at source
      cases source

end Source

section Simulating
variable {r : Registry} {o : Orchestrator} {ledger : FrozenLedger} {programs runs : List Program}

theorem covers_runs (covered : o.Covers (schedule programs))
    (planned : runsOf o.classical (schedule programs) = .ok runs) :
    ∀ p ∈ runs, o.workers.contains p.kind = true := by
  intro p mem
  rcases (runs_of_planned planned).kinds p mem with ⟨_, none, _⟩ | ⟨op, among, kind, needed⟩
  · cases none
  · rw [← kind]
    exact covered op among needed

theorem Ready.run_source (ready : o.Ready (simulators r)) (prepares : o.Prepares ledger programs)
    (covered : o.Covers (schedule programs)) {out : RunOutput}
    (ok : (o.run ledger).1 = .ok out) :
    ∃ runs, runsOf o.classical (schedule programs) = .ok runs ∧
      (o.run ledger).2.ran = o.ran ++ runs ∧ (∀ p ∈ runs, ∃ c, Circuits r p c) ∧
      (∀ p, sourceOf ledger.dominantKind runs = some p →
        ∃ m c, out.sample = .measured m ∧ Samples r p c m) ∧
      (runs = [] → ∃ v registers, out.sample = .deterministic v registers) := by
  obtain ⟨q, same, ready', drives⟩ := ready.drives prepares covered
  obtain ⟨result, ran⟩ := drives _ (ready'.decides q.policy)
  rw [result] at ok
  obtain ⟨u, scanned, delivers⟩ := Except.map_eq_ok.mp ok
  obtain ⟨runs, planned, _, executed, answered⟩ := Scan.executes_of_ok scanned
  have planned : runsOf o.classical (schedule programs) = .ok runs := by
    rw [← same.1.classical]
    exact planned
  have executed : (q.observed Simulator.spare.subCompiler (schedule programs)).2.runs.map Prod.fst =
      runs := executed
  have sampled : ∀ x ∈ (q.observed Simulator.spare.subCompiler (schedule programs)).2.runs,
      ∃ m c, x.2 = .measured m ∧ Samples r x.1 c m := by
    intro x mem
    have among : x.1 ∈ runs := executed ▸ List.mem_map_of_mem mem
    rcases answered x mem with none | ⟨usage, answer⟩
    · cases none
    · have worker := (same.2 x.1.kind).trans (covers_runs covered planned x.1 among)
      exact (ready'.answers worker _ usage).1 x.2 answer
  refine ⟨runs, planned, (ran scanned).trans (by rw [executed]), fun p mem => ?_,
    fun p source => ?_, fun empty => ?_⟩
  · rw [← executed] at mem
    obtain ⟨x, among, rfl⟩ := List.mem_map.mp mem
    obtain ⟨_, c, _, samples⟩ := sampled x among
    exact ⟨c, samples.circuits⟩
  · rw [← executed] at source
    have mem := (handedOut_hostSample ledger.dominantKind _).of_source source
    obtain ⟨m, c, sample, samples⟩ := sampled _ mem
    rw [← delivers]
    exact ⟨m, c, sample, samples⟩
  · rw [empty, List.map_eq_nil_iff] at executed
    rw [← delivers, delivered, Scan.samples, executed]
    exact ⟨_, _, rfl⟩

theorem Ready.run_ok (ready : o.Ready (simulators r)) (prepares : o.Prepares ledger programs)
    (covered : o.Covers (schedule programs)) {out : RunOutput}
    (ok : (o.run ledger).1 = .ok out) :
    ∃ runs, runsOf o.classical (schedule programs) = .ok runs ∧
      (o.run ledger).2.ran = o.ran ++ runs ∧ (∀ p ∈ runs, ∃ c, Circuits r p c) ∧
      ∀ p, lastOf ledger.dominantKind runs = some p →
        ∃ m c, out.sample = .measured m ∧ Samples r p c m := by
  obtain ⟨runs, planned, ran, circuits, sampled, _⟩ := ready.run_source prepares covered ok
  exact ⟨runs, planned, ran, circuits, fun p last => sampled p (sourceOf_of_last last)⟩

theorem Ready.run_of_circuits (ready : o.Ready (simulators r))
    (prepares : o.Prepares ledger programs) (covered : o.Covers (schedule programs))
    (planned : runsOf o.classical (schedule programs) = .ok runs)
    (all : ∀ p ∈ runs, ∃ c, Circuits r p c) : ∃ out, (o.run ledger).1 = .ok out := by
  obtain ⟨q, same, ready', drives⟩ := ready.drives prepares covered
  obtain ⟨result, _⟩ := drives _ (ready'.decides q.policy)
  have planned' : runsOf q.classical (schedule programs) = .ok runs := by
    rw [same.1.classical]
    exact planned
  have answered : ∀ p ∈ runs, ∀ usage f, (executorOf
      (q.compilersOf Simulator.spare.subCompiler) q.policy.limit p usage).1 ≠ .error f := by
    intro p mem usage f
    obtain ⟨c, circuit⟩ := all p mem
    have worker := (same.2 p.kind).trans (covers_runs covered planned p mem)
    exact (ready'.answers worker _ usage).2 c f circuit
  have ok : (q.observed Simulator.spare.subCompiler (schedule programs)).1 = .ok () :=
    (Scan.executes_of_answered (s := Scan.begin q.usagesOf) planned' answered).1
  rw [result, ok]
  exact ⟨_, rfl⟩

end Simulating

def Foresees (o : Orchestrator) (ledger : FrozenLedger) (runs : List Program) : Prop :=
  ∃ programs, o.Prepares ledger programs ∧ runsOf o.classical (schedule programs) = .ok runs

end Orchestrator
end LazyCast
