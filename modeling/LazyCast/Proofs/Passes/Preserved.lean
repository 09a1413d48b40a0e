import Mathlib.Analysis.SpecialFunctions.Trigonometric.Basic
import LazyCast.Proofs.Passes.Closing
/-!
What passes preserve. They look at all operations of a kind, whatever stands between them in the
ledger; the schedule is executed in runs. Where the passes keep to the runs, a ledger means the same
with them and without them.
-/
namespace LazyCast.Orchestrator

/-- The scalars of exact arithmetic, with the number that each float stands for. -/
noncomputable def exactTrigonometry (value : Float → ℝ) : Trigonometry ℝ where
  diagonal := √(1 / 2)
  sine angle := Real.sin (value angle / 2)
  cosine angle := Real.cos (value angle / 2)

theorem exactTrigonometry_unit (value : Float → ℝ) :
    2 * (exactTrigonometry value).diagonal * (exactTrigonometry value).diagonal = 1 := by
  have half : (0 : ℝ) ≤ 1 / 2 := by norm_num
  rw [mul_assoc, exactTrigonometry, Real.mul_self_sqrt half]
  norm_num

/-- The program uses at least one qubit, and not more than its simulator allows. -/
def Admits (r : Registry) (p : Program) : Prop :=
  ∀ s, r.Serves p.kind s →
    0 < (Circuit.touched p.ops).size ∧ (Circuit.touched p.ops).size ≤ s.maxQubits

theorem measuredBy_gate {ops : List NativeOp} {seq : Nat} {qubits : List Qubit}
    (some : qubits ≠ []) (mem : Lowering.gate seq "measure" qubits ∈ ops) :
    Circuit.measuredBy ops ≠ [] := by
  obtain ⟨q, at_q⟩ := List.exists_mem_of_ne_nil qubits some
  exact List.ne_nil_of_mem (Circuit.mem_measuredBy mem q at_q)

theorem measure_stays {programs programs' : List Program} (trims : Trimmed programs' programs)
    {kind : Kind} {seq : Nat} {qubits : List Qubit}
    (mem : (kind, Lowering.gate seq "measure" qubits) ∈ schedule programs') :
    (kind, Lowering.gate seq "measure" qubits) ∈ schedule programs := by
  obtain ⟨q', among, same, mem⟩ := mem_schedule.mp mem
  obtain ⟨q, left, trim⟩ := forall₂_left trims q' among
  refine mem_schedule.mpr ⟨q, left, same.trans trim.kind.symm, ?_⟩
  have kept : Lowering.gate seq "measure" qubits ∈ q.ops.filter fun op => op.code == "measure" := by
    rw [trim.reduces.measures]
    exact List.mem_filter.mpr ⟨mem, rfl⟩
  exact (List.mem_filter.mp kept).1

structure Sides (r' : Registry) (o o' : Orchestrator) (ledger : FrozenLedger)
    (routing : RoutingPlan) (programs programs' runs runs' : List Program) : Prop where
  routed : o'.capabilities.plan ledger.dominantKind ledger.instructions = .ok routing
  lowered : List.Forall₂ (LowersAs r' o') (routing.partition ledger.instructions).entries programs'
  trims : Trimmed programs' programs
  prepares : o.Prepares ledger programs
  prepares' : o'.Prepares ledger programs'
  covered : o.Covers (schedule programs)
  planned : runsOf o.classical (schedule programs) = .ok runs
  planned' : runsOf o.classical (schedule programs') = .ok runs'
  sublist : (runs.flatMap tagged).Sublist (runs'.flatMap tagged)
  circuits : ∀ p ∈ runs', ∃ c, Circuits r' p c

namespace Paired
variable {ds : List Descriptor} {r r' : Registry} {o o' : Orchestrator} {ledger : FrozenLedger}
  {routing : RoutingPlan} {programs programs' runs runs' : List Program}

/-- Passes cannot fail, so the ledger is lowered with them as well, for a thinned schedule. -/
theorem sides (paired : Paired ds r r' o o') {plain : RunOutput}
    (succeeds : (o'.run ledger).1 = .ok plain) :
    ∃ routing programs programs' runs runs',
      Sides r' o o' ledger routing programs programs' runs runs' ∧
        ∀ p, lastOf ledger.dominantKind runs' = some p →
          ∃ m c, plain.sample = .measured m ∧ Samples r' p c m := by
  obtain ⟨routing, programs', routed, lowered, prepares'⟩ := prepares_of_run succeeds
  have all := paired.ready'.lowerAll_ok.mp lowered
  obtain ⟨programs, lowers, trims⟩ := paired.lowersAll all
  have covered' : o'.Covers (schedule programs') := covers_of_lowered paired.made' paired.bottom all
  obtain ⟨runs', planned', _, circuits, sampled⟩ :=
    paired.ready'.run_ok prepares' covered' succeeds
  rw [paired.classical] at planned'
  obtain ⟨runs, planned, sublist⟩ := trims.schedule.runs planned'
  refine ⟨routing, programs, programs', runs, runs', ?_, sampled⟩
  exact {
    routed := routed
    lowered := all
    trims := trims
    prepares := ⟨paired.plan ▸ prepares'.planned, routing,
      (o.lowerAll (routing.partition ledger.instructions).entries).2,
      paired.capabilities ▸ routed, Prod.ext (paired.ready.lowerAll_ok.mpr lowers) rfl⟩
    prepares' := prepares'
    covered := fun op mem needed => (paired.workers op.1).symm.trans
      (covered' op (trims.schedule.sublist.subset mem) needed)
    planned := planned
    planned' := planned'
    sublist := sublist
    circuits := circuits }

theorem circuits_iff (paired : Paired ds r r' o o')
    (sides : Sides r' o o' ledger routing programs programs' runs runs') {p : Program}
    (mem : p ∈ runs) : (∃ c, Circuits r p c) ↔ Admits r p := by
  constructor
  · rintro ⟨c, s, serves, made⟩ s' serves'
    rw [serves'.unique serves]
    obtain ⟨_, some, few, _⟩ := Circuit.ofOps_eq_ok.mp made
    exact ⟨some, few⟩
  · intro admits
    obtain ⟨w, found⟩ :=
      Option.isSome_iff_exists.mp (covers_runs sides.covered sides.planned p mem)
    obtain ⟨s, serves, _⟩ := (paired.ready p.kind w found).belongs
    obtain ⟨some, few⟩ := admits s serves
    refine ⟨_, s, serves, Circuit.ofOps_eq_ok.mpr ⟨?_, some, few, fun op at_op => ?_, rfl⟩⟩
    · exact List.all_eq_true.mpr fun op at_op => (mem_runsFrom sides.planned p mem op at_op).1
    -- What is left of the schedule is bound as before, and was simulated then.
    · have tag : (p.kind, op) ∈ runs'.flatMap tagged :=
        sides.sublist.subset (List.mem_flatMap.mpr ⟨p, mem, List.mem_map_of_mem at_op⟩)
      obtain ⟨q, among, tag⟩ := List.mem_flatMap.mp tag
      obtain ⟨x, at_x, same⟩ := List.mem_map.mp tag
      obtain ⟨c, s', _, made⟩ := sides.circuits q among
      have same : x = op := congrArg Prod.snd same
      exact (Circuit.ofOps_eq_ok.mp made).2.2.2.1 op (same ▸ at_x)

theorem succeeds_iff (paired : Paired ds r r' o o')
    (sides : Sides r' o o' ledger routing programs programs' runs runs') :
    (∃ out, (o.run ledger).1 = .ok out) ↔ ∀ p ∈ runs, Admits r p := by
  constructor
  · rintro ⟨out, ok⟩ p mem
    obtain ⟨_, same, _, each, _⟩ := paired.ready.run_ok sides.prepares sides.covered ok
    cases sides.planned.symm.trans same
    exact (paired.circuits_iff sides mem).mp (each p mem)
  · intro all
    exact paired.ready.run_of_circuits sides.prepares sides.covered sides.planned
      fun p mem => (paired.circuits_iff sides mem).mpr (all p mem)

theorem host_needed (paired : Paired ds r r' o o')
    (sides : Sides r' o o' ledger routing programs programs' runs runs')
    (ends : EndsMeasured o.capabilities ledger) : ledger.dominantKind.isClassical = false :=
  (paired.capabilities.symm ▸ ends).needed (paired.classical.trans paired.evaluates) sides.routed
    sides.lowered

theorem last_runs (paired : Paired ds r r' o o') (numbered : Numbered ledger.instructions)
    (ends : EndsMeasured o.capabilities ledger)
    (sides : Sides r' o o' ledger routing programs programs' runs runs') :
    ∃ p p', lastOf ledger.dominantKind runs = some p ∧ lastOf ledger.dominantKind runs' = some p' ∧
      Circuit.measuredBy p'.ops ≠ [] := by
  have needed := paired.host_needed sides ends
  obtain ⟨before, seq, qubits, after, some, split, without⟩ :=
    (paired.capabilities.symm ▸ ends).split numbered paired.made' paired.bottom needed sides.routed
      sides.lowered
  obtain ⟨p', registers, bound, last', binds, inside⟩ :=
    (runs_of_planned sides.planned').last split needed without
  have measures : Lowering.gate seq "measure" qubits ∈ p'.ops := by
    obtain ⟨x, one, rfl⟩ := Program.bind_single.mp binds
    rw [Program.bindOp_gate] at one
    cases one
    exact inside _ (by simp)
  have there : (ledger.dominantKind, Lowering.gate seq "measure" qubits) ∈ schedule programs' := by
    simp [split]
  obtain ⟨before, x, after, split, ofHost, rest⟩ :=
    last_split (p := fun op : Scheduled => decide (op.1 = ledger.dominantKind))
      (measure_stays sides.trims there) (by simp)
  have ofHost : x.1 = ledger.dominantKind := of_decide_eq_true ofHost
  obtain ⟨p, _, _, last, _⟩ := (runs_of_planned sides.planned).last split (ofHost ▸ needed)
    fun op mem => by simpa [ofHost] using rest op mem
  rw [ofHost] at last
  exact ⟨p, p', last, last', measuredBy_gate some measures⟩

theorem admits_of_reduces (paired : Paired ds r r' o o') {p p' : Program} (kind : p.kind = p'.kind)
    (reduces : Reduces p'.ops p.ops) (measures : Circuit.measuredBy p'.ops ≠ []) {c : Circuit}
    (circuit : Circuits r' p' c) : Admits r p := by
  intro s serves
  obtain ⟨s', serves', made⟩ := circuit
  obtain ⟨_, _, few, _⟩ := Circuit.ofOps_eq_ok.mp made
  have same := serves'.unique (kind ▸ serves.stripped paired.made paired.made')
  rw [same] at few
  refine ⟨touched_of_measuredBy ?_, Nat.le_trans reduces.touched few⟩
  rwa [reduces.measuredBy]

theorem alone (paired : Paired ds r r' o o') (numbered : Numbered ledger.instructions)
    (ends : EndsMeasured o.capabilities ledger)
    (sides : Sides r' o o' ledger routing programs programs' runs runs') {p p' : Program}
    (last : lastOf ledger.dominantKind runs = some p)
    (last' : lastOf ledger.dominantKind runs' = some p')
    (measures : Circuit.measuredBy p'.ops ≠ []) (alone : Alone o.capabilities ledger) :
    Reduces p'.ops p.ops ∧ ∀ q ∈ runs, Admits r q := by
  obtain ⟨mem, kind⟩ := mem_of_lastOf last
  obtain ⟨mem', kind'⟩ := mem_of_lastOf last'
  have planned := sides.planned
  have planned' := sides.planned'
  rw [← paired.classical] at planned planned'
  obtain ⟨one, _, reduces⟩ := paired.reduces numbered alone (paired.host_needed sides ends)
    sides.routed sides.lowered sides.trims planned' planned mem mem'
  obtain ⟨_, circuit⟩ := sides.circuits p' mem'
  refine ⟨reduces, fun q among => ?_⟩
  rw [one] at among
  rw [List.mem_singleton.mp among]
  exact paired.admits_of_reduces (kind.trans kind'.symm) reduces measures circuit

end Paired

theorem Samples.reduced {r r' : Registry} {p p' : Program} {c c' : Circuit} {m m' : MeasuredSample}
    (samples : Samples r p c m) (samples' : Samples r' p' c' m') (reduces : Reduces p'.ops p.ops)
    (measures : Circuit.measuredBy p'.ops ≠ []) : m.qubits = m'.qubits ∧
      ∀ value outcome, c.probability (exactTrigonometry value) outcome =
        c'.probability (exactTrigonometry value) outcome := by
  obtain ⟨_, _, circuit⟩ := samples.circuits
  obtain ⟨_, _, circuit'⟩ := samples'.circuits
  refine ⟨?_, fun value outcome => ?_⟩
  · rw [samples.qubits, samples'.qubits]
    exact reduces.measured circuit' circuit measures
  · exact reduces.probability (exactTrigonometry_unit value) circuit' circuit measures outcome

section Preserved
variable {ds : List Descriptor} {r r' : Registry} {plan : SpawnPlan}
  {policy policy' : SupervisionPolicy} {o o' : Orchestrator} {ledger : FrozenLedger}

/-- The host's samples with passes and without them, and when they are samples of the same
    distribution. -/
theorem passes_preserve (made : Registry.ofDescriptors ds = .ok r)
    (stripped : Registry.ofDescriptors (ds.map Descriptor.withoutPasses) = .ok r')
    (simulated : Simulated ds) (reachable : Reachable r .builtin plan policy o)
    (reachable' : Reachable r' .builtin plan policy' o') (numbered : Numbered ledger.instructions)
    (ends : EndsMeasured o.capabilities ledger) {plain : RunOutput}
    (succeeds : (o'.run ledger).1 = .ok plain) :
    ∃ runs runs' p p', o.Foresees ledger runs ∧ o'.Foresees ledger runs' ∧
      lastOf ledger.dominantKind runs = some p ∧ lastOf ledger.dominantKind runs' = some p' ∧
      ((∃ out, (o.run ledger).1 = .ok out) ↔ ∀ q ∈ runs, Admits r q) ∧
      (Alone o.capabilities ledger → Reduces p'.ops p.ops ∧ ∀ q ∈ runs, Admits r q) ∧
      ∀ out, (o.run ledger).1 = .ok out → ∃ m m' c c',
        out.sample = .measured m ∧ plain.sample = .measured m' ∧
        Samples r p c m ∧ Samples r' p' c' m' ∧
        (Reduces p'.ops p.ops → m.qubits = m'.qubits ∧
          ∀ value outcome, c.probability (exactTrigonometry value) outcome =
            c'.probability (exactTrigonometry value) outcome) := by
  have paired := paired_of_reachable (Registry.made_of_ofDescriptors made)
    (Registry.made_of_ofDescriptors stripped) simulated reachable reachable'
  obtain ⟨routing, programs, programs', runs, runs', sides, sampled'⟩ := paired.sides succeeds
  obtain ⟨p, p', last, last', measures⟩ := paired.last_runs numbered ends sides
  refine ⟨runs, runs', p, p', ⟨programs, sides.prepares, sides.planned⟩,
    ⟨programs', sides.prepares', paired.classical ▸ sides.planned'⟩, last, last',
    paired.succeeds_iff sides, paired.alone numbered ends sides last last' measures,
    fun out ok => ?_⟩
  obtain ⟨_, same, _, _, sampled⟩ := paired.ready.run_ok sides.prepares sides.covered ok
  cases sides.planned.symm.trans same
  obtain ⟨m, c, sample, samples⟩ := sampled p last
  obtain ⟨m', c', sample', samples'⟩ := sampled' p' last'
  exact ⟨m, m', c, c', sample, sample', samples, samples',
    fun reduces => samples.reduced samples' reduces measures⟩

end Preserved

section Twins

def aux : Kind := ⟨"aux", 1⟩

def twins (passes : List String) : List Descriptor :=
  [.classical, { Descriptor.stateVector with passes := passes },
    { Descriptor.stateVector with name := aux.name, passes := passes }]

def twinRegistry (passes : List String) : Registry where
  descriptors := ⟨[("aux", { Descriptor.stateVector with name := aux.name, passes := passes }),
    ("classical", .classical), ("quantum", { Descriptor.stateVector with passes := passes })]⟩
  classical := .classical
  classical_found := rfl

def twinSimulator (kind : Kind) (passes : List String) : Simulator :=
  ⟨kind.name, ⟨kind, InstructionSet.stateVector.intersect .stateVector, true⟩, passes, 1024, 7, 16⟩

def twinPlan : SpawnPlan := ⟨[.classical, aux, .quantum]⟩

def twinOffice (passes : List String) : Orchestrator where
  plan := twinPlan
  classical := .ofDescriptor .classical
  capabilities := .ofList [(twinSimulator aux passes).capabilities,
    (twinSimulator .quantum passes).capabilities] (Evaluator.ofDescriptor .classical).capabilities
  workers := ⟨[(aux, .start aux (twinSimulator aux passes).subCompiler),
    (.quantum, .start .quantum (twinSimulator .quantum passes).subCompiler)]⟩
  policy := .escalate
  nextSession := 0
  transcript := []

theorem twins_made : Registry.ofDescriptors (twins ["cancel-inverses"]) =
    .ok (twinRegistry ["cancel-inverses"]) := rfl

theorem twins_stripped :
    Registry.ofDescriptors ((twins ["cancel-inverses"]).map Descriptor.withoutPasses) =
      .ok (twinRegistry []) := rfl

theorem twins_simulated (passes : List String) : Simulated (twins passes) := by
  intro d mem other
  simp only [twins, List.mem_cons, List.not_mem_nil, or_false] at mem
  rcases mem with rfl | rfl | rfl
  · exact absurd rfl other
  · rfl
  · rfl

theorem twinOffice_started (passes : List String) :
    Orchestrator.start (twinRegistry passes) .builtin twinPlan .escalate =
      .ok (twinOffice passes) := by
  have workers : startWorkers (twinRegistry passes) .builtin
      (twinPlan.elems.filter fun k => !k.isClassical) =
        .ok [(aux, (twinSimulator aux passes).subCompiler),
          (.quantum, (twinSimulator .quantum passes).subCompiler)] := rfl
  have table : ∀ v w : Worker, Table.ofList [(aux, v), (Kind.quantum, w)] =
      ⟨[(aux, v), (Kind.quantum, w)]⟩ := by
    have other : aux ≠ Kind.quantum := by decide
    have later : Key.before Kind.quantum aux = false := rfl
    simp [Table.ofList, Table.insert, Table.update, Table.updateEntry, Table.empty, other, later]
  unfold Orchestrator.start
  rw [workers]
  simp only [bind, Except.bind, pure, Except.pure, List.map_cons, List.map_nil, table]
  rfl

theorem twinOffice_reachable (passes : List String) :
    Reachable (twinRegistry passes) .builtin twinPlan .escalate (twinOffice passes) :=
  .start (twinOffice_started passes)

theorem twinOffice_ready : (twinOffice []).Ready (simulators (twinRegistry [])) ∧
    (twinOffice ["cancel-inverses"]).Ready (simulators (twinRegistry ["cancel-inverses"])) :=
  ⟨(twinOffice_reachable []).ready (simulators_staff (Registry.made_of_ofDescriptors twins_stripped)
      (twins_simulated ["cancel-inverses"]).withoutPasses),
    (twinOffice_reachable _).ready (simulators_staff (Registry.made_of_ofDescriptors twins_made)
      (twins_simulated _))⟩

theorem twins_serve (passes : List String) :
    (twinRegistry passes).Serves .quantum (twinSimulator .quantum passes) ∧
      (twinRegistry passes).Serves aux (twinSimulator aux passes) :=
  ⟨⟨{ Descriptor.stateVector with passes := passes }, rfl, rfl⟩,
    ⟨{ Descriptor.stateVector with name := aux.name, passes := passes }, rfl, rfl⟩⟩

def doubled : FrozenLedger where
  id := 0
  instructions := [⟨0, "x", [.qubit 0], .quantum⟩, ⟨1, "x", [.qubit 0], .quantum⟩,
    ⟨2, "measure", [.qubit 0], .quantum⟩]
  kinds := ⟨[.quantum]⟩
  owners := ⟨[0]⟩

def doubledProgram : Program :=
  ⟨.quantum, [Lowering.gate 0 "x" [0], Lowering.gate 1 "x" [0], Lowering.gate 2 "measure" [0]]⟩

theorem doubled_prepared : (twinOffice []).Prepares doubled [doubledProgram] :=
  ⟨rfl, _, _, rfl, rfl⟩

theorem doubled_schedule : schedule [doubledProgram] = tagged doubledProgram := by
  simp [schedule, doubledProgram, tagged, Lowering.gate, NativeOp.plain, List.mergeSort,
    List.MergeSort.Internal.splitInTwo]

theorem doubled_succeeds : ∃ plain, ((twinOffice []).run doubled).1 = .ok plain := by
  have covered : (twinOffice []).Covers (schedule [doubledProgram]) := by
    rw [doubled_schedule]
    unfold Covers
    decide
  have planned : runsOf (twinOffice []).classical (schedule [doubledProgram]) =
      .ok [doubledProgram] := by
    rw [doubled_schedule]
    rfl
  refine twinOffice_ready.1.run_of_circuits doubled_prepared covered planned fun p mem => ?_
  cases List.mem_singleton.mp mem
  exact ⟨_, _, (twins_serve []).1, rfl⟩

theorem doubled_ends : EndsMeasured (twinOffice ["cancel-inverses"]).capabilities doubled :=
  ⟨[⟨0, "x", [.qubit 0], .quantum⟩, ⟨1, "x", [.qubit 0], .quantum⟩],
    ⟨2, "measure", [.qubit 0], .quantum⟩, [], rfl, rfl, ⟨.native, rfl⟩, fun _ none => by cases none⟩

theorem doubled_alone : Alone (twinOffice ["cancel-inverses"]).capabilities doubled := by
  intro i mem kind executes
  obtain ⟨route, resolved⟩ := executes
  left
  simp only [doubled, List.mem_cons, List.not_mem_nil, or_false] at mem
  rcases mem with rfl | rfl | rfl <;>
  · cases resolved
    rfl

theorem doubled_preserved : ∃ plain out p p' m m' c c',
    ((twinOffice []).run doubled).1 = .ok plain ∧
    ((twinOffice ["cancel-inverses"]).run doubled).1 = .ok out ∧
    out.sample = .measured m ∧ plain.sample = .measured m' ∧
    Samples (twinRegistry ["cancel-inverses"]) p c m ∧ Samples (twinRegistry []) p' c' m' ∧
    m.qubits = m'.qubits ∧ ∀ value outcome, c.probability (exactTrigonometry value) outcome =
      c'.probability (exactTrigonometry value) outcome := by
  obtain ⟨plain, succeeds⟩ := doubled_succeeds
  have numbered : Numbered doubled.instructions := rfl
  obtain ⟨runs, runs', p, p', _, _, _, _, runnable, alone, same⟩ :=
    passes_preserve twins_made twins_stripped (twins_simulated _) (twinOffice_reachable _)
      (twinOffice_reachable []) numbered doubled_ends succeeds
  obtain ⟨reduces, admits⟩ := alone doubled_alone
  obtain ⟨out, ran⟩ := runnable.mpr admits
  obtain ⟨m, m', c, c', sample, sample', drawn, drawn', equal⟩ := same out ran
  exact ⟨plain, out, p, p', m, m', c, c', succeeds, ran, sample, sample', drawn, drawn',
    equal reduces⟩

def interrupted : FrozenLedger where
  id := 0
  instructions :=
    [⟨0, "x", [.qubit 0], .quantum⟩, ⟨1, "x", [.qubit 1], aux⟩, ⟨2, "x", [.qubit 0], .quantum⟩,
      ⟨3, "measure", [.qubit 0], .quantum⟩]
  kinds := ⟨[aux, .quantum]⟩
  owners := ⟨[0]⟩

theorem interrupted_ends : EndsMeasured (twinOffice ["cancel-inverses"]).capabilities interrupted :=
  ⟨[⟨0, "x", [.qubit 0], .quantum⟩, ⟨1, "x", [.qubit 1], aux⟩, ⟨2, "x", [.qubit 0], .quantum⟩],
    ⟨3, "measure", [.qubit 0], .quantum⟩, [], rfl, rfl, ⟨.native, rfl⟩, fun _ none => by cases none⟩

def interruptedPrograms (flips : List NativeOp) : List Program :=
  [⟨aux, [Lowering.gate 1 "x" [1]]⟩, ⟨.quantum, flips ++ [Lowering.gate 3 "measure" [0]]⟩]

theorem interrupted_prepared :
    (twinOffice []).Prepares interrupted
      (interruptedPrograms [Lowering.gate 0 "x" [0], Lowering.gate 2 "x" [0]]) ∧
    (twinOffice ["cancel-inverses"]).Prepares interrupted (interruptedPrograms []) :=
  ⟨⟨rfl, _, _, rfl, rfl⟩, ⟨rfl, _, _, rfl, rfl⟩⟩

theorem interrupted_schedule :
    schedule (interruptedPrograms [Lowering.gate 0 "x" [0], Lowering.gate 2 "x" [0]]) =
      [(.quantum, Lowering.gate 0 "x" [0]), (aux, Lowering.gate 1 "x" [1]),
        (.quantum, Lowering.gate 2 "x" [0]), (.quantum, Lowering.gate 3 "measure" [0])] ∧
    schedule (interruptedPrograms []) =
      [(aux, Lowering.gate 1 "x" [1]), (.quantum, Lowering.gate 3 "measure" [0])] := by
  constructor <;>
    simp [schedule, interruptedPrograms, tagged, Lowering.gate, NativeOp.plain, List.mergeSort,
      List.MergeSort.Internal.splitInTwo]

def silent : Circuit := ⟨⟨[(0, 0)]⟩, [0], []⟩

def flipping : Circuit := ⟨⟨[(0, 0)]⟩, [0], [.x 0]⟩

theorem flipping_probability (t : Trigonometry ℝ) :
    silent.probability t "1" = 0 ∧ flipping.probability t "1" = 1 := by
  have vacuum : silent.amplitudes t = #[1, 0] := rfl
  have turned : flipping.amplitudes t = #[0, 1] := rfl
  have outcomes : silent.outcome 0 = "0" ∧ flipping.outcome 1 = "1" := ⟨rfl, rfl⟩
  constructor
  · rw [Circuit.probability, vacuum]
    simp [Finset.sum_range_succ, outcomes.1]
  · rw [Circuit.probability, turned]
    simp [Finset.sum_range_succ, outcomes.2]

theorem interrupted_runs :
    runsOf (twinOffice []).classical
        (schedule (interruptedPrograms [Lowering.gate 0 "x" [0], Lowering.gate 2 "x" [0]])) =
      .ok [⟨.quantum, [Lowering.gate 0 "x" [0]]⟩, ⟨aux, [Lowering.gate 1 "x" [1]]⟩,
        ⟨.quantum, [Lowering.gate 2 "x" [0], Lowering.gate 3 "measure" [0]]⟩] ∧
    runsOf (twinOffice ["cancel-inverses"]).classical (schedule (interruptedPrograms [])) =
      .ok [⟨aux, [Lowering.gate 1 "x" [1]]⟩, ⟨.quantum, [Lowering.gate 3 "measure" [0]]⟩] := by
  rw [interrupted_schedule.1, interrupted_schedule.2]
  exact ⟨rfl, rfl⟩

theorem interrupted_covered :
    (twinOffice []).Covers
      (schedule (interruptedPrograms [Lowering.gate 0 "x" [0], Lowering.gate 2 "x" [0]])) ∧
    (twinOffice ["cancel-inverses"]).Covers (schedule (interruptedPrograms [])) := by
  rw [interrupted_schedule.1, interrupted_schedule.2]
  unfold Covers
  decide

theorem twins_sample {passes : List String} {p : Program} {c d : Circuit} {m : MeasuredSample}
    (quantum : p.kind = .quantum) (made : Circuit.ofOps 16 p.ops = .ok d)
    (samples : Samples (twinRegistry passes) p c m) : c = d := by
  obtain ⟨s, serves, made'⟩ := samples.circuits
  rw [quantum] at serves
  rw [serves.unique (twins_serve passes).1] at made'
  exact Except.ok.inj (made'.symm.trans made)

/-- Passes that look across the other kind's run take away a flip that would be executed. -/
theorem interrupted_changed :
    EndsMeasured (twinOffice ["cancel-inverses"]).capabilities interrupted ∧
    ∃ plain out m m', ((twinOffice []).run interrupted).1 = .ok plain ∧
      ((twinOffice ["cancel-inverses"]).run interrupted).1 = .ok out ∧
      out.sample = .measured m ∧ plain.sample = .measured m' ∧
      Samples (twinRegistry ["cancel-inverses"]) ⟨.quantum, [Lowering.gate 3 "measure" [0]]⟩
        silent m ∧
      Samples (twinRegistry [])
        ⟨.quantum, [Lowering.gate 2 "x" [0], Lowering.gate 3 "measure" [0]]⟩ flipping m' ∧
      ∀ t : Trigonometry ℝ, silent.probability t "1" = 0 ∧ flipping.probability t "1" = 1 := by
  refine ⟨interrupted_ends, ?_⟩
  obtain ⟨prepared, prepared'⟩ := interrupted_prepared
  obtain ⟨covered, covered'⟩ := interrupted_covered
  obtain ⟨planned, planned'⟩ := interrupted_runs
  obtain ⟨ready, ready'⟩ := twinOffice_ready
  obtain ⟨plain, succeeds⟩ := ready.run_of_circuits prepared covered planned fun p mem => by
    simp only [List.mem_cons, List.not_mem_nil, or_false] at mem
    rcases mem with rfl | rfl | rfl
    · exact ⟨_, _, (twins_serve []).1, rfl⟩
    · exact ⟨_, _, (twins_serve []).2, rfl⟩
    · exact ⟨_, _, (twins_serve []).1, rfl⟩
  obtain ⟨out, ran⟩ := ready'.run_of_circuits prepared' covered' planned' fun p mem => by
    simp only [List.mem_cons, List.not_mem_nil, or_false] at mem
    rcases mem with rfl | rfl
    · exact ⟨_, _, (twins_serve _).2, rfl⟩
    · exact ⟨_, _, (twins_serve _).1, rfl⟩
  obtain ⟨runs, same, _, _, sampled⟩ := ready.run_ok prepared covered succeeds
  obtain ⟨runs', same', _, _, sampled'⟩ := ready'.run_ok prepared' covered' ran
  cases planned.symm.trans same
  cases planned'.symm.trans same'
  obtain ⟨m', c', sample, samples⟩ := sampled _ rfl
  obtain ⟨m, c, sample', samples'⟩ := sampled' _ rfl
  have silence : c = silent := twins_sample rfl rfl samples'
  have flip : c' = flipping := twins_sample rfl rfl samples
  subst silence flip
  exact ⟨plain, out, m, m', succeeds, ran, sample', sample, samples', samples,
    flipping_probability⟩

end Twins
end LazyCast.Orchestrator
