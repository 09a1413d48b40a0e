import LazyCast.Proofs.Passes.Pooled
import LazyCast.Proofs.Session.Covering
/-!
Values that share nothing. Pooling the ledgers of two values moves their instructions and may change
the kind that hosts them. Where the ledgers share no qubit and no register, this does not change how
probable it is for either value to read as one outcome or another.
-/
namespace LazyCast

theorem alike_renumber (is : List Instruction) :
    List.Forall₂ Instruction.Alike is (renumber is) := by
  induction is using List.reverseRecOn with
  | nil => exact .nil
  | append_singleton is i ih =>
    rw [renumber_concat]
    exact List.rel_append ih (.cons rfl .nil)

theorem Group.measured_split (g : Group) (v : LazyValue) :
    ∃ closing, (g.measured v).instructions = g.instructions ++ closing := by
  unfold measured
  split
  · exact ⟨[], (List.append_nil _).symm⟩
  · exact ⟨_, rfl⟩

namespace Session
open Orchestrator (Pools Fenced Samples exactTrigonometry)
variable {setup : SessionSetup} {past : History} {s : Session} {v w : LazyValue} {g l : Group}

def recorded (s : Session) (v : LazyValue) : List Instruction :=
  match s.ledger? v with
  | some l => l.instructions
  | none => []

theorem recorded_open (tidy : s.arena.Tidy) (found : s.arena.groups.open? v.ledger = some g) :
    s.recorded v = g.instructions := by
  have same := Arena.find?_matches tidy v.ledger
  rw [found] at same
  obtain ⟨l, held, view⟩ := Option.map_eq_some_iff.mp same
  rw [recorded, ledger?, held]
  exact congrArg LedgerView.instructions view

theorem sameLedger_open (tidy : s.arena.Tidy) (found : s.arena.groups.open? v.ledger = some g)
    (found' : s.arena.groups.open? w.ledger = some l) :
    s.arena.sameLedger v.ledger w.ledger = false ↔ g.lead ≠ l.lead := by
  rw [Arena.sameLedger_matches tidy, tidy.sameGroup_of_open found found']
  exact decide_eq_false_iff_not

theorem interact_two (calm : s.Calm) (found : s.arena.groups.open? v.ledger = some g)
    (found' : s.arena.groups.open? w.ledger = some l) (ne : g.lead ≠ l.lead) (how : Interaction) :
    (s.interact how [v, w] false).1 = .ok true ∧
      (s.interact how [v, w] false).2.orchestrator = s.orchestrator ∧
      ∀ h, s.arena.groups.open? h = some g ∨ s.arena.groups.open? h = some l →
        (s.interact how [v, w] false).2.arena.groups.open? h = some (g.join l) := by
  have memg := (Groups.open?_spec found).1
  have meml := (Groups.open?_spec found').1
  have m := Arena.interact_matches calm.tidy how [v.ledger, w.ledger] false
  have pooled : s.arena.groups.interact [v.ledger, w.ledger] false =
      (.ok (some g.lead), s.arena.groups.merged g l) := by
    unfold Groups.interact
    simp only [Groups.mergeAll, Groups.merge_eq_merged ne found found', Bool.false_eq_true, if_false]
    rfl
  rw [pooled] at m
  refine ⟨?_, rfl, fun h leads => ?_⟩
  · change ((s.arena.interact how [v.ledger, w.ledger] false).1).map Option.isSome = _
    rw [m.answer]
    rfl
  · change (s.arena.interact how [v.ledger, w.ledger] false).2.groups.open? h = _
    rw [m.groups]
    rcases leads with leads | leads <;>
      rw [Groups.open?_merged calm.tidy.apart memg meml ne leads, Groups.afterMerge]
    · rw [if_pos (Or.inl rfl)]
    · rw [if_pos (Or.inr rfl)]

theorem castLazy_frozen (tidy : s.arena.Tidy) {frozen : FrozenLedger}
    (ok : s.frozenBy v = .ok frozen) (chain : CastChain) : (s.castLazy v chain).1 =
      (s.orchestrator.run frozen).1.bind fun out => s.readSample out.sample v.qubits chain := by
  obtain ⟨g, found, rfl⟩ := frozenBy_eq_ok tidy ok
  obtain ⟨b, _, _, concluded⟩ := castLazy_open tidy found chain
  have same : (s.withArena b).orchestrator.run (g.measured v).frozen =
      s.orchestrator.run (g.measured v).frozen := rfl
  rw [concluded, conclude, same]
  rcases s.orchestrator.run (g.measured v).frozen with ⟨_ | _, _⟩ <;> rfl

theorem interact_either (calm : s.Calm) (found : s.arena.groups.open? v.ledger = some g)
    (found' : s.arena.groups.open? w.ledger = some l) (ne : g.lead ≠ l.lead) (how : Interaction)
    {values : List LazyValue} (order : values ∈ [[v, w], [w, v]]) :
    (s.interact how values false).1 = .ok true ∧
      (s.interact how values false).2.orchestrator = s.orchestrator ∧
      ∃ m, (m = g.join l ∨ m = l.join g) ∧
        (s.interact how values false).2.arena.groups.open? v.ledger = some m := by
  simp only [List.mem_cons, List.not_mem_nil, or_false] at order
  rcases order with rfl | rfl
  · obtain ⟨pooled, office, leads⟩ := interact_two calm found found' ne how
    exact ⟨pooled, office, _, Or.inl rfl, leads _ (Or.inl found)⟩
  · obtain ⟨pooled, office, leads⟩ := interact_two calm found' found ne.symm how
    exact ⟨pooled, office, _, Or.inr rfl, leads _ (Or.inr found)⟩

theorem castLazy_pooled (calm : s.Calm) (found : s.arena.groups.open? v.ledger = some g)
    (found' : s.arena.groups.open? w.ledger = some l) (ne : g.lead ≠ l.lead) (how : Interaction)
    (chain : CastChain) : ((s.interact how [v, w] false).2.castLazy v chain).1 =
      (s.orchestrator.run ((g.join l).measured v).frozen).1.bind fun out =>
        s.readSample out.sample v.qubits chain := by
  have tidy := (grows_interact calm how [v, w] false).calm.tidy
  obtain ⟨_, _, leads⟩ := interact_two calm found found' ne how
  exact castLazy_frozen tidy (frozenBy_open tidy (leads _ (Or.inl found))) chain

/-- A cast of the value reads a sample that is drawn from the circuit, in the only run of its
    ledger. -/
def Draws (r : Registry) (s : Session) (v : LazyValue) (c : Circuit) : Prop :=
  ∃ frozen out p m, s.frozenBy v = .ok frozen ∧ (s.orchestrator.run frozen).1 = .ok out ∧
    (s.orchestrator.run frozen).2.ran = s.orchestrator.ran ++ [p] ∧ out.sample = .measured m ∧
    Samples r p c m ∧
    ∀ chain, (s.castLazy v chain).1 = s.readSample (.measured m) v.qubits chain

theorem Draws.unique {r : Registry} {c c' : Circuit} (draws : Draws r s v c)
    (draws' : Draws r s v c') : c = c' := by
  obtain ⟨frozen, _, p, _, same, _, ran, _, samples, _⟩ := draws
  obtain ⟨frozen', _, p', _, same', _, ran', _, samples', _⟩ := draws'
  cases same.symm.trans same'
  have program := List.append_cancel_left (ran.symm.trans ran')
  cases program
  obtain ⟨_, serves, made⟩ := samples.circuits
  obtain ⟨_, serves', made'⟩ := samples'.circuits
  cases serves.unique serves'
  exact Except.ok.inj (made.symm.trans made')

theorem draws_open (calm : s.Calm) (found : s.arena.groups.open? v.ledger = some g) {r : Registry}
    {out : RunOutput} {p : Program} {m : MeasuredSample} {c : Circuit}
    (ok : (s.orchestrator.run (g.measured v).frozen).1 = .ok out)
    (ran : (s.orchestrator.run (g.measured v).frozen).2.ran = s.orchestrator.ran ++ [p])
    (drawn : out.sample = .measured m) (samples : Samples r p c m) : Draws r s v c := by
  have frozen := frozenBy_open calm.tidy found
  refine ⟨_, out, p, m, frozen, ok, ran, drawn, samples, fun chain => ?_⟩
  rw [castLazy_frozen calm.tidy frozen, ok, ← drawn]
  rfl

/-- Two values with ledgers of their own that share no qubit and no register, that both run when their
    value is cast, and that have room together. The measurement of the first value counts with its
    ledger. -/
structure Unrelated (s : Session) (room : Nat) (a b : LazyValue) (first second : FrozenLedger) :
    Prop where
  other : s.arena.sameLedger a.ledger b.ledger = false
  frozen : s.frozenBy a = .ok first
  frozen' : s.frozenBy b = .ok second
  runs : ∃ out, (s.orchestrator.run first).1 = .ok out
  runs' : ∃ out, (s.orchestrator.run second).1 = .ok out
  qubits : ∀ q ∈ first.instructions.flatMap Instruction.qubits,
    q ∉ (s.recorded b).flatMap Instruction.qubits
  registers : ∀ name ∈ first.instructions.flatMap Instruction.registers,
    name ∉ (s.recorded b).flatMap Instruction.registers
  few : ((first.instructions ++ s.recorded b).flatMap Instruction.qubits).toFinset.card ≤ room

/-- Pooled in either order, the instructions of one of two groups come between those of the other. -/
theorem shuffles_join {v : LazyValue} (wide : v.qubits ≠ []) {m : Group}
    (joined : m = g.join l ∨ m = l.join g) :
    Shuffles Instruction.Alike (g.measured v).instructions l.instructions
      (m.measured v).instructions := by
  obtain ⟨i, own⟩ : ∃ i : Instruction, (g.measured v).instructions = g.instructions ++ [i] ∧
      ∀ n, { measurement v with seq := n } = { i with seq := n } :=
    ⟨_, g.measured_instructions wide, fun _ => rfl⟩
  have refl : ∀ is : List Instruction, List.Forall₂ Eq is is := fun is =>
    List.forall₂_same.mpr fun _ _ => rfl
  have last : Shuffles Eq [i] [] [i] := .left rfl .nil
  have side : ∃ order, m.instructions = renumber order ∧
      Shuffles Eq (g.instructions ++ [i]) l.instructions (order ++ [i]) := by
    rcases joined with rfl | rfl
    · refine ⟨_, rfl, ?_⟩
      have both := (last.append_right (refl l.instructions)).append_left (refl g.instructions)
      rwa [List.append_nil, ← List.append_assoc] at both
    · refine ⟨_, rfl, ?_⟩
      have both := (last.append_left (refl g.instructions)).append_right (refl l.instructions)
      rwa [List.append_nil, ← List.append_assoc] at both
  obtain ⟨order, numbered, shuffled⟩ := side
  rw [own.1, m.measured_instructions wide, numbered, length_renumber, own.2, ← renumber_concat]
  exact shuffled.follow (fun same alike => same ▸ alike) (alike_renumber _)

theorem Unrelated.pools {room : Nat} {a b : LazyValue} {kind : Kind}
    (unrelated : Unrelated s room a b (g.measured a).frozen (l.measured b).frozen)
    (calm : s.Calm) (found : s.arena.groups.open? a.ledger = some g)
    (found' : s.arena.groups.open? b.ledger = some l) (wide : a.qubits ≠ [])
    (fenced : kind ∈ (l.measured b).frozen.kinds.elems → Fenced kind (g.measured a).frozen)
    (fenced' : kind ∈ (g.measured a).frozen.kinds.elems → Fenced kind (l.measured b).frozen)
    {m : Group} (joined : m = g.join l ∨ m = l.join g) :
    Pools kind room (g.measured a).frozen (l.measured b).frozen (m.measured a).frozen
      l.instructions := by
  have recorded := recorded_open calm.tidy found'
  have shuffled := shuffles_join wide joined
  have listed : ∀ k : Group, Orchestrator.Listed k.frozen :=
    fun k i mem => mem_kindsOf.mpr ⟨i, mem, rfl⟩
  obtain ⟨closing, split⟩ := l.measured_split b
  exact {
    split := ⟨closing, split⟩
    shuffled := shuffled
    numbered := Group.numbered_measured (calm.tidy.numbered g (Groups.open?_spec found).1) a
    numbered' := Group.numbered_measured (calm.tidy.numbered l (Groups.open?_spec found').1) b
    numbered'' := by
      refine Group.numbered_measured ?_ a
      rcases joined with rfl | rfl <;> exact numbered_renumber _
    listed := listed _
    listed' := listed _
    kinds := by
      intro kind mem
      obtain ⟨i, among, rfl⟩ := mem_kindsOf.mp mem
      rcases shuffled.mem i among with ⟨j, among, alike⟩ | ⟨j, among, alike⟩
      · exact Or.inl (mem_kindsOf.mpr ⟨j, among, by rw [alike]⟩)
      · refine Or.inr (mem_kindsOf.mpr ⟨j, ?_, by rw [alike]⟩)
        rw [split]
        exact List.mem_append_left closing among
    qubits := recorded ▸ unrelated.qubits
    registers := recorded ▸ unrelated.registers
    few := recorded ▸ unrelated.few
    fenced := fenced
    fenced' := fenced' }

/-- Pooling two values that share nothing, in whatever order, leaves every outcome of the first as
    probable as it is when the value is cast by itself. The value has some qubit; and where one of the
    ledgers is the evaluator's alone, no fence in it names a qubit twice. -/
theorem pooled_unrelated {ds : List Descriptor} {backend : Descriptor} {sim : Simulator}
    (made : Registry.ofDescriptors ds = .ok setup.registry) (one : OneBackend ds backend sim)
    (modules : setup.modules = .builtin) (reached : Reached setup past s) {a b : LazyValue}
    {first second : FrozenLedger} (unrelated : Unrelated s sim.maxQubits a b first second)
    (wide : a.qubits ≠ [])
    (fenced : backend.kind ∈ second.kinds.elems → Fenced backend.kind first)
    (fenced' : backend.kind ∈ first.kinds.elems → Fenced backend.kind second) :
    ∃ c, Draws setup.registry s a c ∧ ∀ how, ∀ values ∈ [[a, b], [b, a]],
      (s.interact how values false).1 = .ok true ∧
        ∃ c', Draws setup.registry (s.interact how values false).2 a c' ∧
          ∀ value outcome, c.probabilityOn (exactTrigonometry value) a.qubits outcome =
            c'.probabilityOn (exactTrigonometry value) a.qubits outcome := by
  have calm := reached.calm
  obtain ⟨plan, _, reachable⟩ := reached.reachable modules
  have made := Registry.made_of_ofDescriptors made
  obtain ⟨g, found, rfl⟩ := frozenBy_eq_ok calm.tidy unrelated.frozen
  obtain ⟨l, found', rfl⟩ := frozenBy_eq_ok calm.tidy unrelated.frozen'
  have ne := (sameLedger_open calm.tidy found found').mp unrelated.other
  obtain ⟨_, ran⟩ := unrelated.runs
  obtain ⟨_, ran'⟩ := unrelated.runs'
  have closes := g.closes wide
  have each : ∀ how, ∀ values ∈ [[a, b], [b, a]], (s.interact how values false).1 = .ok true ∧
      ∃ c c', Draws setup.registry s a c ∧
        Draws setup.registry (s.interact how values false).2 a c' ∧
          ∀ value outcome, c.probabilityOn (exactTrigonometry value) a.qubits outcome =
            c'.probabilityOn (exactTrigonometry value) a.qubits outcome := by
    intro how values order
    obtain ⟨pooled, office, m, joined, opened⟩ := interact_either calm found found' ne how order
    have pools := unrelated.pools calm found found' wide fenced fenced' joined
    obtain ⟨p, sample, c, grew, drawn, samples, out, p', sample', c', ok, grew', drawn', samples',
      same⟩ := pools.alike one made reachable ran ran' closes.mem closes.measures
        closes.operands wide
    refine ⟨pooled, c, c', draws_open calm found ran grew drawn samples, ?_, same⟩
    have calm' := (grows_interact calm how values false).calm
    rw [← office] at ok grew'
    exact draws_open calm' opened ok (office ▸ grew') drawn' samples'
  obtain ⟨_, c, _, draws, _⟩ := each .call [a, b] List.mem_cons_self
  refine ⟨c, draws, fun how values order => ?_⟩
  obtain ⟨pooled, c₀, c', draws₀, draws', same⟩ := each how values order
  cases draws.unique draws₀
  exact ⟨pooled, c', draws', same⟩

theorem readSample_blank (s : Session) (m : MeasuredSample) (chain : CastChain) :
    ∃ e, s.readSample (.measured m) [] chain = .error e := by
  rw [readSample_eq]
  cases covered : (Sample.measured m).part? [] with
  | none => exact ⟨_, rfl⟩
  | some part =>
    obtain ⟨m', project, rfl⟩ := Option.map_eq_some_iff.mp covered
    have none : m'.qubits = [] := by
      unfold MeasuredSample.project at project
      simp only [MeasuredSample.positions?, List.mapM_nil, bind, Option.bind, pure] at project
      split at project
      · cases project
        rfl
      · cases project
    have refused : ∃ cause, s.interpreter.read chain.firstTarget (.measured m') = .error cause := by
      unfold Interpreter.read
      dsimp only
      split
      · exact ⟨_, rfl⟩
      · by_cases shots : m'.counts.total = 0 <;> simp [Interpreter.flaw?, none, shots]
    obtain ⟨cause, refused⟩ := refused
    refine ⟨.reading chain.firstTarget cause, ?_⟩
    dsimp only
    rw [Interpreter.interpret, refused]
    rfl

section Units
open Orchestrator (run_of_ordered)

def units : SessionSetup :=
  { SessionSetup.ofRegistry oneShot with
    types := TypeTable.builtin.define ⟨"@unit", .quantum, .scalar 0⟩
    casts := CastTable.builtin.register "@unit" "u64" (CastTable.convertTo "u64") }

def blank : LazyValue := ⟨0, "@unit", .quantum, ⟨0, 0⟩, []⟩

def flipped : LazyValue := ⟨1, "@bool", .quantum, ⟨1, 0⟩, [0]⟩

def unitCalls (fence : List Qubit) : List Call :=
  [.lazyValue "@unit", .lazyValue "@bool", .apply blank .classical "const" [.reg "r", .int 5],
    .apply blank .classical "barrier" (fence.map Operand.qubit),
    .apply flipped .quantum "x" [.qubit 0]]

def blankGroup (fence : List Qubit) : Group :=
  ⟨⟨0, 0⟩, [⟨0, 0⟩], [⟨0, "const", [.reg "r", .int 5], .classical⟩,
    ⟨1, "barrier", fence.map Operand.qubit, .classical⟩], ⟨[0]⟩, .accumulating⟩

def flippedGroup : Group :=
  ⟨⟨1, 0⟩, [⟨1, 0⟩], [⟨0, "x", [.qubit 0], .quantum⟩], ⟨[1]⟩, .accumulating⟩

def evaluatedIn (r : Except Fault RunOutput) : Option Int64 :=
  match r with
  | .ok ⟨.deterministic (some (.int n)) _, _⟩ => some n
  | _ => none

theorem units_recorded {first : Session} (started : units.start = .ok first)
    (fence : List Qubit) : ∃ past s, Reached units past s ∧ s.interpreter = .builtin ∧
      s.orchestrator = first.orchestrator ∧
      s.arena.groups.open? blank.ledger = some (blankGroup fence) ∧
      s.arena.groups.open? flipped.ledger = some flippedGroup := by
  refine ⟨_, _, reached_run started (unitCalls fence), ?_⟩
  cases started
  exact ⟨rfl, rfl, rfl, rfl⟩

theorem units_run : ∃ first, units.start = .ok first ∧
    (∀ fence ∈ [[7], [7, 7]],
      evaluatedIn (first.orchestrator.run ((blankGroup fence).measured blank).frozen).1 = some 5) ∧
    measuredIn (first.orchestrator.run (flippedGroup.measured flipped).frozen).1 = some (⟨[("1", 1)]⟩, [0], []) ∧
    (measuredIn (first.orchestrator.run
      (((blankGroup [7]).join flippedGroup).measured blank).frozen).1).isSome = true ∧
    ∃ e, (first.orchestrator.run
      ((flippedGroup.join (blankGroup [7, 7])).measured flipped).frozen).1 = .error e := by
  refine ⟨_, rfl, ?_, ?_, ?_, ?_⟩
  · intro fence mem
    simp only [List.mem_cons, List.not_mem_nil, or_false] at mem
    rcases mem with rfl | rfl
    · rw [run_of_ordered ⟨.classical, [⟨0, "const", .classical, .classical, .native⟩,
          ⟨1, "barrier", .classical, .classical, .native⟩]⟩
        [⟨.classical, [.plain 0 "const" [.reg "r", .int 5], .plain 1 "barrier" [.qubit 7]]⟩]
        (by decide) (by rfl) (by rfl) (by decide)]
      decide +kernel
    · rw [run_of_ordered ⟨.classical, [⟨0, "const", .classical, .classical, .native⟩,
          ⟨1, "barrier", .classical, .classical, .native⟩]⟩
        [⟨.classical, [.plain 0 "const" [.reg "r", .int 5],
          .plain 1 "barrier" [.qubit 7, .qubit 7]]⟩]
        (by decide) (by rfl) (by rfl) (by decide)]
      decide +kernel
  · rw [run_of_ordered ⟨.quantum, [⟨0, "x", .quantum, .quantum, .native⟩,
        ⟨1, "measure", .quantum, .quantum, .native⟩]⟩
      [⟨.quantum, [.plain 0 "x" [.qubit 0], .plain 1 "measure" [.qubit 0]]⟩]
      (by decide) (by rfl) (by rfl) (by decide)]
    decide +kernel
  · rw [run_of_ordered ⟨.quantum, [⟨0, "const", .classical, .classical, .native⟩,
        ⟨1, "barrier", .classical, .quantum, .embedded⟩, ⟨2, "x", .quantum, .quantum, .native⟩]⟩
      [⟨.classical, [.plain 0 "const" [.reg "r", .int 5]]⟩,
        ⟨.quantum, [.plain 1 "barrier" [.qubit 7], .plain 2 "x" [.qubit 0]]⟩]
      (by decide) (by rfl) (by rfl) (by decide)]
    decide +kernel
  · exact ⟨_, rfl⟩

def oneShotBackend : Descriptor :=
  { Descriptor.stateVector with metadata := .object [(some "shots", .ofNat 1)] }

theorem oneShot_backend : ∃ sim, OneBackend [.classical, oneShotBackend] oneShotBackend sim ∧
    2 ≤ sim.maxQubits := by
  refine ⟨_, ⟨by decide, fun d mem other => ?_, rfl, rfl⟩, by decide⟩
  rcases List.mem_cons.mp mem with rfl | mem
  · exact absurd rfl other
  · exact List.mem_singleton.mp mem

theorem runs_of_evaluatedIn {r : Except Fault RunOutput} {n : Int64}
    (evaluated : evaluatedIn r = some n) :
    ∃ out registers, r = .ok out ∧ out.sample = .deterministic (some (.int n)) registers := by
  unfold evaluatedIn at evaluated
  split at evaluated
  · cases evaluated
    exact ⟨_, _, rfl, rfl⟩
  · cases evaluated

theorem units_unrelated {past : History} (reached : Reached units past s)
    {fence : List Qubit} (mem : fence ∈ [[7], [7, 7]])
    (found : s.arena.groups.open? blank.ledger = some (blankGroup fence))
    (found' : s.arena.groups.open? flipped.ledger = some flippedGroup)
    (evaluated :
      evaluatedIn (s.orchestrator.run ((blankGroup fence).measured blank).frozen).1 = some 5)
    (measured : measuredIn (s.orchestrator.run (flippedGroup.measured flipped).frozen).1 =
      some (⟨[("1", 1)]⟩, [0], [])) {room : Nat} (two : 2 ≤ room) :
    Unrelated s room blank flipped ((blankGroup fence).measured blank).frozen
        (flippedGroup.measured flipped).frozen ∧
      Unrelated s room flipped blank (flippedGroup.measured flipped).frozen
        ((blankGroup fence).measured blank).frozen := by
  have tidy := reached.calm.tidy
  have ne : (blankGroup fence).lead ≠ flippedGroup.lead := by simp [blankGroup, flippedGroup]
  obtain ⟨out, _, ran, _⟩ := runs_of_evaluatedIn evaluated
  obtain ⟨m, ran', _, _⟩ := measuredIn_eq_some measured
  have recorded := recorded_open tidy found
  have recorded' := recorded_open tidy found'
  simp only [List.mem_cons, List.not_mem_nil, or_false] at mem
  constructor
  · exact {
      other := (sameLedger_open tidy found found').mpr ne
      frozen := frozenBy_open tidy found
      frozen' := frozenBy_open tidy found'
      runs := ⟨_, ran⟩
      runs' := ⟨_, ran'⟩
      qubits := by rw [recorded']; rcases mem with rfl | rfl <;> decide
      registers := by rw [recorded']; rcases mem with rfl | rfl <;> decide
      few := by
        refine Nat.le_trans ?_ two
        rw [recorded']
        rcases mem with rfl | rfl <;> decide }
  · exact {
      other := (sameLedger_open tidy found' found).mpr ne.symm
      frozen := frozenBy_open tidy found'
      frozen' := frozenBy_open tidy found
      runs := ⟨_, ran'⟩
      runs' := ⟨_, ran⟩
      qubits := by rw [recorded]; rcases mem with rfl | rfl <;> decide
      registers := by rw [recorded]; rcases mem with rfl | rfl <;> decide
      few := by
        refine Nat.le_trans ?_ two
        rw [recorded]
        rcases mem with rfl | rfl <;> decide }

theorem flipped_stays : ∃ past s c, Reached units past s ∧ Draws oneShot s flipped c ∧
    ∀ how, ∀ values ∈ [[flipped, blank], [blank, flipped]],
      (s.interact how values false).1 = .ok true ∧
        ∃ c', Draws oneShot (s.interact how values false).2 flipped c' ∧
          ∀ value outcome, c.probabilityOn (exactTrigonometry value) [0] outcome =
            c'.probabilityOn (exactTrigonometry value) [0] outcome := by
  obtain ⟨first, started, evaluated, measured, _⟩ := units_run
  obtain ⟨past, s, reached, _, office, found, found'⟩ := units_recorded started [7]
  rw [← office] at evaluated measured
  obtain ⟨sim, backend, two⟩ := oneShot_backend
  have unrelated := (units_unrelated reached List.mem_cons_self found found'
    (evaluated _ List.mem_cons_self) measured two).2
  obtain ⟨c, draws, stays⟩ := pooled_unrelated rfl backend rfl reached unrelated (by decide)
    (fun _ => Or.inl (by decide)) fun _ => Or.inr (by decide)
  exact ⟨past, s, c, reached, draws, stays⟩

theorem blank_lost : ∃ past s sim first second,
    Reached units past s ∧ OneBackend [.classical, oneShotBackend] oneShotBackend sim ∧
    Unrelated s sim.maxQubits blank flipped first second ∧
    (Kind.quantum ∈ second.kinds.elems → Fenced .quantum first) ∧
    (Kind.quantum ∈ first.kinds.elems → Fenced .quantum second) ∧
    (s.castLazy blank (toNumber blank)).1 = .ok (.u64 5) ∧
    ∃ e, ((s.interact .call [blank, flipped] false).2.castLazy blank (toNumber blank)).1 =
      .error e := by
  obtain ⟨first, started, evaluated, measured, sampled, _⟩ := units_run
  obtain ⟨sim, backend, two⟩ := oneShot_backend
  obtain ⟨past, s, reached, builtin, office, found, found'⟩ := units_recorded started [7]
  rw [← office] at evaluated measured sampled
  have tidy := reached.calm.tidy
  have evaluated := evaluated _ List.mem_cons_self
  refine ⟨past, s, sim, _, _, reached, backend, (units_unrelated reached List.mem_cons_self found
    found' evaluated measured two).1, fun _ => Or.inr (by decide), fun _ => Or.inl (by decide),
    ?_, ?_⟩
  · obtain ⟨out, registers, ran, value⟩ := runs_of_evaluatedIn evaluated
    rw [castLazy_frozen tidy (frozenBy_open tidy found), ran, Except.bind, value, readSample_eq,
      builtin]
    rfl
  · obtain ⟨⟨_, _, _⟩, pooled⟩ := Option.isSome_iff_exists.mp sampled
    obtain ⟨m, ran, _, _⟩ := measuredIn_eq_some pooled
    rw [castLazy_pooled reached.calm found found' (by simp [blankGroup, flippedGroup]), ran]
    exact s.readSample_blank m (toNumber blank)

theorem refenced_lost : ∃ past s sim first second,
    Reached units past s ∧ OneBackend [.classical, oneShotBackend] oneShotBackend sim ∧
    Unrelated s sim.maxQubits flipped blank first second ∧
    (s.castLazy flipped (toNumber flipped)).1 = .ok (.u64 1) ∧
    ∃ e, ((s.interact .call [flipped, blank] false).2.castLazy flipped (toNumber flipped)).1 =
      .error e := by
  obtain ⟨first, started, evaluated, measured, _, refused⟩ := units_run
  obtain ⟨sim, backend, two⟩ := oneShot_backend
  obtain ⟨past, s, reached, builtin, office, found, found'⟩ := units_recorded started [7, 7]
  rw [← office] at evaluated measured refused
  have tidy := reached.calm.tidy
  have twice : [7, 7] ∈ [[7], [7, 7]] := by decide
  refine ⟨past, s, sim, _, _, reached, backend,
    (units_unrelated reached twice found found' (evaluated _ twice) measured two).2, ?_, ?_⟩
  · obtain ⟨m, ran, counts, qubits⟩ := measuredIn_eq_some measured
    have counts : m.counts = ⟨[(Circuit.label m.qubits 1, 1)]⟩ := by
      rw [counts, qubits]
      decide
    rw [castLazy_frozen tidy (frozenBy_open tidy found'), ran]
    refine (readSample_label (builtin ▸ rfl) counts (by decide) ?_ (by decide) (by decide)).trans rfl
    rw [qubits]
    exact fun q mem => mem
  · obtain ⟨e, refused⟩ := refused
    rw [castLazy_pooled reached.calm found' found (by simp [blankGroup, flippedGroup]), refused]
    exact ⟨e, rfl⟩

/-- Two ways in which a value that is cast by itself is lost when it is pooled with one that shares
    nothing with it: it has no qubits to be measured; or the other one's fence, which names a qubit
    twice, is refused by the simulator and not by the evaluator. -/
theorem pooled_lost :
    (¬ ∀ ds setup backend sim past s a b first second how chain w,
      Registry.ofDescriptors ds = .ok setup.registry → OneBackend ds backend sim →
      setup.modules = .builtin → Reached setup past s →
      Unrelated s sim.maxQubits a b first second →
      (backend.kind ∈ second.kinds.elems → Fenced backend.kind first) →
      (backend.kind ∈ first.kinds.elems → Fenced backend.kind second) →
      (s.castLazy a chain).1 = .ok w →
      ∃ w', ((s.interact how [a, b] false).2.castLazy a chain).1 = .ok w') ∧
    (¬ ∀ ds setup backend sim past s a b first second how chain w,
      Registry.ofDescriptors ds = .ok setup.registry → OneBackend ds backend sim →
      setup.modules = .builtin → Reached setup past s →
      Unrelated s sim.maxQubits a b first second → a.qubits ≠ [] →
      (s.castLazy a chain).1 = .ok w →
      ∃ w', ((s.interact how [a, b] false).2.castLazy a chain).1 = .ok w') := by
  constructor
  · intro kept
    obtain ⟨past, s, sim, _, _, reached, backend, unrelated, fenced, fenced', alone, _, lost⟩ :=
      blank_lost
    obtain ⟨_, pooled⟩ := kept _ _ _ _ _ s blank flipped _ _ .call _ _ rfl backend rfl reached
      unrelated fenced fenced' alone
    cases lost.symm.trans pooled
  · intro kept
    obtain ⟨past, s, sim, _, _, reached, backend, unrelated, alone, _, lost⟩ := refenced_lost
    obtain ⟨_, pooled⟩ := kept _ _ _ _ _ s flipped blank _ _ .call _ _ rfl backend rfl reached
      unrelated (by decide) alone
    cases lost.symm.trans pooled

end Units

end Session
end LazyCast
