import LazyCast.Proofs.Passes.Preserved
import LazyCast.Proofs.Reversible.Hosting
import LazyCast.Proofs.Session.Coverage
/-!
Whether a cast can read the sample of its ledger. A cast measures its value last, on behalf of the
value's kind. If that is the host's to execute, or the host has nothing to execute, the sample has
the value's qubits. Where a kind beside the host executes it, the sample is still that of the
host's last run, which may have measured other qubits, and then the cast is told so.
-/
namespace LazyCast

namespace Fault

/-- The fault of a sample that lacks some qubit. -/
def isUncovered : Fault → Bool
  | reading _ .uncoveredQubits => true
  | _ => false

end Fault

/-- No cast function complains about what a sample covers; none of them is shown the sample. -/
def CastTable.LeavesCoverage (t : CastTable) : Prop :=
  ∀ step, t.Lists step → ∀ v, Spares Fault.isUncovered (step.2 v)

theorem CastTable.AllBuiltin.leavesCoverage {t : CastTable} (builtin : t.AllBuiltin) :
    t.LeavesCoverage :=
  fun step listed => (builtin step listed).spares (fun _ _ => rfl) fun _ _ => rfl

namespace Interpreter

theorem readMeasured_covered (policy : ReadingPolicy) (m : MeasuredSample) :
    readMeasured policy m ≠ .error .uncoveredQubits := by
  have bits : ∀ outcome width, bitsOf outcome width ≠ .error .uncoveredQubits := by
    intro outcome width
    unfold bitsOf
    split <;> simp
  unfold readMeasured
  dsimp only
  cases policy <;> dsimp only
  case majorityVote | leastFrequent =>
    split
    · exact bits _ _
    · simp
  case histogram | expectation => split <;> simp
  case direct =>
    split
    · split
      · exact bits _ _
      · simp
    · simp

theorem flaw?_covered (m : MeasuredSample) : flaw? m ≠ some .uncoveredQubits := by
  unfold flaw?
  dsimp only
  split
  · simp
  · split
    · simp
    · intro flaw
      obtain ⟨_, _, no⟩ := Option.map_eq_some_iff.mp flaw
      cases no

theorem spares_interpret (i : Interpreter) (sample : Sample) (target : TypeName) :
    Spares Fault.isUncovered (i.interpret sample target) := by
  have read : i.read target sample ≠ .error .uncoveredQubits := by
    unfold read
    dsimp only
    split
    · simp
    · split
      · simp
      · simp
      · split
        · rename_i cause flaw
          intro no
          cases no
          exact flaw?_covered _ flaw
        · exact readMeasured_covered _ _
  unfold interpret
  cases found : i.read target sample with
  | ok v => exact spares_ok v
  | error cause =>
    refine spares_error ?_
    unfold Fault.isUncovered
    split
    · rename_i same
      cases same
      exact absurd found read
    · rfl

end Interpreter

/-- A sample whose outcomes fit its qubits lacks what it has not measured, and nothing else. -/
theorem Sample.part?_eq_none {m : MeasuredSample} {targets : List Qubit}
    (fits : ∀ e ∈ m.counts.entries, e.1.utf8ByteSize = m.qubits.length) :
    (Sample.measured m).part? targets = none ↔ ∃ q ∈ targets, q ∉ m.qubits := by
  have whole : ((Sample.measured m).part? []).isSome = true := by
    have all : (m.counts.entries.all fun e => decide (e.1.utf8ByteSize = m.qubits.length)) = true :=
      List.all_eq_true.mpr fun e mem => decide_eq_true (fits e mem)
    simp [Sample.part?, MeasuredSample.project, MeasuredSample.positions?, all]
  rw [← Option.not_isSome_iff_eq_none, Sample.isSome_part? whole]
  simp [Sample.Measures]

theorem Group.numbered_measured {g : Group} (numbered : Numbered g.instructions) (v : LazyValue) :
    Numbered (g.measured v).frozen.instructions := by
  unfold measured
  split
  · exact numbered
  · exact numbered_concat.mpr ⟨numbered, rfl⟩

theorem Group.measured_instructions (g : Group) {v : LazyValue} (some : v.qubits ≠ []) :
    (g.measured v).instructions =
      g.instructions ++ [{ Session.measurement v with seq := g.instructions.length }] := by
  have pushed : g.measured v = g.push (Session.measurement v) :=
    if_neg (by simpa [List.isEmpty_iff] using some)
  rw [pushed]
  rfl

theorem Group.closes (g : Group) {v : LazyValue} (some : v.qubits ≠ []) :
    Orchestrator.Closes (g.measured v).frozen
      { Session.measurement v with seq := g.instructions.length } v.qubits :=
  ⟨⟨g.instructions, g.measured_instructions some⟩, rfl, rfl⟩

namespace Session
variable {setup : SessionSetup} {past : History} {s : Session} {v : LazyValue} {g : Group}

theorem readSample_uncovered {chain : CastChain}
    (leaves : ∀ step ∈ chain.steps, ∀ v, Spares Fault.isUncovered (step.2 v)) {sample : Sample}
    {qubits : List Qubit} :
    (∃ type, s.readSample sample qubits chain = .error (.reading type .uncoveredQubits)) ↔
      sample.part? qubits = none := by
  rw [readSample_eq]
  cases part : sample.part? qubits with
  | none => simp
  | some covered =>
    refine iff_of_false ?_ (by simp)
    rintro ⟨type, refused⟩
    have spared := ((s.interpreter.spares_interpret covered chain.firstTarget).bind
      (CastTable.spares_apply leaves)) _ refused
    cases spared

theorem Reached.simulators {ds : List Descriptor}
    (made : Registry.ofDescriptors ds = .ok setup.registry)
    (simulated : Orchestrator.Simulated ds) (modules : setup.modules = .builtin)
    (reached : Reached setup past s) :
    s.orchestrator.Ready (Orchestrator.simulators setup.registry) ∧
      s.orchestrator.classical = .ofDescriptor setup.registry.classical := by
  obtain ⟨plan, _, reachable⟩ := reached.reachable modules
  obtain ⟨first, started, continues⟩ := reachable.continues
  obtain ⟨compilers, _, rfl⟩ := Orchestrator.start_eq started
  exact ⟨reachable.ready (Orchestrator.simulators_staff (Registry.made_of_ofDescriptors made)
    simulated), continues.1.classical⟩

/-- The sample that a cast reads is that of the host's last run, or of the last run of all when the
    host ran nothing. It covers the value whenever the measurement of the value is the host's, or the
    host ran nothing, and the cast complains about its qubits only if it does not cover the value. -/
theorem casts_covered {ds : List Descriptor}
    (made : Registry.ofDescriptors ds = .ok setup.registry)
    (simulated : Orchestrator.Simulated ds) (modules : setup.modules = .builtin)
    (leaves : setup.casts.LeavesCoverage) (reached : Reached setup past s)
    (found : s.arena.groups.open? v.ledger = some g) {l : FrozenLedger}
    (triggers : (g.measured v).frozen = l) {target : TypeName} {chain : CastChain}
    (compiled : s.compileCast v.type target = .ok (.convert v.type target chain))
    {out : RunOutput} {m : MeasuredSample} (ran : (s.orchestrator.run l).1 = .ok out)
    (sampled : out.sample = .measured m) :
    ∃ runs p c, (s.orchestrator.run l).2.ran = s.orchestrator.ran ++ runs ∧
      Orchestrator.sourceOf l.dominantKind runs = some p ∧
      Orchestrator.Samples setup.registry p c m ∧ m.qubits = Circuit.readout p.ops ∧
      (s.orchestrator.capabilities.Executes l.dominantKind (measurement v) l.dominantKind ∨
          (∀ r ∈ runs, r.kind ≠ l.dominantKind) →
        ∀ q ∈ v.qubits, q ∈ m.qubits) ∧
      ((∃ type, (s.cast (.deferred v) target).1 = .error (.reading type .uncoveredQubits)) ↔
        ∃ q ∈ v.qubits, q ∉ m.qubits) := by
  obtain ⟨ready, evaluates⟩ := reached.simulators made simulated modules
  have made := Registry.made_of_ofDescriptors made
  have calm := reached.calm
  obtain ⟨routing, programs, routed, lowered, prepares⟩ := Orchestrator.prepares_of_run ran
  have lowered := ready.lowerAll_ok.mp lowered
  have covered := Orchestrator.covers_of_lowered made (evaluates ▸ made.classical_kind) lowered
  obtain ⟨runs, planned, ran', _, samples, silent⟩ := ready.run_source prepares covered ran
  have some : runs ≠ [] := by
    intro empty
    obtain ⟨w, registers, sample⟩ := silent empty
    cases sampled.symm.trans sample
  obtain ⟨p, source⟩ : ∃ p, Orchestrator.sourceOf l.dominantKind runs = .some p :=
    Orchestrator.exists_sourceOf some
  obtain ⟨m', c, sample, drawn⟩ := samples p source
  cases sampled.symm.trans sample
  refine ⟨runs, p, c, ran', source, drawn, drawn.readout, fun hosted q mem => ?_, ?_⟩
  · have closes := g.closes (List.ne_nil_of_mem mem)
    rw [triggers] at closes
    have numbered := Group.numbered_measured (calm.tidy.numbered g (Groups.open?_spec found).1) v
    rw [triggers] at numbered
    rw [drawn.readout]
    exact closes.covers numbered made evaluates routed lowered planned hosted source q mem
  · have listed := CastTable.compile_lists (CastPlan.compile_convert compiled)
    rw [reached.tables.1] at listed
    obtain ⟨b, _, _, concluded⟩ := castLazy_open calm.tidy found chain
    have ran : (s.withArena b).orchestrator.run (g.measured v).frozen =
        (.ok out, (s.orchestrator.run l).2) := Prod.ext (triggers ▸ ran) (by rw [triggers]; rfl)
    have answers : (s.cast (.deferred v) target).1 = s.readSample out.sample v.qubits chain := by
      rw [cast_convert compiled, concluded]
      unfold conclude
      rw [ran]
      rfl
    rw [answers, sampled, readSample_uncovered fun step mem => leaves step (listed step mem),
      Sample.part?_eq_none drawn.fits]

section Siblings
open Orchestrator (aux twinRegistry twinOffice)

def siblings : SessionSetup :=
  { SessionSetup.ofRegistry (twinRegistry []) with
    types := TypeTable.builtin.define ⟨"@aux", aux, .scalar 1⟩
    casts := CastTable.builtin.register "@aux" "u64" (CastTable.convertTo "u64") }

def siblingsStart : Session where
  types := siblings.types
  casts := siblings.casts
  interpreter := .builtin
  orchestrator := twinOffice []
  arena := .empty
  allocator := ⟨0, 0⟩
  nextTicket := 0
  pending := .empty
  settled := .empty
  diagnostics := []

theorem siblings_start : siblings.start = .ok siblingsStart := by
  have planned : siblings.plan = .ok Orchestrator.twinPlan := rfl
  have started : Orchestrator.start siblings.registry siblings.modules Orchestrator.twinPlan
      siblings.policy = .ok (twinOffice []) := Orchestrator.twinOffice_started []
  unfold SessionSetup.start
  simp only [planned, bind, Except.bind, started]
  rfl

theorem siblings_leave : siblings.casts.LeavesCoverage :=
  (CastTable.allBuiltin_builtin.register "@aux" "u64" (Or.inr ⟨"u64", rfl⟩)).leavesCoverage

def auxBit : LazyValue := ⟨0, "@aux", aux, ⟨0, 0⟩, [0]⟩

def hostBit : LazyValue := ⟨1, "@bool", .quantum, ⟨1, 0⟩, [1]⟩

def siblingCalls : List Call :=
  [.lazyValue "@aux", .lazyValue "@bool", .apply hostBit .quantum "x" [.qubit 1],
    .interact .call [auxBit, hostBit] false]

def pooledBits (v : LazyValue) : FrozenLedger where
  id := 0
  instructions := [⟨0, "x", [.qubit 1], .quantum⟩, ⟨1, "measure", v.qubitOperands, v.kind⟩]
  kinds := kindsOf [⟨0, "x", [.qubit 1], .quantum⟩, ⟨1, "measure", v.qubitOperands, v.kind⟩]
  owners := ⟨[0, 1]⟩

def toNumber (v : LazyValue) : CastChain := ⟨v.type, [("u64", CastTable.convertTo "u64")]⟩

theorem siblings_pooled : ∃ past s, Reached siblings past s ∧ past.values = [auxBit, hostBit] ∧
    s.orchestrator = twinOffice [] ∧ ∀ v ∈ past.values,
      s.compileCast v.type "u64" = .ok (.convert v.type "u64" (toNumber v)) ∧
      ∃ g, s.arena.groups.open? v.ledger = some g ∧ (g.measured v).frozen = pooledBits v := by
  have values : (siblingsStart.run siblingCalls).1.values = [auxBit, hostBit] := by decide
  refine ⟨_, _, reached_run siblings_start siblingCalls, values, rfl, fun v mem => ?_⟩
  simp only [values, List.mem_cons, List.not_mem_nil, or_false] at mem
  rcases mem with rfl | rfl
  · exact ⟨rfl, _, rfl, rfl⟩
  · exact ⟨rfl, _, rfl, rfl⟩

end Siblings

end Session

namespace Orchestrator
open Session (auxBit hostBit pooledBits)

theorem twins_sampled {l : FrozenLedger} (programs : List Program) (ops : List Scheduled)
    (runs : List Program) (p : Program) (prepares : (twinOffice []).Prepares l programs)
    (order : schedule programs = ops)
    (planned : runsOf (twinOffice []).classical ops = .ok runs)
    (covered : (twinOffice []).Covers ops)
    (circuits : ∀ q ∈ runs, ∃ c, Circuits (twinRegistry []) q c)
    (last : lastOf l.dominantKind runs = some p) :
    ∃ out m, ((twinOffice []).run l).1 = .ok out ∧ out.sample = .measured m ∧
      m.qubits = Circuit.readout p.ops := by
  subst order
  have ready := twinOffice_ready.1
  obtain ⟨out, ran⟩ := ready.run_of_circuits prepares covered planned circuits
  obtain ⟨_, same, _, _, sampled⟩ := ready.run_ok prepares covered ran
  cases planned.symm.trans same
  obtain ⟨m, c, sample, samples⟩ := sampled p last
  exact ⟨out, m, ran, sample, samples.readout⟩

theorem pooledBits_sampled : ∀ v ∈ [auxBit, hostBit], ∃ out m,
    ((twinOffice []).run (pooledBits v)).1 = .ok out ∧ out.sample = .measured m ∧
      m.qubits = [1] := by
  intro v mem
  simp only [List.mem_cons, List.not_mem_nil, or_false] at mem
  rcases mem with rfl | rfl
  · refine twins_sampled
      [⟨aux, [Lowering.gate 1 "measure" [0]]⟩, ⟨.quantum, [Lowering.gate 0 "x" [1]]⟩]
      [(.quantum, Lowering.gate 0 "x" [1]), (aux, Lowering.gate 1 "measure" [0])]
      [⟨.quantum, [Lowering.gate 0 "x" [1]]⟩, ⟨aux, [Lowering.gate 1 "measure" [0]]⟩]
      ⟨.quantum, [Lowering.gate 0 "x" [1]]⟩
      ⟨rfl, _, _, rfl, rfl⟩ ?_ rfl (by unfold Covers; decide) (fun q mem => ?_) rfl
    · simp [schedule, tagged, Lowering.gate, NativeOp.plain, List.mergeSort,
        List.MergeSort.Internal.splitInTwo]
    · simp only [List.mem_cons, List.not_mem_nil, or_false] at mem
      rcases mem with rfl | rfl
      · exact ⟨_, _, (twins_serve []).1, rfl⟩
      · exact ⟨_, _, (twins_serve []).2, rfl⟩
  · refine twins_sampled
      [⟨.quantum, [Lowering.gate 0 "x" [1], Lowering.gate 1 "measure" [1]]⟩]
      [(.quantum, Lowering.gate 0 "x" [1]), (.quantum, Lowering.gate 1 "measure" [1])]
      [⟨.quantum, [Lowering.gate 0 "x" [1], Lowering.gate 1 "measure" [1]]⟩]
      ⟨.quantum, [Lowering.gate 0 "x" [1], Lowering.gate 1 "measure" [1]]⟩
      ⟨rfl, _, _, rfl, rfl⟩ ?_ rfl (by unfold Covers; decide) (fun q mem => ?_) rfl
    · simp [schedule, tagged, Lowering.gate, NativeOp.plain, List.mergeSort,
        List.MergeSort.Internal.splitInTwo]
    · cases List.mem_singleton.mp mem
      exact ⟨_, _, (twins_serve []).1, rfl⟩

end Orchestrator

namespace Session

/-- The sample of a pooled ledger need not have the value that is cast: here it has the bit of the
    host, while the other bit was measured by its own kind. -/
theorem sibling_uncovered : ¬ ∀ ds setup past s v g target chain out m,
    Registry.ofDescriptors ds = .ok setup.registry → Orchestrator.Simulated ds →
    setup.modules = .builtin → setup.casts.LeavesCoverage → Reached setup past s →
    v ∈ past.values → s.arena.groups.open? v.ledger = some g →
    s.compileCast v.type target = .ok (.convert v.type target chain) →
    (s.orchestrator.run (g.measured v).frozen).1 = .ok out → out.sample = .measured m →
      (∀ q ∈ v.qubits, q ∈ m.qubits) ∧
        ∀ type, (s.cast (.deferred v) target).1 ≠ .error (.reading type .uncoveredQubits) := by
  intro covered
  obtain ⟨past, s, reached, values, office, casts⟩ := siblings_pooled
  have handed : auxBit ∈ past.values := by simp [values]
  obtain ⟨compiled, g, found, triggers⟩ := casts auxBit handed
  obtain ⟨out, m, ran, sampled, qubits⟩ := Orchestrator.pooledBits_sampled auxBit (by simp)
  rw [← office, ← triggers] at ran
  have inside := (covered _ _ past s auxBit g "u64" _ out m Orchestrator.twins_stripped
    (Orchestrator.twins_simulated ["cancel-inverses"]).withoutPasses rfl siblings_leave reached
    handed found compiled ran sampled).1 0 (by decide)
  rw [qubits] at inside
  exact absurd inside (by decide)

/-- Of the two pooled bits the sample covers the host's, and the cast of the other is refused. -/
theorem siblings_covered : ∃ past s out m, Reached siblings past s ∧
    past.values = [auxBit, hostBit] ∧ (s.orchestrator.run (pooledBits hostBit)).1 = .ok out ∧
    out.sample = .measured m ∧ (∀ q ∈ hostBit.qubits, q ∈ m.qubits) ∧
    (∀ type, (s.cast (.deferred hostBit) "u64").1 ≠ .error (.reading type .uncoveredQubits)) ∧
    ∃ type, (s.cast (.deferred auxBit) "u64").1 = .error (.reading type .uncoveredQubits) := by
  have made : Registry.ofDescriptors _ = .ok siblings.registry := Orchestrator.twins_stripped
  have simulated := (Orchestrator.twins_simulated ["cancel-inverses"]).withoutPasses
  obtain ⟨past, s, reached, values, office, casts⟩ := siblings_pooled
  obtain ⟨compiled, g, found, triggers⟩ := casts hostBit (by simp [values])
  obtain ⟨out, m, ran, sampled, _⟩ := Orchestrator.pooledBits_sampled hostBit (by simp)
  rw [← office] at ran
  obtain ⟨_, _, _, _, _, _, _, covers, refused⟩ := casts_covered made simulated rfl siblings_leave
    reached found triggers compiled ran sampled
  have inside := covers (Or.inl (office ▸ CapabilityTable.executes_host rfl rfl))
  obtain ⟨compiled', g', found', triggers'⟩ := casts auxBit (by simp [values])
  obtain ⟨out', m', ran', sampled', qubits'⟩ := Orchestrator.pooledBits_sampled auxBit (by simp)
  rw [← office] at ran'
  obtain ⟨_, _, _, _, _, _, _, _, refused'⟩ := casts_covered made simulated rfl siblings_leave
    reached found' triggers' compiled' ran' sampled'
  refine ⟨past, s, out, m, reached, values, ran, sampled, inside, fun type no => ?_, ?_⟩
  · obtain ⟨q, mem, other⟩ := refused.mp ⟨type, no⟩
    exact other (inside q mem)
  · refine refused'.mpr ⟨0, by decide, ?_⟩
    rw [qubits']
    decide

end Session
end LazyCast
