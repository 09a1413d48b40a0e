import LazyCast.Proofs.Circuit.Readout
import LazyCast.Proofs.Orchestrator.Recording
import LazyCast.Proofs.Session.Lifecycle
/-!
What deferred members come to when a ledger is cast. One value is measured, its own members with it;
the ledger may hold members of other values too, pooled with it, and those are read if their qubits
happen to be measured. A member that is not covered is settled with a fault, and its root is spent.
-/
namespace LazyCast

/-- The sample has a bit for the qubit, or needs none. -/
def Sample.Measures : Sample → Qubit → Prop
  | .measured m, q => q ∈ m.qubits
  | .deterministic _ _, _ => True

def Sample.part? : Sample → List Qubit → Option Sample
  | .measured m, qubits => (m.project qubits).map .measured
  | .deterministic v registers, _ => some (.deterministic v registers)

theorem Sample.isSome_part? {sample : Sample} {qubits targets : List Qubit}
    (whole : (sample.part? qubits).isSome = true) :
    (sample.part? targets).isSome = true ↔ ∀ q ∈ targets, sample.Measures q := by
  cases sample with
  | deterministic v registers => simp [part?, Measures]
  | measured m =>
    simp only [part?, Option.isSome_map, Measures] at whole ⊢
    rw [← MeasuredSample.isSome_positions?]
    unfold MeasuredSample.project at whole ⊢
    by_cases fits : m.counts.entries.all fun e => decide (e.1.utf8ByteSize = m.qubits.length)
    · cases MeasuredSample.positions? m.qubits targets <;> simp [fits]
    · cases MeasuredSample.positions? m.qubits qubits <;> simp [fits] at whole

namespace Session
variable {setup : SessionSetup} {past : History} {s after : Session} {v : LazyValue}

theorem readSample_eq (s : Session) (sample : Sample) (qubits : List Qubit) (chain : CastChain) :
    s.readSample sample qubits chain =
      match sample.part? qubits with
      | some part => (s.interpreter.interpret part chain.firstTarget).bind chain.apply
      | none => .error (.reading chain.firstTarget .uncoveredQubits) := by
  cases sample with
  | deterministic v registers => rfl
  | measured m =>
    cases found : m.project qubits <;> simp only [readSample, Sample.part?, found] <;> rfl

theorem readSample_label {chain : CastChain} {m : MeasuredSample} {w count : Nat}
    {targets : List Qubit} (policy : s.interpreter.find? chain.firstTarget = some .majorityVote)
    (counts : m.counts = ⟨[(Circuit.label m.qubits w, count)]⟩) (drawn : count ≠ 0)
    (inside : ∀ q ∈ targets, q ∈ m.qubits) (some : targets ≠ []) (few : targets.length ≤ 64) :
    s.readSample (.measured m) targets chain =
      chain.apply (.bits (UInt64.ofNat (gather targets w)) targets.length) := by
  rw [readSample_eq, Sample.part?, MeasuredSample.project_label counts inside, Option.map_some]
  dsimp only
  rw [Interpreter.interpret_label policy rfl drawn some few]
  rfl

def History.DeferredOn (past : History) (t : Nat) (root : LazyValue) : Prop :=
  ∃ e ∈ past, e.2.issued? = some t ∧ e.1.defers? = some root

theorem Reached.pending_within (reached : Reached setup past s) :
    ∀ t m, s.pending.find? t = some m →
      ∃ root, past.DeferredOn t root ∧ ∀ q ∈ m.qubits, q ∈ root.qubits := by
  refine reached.induct (motive := fun past s => ∀ t m, s.pending.find? t = some m →
    ∃ root, History.DeferredOn past t root ∧ ∀ q ∈ m.qubits, q ∈ root.qubits) ?_ ?_
  · intro first started t m found
    obtain ⟨plan, o, _, _, rfl⟩ := start_eq_ok started
    cases found
  · intro past s c reached ih t m found
    have old : s.pending.find? t = some m → ∃ root,
        History.DeferredOn (past ++ [(c, (s.perform c).1)]) t root ∧
          ∀ q ∈ m.qubits, q ∈ root.qubits := by
      intro found
      obtain ⟨root, ⟨e, mem, deferred⟩, within⟩ := ih t m found
      exact ⟨root, ⟨e, List.mem_append_left _ mem, deferred⟩, within⟩
    have effect := perform_effect reached.calm c
    generalize (s.perform c).2 = after at effect found
    cases effect with
    | grew extra grows => exact old (grows.books.pending ▸ found)
    | dropped v call said g open_ tidy groups books => exact old (books.pending ▸ found)
    | swept call ds said tidy groups books => exact old (books.pending ▸ found)
    | redeemed ticket call said left =>
      rw [left] at found
      exact old found
    | consumed v casts chain g b open_ groups tidy unissued unredeemed left =>
      rw [left, pending_conclude] at found
      split at found
      · cases found
      · exact old found
    | deferred root defers g m' b open_ groups tidy within issued unredeemed left =>
      rw [left] at found
      by_cases new : t = s.nextTicket
      · subst new
        rw [Table.find?_insert_self] at found
        cases found
        exact ⟨root, ⟨_, List.mem_append_right _ List.mem_cons_self, issued, defers⟩, within⟩
      · rw [Table.find?_insert_of_ne _ _ new] at found
        exact old found

theorem Reached.leaves_casts (reached : Reached setup past s)
    (classical : setup.registry.classical.kind.isClassical = true)
    (unclaimed : ∀ c ∈ s.orchestrator.capabilities.entries, c.supports "cast" = false) :
    s.orchestrator.LeavesCasts := by
  obtain ⟨plan, first, _, running, continues⟩ := reached.office
  obtain ⟨compilers, _, rfl⟩ := Orchestrator.start_eq running
  refine ⟨?_, ?_, unclaimed⟩
  · rw [continues.1.capabilities, continues.1.classical]
    rfl
  · rw [continues.1.classical]
    exact classical

/-- What a cast does for a ticket that waits for some qubits of `root`, given the sample of its
    ledger. -/
structure SettledBy (s after : Session) (sample : Sample) (t : Nat) (m : PendingMember)
    (root : LazyValue) : Prop where
  waited : s.pending.find? t = some m
  within : ∀ q ∈ m.qubits, q ∈ root.qubits
  done : after.pending.contains t = false
  /-- Where its qubits were measured, it is settled with what they read as and are cast to. -/
  covered : (∀ q ∈ m.qubits, sample.Measures q) → ∃ part, sample.part? m.qubits = some part ∧
    after.settled.find? t =
      some ((s.interpreter.interpret part m.chain.firstTarget).bind m.chain.apply)
  uncovered : (∃ q ∈ m.qubits, ¬ sample.Measures q) →
    after.settled.find? t = some (.error (.reading m.chain.firstTarget .uncoveredQubits))

theorem settled_conclude_of_ran {l : FrozenLedger} {output : RunOutput} {o : Orchestrator}
    (ran : s.orchestrator.run l = (.ok output, o)) (v : LazyValue) (chain : CastChain) {t : Nat}
    (inside : t ∈ memberTickets l) {m : PendingMember} (waits : s.pending.find? t = some m) :
    (s.conclude v chain l).2.settled.find? t = some (s.memberResult output t m) := by
  unfold conclude
  rw [ran]
  have settled := settled_settleMembers { s with orchestrator := o } output (memberTickets l) t
  rw [if_pos inside] at settled
  dsimp only at settled ⊢
  rw [waits] at settled
  rw [settled]
  exact congrArg some (memberResult_congr rfl output t m)

theorem conclude_ok {chain : CastChain} {l : FrozenLedger} {w : Value}
    (ok : (s.conclude v chain l).1 = .ok w) : ∃ output o,
      s.orchestrator.run l = (.ok output, o) ∧
        s.readSample output.sample v.qubits chain = .ok w := by
  unfold conclude at ok
  rcases ran : s.orchestrator.run l with ⟨e | output, o⟩ <;> rw [ran] at ok
  · cases ok
  · exact ⟨output, o, rfl, ok⟩

theorem part?_of_read {sample : Sample} {qubits : List Qubit} {chain : CastChain} {w : Value}
    (read : s.readSample sample qubits chain = .ok w) : (sample.part? qubits).isSome = true := by
  rw [readSample_eq] at read
  cases part : sample.part? qubits with
  | none =>
    rw [part] at read
    cases read
  | some part => rfl

theorem settledBy_conclude {root : LazyValue} {chain : CastChain} {l : FrozenLedger}
    {output : RunOutput} {o : Orchestrator} {t : Nat} {m : PendingMember}
    (ran : s.orchestrator.run l = (.ok output, o))
    (whole : (output.sample.part? v.qubits).isSome = true) (inside : t ∈ memberTickets l)
    (recorded : output.memberCasts.any (fun c => decide (c.ticket = t)) = true)
    (waits : s.pending.find? t = some m) (within : ∀ q ∈ m.qubits, q ∈ root.qubits) :
    SettledBy s (s.conclude v chain l).2 output.sample t m root := by
  have settled := settled_conclude_of_ran ran v chain inside waits
  have result : s.memberResult output t m = s.readSample output.sample m.qubits m.chain := by
    unfold memberResult
    rw [if_pos recorded]
  rw [result, readSample_eq] at settled
  have covers : (output.sample.part? m.qubits).isSome = true ↔ ∀ q ∈ m.qubits,
      output.sample.Measures q := Sample.isSome_part? whole
  refine ⟨waits, within, ?_, fun measured => ?_, fun ⟨q, mem, other⟩ => ?_⟩
  · have pending := pending_conclude s v chain l t
    rw [if_pos inside] at pending
    rw [Table.contains, pending]
    rfl
  · obtain ⟨part, found⟩ := Option.isSome_iff_exists.mp (covers.mpr measured)
    rw [found] at settled
    exact ⟨part, found, settled⟩
  · cases found : output.sample.part? m.qubits with
    | none =>
      rw [found] at settled
      exact settled
    | some part => exact absurd (covers.mp (by rw [found]; rfl) q mem) other

/-- A cast that succeeds has run the ledger of its value, with the value measured, and has settled
    the tickets in it by the sample of that run. -/
theorem cast_settles (reached : Reached setup past s) (tame : ∀ e ∈ past, e.1.WritesNoCast)
    (few : s.nextTicket ≤ UInt32.size)
    (classical : setup.registry.classical.kind.isClassical = true)
    (unclaimed : ∀ c ∈ s.orchestrator.capabilities.entries, c.supports "cast" = false)
    {target : TypeName} {w : Value} (ok : (s.cast (.deferred v) target).1 = .ok w) :
    ∃ l output, (s.orchestrator.run l).1 = .ok output ∧
      (∃ g, s.arena.groups.open? v.ledger = some g ∧ l = (g.measured v).frozen) ∧
      (∀ q ∈ v.qubits, output.sample.Measures q) ∧
      ∀ t, s.Holds v t → ∃ m root, past.DeferredOn t root ∧
        SettledBy s (s.cast (.deferred v) target).2 output.sample t m root := by
  have calm := reached.calm
  have accounted := reached.accounted tame few
  have leaves := reached.leaves_casts classical unclaimed
  rcases s.cast_deferred_cases v target with ⟨_, failed⟩ | ⟨chain, _, same⟩
  · exact absurd ok (failed w)
  rcases castLazy_cases calm v chain with refused | ⟨g, b, found, groups, tidy, concluded⟩
  · rw [same, refused] at ok
    cases ok
  rw [same, concluded] at ok ⊢
  have tickets : memberTickets (g.measured v).frozen = g.tickets := measured_tickets g v
  obtain ⟨output, o, ran, read⟩ := conclude_ok ok
  have whole := part?_of_read read
  refine ⟨_, output, congrArg Prod.fst ran, ⟨g, found, rfl⟩, (Sample.isSome_part? whole).mp whole,
    fun t holds => ?_⟩
  obtain ⟨k, found', inside⟩ := (holds_iff calm.tidy).mp holds
  cases found.symm.trans found'
  obtain ⟨m, waits⟩ := Option.isSome_iff_exists.mp
    (accounted.held_waits g (Groups.open?_spec found).1 t inside)
  obtain ⟨root, deferred, within⟩ := reached.pending_within t m waits
  rw [← tickets] at inside
  obtain ⟨i, mem, ticket⟩ := List.mem_filterMap.mp inside
  have recorded := leaves.records (congrArg Prod.fst ran) mem ticket
  have settled : SettledBy (s.withArena b)
      ((s.withArena b).conclude v chain (g.measured v).frozen).2 output.sample t m root :=
    settledBy_conclude ran whole inside recorded waits within
  exact ⟨m, root, deferred, settled.waited, settled.within, settled.done, settled.covered,
    settled.uncovered⟩

def oneShot : Registry :=
  ⟨⟨[("classical", .classical),
    ("quantum", { Descriptor.stateVector with metadata := .object [(some "shots", .ofNat 1)] })]⟩,
    .classical, rfl⟩

def secondBit : LazyValue := ⟨1, "@bool", .quantum, ⟨1, 0⟩, [2]⟩

def poolingCalls : List Call :=
  firstPairCalls ++
    [.apply firstPair .quantum "x" [.qubit 0], .lazyValue "@bool",
      .interact .call [firstPair, secondBit] false]

def measuredIn (r : Except Fault RunOutput) : Option (Counts × List Qubit × List MemberCast) :=
  match r with
  | .ok ⟨.measured m, casts⟩ => some (m.counts, m.qubits, casts)
  | _ => none

theorem pooled_runs : ∃ past s g, Reached (.ofRegistry oneShot) past s ∧
    (∀ e ∈ past, e.1.WritesNoCast) ∧ s.nextTicket = 1 ∧ s.Holds secondBit 0 ∧
    (∀ c ∈ s.orchestrator.capabilities.entries, c.supports "cast" = false) ∧
    s.interpreter = .builtin ∧
    s.compileCast secondBit.type "u64" =
      .ok (.convert "@bool" "u64" ⟨"@bool", [("u64", CastTable.convertTo "u64")]⟩) ∧
    s.pending.find? 0 = some ⟨⟨"@bool", [("u64", CastTable.convertTo "u64")]⟩, [0]⟩ ∧
    s.arena.groups.open? secondBit.ledger = some g ∧ 0 ∈ g.tickets ∧
    measuredIn (s.orchestrator.run (g.measured secondBit).frozen).1 =
      some (⟨[("0", 1)]⟩, [2], [⟨0, [0]⟩]) := by
  obtain ⟨first, started⟩ : ∃ first, (SessionSetup.ofRegistry oneShot).start = .ok first := ⟨_, rfl⟩
  have reached := reached_run started poolingCalls
  cases started
  refine ⟨_, _, _, reached, fun e mem => ?_, by decide, ⟨_, rfl, by decide⟩, by decide, rfl, rfl,
    rfl, rfl, by decide, ?_⟩
  · simp only [poolingCalls, firstPairCalls, run, List.cons_append, List.nil_append, List.mem_cons,
      List.not_mem_nil, or_false] at mem
    rcases mem with rfl | rfl | rfl | rfl | rfl | rfl <;> simp [Call.WritesNoCast]
  rw [Orchestrator.run_of_ordered
    ⟨.quantum, [⟨0, "cast", .classical, .classical, .native⟩,
      ⟨1, "x", .quantum, .quantum, .native⟩, ⟨2, "measure", .quantum, .quantum, .native⟩]⟩
    [⟨.classical, [.plain 0 "cast" [.int 0, .qubit 0]]⟩,
      ⟨.quantum, [.plain 1 "x" [.qubit 0], .plain 2 "measure" [.qubit 2]]⟩]
    (by decide) (by rfl) (by rfl) (by decide)]
  decide +kernel

theorem measuredIn_eq_some {r : Except Fault RunOutput} {counts : Counts} {qubits : List Qubit}
    {casts : List MemberCast} (read : measuredIn r = some (counts, qubits, casts)) :
    ∃ m : MeasuredSample, r = .ok ⟨.measured m, casts⟩ ∧ m.counts = counts ∧ m.qubits = qubits := by
  match r with
  | .ok ⟨.measured m, _⟩ =>
    cases read
    exact ⟨m, rfl, rfl, rfl⟩
  | .ok ⟨.deterministic _ _, _⟩ => cases read
  | .error _ => cases read

theorem readSample_secondBit (builtin : s.interpreter = .builtin) {m : MeasuredSample}
    (counts : m.counts = ⟨[("0", 1)]⟩) (qubits : m.qubits = [2]) :
    s.readSample (.measured m) [2] ⟨"@bool", [("u64", CastTable.convertTo "u64")]⟩ = .ok (.u64 0) ∧
      s.readSample (.measured m) [0] ⟨"@bool", [("u64", CastTable.convertTo "u64")]⟩ =
        .error (.reading "u64" .uncoveredQubits) := by
  have zero : Circuit.label [2] 0 = "0" := by decide
  have none : gather [2] 0 = 0 := by decide
  constructor
  · have counts' : m.counts = ⟨[(Circuit.label m.qubits 0, 1)]⟩ := by rw [counts, qubits, zero]
    rw [readSample_label (builtin ▸ rfl) counts' (by decide) (by simp [qubits]) (by decide)
      (by decide), none]
    rfl
  · rw [readSample_eq, Sample.part?, MeasuredSample.project, qubits]
    rfl

theorem pooled_cast : ∃ past s, Reached (.ofRegistry oneShot) past s ∧
    (∀ e ∈ past, e.1.WritesNoCast) ∧ s.nextTicket = 1 ∧ s.Holds secondBit 0 ∧
    (∀ c ∈ s.orchestrator.capabilities.entries, c.supports "cast" = false) ∧
    (s.cast (.deferred secondBit) "u64").1 = .ok (.u64 0) ∧
    (s.cast (.deferred secondBit) "u64").2.settled.find? 0 =
      some (.error (.reading "u64" .uncoveredQubits)) := by
  obtain ⟨past, s, g, reached, tame, one, holds, unclaimed, builtin, compiled, waits, found, inside,
    measured⟩ := pooled_runs
  obtain ⟨m, ran, counts, qubits⟩ := measuredIn_eq_some measured
  obtain ⟨read, unread⟩ := readSample_secondBit builtin counts qubits
  obtain ⟨b, tidy, groups, concluded⟩ := castLazy_open reached.calm.tidy found
    ⟨"@bool", [("u64", CastTable.convertTo "u64")]⟩
  refine ⟨past, s, reached, tame, one, holds, unclaimed, ?_⟩
  rw [cast_convert compiled, concluded]
  have tickets : memberTickets (g.measured secondBit).frozen = g.tickets :=
    measured_tickets g secondBit
  have ran' : (s.withArena b).orchestrator.run (g.measured secondBit).frozen =
      (.ok ⟨.measured m, [⟨0, [0]⟩]⟩, _) := Prod.ext ran rfl
  constructor
  · unfold conclude
    rw [ran']
    exact read
  · rw [settled_conclude_of_ran ran' secondBit _ (tickets ▸ inside) waits]
    exact congrArg some unread

/-- A cast may succeed and settle a member of a pooled value with the fault that the sample does not
    cover it. -/
theorem pooled_member_uncovered : ¬ ∀ setup past s v target w, Reached setup past s →
    (∀ e ∈ past, e.1.WritesNoCast) → (s.cast (.deferred v) target).1 = .ok w →
      ∀ t, s.Holds v t → ∀ into,
        (s.cast (.deferred v) target).2.settled.find? t ≠
          some (.error (.reading into .uncoveredQubits)) := by
  intro covered
  obtain ⟨past, s, reached, tame, _, holds, _, ok, settled⟩ := pooled_cast
  exact covered _ past s secondBit "u64" _ reached tame ok 0 holds "u64" settled

theorem secondBit_settles : ∃ past s l output, Reached (.ofRegistry oneShot) past s ∧
    (s.orchestrator.run l).1 = .ok output ∧ (∀ q ∈ secondBit.qubits, output.sample.Measures q) ∧
    ∃ m root, past.DeferredOn 0 root ∧
      SettledBy s (s.cast (.deferred secondBit) "u64").2 output.sample 0 m root := by
  obtain ⟨past, s, reached, tame, one, holds, unclaimed, ok, _⟩ := pooled_cast
  have few : s.nextTicket ≤ UInt32.size := by
    rw [one]
    decide
  obtain ⟨l, output, ran, _, measured, settles⟩ :=
    cast_settles reached tame few rfl unclaimed ok
  exact ⟨past, s, l, output, reached, ran, measured, settles 0 holds⟩

end Session
end LazyCast
