import LazyCast.Proofs.Reversible.Executed
import LazyCast.Proofs.Session.Coverage
import LazyCast.Proofs.Session.Encoding
/-!
Casts of values whose ledgers turn no qubit. The program on bits that such a ledger is says what its
cast comes to, whatever is drawn; in particular an encoded number comes back as it was.
-/
namespace LazyCast

theorem Kind.dominant_quantum {kinds : List Kind}
    (declared : ∀ k ∈ kinds, k = .classical ∨ k = .quantum) (host : .quantum ∈ kinds) :
    dominant kinds = .quantum := by
  cases kinds with
  | nil => cases host
  | cons best rest =>
    induction rest generalizing best with
    | nil => exact (List.mem_singleton.mp host).symm
    | cons next rest ih =>
      have later := fun k mem => declared k (List.mem_cons_of_mem _ (List.mem_cons_of_mem _ mem))
      have greater : (if Key.before best next then next else best) = .quantum ∨
          best ≠ .quantum ∧ next ≠ .quantum ∧
            (if Key.before best next then next else best) = .classical := by
        rcases declared best List.mem_cons_self with rfl | rfl <;>
          rcases declared next (List.mem_cons_of_mem _ List.mem_cons_self) with rfl | rfl <;> decide
      have folded : dominant (best :: next :: rest) =
          dominant ((if Key.before best next then next else best) :: rest) := rfl
      rw [folded]
      rcases greater with same | ⟨other, other', same⟩ <;> rw [same]
      · exact ih _ (List.forall_mem_cons.mpr ⟨Or.inr rfl, later⟩) List.mem_cons_self
      · refine ih _ (List.forall_mem_cons.mpr ⟨Or.inl rfl, later⟩) (List.mem_cons_of_mem _ ?_)
        rcases List.mem_cons.mp host with same | host
        · exact absurd same.symm other
        · exact (List.mem_cons.mp host).resolve_left fun same => other' same.symm

theorem CastChain.apply_single (source target : TypeName) (f : CastFunction) (v : Value) :
    (CastChain.mk source [(target, f)]).apply v = f v := bind_pure (f v)

theorem uint64?_toNat (n : UInt64) : uint64? (n.toNat : Int) = some n := by
  have low : (0 : Int) ≤ n.toNat := Int.natCast_nonneg _
  have high : (n.toNat : Int) < 18446744073709551616 := by
    have := n.toNat_lt
    omega
  unfold uint64?
  rw [if_pos ⟨low, high⟩, Int.toNat_natCast, UInt64.ofNat_toNat]

theorem convertTo_bits (n : UInt64) (width : Nat) :
    CastTable.convertTo "u64" (.bits n width) = .ok (.u64 n) := by
  have number : (Value.bits n width).integerFor "u64" = .ok (n.toNat : Int) := rfl
  have fitted : CastTable.convertTo "u64" (.bits n width) =
      (Value.bits n width).fitted "u64" fun n => (uint64? n).map .u64 := rfl
  rw [fitted, Value.fitted, number, Except.bind, uint64?_toNat]
  rfl

def starting (literal : Int64) (qubits : List Qubit) : Instruction :=
  ⟨0, "init", .int literal :: qubits.map Operand.qubit, .quantum⟩

section Starting
variable {literal : Int64} {qubits : List Qubit}

theorem qubits_starting : (starting literal qubits).qubits = qubits := Lowering.qubitsOf_map qubits

theorem onBits_starting (nodup : qubits.Nodup) (some : qubits ≠ []) (low : 0 ≤ literal.toInt)
    (fits : literal.toInt.toNat < pow2 qubits.length) : (starting literal qubits).OnBits :=
  .reversible List.mem_cons_self (Lowering.lowerOne_init nodup some low fits)

theorem step_starting (b : BitState) :
    b.step (starting literal qubits) = .ok (b.flip qubits literal.toInt.toNat) := by
  have stepped : b.step (starting literal qubits) =
      .ok (b.flip (starting literal qubits).qubits literal.toInt.toNat) := rfl
  rw [stepped, qubits_starting]

theorem hostQubits_starting : hostQubits [starting literal qubits] = qubits := by
  have other : (starting literal qubits).isEvaluated = false :=
    not_evaluated (List.mem_cons_of_mem _ List.mem_cons_self)
  simp [hostQubits, other, qubits_starting]

end Starting

namespace Session
variable {setup : SessionSetup} {past : History} {s : Session} {v : LazyValue} {sim : Simulator}
  {l : Ledger} {b : BitState}

/-- Lazy values of the type are cast to numbers by the conversion of the most frequent outcome. -/
structure ReadsNumbers (s : Session) (type : TypeName) : Prop where
  running : s.plan.contains .quantum = true
  lazy : ∃ d, s.types.find? type = some d ∧ d.kind = .quantum
  number : ∃ d, s.types.find? "u64" = some d ∧ d.kind = .classical
  converts : s.casts.find? type "u64" = some (CastTable.convertTo "u64")
  policy : s.interpreter.find? "u64" = some .majorityVote

/-- The open ledger of a value is on bits, declared for the two backends, touches no more qubits
    than the simulator has, and comes to some bits as a program on bits. -/
structure ComesTo (s : Session) (sim : Simulator) (v : LazyValue) (l : Ledger) (b : BitState) :
    Prop where
  held : s.ledger? v = some l
  accepted : ∀ i ∈ l.instructions, i.OnBits
  declared : ∀ i ∈ l.instructions, i.IsDeclared
  ran : BitState.zero.run l.instructions = .ok b
  few : (hostQubits l.instructions ++ v.qubits).toFinset.card ≤ sim.maxQubits

theorem compileCast_number {type : TypeName} (plan : s.plan = ⟨[.classical, .quantum]⟩)
    (reads : s.ReadsNumbers type) : s.compileCast type "u64" =
      .ok (.convert type "u64" ⟨type, [("u64", CastTable.convertTo "u64")]⟩) := by
  obtain ⟨d, found, quantum⟩ := reads.lazy
  obtain ⟨t, found', classical⟩ := reads.number
  have chain : s.casts.compile type "u64" = .ok ⟨type, [("u64", CastTable.convertTo "u64")]⟩ := by
    simp only [CastTable.compile, reads.converts]
  unfold compileCast CastPlan.compile
  simp only [TypeTable.require, found, found', bind, Except.bind, quantum, classical, plan, chain]
  rfl

theorem ComesTo.triggers (calm : s.Calm) (comes : s.ComesTo sim v l b) (quantum : v.kind = .quantum)
    (nodup : v.qubits.Nodup) (some : v.qubits ≠ []) :
    ∃ g, s.arena.groups.open? v.ledger = .some g ∧
      BitLedger (g.measured v).frozen l.instructions l.instructions.length v.qubits b := by
  have views := Arena.find?_matches calm.tidy v.ledger
  have held : s.arena.find? v.ledger = .some l := comes.held
  rw [held] at views
  obtain ⟨g, found, view⟩ := Option.map_eq_some_iff.mp views.symm
  have same : g.instructions = l.instructions := congrArg LedgerView.instructions view
  have pushed : g.measured v = g.push (measurement v) :=
    if_neg (by simpa [List.isEmpty_iff] using some)
  have whole : (g.measured v).frozen.instructions =
      l.instructions ++ [measuring l.instructions.length v.qubits] := by
    rw [pushed, ← same, measuring, ← quantum]
    rfl
  have numbered := calm.tidy.numbered g (Groups.open?_spec found).1
  have kinds : (g.measured v).frozen.kinds = kindsOf (g.measured v).frozen.instructions := rfl
  have last : measuring l.instructions.length v.qubits ∈ (g.measured v).frozen.instructions := by
    rw [whole]
    exact List.mem_append_right _ List.mem_cons_self
  refine ⟨g, found, whole, ?_, ?_, comes.accepted, comes.declared, nodup, some, comes.ran⟩
  · rw [whole]
    exact numbered_concat.mpr ⟨same ▸ numbered, rfl⟩
  · refine Kind.dominant_quantum (fun k mem => ?_) ?_
    · rw [kinds] at mem
      obtain ⟨i, among, rfl⟩ := mem_kindsOf.mp mem
      rw [whole] at among
      rcases List.mem_append.mp among with among | among
      · exact comes.declared i among
      · rw [List.mem_singleton.mp among]
        exact Or.inr rfl
    · rw [kinds]
      exact mem_kindsOf.mpr ⟨_, last, rfl⟩

theorem Reached.cast_number {passes : List String} {metadata : Json}
    (simulating : setup.Simulating passes metadata sim) (reached : Reached setup past s)
    (handed : v ∈ past.values) (quantum : v.kind = .quantum) (some : v.qubits ≠ [])
    (reads : s.ReadsNumbers v.type) (comes : s.ComesTo sim v l b) :
    ∃ n : UInt64, (s.cast (.deferred v) "u64").1 = .ok (.u64 n) ∧ n.toNat = b.number v.qubits := by
  have calm := reached.calm
  have nodup := reached.nodup v handed
  have office := reached.bitOffice simulating reads.running
  obtain ⟨offers, shots, limit⟩ := Simulator.of_simulating simulating.simulator
  have few : v.qubits.length ≤ 64 := by
    have inside : v.qubits.toFinset ⊆ (hostQubits l.instructions ++ v.qubits).toFinset := by
      simp
    have fewer := Finset.card_le_card inside
    rw [List.toFinset_card_of_nodup nodup] at fewer
    exact Nat.le_trans (fewer.trans (comes.few.trans limit)) (by decide)
  obtain ⟨g, found, bits⟩ := comes.triggers calm quantum nodup some
  have running : (g.measured v).frozen.kinds.elems.find?
      (fun k => !s.orchestrator.plan.contains k) = none := by
    refine List.find?_eq_none.mpr fun kind mem => ?_
    obtain ⟨i, among, rfl⟩ := mem_kindsOf.mp mem
    rw [office.plan]
    rcases bits.two.declared i among with same | same <;> rw [same] <;> decide
  obtain ⟨out, m, w, count, ok, sample, measured, shown, drawn, counts⟩ :=
    bits.run (Registry.made_of_ofDescriptors simulating.made) office offers shots running comes.few
  obtain ⟨a, _, _, concluded⟩ := castLazy_open calm.tidy found
    ⟨v.type, [("u64", CastTable.convertTo "u64")]⟩
  have fits : b.number v.qubits < 2 ^ 64 :=
    (b.number_lt v.qubits).trans_le (Nat.pow_le_pow_right (by decide) few)
  refine ⟨UInt64.ofNat (b.number v.qubits), ?_, UInt64.toNat_ofNat_of_lt' fits⟩
  rw [cast_convert (compileCast_number office.plan reads), concluded]
  have ran : (s.withArena a).orchestrator.run (g.measured v).frozen =
      (.ok out, (s.orchestrator.run (g.measured v).frozen).2) := Prod.ext ok rfl
  unfold conclude
  rw [ran]
  dsimp only
  rw [sample, readSample_label reads.policy (measured ▸ counts) drawn (measured ▸ fun q mem => mem)
    some few, shown.number, CastChain.apply_single, convertTo_bits]

structure Encodes (s : Session) (sim : Simulator) (x : Value) (n : Nat) (into : TypeName) :
    Prop where
  number : x.toInt? = some (n : Int)
  classical : ∃ d, s.types.find? x.typeName = some d ∧ d.kind = .classical
  room : ∃ d, s.types.find? into = some d ∧ d.kind = .quantum ∧ n < 2 ^ d.width ∧ d.width ≠ 0 ∧
    d.width ≤ sim.maxQubits

theorem encode_comesTo (calm : s.Calm) (plan : s.plan = ⟨[.classical, .quantum]⟩)
    (limit : sim.maxQubits ≤ Simulator.qubitLimit) {x : Value} {n : Nat} {into : TypeName}
    (encodes : s.Encodes sim x n into) :
    ∃ v l b, (s.encode x into).1 = .ok v ∧ v.type = into ∧ v.kind = .quantum ∧ v.qubits ≠ [] ∧
      (s.encode x into).2.ComesTo sim v l b ∧ b.number v.qubits = n ∧
      (s.ReadsNumbers into → (s.encode x into).2.ReadsNumbers into) := by
  obtain ⟨c, foundc, classical⟩ := encodes.classical
  obtain ⟨d, foundd, quantum, fits, wide, few⟩ := encodes.room
  have short : d.width ≤ 24 := few.trans limit
  have room : Room x d.width n := by
    refine ⟨encodes.number, Int.natCast_nonneg n, ?_⟩
    rw [Nat.min_eq_left (by omega)]
    exact_mod_cast fits
  obtain ⟨literal, encoded, same⟩ := encodable_room room into
  obtain ⟨v, l, a, answer, type, kind, width, nodup, held, started⟩ :=
    encodeValue_opens calm d.kind encoded
  have running : s.Running c d := by
    rw [Running, plan, classical, quantum]
    exact ⟨rfl, rfl⟩
  have some : v.qubits ≠ [] := by
    rw [← List.length_pos_iff, width]
    exact Nat.pos_of_ne_zero wide
  have number : literal.toInt.toNat = n := by rw [same, Int.toNat_natCast]
  have started : l.instructions = [starting literal v.qubits] := by
    rw [started, quantum]
    rfl
  rw [encode_eq_encodeValue (compileCast_encode running foundc (by rw [classical]; rfl) foundd
    (by rw [quantum]; rfl))]
  refine ⟨v, l, BitState.zero.flip v.qubits n, congrArg Prod.fst answer, type, kind.trans quantum,
    some, ⟨held, ?_, ?_, ?_, ?_⟩, BitState.number_flip_zero nodup (width.symm ▸ fits), ?_⟩
  · rw [started]
    exact List.forall_mem_singleton.mpr (onBits_starting nodup some
      (same ▸ Int.natCast_nonneg n) (number.symm ▸ width.symm ▸ fits))
  · rw [started]
    exact List.forall_mem_singleton.mpr (Or.inr rfl)
  · rw [started, ← number, ← step_starting]
    exact bind_pure _
  · rw [started, hostQubits_starting, List.toFinset_append, Finset.union_self,
      List.toFinset_card_of_nodup nodup, width]
    exact few
  · intro reads
    rw [answer]
    exact ⟨reads.running, reads.lazy, reads.number, reads.converts, reads.policy⟩

/-- A cast of a value to a number answers with the bits that its ledger, run as a program on bits,
    leaves in its qubits, and a cast of an encoded number with the number. -/
theorem reversible_casts_exact {passes : List String} {metadata : Json}
    (simulating : setup.Simulating passes metadata sim) (reached : Reached setup past s) :
    (∀ v l b, v ∈ past.values → v.kind = .quantum → v.qubits ≠ [] → s.ReadsNumbers v.type →
      s.ComesTo sim v l b → ∃ n : UInt64, (s.cast (.deferred v) "u64").1 = .ok (.u64 n) ∧
        ∀ i, n.toNat.testBit i = ((v.qubits[i]?).map b.bits).getD false) ∧
    ∀ x n into, s.Encodes sim x n into → s.ReadsNumbers into → ∃ v m,
      (s.encode x into).1 = .ok v ∧
        ((s.encode x into).2.cast (.deferred v) "u64").1 = .ok (.u64 m) ∧ m.toNat = n := by
  constructor
  · intro v l b handed quantum some reads comes
    obtain ⟨n, ok, number⟩ := reached.cast_number simulating handed quantum some reads comes
    exact ⟨n, ok, fun i => number ▸ b.testBit_number v.qubits i⟩
  · intro x n into encodes reads
    have office := reached.bitOffice simulating reads.running
    obtain ⟨v, l, b, made, rfl, quantum, some, comes, number, kept⟩ := encode_comesTo reached.calm
      office.plan (Simulator.of_simulating simulating.simulator).2.2 encodes
    have reached' := reached.next (.encode x v.type)
    have handed : v ∈ History.values
        (past ++ [(Call.encode x v.type, (s.perform (.encode x v.type)).1)]) := by
      refine List.mem_filterMap.mpr ⟨_, List.mem_append_right _ List.mem_cons_self, ?_⟩
      simp only [perform, made, Except.map, Answer.handedOut?]
    obtain ⟨m, ok, same⟩ :=
      reached'.cast_number simulating handed quantum some (kept reads) comes
    exact ⟨v, m, made, ok, same.trans number⟩

def firstNumber : LazyValue := ⟨0, "@u3", .quantum, ⟨0, 0⟩, [0, 1, 2]⟩

def nextBit : LazyValue := ⟨1, "@bool", .quantum, ⟨1, 0⟩, [3]⟩

def flippingCalls : List Call :=
  [.encode (.u32 5) "@u3", .lazyValue "@bool", .apply nextBit .quantum "x" [.qubit 3],
    .interact .call [firstNumber, nextBit] false,
    .apply firstNumber .classical "const" [.reg "r", .bool true],
    .apply firstNumber .quantum "x_if" [.reg "r", .qubit 1],
    .apply nextBit .quantum "cx" [.qubit 3, .qubit 0]]

theorem flipping_reaches : ∃ past s l, Reached (.ofRegistry .builtin) past s ∧
    firstNumber ∈ past.values ∧ s.ledger? firstNumber = some l ∧
    (∀ i ∈ l.instructions, i.OnBits ∧ i.IsDeclared) ∧
    (BitState.zero.run l.instructions).map (fun b => firstNumber.qubits.map b.bits) =
      .ok [false, true, true] ∧
    (hostQubits l.instructions ++ firstNumber.qubits).toFinset.card ≤ 16 ∧
    s.ReadsNumbers "@u3" ∧ s.types = .builtin := by
  obtain ⟨first, started⟩ : ∃ first, (SessionSetup.ofRegistry .builtin).start = .ok first :=
    ⟨_, rfl⟩
  have reached := reached_run started flippingCalls
  cases started
  exact ⟨_, _, _, reached, by decide, rfl, by decide, rfl, by decide,
    ⟨rfl, ⟨_, rfl, rfl⟩, ⟨_, rfl, rfl⟩, rfl, rfl⟩, rfl⟩

theorem flipping_cast_exact : ∃ past s n, Reached (.ofRegistry .builtin) past s ∧
    firstNumber ∈ past.values ∧ (s.cast (.deferred firstNumber) "u64").1 = .ok (.u64 n) ∧
    (∀ i, n.toNat.testBit i = ([false, true, true][i]?).getD false) ∧
    ∃ v m, (s.encode (.u32 6) "@u3").1 = .ok v ∧
      ((s.encode (.u32 6) "@u3").2.cast (.deferred v) "u64").1 = .ok (.u64 m) ∧ m.toNat = 6 := by
  obtain ⟨past, s, l, reached, handed, held, accepted, ran, few, reads, types⟩ := flipping_reaches
  obtain ⟨b, ran, bits⟩ := Except.map_eq_ok.mp ran
  obtain ⟨sim, simulator, limit⟩ : ∃ sim, Simulator.ofDescriptor (.simulating
      Descriptor.stateVector.passes Descriptor.stateVector.metadata) = .ok sim ∧
      sim.maxQubits = 16 := ⟨_, rfl, rfl⟩
  obtain ⟨casts, encodes⟩ := reversible_casts_exact ⟨rfl, simulator, rfl⟩ reached
  obtain ⟨n, ok, same⟩ := casts firstNumber l b handed rfl (by decide) reads
    ⟨held, fun i mem => (accepted i mem).1, fun i mem => (accepted i mem).2, ran, limit ▸ few⟩
  have fits : s.Encodes sim (.u32 6) 6 "@u3" :=
    ⟨rfl, types ▸ ⟨_, rfl, rfl⟩, types ▸ limit ▸ ⟨_, rfl, rfl, by decide, by decide, by decide⟩⟩
  refine ⟨past, s, n, reached, handed, ok, fun i => ?_, encodes (.u32 6) 6 "@u3" fits reads⟩
  rw [same, ← List.getElem?_map, bits]

end Session
end LazyCast
