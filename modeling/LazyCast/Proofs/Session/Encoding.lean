import LazyCast.Proofs.Reversible.Hosting
import LazyCast.Proofs.Reversible.Lowered
/-!
Encoding and what it is lowered to. A value is encoded when it is a natural number that the qubits have
room for, below the sign bit of a word, and is refused otherwise with nothing made. The `init` that an
encoding leaves in the new ledger is lowered to a flip for each set bit of the number.
-/
namespace LazyCast

namespace Pass
variable {ops : List NativeOp}

theorem cancelPairs_apart (apart : ops.Pairwise fun a b => cancels a b = false) :
    cancelPairs ops = ops := by
  -- The fold is over any stack, and what lies on it must not meet its inverse either.
  have upto : ∀ (ops kept : List NativeOp),
      (kept.reverse ++ ops).Pairwise (fun a b => cancels a b = false) →
        (ops.foldl cancelStep kept).reverse = kept.reverse ++ ops := by
    intro ops
    induction ops with
    | nil => simp
    | cons op ops ih =>
      intro kept apart
      have pushed : cancelStep kept op = op :: kept := by
        cases kept with
        | nil => rfl
        | cons last rest =>
          have beside : cancels last op = false :=
            (List.pairwise_append.mp apart).2.2 last (by simp) op List.mem_cons_self
          rw [cancelStep, beside]
          rfl
      have same : (op :: kept).reverse ++ ops = kept.reverse ++ op :: ops := by simp
      rw [List.foldl_cons, pushed, ih _ (same ▸ apart), same]
  exact upto ops [] apart

/-- No pass changes a program of unlike gates without fences. -/
theorem foldlM_apart {names : List String} {p : Program}
    (known : ∀ name ∈ names, (ofName? name).isSome = true)
    (apart : p.ops.Pairwise fun a b => cancels a b = false)
    (unfenced : ∀ op ∈ p.ops, op.code ≠ "barrier") :
    names.foldlM (fun p name => runNamed name p) p = .ok p := by
  induction names with
  | nil => rfl
  | cons name rest ih =>
    obtain ⟨here, later⟩ := List.forall_mem_cons.mp known
    obtain ⟨pass, found⟩ := Option.isSome_iff_exists.mp here
    have kept : runNamed name p = .ok p := by
      rw [runNamed, found]
      cases pass with
      | cancelInverses => exact congrArg (fun ops => Except.ok { p with ops }) (cancelPairs_apart apart)
      | dropBarriers =>
        refine congrArg (fun ops => Except.ok { p with ops }) (List.filter_eq_self.mpr fun op mem => ?_)
        simpa using unfenced op mem
    rw [List.foldlM_cons, kept]
    exact ih later

end Pass

namespace Lowering
variable {qubits : List Qubit} {seq n : Nat}

def flipsOf (seq n : Nat) (qubits : List Qubit) : List NativeOp :=
  ((List.range qubits.length).filter n.testBit).filterMap fun i =>
    (qubits[i]?).map fun q => gate seq "x" [q]

theorem zipIdx_eq (qubits : List Qubit) : qubits.zipIdx =
    (List.range qubits.length).filterMap fun i => (qubits[i]?).map fun q => (q, i) := by
  induction qubits using List.reverseRecOn with
  | nil => rfl
  | append_singleton qubits q ih =>
    rw [List.zipIdx_append, ih, List.length_append, List.length_singleton, List.range_succ,
      List.filterMap_append]
    congr 1
    · refine List.filterMap_congr fun i mem => ?_
      rw [List.getElem?_append_left (List.mem_range.mp mem)]
    · simp

theorem flips_eq (seq n : Nat) (qubits : List Qubit) : flips seq n qubits = flipsOf seq n qubits := by
  unfold flips flipsOf
  rw [zipIdx_eq, List.filter_filterMap, List.map_filterMap, List.filterMap_filter]
  refine List.filterMap_congr fun i _ => ?_
  cases qubits[i]? <;> by_cases set : n.testBit i = true <;> simp [set]

theorem flips_apart (nodup : qubits.Nodup) :
    (flips seq n qubits).Pairwise fun a b => Pass.cancels a b = false := by
  have unlike : (qubits.zipIdx).Pairwise fun p q => p.1 ≠ q.1 := by
    rw [← List.pairwise_map, List.zipIdx_map_fst]
    exact nodup
  refine List.pairwise_map.mpr ((unlike.filter _).imp fun {p q} ne => ?_)
  have args : (Operand.qubit p.1 == Operand.qubit q.1) = (p.1 == q.1) := rfl
  simp [Pass.cancels, gate, NativeOp.plain, args, ne]

theorem code_flips : ∀ op ∈ flips seq n qubits, op.code ≠ "barrier" := by
  intro op mem
  obtain ⟨_, _, rfl⟩ := List.mem_map.mp mem
  exact of_decide_eq_true rfl

theorem lowerOne_unqubit {w : Int64} {kind : Kind} (low : 0 ≤ w.toInt) :
    lowerOne ⟨seq, "init", [.int w], kind⟩ = .error (.malformed "init" (.tooFewQubits 1)) := by
  have lowered : lowerInit seq [.int w] = .error (.tooFewQubits 1) := by
    simp only [lowerInit, initialValue, if_pos low]
    rfl
  simp only [lowerOne, ofOpcode?, lowered]
  rfl

end Lowering

namespace Simulator
variable {sim : Simulator} {i : Instruction}

structure Takes (sim : Simulator) (opcode : String) : Prop where
  supports : sim.capabilities.supports opcode = true
  known : ∀ name ∈ sim.passes, (Pass.ofName? name).isSome = true

theorem lower_single (takes : sim.Takes i.opcode) : sim.lower [i] =
    (Lowering.lowerOne i).bind fun ops =>
      sim.passes.foldlM (fun p name => Pass.runNamed name p) ⟨sim.capabilities.kind, ops⟩ := by
  have one : sim.lowerAll [i] = (Lowering.lowerOne i).map fun ops => ⟨sim.capabilities.kind, ops⟩ := by
    rw [lowerAll, List.mapM_cons, lowerOne, if_pos takes.supports]
    cases Lowering.lowerOne i with
    | error e => rfl
    | ok ops =>
      change Except.ok (Program.mk sim.capabilities.kind (ops ++ [])) = .ok ⟨_, ops⟩
      rw [List.append_nil]
  rw [lower, one]
  cases Lowering.lowerOne i <;> rfl

end Simulator

namespace Session
variable {s : Session} {x : Value} {into : TypeName} {c t : TypeDef} {kind : Kind} {width : Nat}
  {n : Int} {literal : Int64}

/-- The value is a natural number that so many qubits have room for, below the sign bit of a word. -/
structure Room (x : Value) (width : Nat) (n : Int) : Prop where
  number : x.toInt? = some n
  natural : 0 ≤ n
  fits : n < 2 ^ min width 63

theorem pow2_cast (k : Nat) : (pow2 k : Int) = 2 ^ k := Nat.cast_pow 2 k

/-- What fits the qubits and a signed word lies below the sign bit, however wide the type is. -/
theorem room_iff : Room x width n ↔ x.toInt? = some n ∧
    (0 ≤ n ∧ n < (pow2 (min width 64) : Int)) ∧ n < 9223372036854775808 := by
  rw [pow2_cast]
  by_cases short : width ≤ 63
  · have below : (2 : Int) ^ width ≤ 2 ^ 63 := pow_le_pow_right₀ (by decide) short
    constructor
    · rintro ⟨number, natural, fits⟩
      rw [Nat.min_eq_left short] at fits
      rw [Nat.min_eq_left (by omega)]
      exact ⟨number, ⟨natural, fits⟩, by omega⟩
    · rintro ⟨number, ⟨natural, fits⟩, _⟩
      rw [Nat.min_eq_left (by omega)] at fits
      exact ⟨number, natural, by rwa [Nat.min_eq_left short]⟩
  · rw [Nat.min_eq_right (show 64 ≤ width by omega)]
    constructor
    · rintro ⟨number, natural, fits⟩
      rw [Nat.min_eq_right (by omega)] at fits
      exact ⟨number, ⟨natural, by omega⟩, by omega⟩
    · rintro ⟨number, ⟨natural, _⟩, word⟩
      exact ⟨number, natural, by rw [Nat.min_eq_right (by omega)]; omega⟩

theorem encodable_room (room : Room x width n) (into : TypeName) :
    ∃ w, encodable x into width = .ok w ∧ w.toInt = n := by
  obtain ⟨number, inside, word⟩ := room_iff.mp room
  have words : int64? n = some (Int64.ofInt n) := if_pos ⟨by omega, word⟩
  refine ⟨Int64.ofInt n, ?_, Int64.toInt_ofInt_of_le (by omega) (by omega)⟩
  unfold encodable
  simp only [number, if_pos inside, words]

theorem encodable_noRoom (outside : ∀ n, ¬ Room x width n) (into : TypeName) :
    encodable x into width = .error (.overflow x into) := by
  unfold encodable
  cases number : x.toInt? with
  | none => rfl
  | some n =>
    dsimp only
    split
    · next inside =>
      have wide : ¬ (-9223372036854775808 ≤ n ∧ n < 9223372036854775808) := fun word =>
        outside n (room_iff.mpr ⟨number, inside, word.2⟩)
      have none : int64? n = none := if_neg wide
      rw [none]
    · rfl

def Running (s : Session) (c t : TypeDef) : Prop :=
  s.plan.contains c.kind = true ∧ s.plan.contains t.kind = true

theorem compileCast_encode {type : TypeName} (running : s.Running c t)
    (source : s.types.find? type = some c) (classical : c.kind.isClassical = true)
    (target : s.types.find? into = some t) (lazy : t.kind.isClassical = false) :
    s.compileCast type into = .ok (.encode type into t.kind t.width) := by
  unfold compileCast CastPlan.compile
  simp only [TypeTable.require, source, target, bind, Except.bind, running.1, running.2, classical,
    lazy]
  rfl

theorem compileCast_stopped {type : TypeName} (stopped : ¬ s.Running c t)
    (source : s.types.find? type = some c) (target : s.types.find? into = some t) :
    ∃ kind ∈ [c.kind, t.kind], s.plan.contains kind = false ∧
      s.compileCast type into = .error (.unknownBackend kind.name) := by
  unfold compileCast CastPlan.compile
  simp only [TypeTable.require, source, target, bind, Except.bind]
  cases first : s.plan.contains c.kind with
  | false => exact ⟨c.kind, by simp, first, rfl⟩
  | true =>
    have second : s.plan.contains t.kind = false :=
      Bool.eq_false_iff.mpr fun runs => stopped ⟨first, runs⟩
    refine ⟨t.kind, by simp, second, ?_⟩
    rw [second]
    rfl

theorem encode_eq_encodeValue
    (compiled : s.compileCast x.typeName into = .ok (.encode x.typeName into kind width)) :
    s.encode x into = s.encodeValue x into kind width := by
  unfold encode
  simp only [compiled, dispatchAs, dispatch]
  rcases s.encodeValue x into kind width with ⟨e | w, left⟩ <;> rfl

theorem encodeValue_opens (calm : s.Calm) (kind : Kind)
    (encoded : encodable x into width = .ok literal) :
    ∃ q l a, s.encodeValue x into kind width = (.ok q, (s.allocate into kind width).2.withArena a) ∧
      q.type = into ∧ q.kind = kind ∧ q.qubits.length = width ∧ q.qubits.Nodup ∧
      (s.encodeValue x into kind width).2.ledger? q = some l ∧
      l.instructions = [⟨0, "init", .int literal :: q.qubitOperands, kind⟩] := by
  rcases encodeValue_cases calm x into kind width with
    ⟨e, refused, _⟩ | ⟨word, a, encoded', groups, tidy, answer⟩
  · cases encoded.symm.trans refused
  cases encoded.symm.trans encoded'
  have opened := allocate_open calm into kind width
  have here := (groups ▸ tidy.apart).open?_push opened
  rw [← groups] at here
  have views := Arena.find?_matches tidy (s.allocate into kind width).1.ledger
  rw [here] at views
  obtain ⟨l, held, view⟩ := Option.map_eq_some_iff.mp views
  refine ⟨_, l, a, answer, rfl, rfl, List.length_range', List.nodup_range', ?_,
    congrArg LedgerView.instructions view⟩
  rw [answer]
  exact held

/-- What an encoding of the number `n` has made: a value of the type and an instruction in its ledger,
    which every simulator lowers to the flips of the set bits. Without qubits none accepts it. Of more
    qubits than a word has bits nothing is said: the bit to test is then a shift out of the word. -/
structure Encoded (left : Session) (q : LazyValue) (into : TypeName) (t : TypeDef) (n : Int)
    (i : Instruction) : Prop where
  type : q.type = into
  kind : q.kind = t.kind
  width : q.qubits.length = t.width
  init : ∃ w : Int64, w.toInt = n ∧ i = ⟨0, "init", .int w :: q.qubitOperands, t.kind⟩
  ledger : ∃ l, left.ledger? q = some l ∧ l.instructions = [i]
  lowers : 1 ≤ t.width → t.width ≤ 64 → ∀ sim : Simulator, sim.Takes "init" →
    sim.lower [i] = .ok ⟨sim.capabilities.kind, Lowering.flipsOf 0 n.toNat q.qubits⟩
  unqubit : t.width = 0 → ∀ sim : Simulator, sim.Takes "init" →
    sim.lower [i] = .error (.malformed "init" (.tooFewQubits 1))

theorem Room.bits (room : Room x width n) : n.toNat < pow2 width := by
  have fits := room.fits
  have natural := room.natural
  have short : (2 : Int) ^ min width 63 ≤ 2 ^ width :=
    pow_le_pow_right₀ (by decide) (Nat.min_le_left _ _)
  have wide := pow2_cast width
  omega

theorem lower_init {sim : Simulator} (takes : sim.Takes "init") {qubits : List Qubit}
    (nodup : qubits.Nodup) (some : qubits ≠ []) (low : 0 ≤ literal.toInt)
    (fits : literal.toInt.toNat < pow2 qubits.length) (kind : Kind) :
    sim.lower [⟨0, "init", .int literal :: qubits.map Operand.qubit, kind⟩] =
      .ok ⟨sim.capabilities.kind, Lowering.flipsOf 0 literal.toInt.toNat qubits⟩ := by
  rw [Simulator.lower_single takes, Lowering.lowerOne_init nodup some low fits, Except.bind,
    ← Lowering.flips_eq]
  exact Pass.foldlM_apart takes.known (Lowering.flips_apart nodup) Lowering.code_flips

theorem lower_unqubit {sim : Simulator} (takes : sim.Takes "init") (low : 0 ≤ literal.toInt)
    (kind : Kind) : sim.lower [⟨0, "init", [.int literal], kind⟩] =
      .error (.malformed "init" (.tooFewQubits 1)) := by
  rw [Simulator.lower_single takes, Lowering.lowerOne_unqubit low]
  rfl

theorem encoded_of_room (calm : s.Calm) (into : TypeName) {t : TypeDef} (room : Room x t.width n) :
    ∃ q i, (s.encodeValue x into t.kind t.width).1 = .ok q ∧
      Encoded (s.encodeValue x into t.kind t.width).2 q into t n i := by
  obtain ⟨w, encoded, rfl⟩ := encodable_room room into
  obtain ⟨q, l, a, made, type, kind, width, nodup, held, started⟩ :=
    encodeValue_opens calm t.kind encoded
  have natural := room.natural
  refine ⟨q, _, congrArg Prod.fst made, type, kind, width, ⟨w, rfl, rfl⟩, ⟨l, held, started⟩, ?_, ?_⟩
  · intro one _ sim takes
    have some : q.qubits ≠ [] := by
      rintro none
      rw [none] at width
      exact absurd width (by simp; omega)
    exact lower_init takes nodup some natural (width.symm ▸ room.bits) t.kind
  · intro zero sim takes
    have none : q.qubitOperands = [] := by
      have none : q.qubits = [] := List.eq_nil_of_length_eq_zero (width.trans zero)
      rw [LazyValue.qubitOperands, none]
      rfl
    rw [none]
    exact lower_unqubit takes natural t.kind

/-- A value of a registered classical type is encoded just when it is a natural number within the
    width of the type and below the sign bit; any other overflows, and nothing is made of it. What is
    encoded starts its ledger with an `init`, and from one qubit up to the width of a word that is
    lowered to the flips of the set bits, in order. -/
theorem encode_exact {setup : SessionSetup} {past : History} (reached : Reached setup past s)
    (source : s.types.find? x.typeName = some c) (classical : c.kind.isClassical = true)
    (target : s.types.find? into = some t) (lazy : t.kind.isClassical = false) :
    (s.Running c t →
      ((∃ q, (s.encode x into).1 = .ok q) ↔ ∃ n, Room x t.width n) ∧
      (∀ n, Room x t.width n →
        ∃ q i, (s.encode x into).1 = .ok q ∧ Encoded (s.encode x into).2 q into t n i) ∧
      ((∀ n, ¬ Room x t.width n) → s.encode x into = (.error (.overflow x into), s))) ∧
    (¬ s.Running c t → ∃ kind ∈ [c.kind, t.kind], s.plan.contains kind = false ∧
      s.encode x into = (.error (.unknownBackend kind.name), s)) := by
  constructor
  · intro running
    rw [encode_eq_encodeValue (compileCast_encode running source classical target lazy)]
    have made : ∀ n, Room x t.width n → ∃ q i, (s.encodeValue x into t.kind t.width).1 = .ok q ∧
        Encoded (s.encodeValue x into t.kind t.width).2 q into t n i :=
      fun n room => encoded_of_room reached.calm into room
    have refused : (∀ n, ¬ Room x t.width n) →
        s.encodeValue x into t.kind t.width = (.error (.overflow x into), s) := by
      intro outside
      rw [encodeValue, encodable_noRoom outside]
    refine ⟨⟨?_, ?_⟩, made, refused⟩
    · rintro ⟨q, ok⟩
      by_contra outside
      rw [refused fun n room => outside ⟨n, room⟩] at ok
      cases ok
    · rintro ⟨n, room⟩
      obtain ⟨q, _, ok, _⟩ := made n room
      exact ⟨q, ok⟩
  · intro stopped
    obtain ⟨kind, mem, missing, compiled⟩ := compileCast_stopped stopped source target
    refine ⟨kind, mem, missing, ?_⟩
    rw [encode, compiled]

/-- The number five in three bits is two flips, after the passes of the library's simulator; eight has
    no room there. -/
theorem five_of_three_bits : ∃ s q i sim,
    Reached (.ofRegistry .builtin) [] s ∧ Simulator.ofDescriptor .stateVector = .ok sim ∧
    (s.encode (.u32 5) "@u3").1 = .ok q ∧
    (∃ l, (s.encode (.u32 5) "@u3").2.ledger? q = some l ∧ l.instructions = [i]) ∧
    (∃ a b c, q.qubits = [a, b, c] ∧
      sim.lower [i] = .ok ⟨.quantum, [Lowering.gate 0 "x" [a], Lowering.gate 0 "x" [c]]⟩) ∧
    s.encode (.u32 8) "@u3" = (.error (.overflow (.u32 8) "@u3"), s) := by
  obtain ⟨s, started⟩ : ∃ s, (SessionSetup.ofRegistry .builtin).start = .ok s := ⟨_, rfl⟩
  have reached : Reached (.ofRegistry .builtin) [] s := reached_run started []
  obtain ⟨sim, simulator, kind, takes⟩ : ∃ sim, Simulator.ofDescriptor .stateVector = .ok sim ∧
      sim.capabilities.kind = .quantum ∧ sim.Takes "init" := ⟨_, rfl, rfl, ⟨by decide, by decide⟩⟩
  obtain ⟨c, t, source, classical, target, lazy, width, running⟩ : ∃ c t,
      s.types.find? "u32" = some c ∧ c.kind.isClassical = true ∧ s.types.find? "@u3" = some t ∧
        t.kind.isClassical = false ∧ t.width = 3 ∧ s.Running c t := by
    cases started
    exact ⟨_, _, rfl, rfl, rfl, rfl, rfl, rfl, rfl⟩
  obtain ⟨fits, _⟩ := encode_exact (x := .u32 5) reached source classical target lazy
  obtain ⟨_, made, _⟩ := fits running
  obtain ⟨overflows, _⟩ := encode_exact (x := .u32 8) reached source classical target lazy
  obtain ⟨_, _, refused⟩ := overflows running
  have room : Room (.u32 5) t.width 5 := by
    rw [width]
    exact ⟨rfl, by decide, by decide⟩
  obtain ⟨q, i, ok, encoded⟩ := made 5 room
  have qubits : q.qubits.length = 3 := encoded.width.trans width
  obtain ⟨a, b, c, three⟩ := List.length_eq_three.mp qubits
  have lowered := encoded.lowers (by omega) (by omega) sim takes
  have bits : (List.range 3).filter (Nat.testBit 5) = [0, 2] := by decide
  have two : Lowering.flipsOf 0 5 [a, b, c] =
      [Lowering.gate 0 "x" [a], Lowering.gate 0 "x" [c]] := by
    change ((List.range 3).filter (Nat.testBit 5)).filterMap _ = _
    rw [bits]
    rfl
  rw [kind, three, show (5 : Int).toNat = 5 from rfl, two] at lowered
  refine ⟨s, q, i, sim, reached, simulator, ok, encoded.ledger, ⟨a, b, c, three, lowered⟩, ?_⟩
  refine refused fun n room => ?_
  have eight : (8 : Int) = n := Option.some.inj room.number
  have fits := room.fits
  rw [width, ← eight] at fits
  exact absurd fits (by decide)

def unitSetup : SessionSetup :=
  { SessionSetup.ofRegistry .builtin with
    types := TypeTable.builtin.define ⟨"@unit", .quantum, .scalar 0⟩ }

/-- Zero is encoded without any qubit, and the library's simulator rejects the `init` of it. -/
theorem unit_init_rejected : ∃ s q l sim, unitSetup.start = .ok s ∧
    (s.encode (.u32 0) "@unit").1 = .ok q ∧ (s.encode (.u32 0) "@unit").2.ledger? q = some l ∧
    Simulator.ofDescriptor .stateVector = .ok sim ∧
    sim.lower l.instructions = .error (.malformed "init" (.tooFewQubits 1)) := by
  exact ⟨_, _, _, _, rfl, rfl, rfl, rfl, rfl⟩

end Session

end LazyCast
