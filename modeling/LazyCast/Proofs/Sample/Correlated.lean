import LazyCast.Proofs.Circuit.Tied
import LazyCast.Proofs.Passes.Runnable
import LazyCast.Proofs.Sample.Drawn
import LazyCast.Proofs.Sample.Projection
/-!
Samples of tied qubits. Of the gates that a simulator runs, those on the qubits of a `sync` are the
ones it was lowered to, in their order: passes remove no two of them, binding changes none, and
other instructions have no gate there. What they leave impossible is never drawn, so in every
outcome the qubits have one character.
-/
namespace LazyCast

section Drawing
variable {as : List Float}

theorem Amplitudes.mem_runningSums {sum : Float} {i : Nat} {e : Nat × Float}
    (mem : e ∈ runningSums Simulator.threshold sum i as) :
    ∃ k a, as[k]? = some a ∧ e.1 = i + k ∧ ¬ Gate.Impossible a := by
  induction as generalizing sum i with
  | nil => cases mem
  | cons a rest ih =>
    have later : ∀ sum', e ∈ runningSums Simulator.threshold sum' (i + 1) rest →
        ∃ k b, (a :: rest)[k]? = some b ∧ e.1 = i + k ∧ ¬ Gate.Impossible b := by
      intro sum' mem
      obtain ⟨k, b, found, place, possible⟩ := ih mem
      exact ⟨k + 1, b, found, by omega, possible⟩
    rw [runningSums] at mem
    split at mem
    · exact later _ mem
    · rename_i high
      rcases List.mem_cons.mp mem with rfl | mem
      · refine ⟨0, a, rfl, rfl, ?_⟩
        rintro (rfl | rfl) <;> exact high (by decide +kernel)
      · exact later _ mem

theorem Amplitudes.pick_mem (sums : List (Nat × Float)) (r : Float) :
    (∃ e ∈ sums, pick sums r = e.1) ∨ pick sums r = 0 := by
  unfold pick
  split
  · rename_i e found
    exact Or.inl ⟨e, List.mem_of_find?_eq_some found, rfl⟩
  · split
    · rename_i e last
      exact Or.inl ⟨e, List.mem_of_getLast? last, rfl⟩
    · exact Or.inr rfl

namespace Circuit
variable {c : Circuit} {ops : List NativeOp} {allowed : Nat} {t : Trigonometry Float}
  {P : Nat → Prop}

theorem mem_tally {α : Type} [LT α] [DecidableLT α] {sums : List (Nat × α)} {draws : List α}
    {e : String × Nat} (mem : e ∈ (c.tally sums draws).entries) :
    ∃ r ∈ draws, e.1 = c.outcome (Amplitudes.pick sums r) := by
  have picked : c.tally sums draws = .ofPairs ((Table.empty.tally
      (draws.map fun r => (Amplitudes.pick sums r, 1))).entries.map fun e =>
        (c.outcome e.1, e.2)) := by
    unfold tally Table.tally
    rw [List.foldl_map]
  rw [picked] at mem
  rcases Table.mem_keys_tally mem with none | ⟨x, among, same⟩
  · cases none
  · obtain ⟨y, counted, rfl⟩ := List.mem_map.mp among
    rcases Table.mem_keys_tally counted with none | ⟨z, drawn, equal⟩
    · cases none
    · obtain ⟨r, among, rfl⟩ := List.mem_map.mp drawn
      exact ⟨r, among, by rw [← same, ← equal]⟩

theorem outcome_confined (made : ofOps allowed ops = .ok c)
    (confined : Gate.Confined P (waveOf t ops)) (start : P 0) {draws : List Float}
    {e : String × Nat} (mem : e ∈ (c.tally (Amplitudes.runningSums Simulator.threshold 0 0
      (c.amplitudes t).toList) draws).entries) :
    ∃ i, P i ∧ e.1 = label (readout ops) i := by
  obtain ⟨r, _, drawn⟩ := mem_tally mem
  rw [outcome_eq made] at drawn
  refine ⟨_, ?_, drawn⟩
  rcases Amplitudes.pick_mem (Amplitudes.runningSums Simulator.threshold 0 0
    (c.amplitudes t).toList) r with ⟨sum, among, same⟩ | none
  · obtain ⟨k, a, found, place, possible⟩ := Amplitudes.mem_runningSums among
    rw [amplitudes_eq made] at found
    simp only [Amplitudes.ofFunction, Array.toList_ofFn, List.getElem?_ofFn] at found
    split at found
    · have wave := Option.some.inj found
      rw [same, place, Nat.zero_add]
      by_contra outside
      apply possible
      rw [← wave]
      exact confined _ outside
    · cases found
  · rw [none, spread_zero]
    exact start

theorem charOf?_label {qubits : List Qubit} {q : Qubit} (mem : q ∈ qubits) (i : Nat) :
    charOf? qubits (label qubits i) q = some (digit (i.testBit q)) := by
  have shown : (label qubits i).toList.reverse = qubits.map fun q => digit (i.testBit q) := by
    rw [label_eq, String.toList_ofList, List.map_map, ← List.map_reverse, List.reverse_reverse]
    rfl
  rw [charOf?, lookup_zip mem, shown, List.getElem?_map,
    List.getElem?_eq_getElem (List.idxOf_lt_length_of_mem mem), List.getElem_idxOf, Option.map_some]

theorem readout_measures {op : NativeOp} (mem : op ∈ ops) (measures : op.code = "measure")
    {q : Qubit} (at_q : q ∈ op.qubits) : q ∈ readout ops := by
  apply mem_readout
  rw [measuredBy, mem_distinct]
  apply List.mem_flatMap.mpr
  exact ⟨op, List.mem_filter.mpr ⟨mem, by simp [measures]⟩, at_q⟩

end Circuit
end Drawing

section Gates
variable {qs : List Qubit} {ops xs ys : List NativeOp} {op : NativeOp} {registers : Registers}

def gatesAt (qs : List Qubit) (ops : List NativeOp) : List Gate :=
  (gatesOn ops).filter fun g => g.Meets qs

theorem gatesAt_append (xs ys : List NativeOp) :
    gatesAt qs (xs ++ ys) = gatesAt qs xs ++ gatesAt qs ys := by
  unfold gatesAt
  rw [gatesOn_append, List.filter_append]

theorem gatesAt_congr {a b : NativeOp} (same : a.gate? = b.gate?) :
    gatesAt qs [a] = gatesAt qs [b] := by
  unfold gatesAt gatesOn
  rw [List.filterMap_cons, List.filterMap_cons, same]

theorem gatesAt_none (none : op.gate? = none) : gatesAt qs [op] = [] := by
  unfold gatesAt gatesOn
  rw [List.filterMap_cons, none]
  rfl

def NativeOp.Avoids (qs : List Qubit) (op : NativeOp) : Prop := ∀ q ∈ op.qubits, q ∉ qs

theorem gatesAt_avoids (avoids : ∀ op ∈ ops, op.Avoids qs) : gatesAt qs ops = [] := by
  apply List.filter_eq_nil_iff.mpr
  intro g mem
  obtain ⟨op, among, made⟩ := mem_gatesOn mem
  have apart : ¬ g.Meets qs := by
    rintro ⟨q, at_q, inside⟩
    exact avoids op among q (Gate.qubits_ofOp made q at_q) inside
  simpa using apart

theorem Reduces.gatesAt (r : Reduces xs ys) (nodup : (gatesAt qs xs).Nodup) :
    LazyCast.gatesAt qs ys = LazyCast.gatesAt qs xs := by
  induction r with
  | refl ops => rfl
  | @fence before after ops op fence rest ih =>
    have same : LazyCast.gatesAt qs (before ++ op :: after) =
        LazyCast.gatesAt qs (before ++ after) := by
      rw [List.append_cons, gatesAt_append, gatesAt_append, gatesAt_append,
        gatesAt_none (gate?_fence fence), List.append_nil]
    rw [same] at nodup ⊢
    exact ih nodup
  | @pair before after ops a b undoes rest ih =>
    obtain ⟨alike, _⟩ := undoes.gate?
    have split : LazyCast.gatesAt qs (before ++ a :: b :: after) = LazyCast.gatesAt qs before ++
        (LazyCast.gatesAt qs [a] ++ (LazyCast.gatesAt qs [a] ++ LazyCast.gatesAt qs after)) := by
      have pair : a :: b :: after = [a] ++ ([b] ++ after) := rfl
      rw [pair, gatesAt_append, gatesAt_append, gatesAt_append, gatesAt_congr alike]
    have none : LazyCast.gatesAt qs [a] = [] := by
      rw [split] at nodup
      have twice := (List.nodup_append.mp nodup).2.1
      apply List.eq_nil_iff_forall_not_mem.mpr
      intro g mem
      exact (List.nodup_append.mp twice).2.2 g mem g (List.mem_append_left _ mem) rfl
    have same : LazyCast.gatesAt qs (before ++ a :: b :: after) =
        LazyCast.gatesAt qs (before ++ after) := by
      rw [split, none, List.nil_append, List.nil_append, gatesAt_append]
    rw [same] at nodup ⊢
    exact ih nodup

def NativeOp.Steady (qs : List Qubit) (op : NativeOp) : Prop :=
  op.Avoids qs ∨ (op.guard = none ∧ op.code ≠ "ry")

theorem gatesAt_bound (steady : ∀ op ∈ ops, op.Steady qs)
    (each : ∀ op ∈ ops, ∃ x, Program.bindOp registers op = .ok x) :
    gatesAt qs (ops.flatMap (Program.boundBy registers)) = gatesAt qs ops := by
  induction ops with
  | nil => rfl
  | cons op ops ih =>
    obtain ⟨here, steady⟩ := List.forall_mem_cons.mp steady
    obtain ⟨⟨x, binds⟩, each⟩ := List.forall_mem_cons.mp each
    obtain ⟨some, same⟩ := Program.bindOp_ok binds
    have first : gatesAt qs (Program.boundBy registers op) = gatesAt qs [op] := by
      rw [Program.boundBy_of_bindOp binds]
      rcases here with avoids | ⟨unguarded, fixed⟩
      · rw [gatesAt_avoids, gatesAt_avoids]
        · intro o mem
          rw [List.mem_singleton.mp mem]
          exact avoids
        · intro o mem
          obtain ⟨_, qubits, _⟩ := same o (Option.mem_toList.mp mem)
          unfold NativeOp.Avoids
          rw [qubits]
          exact avoids
      · obtain ⟨b, rfl⟩ := Option.isSome_iff_exists.mp (some unguarded)
        obtain ⟨code, qubits, _⟩ := same b rfl
        apply gatesAt_congr
        unfold NativeOp.gate?
        rw [qubits, Gate.ofOp_congr code fixed]
    rw [List.flatMap_cons, gatesAt_append, first, ih steady each, ← gatesAt_append]
    rfl

end Gates

namespace Lowering
variable {qs : List Qubit} {i : Instruction} {ops : List NativeOp}

/-- The instruction leaves some qubits to others, unless it is a fence or a measurement. -/
def Leaves (qs : List Qubit) (i : Instruction) : Prop :=
  i.opcode = "measure" ∨ i.opcode = "barrier" ∨ ∀ q ∈ i.qubits, q ∉ qs

theorem lowered_idle (idle : i.opcode = "measure" ∨ i.opcode = "barrier")
    (lowered : lowerOne i = .ok ops) :
    ∃ qubits, i.operands = qubits.map Operand.qubit ∧ ops = [gate i.seq i.opcode qubits] := by
  obtain ⟨least, shape⟩ : ∃ least, ofOpcode? i.opcode i.seq i.operands =
      some ((distinctQubits least i.operands).map fun qubits => [gate i.seq i.opcode qubits]) := by
    rcases idle with code | code
    · exact ⟨1, by rw [code]; rfl⟩
    · exact ⟨0, by rw [code]; rfl⟩
  obtain ⟨qubits, made, rfl⟩ := Except.map_eq_ok.mp (lowerOne_shape shape lowered)
  exact ⟨qubits, (distinctQubits_eq_ok made).1, rfl⟩

theorem lowered_leaves (leaves : Leaves qs i) (lowered : lowerOne i = .ok ops) :
    gatesAt qs ops = [] ∧ ∀ op ∈ ops, op.Steady qs := by
  have idle : i.opcode = "measure" ∨ i.opcode = "barrier" →
      gatesAt qs ops = [] ∧ ∀ op ∈ ops, op.Steady qs := by
    intro idle
    obtain ⟨qubits, _, rfl⟩ := lowered_idle idle lowered
    constructor
    · apply gatesAt_none
      rcases idle with code | code <;> rw [code] <;> rfl
    · intro op mem
      rw [List.mem_singleton.mp mem]
      refine Or.inr ⟨rfl, ?_⟩
      rcases idle with code | code <;> simp [gate, NativeOp.plain, code]
  rcases leaves with measure | barrier | apart
  · exact idle (Or.inl measure)
  · exact idle (Or.inr barrier)
  · have avoids : ∀ op ∈ ops, op.Avoids qs := by
      intro op mem q at_q
      exact apart q ((stems_of_lowered lowered op mem).inside q at_q)
    exact ⟨gatesAt_avoids avoids, fun op mem => Or.inl (avoids op mem)⟩

theorem gatesOn_chain (seq : Nat) (qs : List Qubit) : gatesOn (chain seq qs) = Gate.links qs := by
  induction qs with
  | nil => rfl
  | cons p rest ih =>
    cases rest with
    | nil => rfl
    | cons q rest =>
      rw [chain, Gate.links, ← ih]
      rfl

theorem lowered_sync (opcode : i.opcode = "sync") (operands : i.operands = qs.map Operand.qubit)
    (lowered : lowerOne i = .ok ops) : 2 ≤ qs.length ∧ qs.Nodup ∧
      gatesAt qs ops = Gate.tie qs ∧ ∀ op ∈ ops, op.Steady qs := by
  have shape : ofOpcode? i.opcode i.seq i.operands =
      some (do
        let qubits ← distinctQubits 2 i.operands
        return gate i.seq "h" (qubits.take 1) :: chain i.seq qubits) := by
    rw [opcode]
    rfl
  obtain ⟨qubits, made, same⟩ := Except.bind_eq_ok.mp (lowerOne_shape shape lowered)
  cases same
  obtain ⟨operands', two, nodup⟩ := distinctQubits_eq_ok made
  have equal : qubits = qs := by
    rw [← qubitsOf_map qubits, ← operands', operands, qubitsOf_map]
  rw [equal] at two nodup ⊢
  refine ⟨two, nodup, ?_, ?_⟩
  · obtain ⟨q, rest, rfl⟩ := List.exists_cons_of_length_pos (by omega : 0 < qs.length)
    have gates : gatesOn (gate i.seq "h" ((q :: rest).take 1) :: chain i.seq (q :: rest)) =
        Gate.tie (q :: rest) := by
      rw [Gate.tie, ← gatesOn_chain i.seq]
      rfl
    unfold gatesAt
    rw [gates]
    apply List.filter_eq_self.mpr
    intro g mem
    exact decide_eq_true (Gate.meets_tie mem)
  · intro op mem
    apply Or.inr
    rcases List.mem_cons.mp mem with rfl | mem
    · exact ⟨rfl, by simp [gate, NativeOp.plain]⟩
    · obtain ⟨p, q, _, _, rfl⟩ := stems_chain op mem
      exact ⟨rfl, by simp [gate, NativeOp.plain]⟩

end Lowering

theorem Except.mapM_split {ε α β : Type} {f : α → Except ε β} {xs ys : List α} {a : α}
    {lists : List β} (each : (xs ++ a :: ys).mapM f = .ok lists) :
    ∃ first here last, xs.mapM f = .ok first ∧ f a = .ok here ∧ ys.mapM f = .ok last ∧
      lists = first ++ here :: last := by
  rw [List.mapM_append, List.mapM_cons] at each
  obtain ⟨first, before, each⟩ := Except.bind_eq_ok.mp each
  obtain ⟨rest, after, each⟩ := Except.bind_eq_ok.mp each
  obtain ⟨here, one, after⟩ := Except.bind_eq_ok.mp after
  obtain ⟨last, later, after⟩ := Except.bind_eq_ok.mp after
  cases after
  cases each
  exact ⟨first, here, last, before, one, later, rfl⟩

namespace Simulator
open Lowering (Leaves)
variable {s : Simulator} {before after : List Instruction} {tie : Instruction} {qs : List Qubit}
  {p b : Program} {registers : Registers} {t : Trigonometry Float}

theorem mapM_leaves {batch : List Instruction} {lists : List (List NativeOp)}
    (left : ∀ i ∈ batch, Leaves qs i) (each : batch.mapM s.lowerOne = .ok lists) :
    gatesAt qs lists.flatten = [] ∧ ∀ op ∈ lists.flatten, op.Steady qs := by
  have all : ∀ ops ∈ lists, gatesAt qs ops = [] ∧ ∀ op ∈ ops, op.Steady qs := by
    intro ops mem
    obtain ⟨i, among, made⟩ := (Except.mapM_eq_ok each).2 ops mem
    exact Lowering.lowered_leaves (left i among) (lowerOne_eq_ok made)
  clear each
  induction lists with
  | nil => exact ⟨rfl, fun _ none => by cases none⟩
  | cons ops lists ih =>
    obtain ⟨⟨here, steady⟩, all⟩ := List.forall_mem_cons.mp all
    obtain ⟨later, others⟩ := ih all
    rw [List.flatten_cons, gatesAt_append, here, later]
    refine ⟨rfl, fun op mem => ?_⟩
    rcases List.mem_append.mp mem with mem | mem
    · exact steady op mem
    · exact others op mem

theorem lowered_tie (opcode : tie.opcode = "sync") (operands : tie.operands = qs.map Operand.qubit)
    (left : ∀ i ∈ before ++ after, Leaves qs i)
    (lowered : s.lowerAll (before ++ tie :: after) = .ok p) : 2 ≤ qs.length ∧ qs.Nodup ∧
      gatesAt qs p.ops = Gate.tie qs ∧ ∀ op ∈ p.ops, op.Steady qs := by
  obtain ⟨lists, each, rfl⟩ := Except.map_eq_ok.mp lowered
  obtain ⟨first, here, last, prior, one, later, rfl⟩ := Except.mapM_split each
  have gone := fun i mem => left i (List.mem_append_left after mem)
  have left := fun i mem => left i (List.mem_append_right before mem)
  obtain ⟨none, steady⟩ := mapM_leaves gone prior
  obtain ⟨none', steady'⟩ := mapM_leaves left later
  obtain ⟨two, nodup, own, fixed⟩ := Lowering.lowered_sync opcode operands (lowerOne_eq_ok one)
  refine ⟨two, nodup, ?_, ?_⟩
  · dsimp only
    rw [List.flatten_append, List.flatten_cons, gatesAt_append, gatesAt_append, none, own, none',
      List.nil_append, List.append_nil]
  · intro op mem
    dsimp only at mem
    rw [List.flatten_append, List.flatten_cons] at mem
    rcases List.mem_append.mp mem with mem | mem
    · exact steady op mem
    · rcases List.mem_append.mp mem with mem | mem
      · exact fixed op mem
      · exact steady' op mem

theorem bound_tie (opcode : tie.opcode = "sync") (operands : tie.operands = qs.map Operand.qubit)
    (left : ∀ i ∈ before ++ after, Leaves qs i)
    (lowered : s.lower (before ++ tie :: after) = .ok p) (binds : p.bind registers = .ok b) :
    2 ≤ qs.length ∧ qs.Nodup ∧ gatesAt qs b.ops = Gate.tie qs := by
  obtain ⟨_, _, ran⟩ := Except.bind_eq_ok.mp lowered
  obtain ⟨whole, plain, _, reduces⟩ := lower_eq_ok (Pass.known_of_runAll ran) lowered
  obtain ⟨two, nodup, own, steady⟩ := lowered_tie opcode operands left plain
  have alike : (gatesAt qs whole.ops).Nodup := own ▸ Gate.nodup_tie nodup
  obtain ⟨each, rfl⟩ := Program.bind_eq_ok.mp binds
  refine ⟨two, nodup, ?_⟩
  dsimp only
  rw [gatesAt_bound (fun op mem => steady op (reduces.sublist.subset mem)) each,
    reduces.gatesAt alike, own]

theorem bound_measured {i : Instruction} (mem : i ∈ before ++ after) (opcode : i.opcode = "measure")
    {q : Qubit} (at_q : q ∈ i.qubits) (lowered : s.lower (before ++ tie :: after) = .ok p)
    (binds : p.bind registers = .ok b) : q ∈ Circuit.readout b.ops := by
  obtain ⟨_, _, ran⟩ := Except.bind_eq_ok.mp lowered
  obtain ⟨whole, plain, _, reduces⟩ := lower_eq_ok (Pass.known_of_runAll ran) lowered
  have among : i ∈ before ++ tie :: after := by
    rcases List.mem_append.mp mem with mem | mem
    · exact List.mem_append_left _ mem
    · exact List.mem_append_right _ (List.mem_cons_of_mem _ mem)
  obtain ⟨ops, own, inside⟩ := (lowerAll_eq_ok plain).2.2 i among
  obtain ⟨qubits, operands, rfl⟩ := Lowering.lowered_idle (Or.inl opcode) own
  have measures : Lowering.gate i.seq "measure" qubits ∈ p.ops := by
    have kept : Lowering.gate i.seq "measure" qubits ∈
        p.ops.filter fun op => op.code == "measure" := by
      rw [reduces.measures]
      apply List.mem_filter.mpr
      exact ⟨inside _ (opcode ▸ List.mem_singleton_self _), rfl⟩
    exact List.mem_of_mem_filter kept
  obtain ⟨each, rfl⟩ := Program.bind_eq_ok.mp binds
  have stays : Lowering.gate i.seq "measure" qubits ∈
      p.ops.flatMap (Program.boundBy registers) := by
    apply List.mem_flatMap.mpr
    refine ⟨_, measures, ?_⟩
    rw [Program.boundBy_of_bindOp (Program.bindOp_gate registers i.seq "measure" qubits)]
    exact List.mem_singleton_self _
  apply Circuit.readout_measures stays rfl
  rw [Lowering.qubits_gate, ← Lowering.qubitsOf_map qubits, ← operands]
  exact at_q

/-- A run with any sine and cosine in place of those of the machine. -/
def executeWith (t : Trigonometry Float) (s : Simulator) (run : Nat) (p : Program) :
    Except Fault MeasuredSample :=
  ((Circuit.ofOps s.maxQubits p.ops).mapError (.execution s.capabilities.kind)).map fun c =>
    { s.sample run p.ops c with
      counts := c.tally (Amplitudes.runningSums threshold 0 0 (c.amplitudes t).toList)
        (Random.draws (s.seedOf run) s.shots) }

theorem execute_eq_executeWith (s : Simulator) (run : Nat) (p : Program) :
    s.execute run p = s.executeWith floatTrigonometry run p := rfl

end Simulator

/-- The numbers that gates take at finite angles are finite. -/
structure Trigonometry.Tame (t : Trigonometry Float) : Prop where
  diagonal : t.diagonal.isFinite = true
  turns : ∀ angle : Float, angle.isFinite = true →
    (t.sine angle).isFinite = true ∧ (t.cosine angle).isFinite = true

def Program.FiniteAngles (p : Program) : Prop :=
  ∀ op ∈ p.ops, op.code = "ry" → ∀ angle, Gate.angleOf? op = some angle → angle.isFinite = true

theorem Gate.finite_gatesOn {t : Trigonometry Float} (tame : t.Tame) {p : Program}
    (angles : p.FiniteAngles) : ∀ g ∈ gatesOn p.ops, g.Finite t := by
  intro g mem
  obtain ⟨op, among, made⟩ := mem_gatesOn mem
  cases g with
  | h k => exact tame.diagonal
  | ry angle k =>
    apply tame.turns
    unfold Gate.ofOp at made
    split at made
    case h_4 code _ =>
      split at made
      · rename_i found
        cases made
        exact angles op among code _ found
      · cases made
    case h_10 =>
      split at made
      · cases made
      · split at made <;> cases made
    all_goals cases made
  | x k => trivial
  | z k => trivial
  | cx control target => trivial
  | cz p q => trivial
  | swap p q => trivial

namespace Simulator
open Lowering (Leaves)
variable {s : Simulator} {before after : List Instruction} {tie : Instruction} {qs : List Qubit}
  {p b : Program} {registers : Registers} {t : Trigonometry Float}

/-- A `sync` ties its qubits. Whatever comes before and after it on other qubits, and whichever
    passes are run, a program that measures these qubits and fits the simulator is sampled, and in
    every outcome the qubits have one character. -/
theorem sync_correlates (tame : t.Tame) (opcode : tie.opcode = "sync")
    (operands : tie.operands = qs.map Operand.qubit)
    (left : ∀ i ∈ before ++ after, Leaves qs i)
    (covered : ∀ q ∈ qs, ∃ i ∈ before ++ after, i.opcode = "measure" ∧ q ∈ i.qubits)
    (lowered : s.lower (before ++ tie :: after) = .ok p) (held : registers.Literal)
    (binds : p.bind registers = .ok b) (angles : b.FiniteAngles)
    (few : (Circuit.touched b.ops).size ≤ s.maxQubits) :
    (∀ run, s.execute run b = s.executeWith floatTrigonometry run b) ∧ 2 ≤ qs.length ∧
      ∀ run, ∃ m, s.executeWith t run b = .ok m ∧ m.counts.total = s.shots ∧
        ∀ e ∈ m.counts.entries, ∃ c, ∀ q ∈ qs, charOf? m.qubits e.1 q = some c := by
  obtain ⟨two, nodup, own⟩ := bound_tie opcode operands left lowered binds
  have read : ∀ q ∈ qs, q ∈ Circuit.readout b.ops := by
    intro q mem
    obtain ⟨i, among, measures, at_q⟩ := covered q mem
    exact bound_measured among measures at_q lowered binds
  have ready := ready_of_bound held lowered binds
  obtain ⟨first, rest, rfl⟩ := List.exists_cons_of_length_pos (by omega : 0 < qs.length)
  have used : 0 < (Circuit.touched b.ops).size :=
    List.length_pos_of_mem (Circuit.readout_touched b.ops first (read first List.mem_cons_self))
  have bound : b.ops.all Circuit.isBound = true :=
    List.all_eq_true.mpr fun op mem => (ready op mem).isBound
  have made := Circuit.ofOps_eq_ok.mpr
    ⟨bound, used, few, fun op mem => (ready op mem).simulable, rfl⟩
  have tying : Gate.Tying (first :: rest) (gatesAt (first :: rest) b.ops) (first :: rest) := by
    rw [own]
    exact Gate.tying_tie nodup
  have confined : Gate.Confined (Gate.Tied (first :: rest) []) (waveOf t b.ops) :=
    Gate.confined_tying tying (List.Subset.refl _) (Gate.finite_gatesOn tame angles)
      Gate.confined_vacuum
  have start : Gate.Tied (first :: rest) [] 0 := by
    constructor
    · intro p _ q _ _ _
      rw [Nat.zero_testBit, Nat.zero_testBit]
    · intro q none
      cases none
  refine ⟨fun run => execute_eq_executeWith s run b, two, fun run => ?_⟩
  unfold executeWith
  rw [made]
  refine ⟨_, rfl, ?_, ?_⟩
  · exact (Circuit.total_tally _ _ _).trans (Random.length_draws _ _)
  intro e mem
  obtain ⟨i, tied, label⟩ := Circuit.outcome_confined made confined start mem
  refine ⟨digit (i.testBit first), ?_⟩
  intro q among
  have agree : i.testBit q = i.testBit first :=
    tied.1 q among first List.mem_cons_self List.not_mem_nil List.not_mem_nil
  rw [label, ← agree]
  exact Circuit.charOf?_label (read q among) i

def tiedAmong : List Instruction × Instruction × List Instruction :=
  ([⟨0, "ry", [.float 0, .qubit 7], .quantum⟩, ⟨1, "redim", [.qubit 1, .qubit 8], .quantum⟩],
    ⟨2, "sync", [.qubit 5, .qubit 2, .qubit 9], .quantum⟩,
    [⟨3, "x", [.qubit 7], .quantum⟩, ⟨4, "x", [.qubit 7], .quantum⟩,
      ⟨5, "x_if", [.reg "r", .qubit 8], .quantum⟩, ⟨6, "cx", [.qubit 1, .qubit 7], .quantum⟩,
      ⟨7, "measure", [.qubit 9, .qubit 7, .qubit 2, .qubit 5], .quantum⟩])

theorem tiedAmong_correlated : ∃ p b m,
    (Orchestrator.twinSimulator .quantum ["cancel-inverses"]).lower
      (tiedAmong.1 ++ tiedAmong.2.1 :: tiedAmong.2.2) = .ok p ∧
    p.bind ⟨[("r", .bool true)]⟩ = .ok b ∧ (Circuit.touched b.ops).size = 6 ∧
    (Orchestrator.twinSimulator .quantum ["cancel-inverses"]).executeWith
      ⟨floatTrigonometry.diagonal, fun _ => 0, fun _ => 1⟩ 0 b = .ok m ∧ m.counts.total = 1024 ∧
    ∀ e ∈ m.counts.entries, ∃ c, charOf? m.qubits e.1 5 = some c ∧
      charOf? m.qubits e.1 2 = some c ∧ charOf? m.qubits e.1 9 = some c := by
  have zero : (0 : Float).isFinite = true := by decide +kernel
  have one : (1 : Float).isFinite = true := by decide +kernel
  have tame : Trigonometry.Tame ⟨floatTrigonometry.diagonal, fun _ => 0, fun _ => 1⟩ :=
    ⟨by decide +kernel, fun _ _ => ⟨zero, one⟩⟩
  have held : Registers.Literal ⟨[("r", .bool true)]⟩ := by
    intro name v found
    unfold Table.find? Table.findEntry at found
    split at found
    · cases found
      exact .bool true
    · cases found
  obtain ⟨p, lowered⟩ : ∃ p, (Orchestrator.twinSimulator .quantum ["cancel-inverses"]).lower
      (tiedAmong.1 ++ tiedAmong.2.1 :: tiedAmong.2.2) = .ok p := ⟨_, rfl⟩
  obtain ⟨b, binds⟩ : ∃ b, p.bind ⟨[("r", .bool true)]⟩ = .ok b := by
    cases lowered
    exact ⟨_, rfl⟩
  have six : (Circuit.touched b.ops).size = 6 := by
    cases lowered
    cases binds
    decide
  have turned : (b.ops.filter fun op => op.code == "ry").map NativeOp.args =
      [[.float 0, .qubit 7]] := by
    cases lowered
    cases binds
    rfl
  have angles : b.FiniteAngles := by
    intro op mem turns angle found
    have args : op.args ∈ (b.ops.filter fun op => op.code == "ry").map NativeOp.args :=
      List.mem_map_of_mem (List.mem_filter.mpr ⟨mem, by simp [turns]⟩)
    rw [turned] at args
    unfold Gate.angleOf? at found
    rw [List.mem_singleton.mp args] at found
    cases found
    exact zero
  have operands : tiedAmong.2.1.operands = [5, 2, 9].map Operand.qubit := rfl
  have left : ∀ i ∈ tiedAmong.1 ++ tiedAmong.2.2, Leaves [5, 2, 9] i := by
    unfold Leaves
    decide
  obtain ⟨_, _, samples⟩ := sync_correlates tame rfl operands left (by decide) lowered held binds
    angles (six ▸ by decide)
  obtain ⟨m, ran, total, correlated⟩ := samples 0
  refine ⟨p, b, m, lowered, binds, six, ran, total, ?_⟩
  intro e mem
  obtain ⟨c, same⟩ := correlated e mem
  exact ⟨c, same 5 (by decide), same 2 (by decide), same 9 (by decide)⟩

end Simulator
end LazyCast
