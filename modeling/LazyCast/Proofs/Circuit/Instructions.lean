import LazyCast.Proofs.Circuit.Dense
import LazyCast.Proofs.Orchestrator.Routed
/-!
The operations of one instruction. Each is on qubits of the instruction, on at least one when the
instruction names any, and can be simulated as soon as the angle it may have is a number; only a
conditional flip is guarded.
-/
namespace LazyCast

namespace Lowering
variable {operands : List Operand} {qubits : List Qubit}

theorem asQubits_eq_ok (made : asQubits operands = .ok qubits) :
    operands = qubits.map Operand.qubit := by
  induction operands generalizing qubits with
  | nil =>
    cases made
    rfl
  | cons o rest ih =>
    cases o with
    | qubit q =>
      obtain ⟨others, later, rfl⟩ := Except.map_eq_ok.mp made
      rw [ih later]
      rfl
    | _ => cases made

theorem qubitsOf_map (qubits : List Qubit) : qubitsOf (qubits.map Operand.qubit) = qubits := by
  induction qubits with
  | nil => rfl
  | cons q rest ih => exact congrArg (q :: ·) ih

theorem distinctQubits_eq_ok {least : Nat} (made : distinctQubits least operands = .ok qubits) :
    operands = qubits.map Operand.qubit ∧ least ≤ qubits.length ∧ qubits.Nodup := by
  obtain ⟨found, enough, nodup⟩ := distinctQubits_accepts made
  exact ⟨asQubits_eq_ok found, enough, nodup⟩

theorem asQubits_map (qubits : List Qubit) : asQubits (qubits.map Operand.qubit) = .ok qubits := by
  induction qubits with
  | nil => rfl
  | cons q rest ih =>
    rw [List.map_cons, asQubits, ih]
    rfl

theorem distinctQubits_map {least : Nat} (nodup : qubits.Nodup) (enough : least ≤ qubits.length) :
    distinctQubits least (qubits.map Operand.qubit) = .ok qubits := by
  unfold distinctQubits
  simp only [asQubits_map, bind, Except.bind, if_neg (Nat.not_lt.mpr enough), nodup, not_true,
    if_false]
  rfl

theorem exactQubits_eq_ok {count : Nat} (made : exactQubits count operands = .ok qubits) :
    operands = qubits.map Operand.qubit ∧ qubits.Nodup ∧ qubits.length = count := by
  unfold exactQubits at made
  obtain ⟨qs, found, made⟩ := Except.bind_eq_ok.mp made
  by_cases exact_ : qs.length = count
  · rw [if_pos exact_] at made
    cases made
    obtain ⟨operands, _, nodup⟩ := distinctQubits_eq_ok found
    exact ⟨operands, nodup, exact_⟩
  · rw [if_neg exact_] at made
    cases made

theorem one_qubit (made : exactQubits 1 operands = .ok qubits) :
    ∃ q, qubits = [q] ∧ operands = [Operand.qubit q] := by
  obtain ⟨rfl, _, one⟩ := exactQubits_eq_ok made
  obtain ⟨q, rfl⟩ := List.length_eq_one_iff.mp one
  exact ⟨q, rfl, rfl⟩

theorem two_qubits (made : exactQubits 2 operands = .ok qubits) :
    ∃ p q, p ≠ q ∧ qubits = [p, q] ∧ operands = [Operand.qubit p, Operand.qubit q] := by
  obtain ⟨rfl, nodup, two⟩ := exactQubits_eq_ok made
  obtain ⟨p, q, rfl⟩ := List.length_eq_two.mp two
  exact ⟨p, q, by simpa using nodup, rfl, rfl⟩

theorem leading_eq_ok {form : Operand → Bool} {shape : OperandShape} {o : Operand}
    (made : leading form shape operands = .ok o) : ∃ rest, operands = o :: rest ∧ form o = true := by
  cases operands with
  | nil => cases made
  | cons first rest =>
    rw [leading] at made
    split at made
    · next fits =>
      cases made
      exact ⟨rest, rfl, fits⟩
    · cases made

theorem lowerOne_shape {i : Instruction} {r : Except Malformation (List NativeOp)}
    (shape : ofOpcode? i.opcode i.seq i.operands = some r) {ops : List NativeOp}
    (lowered : lowerOne i = .ok ops) : r = .ok ops := by
  unfold lowerOne at lowered
  rw [shape] at lowered
  cases r with
  | error e => cases lowered
  | ok made =>
    cases lowered
    rfl

theorem lowerInit_operands {seq : Nat} {ops : List NativeOp}
    (lowered : lowerInit seq operands = .ok ops) : ∃ o value qubits,
      operands = o :: qubits.map Operand.qubit ∧ o.qubit? = none ∧ qubits.Nodup ∧ qubits ≠ [] ∧
        initialValue operands = .ok value ∧ ops = flips seq value qubits := by
  unfold lowerInit at lowered
  obtain ⟨value, start, lowered⟩ := Except.bind_eq_ok.mp lowered
  obtain ⟨qubits, distinct, lowered⟩ := Except.bind_eq_ok.mp lowered
  obtain ⟨rest, one, nodup⟩ := distinctQubits_eq_ok distinct
  have some : qubits ≠ [] := List.length_pos_iff.mp one
  obtain ⟨o, unqubit, operands⟩ : ∃ o : Operand, o.qubit? = none ∧
      operands = o :: operands.drop 1 := by
    cases operands with
    | nil => cases start
    | cons o others =>
      refine ⟨o, ?_, rfl⟩
      cases o with
      | qubit q => cases start
      | _ => rfl
  rw [rest] at operands
  refine ⟨o, value, qubits, operands, unqubit, nodup, some, start, ?_⟩
  by_cases large : qubits.length < 64 ∧ pow2 qubits.length ≤ value
  · rw [if_pos large] at lowered
    cases lowered
  · rw [if_neg large] at lowered
    cases lowered
    rfl

theorem qubitsOf_leading {o : Operand} (unqubit : o.qubit? = none) (qubits : List Qubit) :
    qubitsOf (o :: qubits.map Operand.qubit) = qubits := by
  rw [qubitsOf, List.filterMap_cons_none unqubit]
  exact qubitsOf_map qubits

end Lowering

theorem Gate.ofOp_congr {a b : NativeOp} (code : b.code = a.code) (fixed : a.code ≠ "ry")
    (qs : List Nat) : ofOp b qs = ofOp a qs := by
  unfold ofOp
  rw [code]
  split <;> first | rfl | exact absurd (by assumption) fixed

def Gate.paired : List String := ["cx", "cz", "swap"]

structure NativeOp.Apart (op : NativeOp) : Prop where
  nodup : op.qubits.Nodup
  two : op.code ∈ Gate.paired → op.qubits.length = 2

structure NativeOp.Turns (op : NativeOp) : Prop where
  code : op.code = "ry"
  args : ∃ angle q, Lowering.isAngle angle = true ∧ op.args = [angle, .qubit q]

structure NativeOp.StemsFrom (op : NativeOp) (i : Instruction) : Prop where
  inside : ∀ q ∈ op.qubits, q ∈ i.qubits
  some : i.qubits ≠ [] → op.qubits ≠ []
  plays : (op.code ≠ "ry" ∧ op.Simulable) ∨ op.Turns
  guarded : op.guard ≠ none → i.opcode = "x_if"

namespace Lowering
variable {i : Instruction} {ops : List NativeOp}

theorem qubits_gate (seq : Nat) (code : String) (qubits : List Qubit) :
    (gate seq code qubits).qubits = qubits := qubitsOf_map qubits

theorem apart_gate {seq : Nat} {code : String} {qubits : List Qubit} (nodup : qubits.Nodup)
    (two : code ∈ Gate.paired → qubits.length = 2) : (gate seq code qubits).Apart where
  nodup := by rwa [qubits_gate]
  two := by rwa [qubits_gate]

theorem apart_one {seq : Nat} {code : String} {q : Qubit} (single : code ∉ Gate.paired) :
    (gate seq code [q]).Apart :=
  apart_gate (List.nodup_singleton q) fun pair => absurd pair single

theorem apart_pair {seq : Nat} {code : String} {p q : Qubit} (other : p ≠ q) :
    (gate seq code [p, q]).Apart :=
  apart_gate (by simpa using other) fun _ => rfl

theorem stems_gate {code : String} {qubits : List Qubit} (fixed : code ≠ "ry")
    (plays : (gate i.seq code qubits).Simulable) (inside : ∀ q ∈ qubits, q ∈ i.qubits)
    (some : i.qubits ≠ [] → qubits ≠ []) : (gate i.seq code qubits).StemsFrom i where
  inside := by rwa [qubits_gate]
  some := by rwa [qubits_gate]
  plays := Or.inl ⟨fixed, plays⟩
  guarded no := absurd rfl no

theorem stems_chain {seq : Nat} {qubits : List Qubit} :
    ∀ op ∈ chain seq qubits, ∃ p q, p ∈ qubits ∧ q ∈ qubits ∧ op = gate seq "cx" [p, q] := by
  induction qubits with
  | nil => simp [chain]
  | cons p rest ih =>
    cases rest with
    | nil => simp [chain]
    | cons q rest =>
      intro op mem
      rw [chain] at mem
      rcases List.mem_cons.mp mem with rfl | mem
      · exact ⟨p, q, by simp, by simp, rfl⟩
      · obtain ⟨p', q', first, second, rfl⟩ := ih op mem
        exact ⟨p', q', List.mem_cons_of_mem _ first, List.mem_cons_of_mem _ second, rfl⟩

inductive Makes (i : Instruction) : List NativeOp → Prop where
  | flips (o : Operand) (value : Nat) (qubits : List Qubit) (unqubit : o.qubit? = none)
      (operands : i.operands = o :: qubits.map Operand.qubit) : Makes i (flips i.seq value qubits)
  | spread (qubits : List Qubit) (operands : i.operands = qubits.map Operand.qubit) :
      Makes i (qubits.map fun q => gate i.seq "h" [q])
  | tie (qubits : List Qubit) (two : 2 ≤ qubits.length) (nodup : qubits.Nodup)
      (operands : i.operands = qubits.map Operand.qubit) :
      Makes i (gate i.seq "h" (qubits.take 1) :: chain i.seq qubits)
  | single (code : String) (qubits : List Qubit) (fixed : code ≠ "ry")
      (plays : (gate i.seq code qubits).Simulable) (apart : (gate i.seq code qubits).Apart)
      (operands : i.operands = qubits.map Operand.qubit) : Makes i [gate i.seq code qubits]
  | turn (angle : Operand) (q : Qubit) (fits : isAngle angle = true)
      (operands : i.operands = [angle, .qubit q]) : Makes i [.plain i.seq "ry" [angle, .qubit q]]
  | conditional (condition : Operand) (q : Qubit) (opcode : i.opcode = "x_if")
      (unqubit : condition.qubit? = none) (operands : i.operands = [condition, .qubit q]) :
      Makes i [{ gate i.seq "x" [q] with guard := some condition }]

theorem makes_of_lowered (lowered : lowerOne i = .ok ops) : Makes i ops := by
  obtain ⟨seq, code, operands, kind⟩ := i
  cases shape : ofOpcode? code seq operands with
  | none =>
    simp only [lowerOne, shape] at lowered
    cases lowered
  | some r =>
  obtain rfl : r = .ok ops := lowerOne_shape shape lowered
  clear lowered
  unfold ofOpcode? at shape
  split at shape <;> simp only [Option.some.injEq, reduceCtorEq] at shape
  case h_1 =>
    obtain ⟨o, value, qubits, rest, unqubit, _, _, _, rfl⟩ := lowerInit_operands shape
    exact .flips o value qubits unqubit rest
  case h_2 =>
    obtain ⟨qubits, made, same⟩ := Except.bind_eq_ok.mp shape
    cases same
    exact .spread qubits (distinctQubits_eq_ok made).1
  case h_3 =>
    obtain ⟨qubits, made, same⟩ := Except.bind_eq_ok.mp shape
    cases same
    obtain ⟨operands, two, nodup⟩ := distinctQubits_eq_ok made
    exact .tie qubits two nodup operands
  case h_10 =>
    obtain ⟨angle, form, shape⟩ := Except.bind_eq_ok.mp shape
    obtain ⟨qubits, made, same⟩ := Except.bind_eq_ok.mp shape
    obtain ⟨rest, rfl, fits⟩ := leading_eq_ok form
    obtain ⟨q, rfl, operands⟩ := one_qubit made
    cases operands
    cases same
    exact .turn angle q fits rfl
  case h_11 =>
    obtain ⟨condition, form, shape⟩ := Except.bind_eq_ok.mp shape
    obtain ⟨qubits, made, same⟩ := Except.bind_eq_ok.mp shape
    obtain ⟨rest, rfl, fits⟩ := leading_eq_ok form
    obtain ⟨q, rfl, operands⟩ := one_qubit made
    cases operands
    cases same
    have unqubit : condition.qubit? = none := by cases condition <;> first | rfl | cases fits
    exact .conditional condition q rfl unqubit rfl
  case h_12 | h_13 =>
    obtain ⟨qubits, made, rfl⟩ := Except.map_eq_ok.mp shape
    obtain ⟨operands, _, nodup⟩ := distinctQubits_eq_ok made
    exact .single _ qubits (by decide) ⟨_, rfl⟩ (apart_gate nodup fun pair => absurd pair (by decide))
      operands
  case h_7 | h_8 | h_9 =>
    obtain ⟨qubits, made, rfl⟩ := Except.map_eq_ok.mp shape
    obtain ⟨p, q, other, rfl, rest⟩ := two_qubits made
    exact .single _ _ (by decide) ⟨_, rfl⟩ (apart_pair other) rest
  all_goals
    obtain ⟨qubits, made, rfl⟩ := Except.map_eq_ok.mp shape
    obtain ⟨q, rfl, rest⟩ := one_qubit made
    exact .single _ _ (by decide) ⟨_, rfl⟩ (apart_one (by decide)) rest

theorem stems_of_lowered (lowered : lowerOne i = .ok ops) : ∀ op ∈ ops, op.StemsFrom i := by
  cases makes_of_lowered lowered with
  | flips o value qubits unqubit operands =>
    intro op mem
    obtain ⟨⟨q, n⟩, chosen, rfl⟩ := List.mem_map.mp mem
    refine stems_gate (by decide) ⟨_, rfl⟩ (fun p mem => ?_) (by simp)
    rw [List.mem_singleton.mp mem, Instruction.qubits, operands, qubitsOf_leading unqubit]
    exact List.fst_mem_of_mem_zipIdx (List.mem_of_mem_filter chosen)
  | spread qubits operands =>
    intro op mem
    obtain ⟨q, at_q, rfl⟩ := List.mem_map.mp mem
    refine stems_gate (by decide) ⟨_, rfl⟩ (fun p mem => ?_) (by simp)
    rw [List.mem_singleton.mp mem, Instruction.qubits, operands, qubitsOf_map]
    exact at_q
  | tie qubits two nodup operands =>
    have same : i.qubits = qubits := by rw [Instruction.qubits, operands, qubitsOf_map]
    intro op mem
    rcases List.mem_cons.mp mem with rfl | mem
    · obtain ⟨q, rest, rfl⟩ := List.exists_cons_of_length_pos (by omega : 0 < qubits.length)
      refine stems_gate (by decide) ⟨_, rfl⟩ (fun p mem => ?_) (by simp)
      rw [same]
      exact List.mem_of_mem_take mem
    · obtain ⟨p, q, first, second, rfl⟩ := stems_chain op mem
      refine stems_gate (by decide) ⟨_, rfl⟩ (fun r mem => ?_) (by simp)
      rw [same]
      rcases List.mem_pair.mp mem with rfl | rfl
      · exact first
      · exact second
  | single code qubits fixed plays apart operands =>
    have same : i.qubits = qubits := by rw [Instruction.qubits, operands, qubitsOf_map]
    intro op mem
    rw [List.mem_singleton.mp mem]
    exact stems_gate fixed plays (fun q mem => same ▸ mem) fun some => same ▸ some
  | turn angle q fits operands =>
    intro op mem
    rw [List.mem_singleton.mp mem]
    have same : (NativeOp.plain i.seq "ry" [angle, .qubit q]).qubits = i.qubits := by
      rw [Instruction.qubits, operands]
      rfl
    exact {
      inside := fun p mem => same ▸ mem
      some := fun some => same ▸ some
      plays := Or.inr ⟨rfl, angle, q, fits, rfl⟩
      guarded := fun no => absurd rfl no }
  | conditional condition q opcode unqubit operands =>
    have same : i.qubits = [q] := by
      rw [Instruction.qubits, operands]
      exact qubitsOf_leading unqubit [q]
    intro op mem
    rw [List.mem_singleton.mp mem]
    exact {
      inside := fun p mem => same ▸ mem
      some := fun _ => List.cons_ne_nil _ _
      plays := Or.inl ⟨by simp [gate, NativeOp.plain], _, rfl⟩
      guarded := fun _ => opcode }

theorem apart_chain {seq : Nat} {qubits : List Qubit} (nodup : qubits.Nodup) :
    ∀ op ∈ chain seq qubits, op.Apart := by
  induction qubits with
  | nil => simp [chain]
  | cons p rest ih =>
    cases rest with
    | nil => simp [chain]
    | cons q rest =>
      obtain ⟨fresh, nodup⟩ := List.nodup_cons.mp nodup
      intro op mem
      rw [chain] at mem
      rcases List.mem_cons.mp mem with rfl | mem
      · exact apart_pair fun same => fresh (same ▸ List.mem_cons_self)
      · exact ih nodup op mem

theorem apart_of_lowered (lowered : lowerOne i = .ok ops) : ∀ op ∈ ops, op.Apart := by
  intro op mem
  cases makes_of_lowered lowered with
  | flips o value qubits unqubit operands =>
    obtain ⟨_, _, rfl⟩ := List.mem_map.mp mem
    exact apart_one (by decide)
  | spread qubits operands =>
    obtain ⟨_, _, rfl⟩ := List.mem_map.mp mem
    exact apart_one (by decide)
  | tie qubits two nodup operands =>
    rcases List.mem_cons.mp mem with rfl | mem
    · exact apart_gate (nodup.sublist (List.take_sublist _ _)) fun pair => absurd pair (by decide)
    · exact apart_chain nodup op mem
  | single code qubits fixed plays apart operands =>
    rw [List.mem_singleton.mp mem]
    exact apart
  | turn angle q fits operands =>
    rw [List.mem_singleton.mp mem]
    have one : (NativeOp.plain i.seq "ry" [angle, .qubit q]).qubits = [q] := by
      cases angle with
      | qubit p => cases fits
      | _ => rfl
    exact ⟨by simp [one], fun pair => absurd pair (by decide : "ry" ∉ Gate.paired)⟩
  | conditional condition q opcode unqubit operands =>
    rw [List.mem_singleton.mp mem]
    exact ⟨List.nodup_singleton q, fun pair => absurd pair (by decide : "x" ∉ Gate.paired)⟩

theorem forms_of_lowered (lowered : lowerOne i = .ok ops) : ∀ op ∈ ops,
    (∃ code qubits, op = gate i.seq code qubits) ∨
      ∃ o ∈ i.operands, ∃ qubits, op = .plain i.seq "ry" (o :: qubits.map Operand.qubit) ∨
        op = { gate i.seq "x" qubits with guard := some o } := by
  intro op mem
  cases makes_of_lowered lowered with
  | flips o value qubits unqubit operands =>
    obtain ⟨_, _, rfl⟩ := List.mem_map.mp mem
    exact Or.inl ⟨_, _, rfl⟩
  | spread qubits operands =>
    obtain ⟨_, _, rfl⟩ := List.mem_map.mp mem
    exact Or.inl ⟨_, _, rfl⟩
  | tie qubits two nodup operands =>
    rcases List.mem_cons.mp mem with rfl | mem
    · exact Or.inl ⟨_, _, rfl⟩
    · obtain ⟨_, _, _, _, rfl⟩ := stems_chain op mem
      exact Or.inl ⟨_, _, rfl⟩
  | single code qubits fixed plays apart operands =>
    rw [List.mem_singleton.mp mem]
    exact Or.inl ⟨_, _, rfl⟩
  | turn angle q fits operands =>
    rw [List.mem_singleton.mp mem, operands]
    exact Or.inr ⟨angle, List.mem_cons_self, [q], Or.inl rfl⟩
  | conditional condition q opcode unqubit operands =>
    rw [List.mem_singleton.mp mem, operands]
    exact Or.inr ⟨condition, List.mem_cons_self, [q], Or.inr rfl⟩

end Lowering
end LazyCast
