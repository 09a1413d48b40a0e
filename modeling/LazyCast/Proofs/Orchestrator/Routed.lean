import LazyCast.Simulator
import LazyCast.Routing
import LazyCast.Proofs.KeyOrder
/-!
From instructions to operations. Each instruction of a ledger goes to one executor's batch, and is
lowered to operations that carry its position.
-/
namespace LazyCast

theorem Except.map_eq_ok {ε α β : Type} {r : Except ε α} {f : α → β} {b : β} :
    r.map f = .ok b ↔ ∃ a, r = .ok a ∧ f a = b := by
  cases r <;> simp [Except.map]

theorem Except.bind_eq_ok {ε α β : Type} {r : Except ε α} {f : α → Except ε β} {b : β} :
    (r >>= f) = .ok b ↔ ∃ a, r = .ok a ∧ f a = .ok b := by
  cases r <;> simp [bind, Except.bind]

theorem Except.mapM_eq_ok {ε α β : Type} {f : α → Except ε β} {as : List α} {bs : List β}
    (ok : as.mapM f = .ok bs) :
    (∀ a ∈ as, ∃ b ∈ bs, f a = .ok b) ∧ ∀ b ∈ bs, ∃ a ∈ as, f a = .ok b := by
  induction as generalizing bs with
  | nil =>
    cases ok
    simp
  | cons a as ih =>
    rw [List.mapM_cons] at ok
    obtain ⟨b, first, ok⟩ := Except.bind_eq_ok.mp ok
    obtain ⟨others, later, ok⟩ := Except.bind_eq_ok.mp ok
    cases ok
    obtain ⟨there, back⟩ := ih later
    constructor
    · intro x mem
      rcases List.mem_cons.mp mem with rfl | mem
      · exact ⟨b, List.mem_cons_self, first⟩
      · obtain ⟨y, among, made⟩ := there x mem
        exact ⟨y, List.mem_cons_of_mem _ among, made⟩
    · intro y mem
      rcases List.mem_cons.mp mem with rfl | mem
      · exact ⟨a, List.mem_cons_self, first⟩
      · obtain ⟨x, among, made⟩ := back y mem
        exact ⟨x, List.mem_cons_of_mem _ among, made⟩

theorem Except.mapM_eq_error {ε α β : Type} {f : α → Except ε β} {as : List α} {e : ε}
    (failed : as.mapM f = .error e) : ∃ a ∈ as, f a = .error e := by
  induction as with
  | nil => cases failed
  | cons a as ih =>
    rw [List.mapM_cons] at failed
    cases first : f a with
    | error e' =>
      rw [first] at failed
      cases failed
      exact ⟨a, List.mem_cons_self, first⟩
    | ok b =>
      rw [first] at failed
      cases later : as.mapM f with
      | ok bs =>
        rw [later] at failed
        cases failed
      | error e' =>
        rw [later] at failed
        cases failed
        obtain ⟨x, mem, same⟩ := ih later
        exact ⟨x, List.mem_cons_of_mem _ mem, same⟩

theorem Except.map_eq_error {ε α β : Type} {r : Except ε α} {f : α → β} {e : ε} :
    r.map f = .error e ↔ r = .error e := by
  cases r <;> simp [Except.map]

namespace Lowering

theorem seq_flips (seq value : Nat) (qubits : List Qubit) :
    ∀ op ∈ flips seq value qubits, op.seq = seq := by
  intro op mem
  obtain ⟨_, _, rfl⟩ := List.mem_map.mp mem
  rfl

theorem seq_chain (seq : Nat) (qubits : List Qubit) : ∀ op ∈ chain seq qubits, op.seq = seq := by
  induction qubits with
  | nil => simp [chain]
  | cons p rest ih =>
    cases rest with
    | nil => simp [chain]
    | cons q rest =>
      intro op mem
      rw [chain] at mem
      rcases List.mem_cons.mp mem with rfl | mem
      · rfl
      · exact ih op mem

theorem lowerInit_eq_ok {seq : Nat} {operands : List Operand} {ops : List NativeOp}
    (lowered : lowerInit seq operands = .ok ops) :
    ∃ value qubits, ops = flips seq value qubits := by
  unfold lowerInit at lowered
  obtain ⟨value, _, lowered⟩ := Except.bind_eq_ok.mp lowered
  obtain ⟨qubits, _, lowered⟩ := Except.bind_eq_ok.mp lowered
  split at lowered
  · cases lowered
  · cases lowered
    exact ⟨value, qubits, rfl⟩

theorem seq_ofOpcode? {opcode : String} {seq : Nat} {operands : List Operand} {ops : List NativeOp}
    (lowered : ofOpcode? opcode seq operands = some (.ok ops)) : ∀ op ∈ ops, op.seq = seq := by
  have single : ∀ {r : Except Malformation (List Qubit)} {f : List Qubit → NativeOp},
      (∀ qs, (f qs).seq = seq) → r.map (fun qs => [f qs]) = .ok ops → ∀ op ∈ ops, op.seq = seq := by
    intro r f at_seq made op mem
    obtain ⟨qs, _, rfl⟩ := Except.map_eq_ok.mp made
    rw [List.mem_singleton.mp mem]
    exact at_seq qs
  unfold ofOpcode? at lowered
  split at lowered <;> simp only [Option.some.injEq, reduceCtorEq] at lowered
  case h_1 =>
    obtain ⟨value, qubits, rfl⟩ := lowerInit_eq_ok lowered
    exact seq_flips seq value qubits
  case h_2 =>
    obtain ⟨qubits, _, made⟩ := Except.bind_eq_ok.mp lowered
    cases made
    intro op mem
    obtain ⟨_, _, rfl⟩ := List.mem_map.mp mem
    rfl
  case h_3 =>
    obtain ⟨qubits, _, made⟩ := Except.bind_eq_ok.mp lowered
    cases made
    intro op mem
    rcases List.mem_cons.mp mem with rfl | mem
    · rfl
    · exact seq_chain seq qubits op mem
  case h_10 =>
    obtain ⟨angle, _, lowered⟩ := Except.bind_eq_ok.mp lowered
    obtain ⟨qubits, _, made⟩ := Except.bind_eq_ok.mp lowered
    cases made
    intro op mem
    rw [List.mem_singleton.mp mem]
    rfl
  case h_11 =>
    obtain ⟨condition, _, lowered⟩ := Except.bind_eq_ok.mp lowered
    obtain ⟨qubits, _, made⟩ := Except.bind_eq_ok.mp lowered
    cases made
    intro op mem
    rw [List.mem_singleton.mp mem]
    rfl
  all_goals exact single (fun _ => rfl) lowered

theorem distinctQubits_accepts {least : Nat} {operands : List Operand} {qubits : List Qubit}
    (made : distinctQubits least operands = .ok qubits) :
    asQubits operands = .ok qubits ∧ least ≤ qubits.length ∧ qubits.Nodup := by
  unfold distinctQubits at made
  obtain ⟨qs, found, made⟩ := Except.bind_eq_ok.mp made
  by_cases few : qs.length < least
  · rw [if_pos few] at made
    cases made
  · rw [if_neg few] at made
    by_cases repeated : ¬ qs.Nodup
    · rw [if_pos repeated] at made
      cases made
    · rw [if_neg repeated] at made
      cases made
      exact ⟨found, Nat.le_of_not_lt few, Decidable.not_not.mp repeated⟩

theorem lowerOne_distinct {i : Instruction} {ops : List NativeOp} (measures : i.opcode = "measure")
    (lowered : lowerOne i = .ok ops) :
    ∃ qubits, distinctQubits 1 i.operands = .ok qubits ∧ ops = [gate i.seq "measure" qubits] := by
  have shape : ofOpcode? i.opcode i.seq i.operands =
      some ((distinctQubits 1 i.operands).map fun qubits => [gate i.seq "measure" qubits]) := by
    rw [measures]
    rfl
  unfold lowerOne at lowered
  rw [shape] at lowered
  dsimp only at lowered
  cases made : distinctQubits 1 i.operands with
  | error e =>
    rw [made] at lowered
    cases lowered
  | ok qubits =>
    rw [made] at lowered
    cases lowered
    exact ⟨qubits, rfl, rfl⟩

theorem lowerOne_measure {i : Instruction} {ops : List NativeOp} (measures : i.opcode = "measure")
    (lowered : lowerOne i = .ok ops) :
    ∃ qubits, qubits ≠ [] ∧ ops = [gate i.seq "measure" qubits] := by
  obtain ⟨qubits, distinct, rfl⟩ := lowerOne_distinct measures lowered
  refine ⟨qubits, fun none => ?_, rfl⟩
  have one := (distinctQubits_accepts distinct).2.1
  rw [none] at one
  cases one

theorem seq_lowerOne {i : Instruction} {ops : List NativeOp} (lowered : lowerOne i = .ok ops) :
    ∀ op ∈ ops, op.seq = i.seq := by
  unfold lowerOne at lowered
  split at lowered
  · rename_i r shape
    cases r with
    | error e => cases lowered
    | ok ops' =>
      cases lowered
      exact seq_ofOpcode? shape
  · cases lowered

end Lowering

namespace Simulator

theorem lowerOne_eq_ok {s : Simulator} {i : Instruction} {ops : List NativeOp}
    (lowered : s.lowerOne i = .ok ops) : Lowering.lowerOne i = .ok ops := by
  unfold lowerOne at lowered
  split at lowered
  · exact lowered
  · cases lowered

theorem lowerAll_eq_ok {s : Simulator} {batch : List Instruction} {p : Program}
    (lowered : s.lowerAll batch = .ok p) : p.kind = s.capabilities.kind ∧
      (∀ op ∈ p.ops, ∃ i ∈ batch, ∃ ops, Lowering.lowerOne i = .ok ops ∧ op ∈ ops) ∧
        ∀ i ∈ batch, ∃ ops, Lowering.lowerOne i = .ok ops ∧ ∀ op ∈ ops, op ∈ p.ops := by
  unfold lowerAll at lowered
  obtain ⟨lists, each, rfl⟩ := Except.map_eq_ok.mp lowered
  obtain ⟨there, back⟩ := Except.mapM_eq_ok each
  refine ⟨rfl, fun op mem => ?_, fun i mem => ?_⟩
  · obtain ⟨ops, among, mem⟩ := List.mem_flatten.mp mem
    obtain ⟨i, of_batch, made⟩ := back ops among
    exact ⟨i, of_batch, ops, lowerOne_eq_ok made, mem⟩
  · obtain ⟨ops, among, made⟩ := there i mem
    exact ⟨ops, lowerOne_eq_ok made, fun op mem => List.mem_flatten.mpr ⟨ops, among, mem⟩⟩

end Simulator

namespace Table
variable {κ α : Type} [DecidableEq κ] [Key κ]

theorem update_keeps {t : Table κ α} (k : κ) (f : Option α → α) {e : κ × α} (mem : e ∈ t.entries) :
    e ∈ (t.update k f).entries ∨ (e.1 = k ∧ (k, f (some e.2)) ∈ (t.update k f).entries) := by
  unfold update
  induction h : t.entries generalizing t with
  | nil =>
    rw [h] at mem
    cases mem
  | cons x es ih =>
    obtain ⟨l, b⟩ := x
    rw [h] at mem
    rw [updateEntry]
    split
    · rename_i same
      subst same
      rcases List.mem_cons.mp mem with rfl | mem
      · exact Or.inr ⟨rfl, List.mem_cons_self⟩
      · exact Or.inl (List.mem_cons_of_mem _ mem)
    · split
      · exact Or.inl (List.mem_cons_of_mem _ mem)
      · rcases List.mem_cons.mp mem with rfl | mem
        · exact Or.inl List.mem_cons_self
        · rcases ih (t := ⟨es⟩) mem rfl with old | ⟨same, new⟩
          · exact Or.inl (List.mem_cons_of_mem _ old)
          · exact Or.inr ⟨same, List.mem_cons_of_mem _ new⟩

theorem update_has (t : Table κ α) (k : κ) (f : Option α → α) :
    ∃ o, (k, f o) ∈ (t.update k f).entries := by
  unfold update
  induction t.entries with
  | nil => exact ⟨none, List.mem_singleton.mpr rfl⟩
  | cons x es ih =>
    obtain ⟨l, b⟩ := x
    rw [updateEntry]
    split
    · exact ⟨some b, List.mem_cons_self⟩
    · split
      · exact ⟨none, List.mem_cons_self⟩
      · obtain ⟨o, mem⟩ := ih
        exact ⟨o, List.mem_cons_of_mem _ mem⟩

end Table

def CapabilityTable.Executes (t : CapabilityTable) (host : Kind) (i : Instruction) (kind : Kind) :
    Prop := ∃ route, t.resolve host i = .ok (kind, route)

theorem CapabilityTable.Executes.unique {t : CapabilityTable} {host kind kind' : Kind}
    {i : Instruction} (executes : t.Executes host i kind) (executes' : t.Executes host i kind') :
    kind = kind' := by
  obtain ⟨route, resolved⟩ := executes
  obtain ⟨route', resolved'⟩ := executes'
  exact congrArg Prod.fst (Except.ok.inj (resolved.symm.trans resolved'))

section Partition
variable {t : CapabilityTable} {host : Kind} {instructions : List Instruction}
  {routing : RoutingPlan}

theorem zip_assignments (planned : t.plan host instructions = .ok routing) :
    (∀ e ∈ instructions.zip routing.assignments, t.Executes host e.1 e.2.executor) ∧
      ∀ i ∈ instructions, ∃ a, (i, a) ∈ instructions.zip routing.assignments := by
  unfold CapabilityTable.plan at planned
  obtain ⟨assignments, each, rfl⟩ := Except.map_eq_ok.mp planned
  dsimp only
  clear planned
  induction instructions generalizing assignments with
  | nil => simp
  | cons i is ih =>
    rw [List.mapM_cons] at each
    obtain ⟨a, first, each⟩ := Except.bind_eq_ok.mp each
    obtain ⟨others, later, each⟩ := Except.bind_eq_ok.mp each
    cases each
    obtain ⟨executes, covers⟩ := ih others later
    rw [List.zip_cons_cons]
    constructor
    · intro e mem
      rcases List.mem_cons.mp mem with rfl | mem
      · unfold CapabilityTable.assign at first
        obtain ⟨⟨kind, route⟩, resolved, rfl⟩ := Except.map_eq_ok.mp first
        exact ⟨route, resolved⟩
      · exact executes e mem
    · intro j mem
      rcases List.mem_cons.mp mem with rfl | mem
      · exact ⟨a, List.mem_cons_self⟩
      · obtain ⟨b, among⟩ := covers j mem
        exact ⟨b, List.mem_cons_of_mem _ among⟩

def distribute (es : List (Instruction × Assignment)) (groups : Table Kind (List Instruction)) :
    Table Kind (List Instruction) :=
  es.foldl (fun groups e => groups.update e.2.executor fun group => group.getD [] ++ [e.1]) groups

theorem distribute_inside {P : Kind → Instruction → Prop} {es : List (Instruction × Assignment)}
    {groups : Table Kind (List Instruction)} (fine : ∀ e ∈ es, P e.2.executor e.1)
    (held : ∀ batch ∈ groups.entries, ∀ i ∈ batch.2, P batch.1 i) :
    ∀ batch ∈ (distribute es groups).entries, ∀ i ∈ batch.2, P batch.1 i := by
  induction es generalizing groups with
  | nil => exact held
  | cons e es ih =>
    refine ih (fun x mem => fine x (List.mem_cons_of_mem _ mem)) fun batch mem i at_i => ?_
    have here := fine e List.mem_cons_self
    rcases Table.mem_update mem with old | rfl | ⟨group, old, rfl⟩
    · exact held batch old i at_i
    · rw [List.mem_singleton.mp at_i]
      exact here
    · rcases List.mem_append.mp at_i with at_i | at_i
      · exact held _ old i at_i
      · rw [List.mem_singleton.mp at_i]
        exact here

theorem distribute_stays (es : List (Instruction × Assignment))
    {groups : Table Kind (List Instruction)} {kind : Kind} {i : Instruction}
    (held : ∃ batch, (kind, batch) ∈ groups.entries ∧ i ∈ batch) :
    ∃ batch, (kind, batch) ∈ (distribute es groups).entries ∧ i ∈ batch := by
  induction es generalizing groups with
  | nil => exact held
  | cons e es ih =>
    obtain ⟨batch, mem, at_i⟩ := held
    refine ih ?_
    rcases Table.update_keeps e.2.executor (fun group => group.getD [] ++ [e.1]) mem with
      old | ⟨same, new⟩
    · exact ⟨batch, old, at_i⟩
    · dsimp only at same new
      rw [same]
      exact ⟨_, new, List.mem_append_left _ at_i⟩

theorem distribute_has {es : List (Instruction × Assignment)} {e : Instruction × Assignment}
    (mem : e ∈ es) (groups : Table Kind (List Instruction)) :
    ∃ batch, (e.2.executor, batch) ∈ (distribute es groups).entries ∧ e.1 ∈ batch := by
  induction es generalizing groups with
  | nil => cases mem
  | cons x es ih =>
    rcases List.mem_cons.mp mem with rfl | mem
    · obtain ⟨group, has⟩ := groups.update_has e.2.executor fun group => group.getD [] ++ [e.1]
      exact distribute_stays es ⟨_, has, List.mem_append_right _ List.mem_cons_self⟩
    · exact ih mem _

theorem mem_partition (planned : t.plan host instructions = .ok routing) :
    (∀ batch ∈ (routing.partition instructions).entries, ∀ i ∈ batch.2,
      i ∈ instructions ∧ t.Executes host i batch.1) ∧
    ∀ i ∈ instructions, ∃ batch ∈ (routing.partition instructions).entries,
      i ∈ batch.2 ∧ t.Executes host i batch.1 := by
  obtain ⟨executes, covers⟩ := zip_assignments planned
  constructor
  · exact distribute_inside (P := fun kind i => i ∈ instructions ∧ t.Executes host i kind)
      (fun e mem => ⟨(List.of_mem_zip mem).1, executes e mem⟩) fun batch none => by cases none
  · intro i mem
    obtain ⟨a, among⟩ := covers i mem
    obtain ⟨batch, has, at_i⟩ := distribute_has among Table.empty
    exact ⟨_, has, at_i, executes _ among⟩

end Partition
end LazyCast
