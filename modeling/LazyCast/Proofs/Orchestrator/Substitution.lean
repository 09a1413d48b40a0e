import LazyCast.Proofs.Circuit.Dense
import LazyCast.Proofs.Orchestrator.Binding
import LazyCast.Proofs.Orchestrator.Staffing
/-!
Binding as substitution. What a program lacks is told from its operations alone: the registers that
guards read, and those of the arguments wherever the guard holds. A program that lacks nothing is
bound by leaving operations out and putting literals for registers; any other fails at the first
register that it lacks. So binding goes along with joining programs, and what is bound is bound to
itself.
-/
namespace LazyCast

namespace Registers
variable {registers : Registers} {op : NativeOp} {name : Register}

def value? (registers : Registers) : Operand → Option Value
  | .reg name => registers.find? name
  | o => o.literal?

def takes (registers : Registers) : Option Operand → Bool
  | none => true
  | some o => match registers.value? o with
    | some v => v.truthy
    | none => false

def fill (registers : Registers) : Operand → Operand
  | .reg name => match registers.find? name with
    | some v => .ofValue v
    | none => .reg name
  | o => o

def filled (registers : Registers) (op : NativeOp) : NativeOp :=
  .plain op.seq op.code (op.args.map registers.fill)

/-- An operation cannot do without a register that was never written: its guard, or an argument
    where the guard lets it run. -/
inductive Lacks (registers : Registers) (op : NativeOp) (name : Register) : Prop where
  | guard (reads : op.guard = some (.reg name)) (never : registers.find? name = none)
  | argument (taken : registers.takes op.guard = true) (reads : .reg name ∈ op.args)
      (never : registers.find? name = none)

def unwritten (registers : Registers) (operands : List Operand) : List Register :=
  (operands.filterMap Operand.reg?).filter fun name => !registers.contains name

/-- What an operation lacks, the guard first. -/
def lacking (registers : Registers) (op : NativeOp) : List Register :=
  registers.unwritten op.guard.toList ++
    if registers.takes op.guard then registers.unwritten op.args else []

theorem mem_unwritten {operands : List Operand} :
    name ∈ registers.unwritten operands ↔ .reg name ∈ operands ∧ registers.find? name = none := by
  have same : ∀ o : Operand, o.reg? = some name ↔ o = .reg name := by
    intro o
    cases o <;> simp [Operand.reg?]
  simp [unwritten, Table.contains, same]

theorem mem_lacking : name ∈ registers.lacking op ↔ registers.Lacks op name := by
  rw [lacking, List.mem_append, mem_unwritten, Option.mem_toList]
  constructor
  · rintro (⟨reads, never⟩ | argument)
    · exact .guard reads never
    · split at argument
      · rename_i taken
        obtain ⟨reads, never⟩ := mem_unwritten.mp argument
        exact .argument taken reads never
      · cases argument
  · rintro (⟨reads, never⟩ | ⟨taken, reads, never⟩)
    · exact Or.inl ⟨reads, never⟩
    · rw [if_pos taken]
      exact Or.inr (mem_unwritten.mpr ⟨reads, never⟩)

theorem reg?_fill {o : Operand} (written : ∀ name, o = .reg name → registers.find? name ≠ none) :
    (registers.fill o).reg? = none := by
  cases o with
  | reg name =>
    cases found : registers.find? name with
    | none => exact absurd found (written name rfl)
    | some v => simpa [fill, found] using reg?_ofValue v
  | _ => rfl

theorem reg?_filled (taken : registers.takes op.guard = true)
    (served : ∀ name, ¬ registers.Lacks op name) :
    ∀ o ∈ (registers.filled op).args, o.reg? = none := by
  intro o mem
  obtain ⟨arg, reads, rfl⟩ := List.mem_map.mp mem
  refine reg?_fill fun name same never => ?_
  exact served name (.argument taken (same ▸ reads) never)

theorem lacking_ne_nil {ops : List NativeOp} : ops.flatMap registers.lacking ≠ [] ↔
    ∃ op ∈ ops, ∃ name, registers.Lacks op name := by
  constructor
  · intro some
    obtain ⟨name, mem⟩ := List.exists_mem_of_ne_nil _ some
    obtain ⟨op, among, lacking⟩ := List.mem_flatMap.mp mem
    exact ⟨op, among, name, mem_lacking.mp lacking⟩
  · rintro ⟨op, among, name, lacks⟩
    exact List.ne_nil_of_mem (List.mem_flatMap.mpr ⟨op, among, mem_lacking.mpr lacks⟩)

def substituted (registers : Registers) (ops : List NativeOp) : List NativeOp :=
  (ops.filter fun op => registers.takes op.guard).map registers.filled

theorem plain_substituted {ops : List NativeOp} (served : ops.flatMap registers.lacking = []) :
    ∀ op ∈ registers.substituted ops, op.guard = none ∧ ∀ o ∈ op.args, o.reg? = none := by
  intro op mem
  obtain ⟨source, kept, rfl⟩ := List.mem_map.mp mem
  obtain ⟨among, taken⟩ := List.mem_filter.mp kept
  refine ⟨rfl, reg?_filled taken fun name lack => ?_⟩
  exact lacking_ne_nil.mpr ⟨source, among, name, lack⟩ served

end Registers

theorem Circuit.isBound_of_plain {op : NativeOp} (unguarded : op.guard = none)
    (unread : ∀ o ∈ op.args, o.reg? = none) : isBound op = true := by
  simpa [isBound, unguarded] using unread

namespace Program
variable {registers : Registers}

def needing {α : Type} (missing : List Register) (a : α) : Except ExecutionCause α :=
  match missing with
  | [] => .ok a
  | name :: _ => .error (.readBeforeWrite name)

theorem needing_bind {α β : Type} (missing more : List Register) (a : α) {b : β}
    {f : α → Except ExecutionCause β} (next : f a = needing more b) :
    (needing missing a >>= f) = needing (missing ++ more) b := by
  cases missing with
  | nil => exact next
  | cons name rest => rfl

theorem needing_pure {α β : Type} (missing : List Register) (a : α) (f : α → β) :
    (needing missing a >>= fun a => pure (f a)) = needing missing (f a) := by
  cases missing <;> rfl

theorem bindOperand_eq (o : Operand) :
    bindOperand registers o = needing (registers.unwritten [o]) (registers.fill o) := by
  cases o with
  | reg name =>
    cases found : registers.find? name <;>
      simp [bindOperand, readRegister, Registers.unwritten, Registers.fill, Operand.reg?, needing,
        Table.contains, Except.map, found]
  | _ => rfl

theorem bindArgs_eq (args : List Operand) : args.mapM (bindOperand registers) =
    needing (registers.unwritten args) (args.map registers.fill) := by
  induction args with
  | nil => rfl
  | cons o rest ih =>
    have split : registers.unwritten (o :: rest) =
        registers.unwritten [o] ++ registers.unwritten rest := by
      rw [Registers.unwritten, Registers.unwritten, Registers.unwritten, ← List.filter_append,
        ← List.filterMap_append, List.singleton_append]
    rw [List.mapM_cons, bindOperand_eq, ih, split]
    exact needing_bind _ _ _ (needing_pure _ _ _)

theorem guardHolds_eq (guard : Option Operand) : guardHolds registers guard =
    needing (registers.unwritten guard.toList) (registers.takes guard) := by
  cases guard with
  | none => rfl
  | some o =>
    cases o with
    | reg name =>
      cases found : registers.find? name <;>
        simp [guardHolds, readRegister, Registers.unwritten, Registers.takes, Registers.value?,
          Operand.reg?, needing, Table.contains, Except.map, found]
    | _ => rfl

theorem bindOp_eq (op : NativeOp) : bindOp registers op = needing (registers.lacking op)
    (if registers.takes op.guard then some (registers.filled op) else none) := by
  unfold bindOp Registers.lacking
  rw [guardHolds_eq]
  refine needing_bind _ _ _ ?_
  cases registers.takes op.guard with
  | false => rfl
  | true =>
    simp only [if_true, bindArgs_eq]
    exact needing_pure _ _ fun args => some (NativeOp.plain op.seq op.code args)

theorem bindOps_eq (ops : List NativeOp) : bindOps registers ops =
    needing (ops.flatMap registers.lacking) (registers.substituted ops) := by
  induction ops with
  | nil => rfl
  | cons op rest ih =>
    rw [bindOps, bindOp_eq, ih, List.flatMap_cons]
    refine needing_bind _ _ _ ((needing_pure _ _ _).trans (congrArg (needing _) ?_))
    cases taken : registers.takes op.guard <;> simp [Registers.substituted, taken]

theorem bind_eq (p : Program) : p.bind registers =
    match p.ops.flatMap registers.lacking with
    | [] => .ok ⟨p.kind, registers.substituted p.ops⟩
    | name :: _ => .error (.execution p.kind (.readBeforeWrite name)) := by
  rw [bind, bindOps_eq]
  cases p.ops.flatMap registers.lacking <;> rfl

theorem bindOp_isBound {op : NativeOp} (bound : Circuit.isBound op = true) :
    registers.takes op.guard = true ∧ registers.filled op = op ∧ registers.lacking op = [] := by
  obtain ⟨seq, code, args, guard⟩ := op
  obtain ⟨unguarded, plain⟩ := Bool.and_eq_true_iff.mp bound
  obtain rfl : guard = none := Option.isNone_iff_eq_none.mp unguarded
  have unread : ∀ o ∈ args, o.reg? = none := fun o mem =>
    Option.isNone_iff_eq_none.mp (List.all_eq_true.mp plain o mem)
  have kept : args.map registers.fill = args := by
    refine (List.map_congr_left fun o mem => ?_).trans (List.map_id args)
    have none := unread o mem
    cases o <;> first | rfl | cases none
  have none : args.filterMap Operand.reg? = [] := List.filterMap_eq_nil_iff.mpr unread
  refine ⟨rfl, ?_, ?_⟩
  · rw [Registers.filled, kept]
    rfl
  · simp [Registers.lacking, Registers.takes, Registers.unwritten, none]

theorem bind_of_isBound {p : Program} (bound : ∀ op ∈ p.ops, Circuit.isBound op = true)
    (registers : Registers) : p.bind registers = .ok p := by
  have all : ∀ op ∈ p.ops, registers.takes op.guard = true := fun op mem =>
    (bindOp_isBound (bound op mem)).1
  have kept : p.ops.map registers.filled = p.ops :=
    (List.map_congr_left fun op mem => (bindOp_isBound (bound op mem)).2.1).trans (List.map_id _)
  have none : p.ops.flatMap registers.lacking = [] := List.flatMap_eq_nil_iff.mpr fun op mem =>
    (bindOp_isBound (bound op mem)).2.2
  rw [bind_eq, none]
  dsimp only
  rw [Registers.substituted, List.filter_eq_self.mpr all, kept]

theorem bind_extend {p q : Program} (kind : q.kind = p.kind) (registers : Registers) :
    (p.extend q).bind registers =
      (p.bind registers).bind fun b => (q.bind registers).map b.extend := by
  simp only [bind, extend, bindOps_append, kind]
  cases bindOps registers p.ops with
  | error e => rfl
  | ok as => cases bindOps registers q.ops <;> rfl

end Program

theorem Gate.ofOp_not_unbound (op : NativeOp) (qs : List Nat) :
    ofOp op qs ≠ .error .unboundRegisters := by
  unfold ofOp
  split
  case h_4 => split <;> exact nofun
  case h_10 =>
    split
    · exact nofun
    · split <;> exact nofun
  all_goals exact nofun

theorem Circuit.ofOps_unbound {allowed : Nat} {ops : List NativeOp} :
    ofOps allowed ops = .error .unboundRegisters ↔ ¬ ops.all isBound = true := by
  rw [ofOps_eq]
  by_cases bound : ops.all isBound = true
  · rw [if_pos bound]
    refine iff_of_false (fun failed => ?_) (not_not_intro bound)
    split at failed
    · cases failed
    split at failed
    · cases failed
    obtain ⟨op, _, failed⟩ := Except.mapM_eq_error (Except.map_eq_error.mp (Except.map_eq_error.mp failed))
    exact Gate.ofOp_not_unbound op _ failed
  · exact iff_of_true (if_neg bound) bound

namespace Program

/-- Binding fails just when an operation lacks a register, at the first that is lacking. Otherwise
    the operations that are taken stay in order, with literals for registers and without guards; so
    there is nothing left to bind, and nothing that an execution could report as unbound. Programs
    of one kind are bound together as they are bound each. -/
theorem bind_substitutes (p : Program) (registers : Registers) :
    ((∃ e, p.bind registers = .error e) ↔ ∃ op ∈ p.ops, ∃ name, registers.Lacks op name) ∧
    (∀ e, p.bind registers = .error e → ∃ name,
      (p.ops.flatMap registers.lacking).head? = some name ∧
        e = .execution p.kind (.readBeforeWrite name)) ∧
    (∀ b, p.bind registers = .ok b → b.kind = p.kind ∧
      b.ops = (p.ops.filter fun op => registers.takes op.guard).map registers.filled ∧
      (∀ op ∈ b.ops, op.guard = none ∧ ∀ o ∈ op.args, o.reg? = none) ∧
      (∀ allowed, Circuit.ofOps allowed b.ops ≠ .error .unboundRegisters) ∧
      ∀ others, b.bind others = .ok b) ∧
    ∀ q, q.kind = p.kind → (p.extend q).bind registers =
      (p.bind registers).bind fun b => (q.bind registers).map b.extend := by
  have whole : p.bind registers = _ := bind_eq p
  refine ⟨?_, ?_, ?_, fun q kind => bind_extend kind registers⟩
  · rw [← Registers.lacking_ne_nil]
    split at whole
    · rename_i none
      exact iff_of_false (fun ⟨e, failed⟩ => by cases whole.symm.trans failed) (not_not_intro none)
    · rename_i some
      exact iff_of_true ⟨_, whole⟩ (by rw [some]; exact List.cons_ne_nil _ _)
  · intro e failed
    split at whole
    · cases whole.symm.trans failed
    · rename_i name rest some
      cases whole.symm.trans failed
      exact ⟨name, by rw [some]; rfl, rfl⟩
  · intro b binds
    split at whole
    · rename_i served
      cases whole.symm.trans binds
      have plain := Registers.plain_substituted served
      have bound : ∀ op ∈ registers.substituted p.ops, Circuit.isBound op = true :=
        fun op mem => Circuit.isBound_of_plain (plain op mem).1 (plain op mem).2
      exact ⟨rfl, rfl, plain,
        fun allowed failed => Circuit.ofOps_unbound.mp failed (List.all_eq_true.mpr bound),
        bind_of_isBound bound⟩
    · cases whole.symm.trans binds

def conditioned : Program where
  kind := .quantum
  ops := [.plain 0 "ry" [.reg "t", .qubit 0],
    { NativeOp.plain 1 "x" [.qubit 1] with guard := some (.reg "c") },
    { NativeOp.plain 2 "x" [.reg "never"] with guard := some (.reg "d") },
    .plain 3 "barrier" []]

def settings : Registers := ⟨[("c", .bool true), ("d", .int 0), ("t", .int 1)]⟩

/-- What is not taken may lack what it likes. -/
theorem conditioned_bound : ∃ b, conditioned.bind settings = .ok b ∧
    b.ops = [.plain 0 "ry" [.int 1, .qubit 0], .plain 1 "x" [.qubit 1], .plain 3 "barrier" []] ∧
    b.bind .empty = .ok b ∧
    (conditioned.extend conditioned).bind settings = .ok (b.extend b) := by
  obtain ⟨b, binds⟩ : ∃ b, conditioned.bind settings = .ok b := ⟨_, rfl⟩
  obtain ⟨_, _, whole, joined⟩ := bind_substitutes conditioned settings
  obtain ⟨_, ops, _, _, again⟩ := whole b binds
  refine ⟨b, binds, ops.trans ?_, again .empty, ?_⟩
  · rfl
  · rw [joined conditioned rfl, binds]
    rfl

end Program
end LazyCast
