import LazyCast.Proofs.Orchestrator.Alike
import LazyCast.Proofs.Shuffling
/-!
Streams on different registers. What an operation does depends on the registers that it names, and
it changes no others. So two streams that name different registers can be gone through side by side:
they bind to what each of them binds to alone.
-/
namespace LazyCast

def Registers.Agree (names : List Register) (a b : Registers) : Prop :=
  ∀ name ∈ names, a.find? name = b.find? name

namespace Registers.Agree
variable {names fewer : List Register} {a b c : Registers}

theorem refl (names : List Register) (a : Registers) : Agree names a a := fun _ _ => rfl

theorem trans (first : Agree names a b) (second : Agree names b c) : Agree names a c :=
  fun name mem => (first name mem).trans (second name mem)

theorem mono (agree : Agree names a b) (inside : ∀ name ∈ fewer, name ∈ names) :
    Agree fewer a b := fun name mem => agree name (inside name mem)

theorem insert (agree : Agree names a b) (name : Register) (v : Value) :
    Agree names (a.insert name v) (b.insert name v) := by
  intro other mem
  by_cases same : other = name
  · subst same
    rw [Table.find?_insert_self, Table.find?_insert_self]
  · rw [Table.find?_insert_of_ne _ _ same, Table.find?_insert_of_ne _ _ same]
    exact agree other mem

theorem insert_other {name : Register} (other : name ∉ names) (a : Registers) (v : Value) :
    Agree names a (a.insert name v) := by
  intro kept mem
  have different : kept ≠ name := fun same => other (same ▸ mem)
  rw [Table.find?_insert_of_ne _ _ different]

end Registers.Agree

theorem Except.mapM_congr {ε α β : Type} {f g : α → Except ε β} {as : List α}
    (same : ∀ a ∈ as, f a = g a) : as.mapM f = as.mapM g := by
  induction as with
  | nil => rfl
  | cons a as ih =>
    rw [List.mapM_cons, List.mapM_cons, same a List.mem_cons_self,
      ih fun b mem => same b (List.mem_cons_of_mem a mem)]

section Reads
variable {op : NativeOp} {a b : Registers}

theorem NativeOp.reads_of_arg {o : Operand} {name : Register} (mem : o ∈ op.args)
    (reg : o.reg? = some name) : name ∈ op.reads :=
  List.mem_filterMap.mpr ⟨o, List.mem_append_right _ mem, reg⟩

theorem NativeOp.reads_of_guard {o : Operand} {name : Register} (guard : op.guard = some o)
    (reg : o.reg? = some name) : name ∈ op.reads :=
  List.mem_filterMap.mpr ⟨o, List.mem_append_left _ (by simp [guard]), reg⟩

namespace Program

theorem readRegister_agree {name : Register} (same : a.find? name = b.find? name) :
    readRegister a name = readRegister b name := by
  rw [readRegister, readRegister, same]

theorem bindOperand_agree {o : Operand}
    (same : ∀ name, o.reg? = some name → a.find? name = b.find? name) :
    bindOperand a o = bindOperand b o := by
  cases o with
  | reg name => rw [bindOperand, bindOperand, readRegister_agree (same name rfl)]
  | _ => rfl

theorem guardHolds_agree {guard : Option Operand}
    (same : ∀ o name, guard = some o → o.reg? = some name → a.find? name = b.find? name) :
    guardHolds a guard = guardHolds b guard := by
  cases guard with
  | none => rfl
  | some o =>
    cases o with
    | reg name => rw [guardHolds, guardHolds, readRegister_agree (same _ name rfl rfl)]
    | _ => rfl

theorem bindOp_agree (agree : Registers.Agree op.reads a b) : bindOp a op = bindOp b op := by
  have guard : guardHolds a op.guard = guardHolds b op.guard :=
    guardHolds_agree fun o name guard reg => agree name (NativeOp.reads_of_guard guard reg)
  have args : op.args.mapM (bindOperand a) = op.args.mapM (bindOperand b) :=
    Except.mapM_congr fun o mem =>
      bindOperand_agree fun name reg => agree name (NativeOp.reads_of_arg mem reg)
  rw [bindOp, bindOp, guard, args]

end Program

namespace Classical

theorem operandValue_agree (agree : Registers.Agree op.reads a b) (n : Nat) :
    operandValue a op n = operandValue b op n := by
  unfold operandValue argument
  cases found : op.args[n]? with
  | none => rfl
  | some o =>
    change valueOf a o = valueOf b o
    cases o with
    | reg name =>
      have read := NativeOp.reads_of_arg (List.mem_of_getElem? found) rfl
      exact Program.readRegister_agree (agree name read)
    | _ => rfl

theorem result_agree (agree : Registers.Agree op.reads a b) : result a op = result b op := by
  unfold result
  simp only [operandValue_agree agree]

theorem destination_read {name : Register} (written : destination op = .ok name) :
    name ∈ op.reads := by
  unfold destination argument at written
  cases found : op.args[0]? with
  | none =>
    rw [found] at written
    cases written
  | some o =>
    rw [found] at written
    cases reg : o.reg? with
    | none =>
      simp only [bind, Except.bind, reg] at written
      cases written
    | some other =>
      simp only [bind, Except.bind, reg] at written
      cases written
      exact NativeOp.reads_of_arg (List.mem_of_getElem? found) reg

theorem stepCause_cases {s s' : EvalState} (cause : stepCause op s = .ok s') :
    (s'.registers = s.registers ∧
      ∀ t, ∃ t', stepCause op t = .ok t' ∧ t'.registers = t.registers) ∨
    ∃ v name, result s.registers op = .ok v ∧ name ∈ op.reads ∧ s' = s.write name v ∧
      ∀ t, result t.registers op = .ok v → stepCause op t = .ok (t.write name v) := by
  unfold stepCause at cause ⊢
  split at cause
  · cases cause
    exact Or.inl ⟨rfl, fun t => ⟨t, rfl, rfl⟩⟩
  · obtain ⟨ticket, named, rfl⟩ := Except.map_eq_ok.mp cause
    refine Or.inl ⟨rfl, fun t => ⟨t.recordCast ticket op.qubits, ?_, rfl⟩⟩
    rw [named]
    rfl
  · obtain ⟨v, made, cause⟩ := Except.bind_eq_ok.mp cause
    obtain ⟨name, written, cause⟩ := Except.bind_eq_ok.mp cause
    cases cause
    refine Or.inr ⟨v, name, made, destination_read written, rfl, fun t made' => ?_⟩
    rw [made', written]
    rfl

end Classical

namespace Evaluator
variable {e : Evaluator} {s s' t : EvalState} {names : List Register}

theorem step_cause : e.step op s = .ok s' ↔ Classical.stepCause op s = .ok s' := by
  unfold step
  cases Classical.stepCause op s with
  | error f =>
    constructor <;>
    · intro ok
      cases ok
  | ok after =>
    constructor <;>
    · intro ok
      cases ok
      rfl

theorem step_agree (inside : ∀ name ∈ op.reads, name ∈ names)
    (agree : Registers.Agree names s.registers t.registers) (stepped : e.step op s = .ok s') :
    ∃ t', e.step op t = .ok t' ∧ Registers.Agree names s'.registers t'.registers := by
  rcases Classical.stepCause_cases (step_cause.mp stepped) with
    ⟨kept, each⟩ | ⟨v, name, made, _, rfl, each⟩
  · obtain ⟨t', cause, kept'⟩ := each t
    refine ⟨t', step_cause.mpr cause, ?_⟩
    rw [kept, kept']
    exact agree
  · have made' : Classical.result t.registers op = .ok v :=
      (Classical.result_agree (agree.mono inside)).symm.trans made
    exact ⟨t.write name v, step_cause.mpr (each t made'), agree.insert name v⟩

theorem step_frame (outside : ∀ name ∈ op.reads, name ∉ names) (stepped : e.step op s = .ok s') :
    Registers.Agree names s.registers s'.registers := by
  rcases Classical.stepCause_cases (step_cause.mp stepped) with
    ⟨kept, _⟩ | ⟨v, name, _, named, rfl, _⟩
  · rw [kept]
    exact .refl names s.registers
  · exact .insert_other (outside name named) s.registers v

end Evaluator
end Reads

def Instruction.registers (i : Instruction) : List Register := i.operands.filterMap Operand.reg?

namespace Lowering
variable {i : Instruction} {ops : List NativeOp}

theorem reads_gate (seq : Nat) (code : String) (qubits : List Qubit) :
    (gate seq code qubits).reads = [] := by
  refine List.filterMap_eq_nil_iff.mpr fun o mem => ?_
  obtain ⟨q, _, rfl⟩ := List.mem_map.mp mem
  rfl

theorem reads_of_lowered (lowered : lowerOne i = .ok ops) :
    ∀ op ∈ ops, (∀ name ∈ op.reads, name ∈ i.registers) ∧
      (op.code = "barrier" ∨ (op.code ≠ "ry" ∧ op.guard = none) → op.reads = []) := by
  intro op mem
  rcases forms_of_lowered lowered op mem with ⟨code, qubits, rfl⟩ | ⟨o, among, qubits, rfl | rfl⟩
  · rw [reads_gate]
    exact ⟨fun name none => (by cases none), fun _ => rfl⟩
  · have reads : (NativeOp.plain i.seq "ry" (o :: qubits.map Operand.qubit)).reads =
        o.reg?.toList ++ (gate i.seq "ry" qubits).reads := by
      cases o <;> rfl
    rw [reads, reads_gate, List.append_nil]
    constructor
    · intro name read
      exact List.mem_filterMap.mpr ⟨o, among, Option.mem_toList.mp read⟩
    · rintro (fence | ⟨other, _⟩)
      · exact absurd fence (by decide : "ry" ≠ "barrier")
      · exact absurd rfl other
  · have reads : { gate i.seq "x" qubits with guard := some o }.reads =
        o.reg?.toList ++ (gate i.seq "x" qubits).reads := by
      cases o <;> rfl
    rw [reads, reads_gate, List.append_nil]
    constructor
    · intro name read
      exact List.mem_filterMap.mpr ⟨o, among, Option.mem_toList.mp read⟩
    · rintro (fence | ⟨_, unguarded⟩)
      · exact absurd fence (by decide : "x" ≠ "barrier")
      · cases unguarded

end Lowering

theorem Evaluator.reads_of_lowered {e : Evaluator} {i : Instruction} {op : NativeOp}
    (lowered : e.lowerOne i = .ok op) : op.reads = i.registers := by
  unfold lowerOne at lowered
  split at lowered
  · obtain ⟨_, _, rfl⟩ := Except.map_eq_ok.mp lowered
    rfl
  · cases lowered

namespace Orchestrator
variable {e : Evaluator}

structure Scheduled.Alike (a b : Scheduled) : Prop where
  kind : b.1 = a.1
  op : a.2.Alike b.2

def readsOf (ops : List Scheduled) : List Register := ops.flatMap fun op => op.2.reads

theorem tagged_alike {kind : Kind} {xs ys : List NativeOp}
    (all : List.Forall₂ NativeOp.Alike xs ys) :
    List.Forall₂ Scheduled.Alike (tagged ⟨kind, xs⟩) (tagged ⟨kind, ys⟩) := by
  unfold tagged
  rw [List.forall₂_map_left_iff, List.forall₂_map_right_iff]
  exact all.imp fun _ _ alike => ⟨rfl, alike⟩

section Side
variable {a b : Scheduled} {s s' t : EvalState} {own other : List Register}

theorem step_beside (alike : a.Alike b) (inside : ∀ name ∈ a.2.reads, name ∈ own)
    (apart : ∀ name ∈ own, name ∉ other) (agree : Registers.Agree own s.registers t.registers)
    (stepped : e.step a.2 s = .ok s') :
    ∃ t', e.step b.2 t = .ok t' ∧ Registers.Agree own s'.registers t'.registers ∧
      Registers.Agree other t.registers t'.registers := by
  obtain ⟨t', beside, agree'⟩ := Evaluator.step_agree inside agree stepped
  refine ⟨t', (e.step_alike alike.op t).trans beside, agree', ?_⟩
  exact Evaluator.step_frame (fun name read => apart name (inside name read)) beside

theorem bind_beside (alike : a.Alike b) (inside : ∀ name ∈ a.2.reads, name ∈ own)
    (agree : Registers.Agree own s.registers t.registers) {bound : Program}
    (binds : (Program.mk a.1 [a.2]).bind s.registers = .ok bound) :
    ∃ bound', (Program.mk b.1 [b.2]).bind t.registers = .ok bound' ∧
      List.Forall₂ Scheduled.Alike (tagged bound) (tagged bound') := by
  obtain ⟨x, one, rfl⟩ := Program.bind_single.mp binds
  have here : Program.bindOp t.registers b.2 = .ok (x.map (NativeOp.placed b.2.seq)) := by
    rw [Program.bindOp_alike t.registers alike.op, ← Program.bindOp_agree (agree.mono inside), one]
    rfl
  refine ⟨_, Program.bind_single.mpr ⟨_, here, rfl⟩, ?_⟩
  rw [alike.kind]
  apply tagged_alike
  cases x with
  | none => exact .nil
  | some x => exact .cons (x.alike_placed b.2.seq) .nil

end Side

theorem boundFrom_next {a b : Scheduled} {xs zs bound bound' : List Scheduled}
    {own other : List Register} {s u t : EvalState} (alike : a.Alike b)
    (inside : ∀ name ∈ a.2.reads, name ∈ own) (apart : ∀ name ∈ own, name ∉ other)
    (agree : Registers.Agree own s.registers t.registers)
    (agree' : Registers.Agree other u.registers t.registers)
    (all : boundFrom e s (a :: xs) = .ok bound)
    (rest : ∀ s t bound, Registers.Agree own s.registers t.registers →
      Registers.Agree other u.registers t.registers → boundFrom e s xs = .ok bound →
      ∃ whole, boundFrom e t zs = .ok whole ∧ Shuffles Scheduled.Alike bound bound' whole) :
    ∃ whole, boundFrom e t (b :: zs) = .ok whole ∧
      Shuffles Scheduled.Alike bound bound' whole := by
  cases needed : a.1.isClassical with
  | true =>
    rw [boundFrom_classical needed] at all
    obtain ⟨s', stepped, later⟩ := Except.bind_eq_ok.mp all
    obtain ⟨t', beside, kept, frame⟩ := step_beside alike inside apart agree stepped
    obtain ⟨whole, bound, shuffled⟩ := rest s' t' _ kept (agree'.trans frame) later
    refine ⟨whole, ?_, shuffled⟩
    rw [boundFrom_classical (alike.kind ▸ needed), beside]
    exact bound
  | false =>
    obtain ⟨first, left, binds, later, rfl⟩ := boundFrom_needed_ok needed all
    obtain ⟨first', beside, same⟩ := bind_beside alike inside agree binds
    obtain ⟨whole, bound, shuffled⟩ := rest s t _ agree agree' later
    refine ⟨tagged first' ++ whole, ?_, shuffled.append_left same⟩
    rw [boundFrom_needed (alike.kind ▸ needed), beside, bound]
    rfl

theorem boundFrom_shuffled {xs ys zs bound bound' : List Scheduled} {own other : List Register}
    {s u t : EvalState} (shuffled : Shuffles Scheduled.Alike xs ys zs)
    (inside : ∀ name ∈ readsOf xs, name ∈ own) (inside' : ∀ name ∈ readsOf ys, name ∈ other)
    (apart : ∀ name ∈ own, name ∉ other) (agree : Registers.Agree own s.registers t.registers)
    (agree' : Registers.Agree other u.registers t.registers)
    (all : boundFrom e s xs = .ok bound) (all' : boundFrom e u ys = .ok bound') :
    ∃ whole, boundFrom e t zs = .ok whole ∧ Shuffles Scheduled.Alike bound bound' whole := by
  induction shuffled generalizing s u t bound bound' with
  | nil =>
    cases all
    cases all'
    exact ⟨[], rfl, .nil⟩
  | @left x z xs ys zs related _ ih =>
    have here : ∀ name ∈ x.2.reads, name ∈ own := fun name read =>
      inside name (List.mem_flatMap.mpr ⟨x, List.mem_cons_self, read⟩)
    have there : ∀ name ∈ readsOf xs, name ∈ own := fun name read =>
      inside name (List.mem_append_right _ read)
    exact boundFrom_next related here apart agree agree' all
      fun s t bound agree agree' all => ih there inside' agree agree' all all'
  | @right y z xs ys zs related _ ih =>
    have here : ∀ name ∈ y.2.reads, name ∈ other := fun name read =>
      inside' name (List.mem_flatMap.mpr ⟨y, List.mem_cons_self, read⟩)
    have there : ∀ name ∈ readsOf ys, name ∈ other := fun name read =>
      inside' name (List.mem_append_right _ read)
    have apart' : ∀ name ∈ other, name ∉ own := fun name read own => apart name own read
    obtain ⟨whole, bound, shuffled⟩ := boundFrom_next related here apart' agree' agree all'
      fun u t bound' agree' agree all' => by
        obtain ⟨whole, bound, shuffled⟩ := ih inside there agree agree' all all'
        exact ⟨whole, bound, shuffled.symm⟩
    exact ⟨whole, bound, shuffled.symm⟩

end Orchestrator
end LazyCast
