import LazyCast.Proofs.Decimal.Whole
import LazyCast.Proofs.Passes.Runnable
import Mathlib.Data.Finset.Card
/-!
The listing of a run. Its lines declare the qubits in use and the bits that are read, name the gates
that are simulated and the fences in their order, and read each measured qubit into its bit. Every
line is what it should be but for one thing: a turn is listed with the text of its operand, and of a
truth value or of a float that is not finite that text is no numeral.
-/
namespace LazyCast

def Gate.lone : List String := ["x", "z", "h", "ry"]

namespace Lowering
variable {i : Instruction} {ops : List NativeOp}

theorem length_gate {seq : Nat} {code : String} {qubits : List Qubit} (one : qubits.length = 1) :
    (gate seq code qubits).qubits.length = 1 := by
  rwa [qubits_gate]

theorem lone_of_lowered (lowered : lowerOne i = .ok ops) :
    ∀ op ∈ ops, op.code ∈ Gate.lone → op.qubits.length = 1 := by
  cases shape : ofOpcode? i.opcode i.seq i.operands with
  | none =>
    simp only [lowerOne, shape] at lowered
    cases lowered
  | some r =>
  obtain rfl : r = .ok ops := lowerOne_shape shape lowered
  unfold ofOpcode? at shape
  split at shape <;> simp only [Option.some.injEq, reduceCtorEq] at shape
  case h_1 =>
    obtain ⟨_, _, _, _, _, _, _, _, rfl⟩ := lowerInit_operands shape
    intro op mem _
    obtain ⟨_, _, rfl⟩ := List.mem_map.mp mem
    exact length_gate rfl
  case h_2 =>
    obtain ⟨qubits, _, same⟩ := Except.bind_eq_ok.mp shape
    cases same
    intro op mem _
    obtain ⟨_, _, rfl⟩ := List.mem_map.mp mem
    exact length_gate rfl
  case h_3 =>
    obtain ⟨qubits, made, same⟩ := Except.bind_eq_ok.mp shape
    cases same
    have two := (distinctQubits_accepts made).2.1
    intro op mem code
    rcases List.mem_cons.mp mem with rfl | mem
    · exact length_gate (by rw [List.length_take]; omega)
    · obtain ⟨_, _, _, _, rfl⟩ := stems_chain op mem
      exact absurd code (by decide : "cx" ∉ Gate.lone)
  case h_10 =>
    obtain ⟨angle, form, shape⟩ := Except.bind_eq_ok.mp shape
    obtain ⟨qubits, made, same⟩ := Except.bind_eq_ok.mp shape
    obtain ⟨_, _, fits⟩ := leading_eq_ok form
    obtain ⟨q, rfl, _⟩ := one_qubit made
    cases same
    intro op mem _
    rw [List.mem_singleton.mp mem]
    cases angle with
    | qubit p => cases fits
    | _ => rfl
  case h_11 =>
    obtain ⟨condition, form, shape⟩ := Except.bind_eq_ok.mp shape
    obtain ⟨qubits, made, same⟩ := Except.bind_eq_ok.mp shape
    obtain ⟨q, rfl, _⟩ := one_qubit made
    cases same
    intro op mem _
    rw [List.mem_singleton.mp mem]
    rfl
  case h_4 | h_5 | h_6 =>
    obtain ⟨qubits, made, rfl⟩ := Except.map_eq_ok.mp shape
    intro op mem _
    rw [List.mem_singleton.mp mem]
    exact length_gate (exactQubits_eq_ok made).2.2
  all_goals
    obtain ⟨qubits, made, rfl⟩ := Except.map_eq_ok.mp shape
    intro op mem code
    obtain rfl := List.mem_singleton.mp mem
    exact absurd code (by simp [gate, NativeOp.plain, Gate.lone])

end Lowering

namespace Qasm

/-- What a simulator does at an operation that measures nothing, on dense numbers. -/
inductive Step where
  | gate (g : Gate)
  | fence (qubits : List Nat)

def Step.gate? : Step → Option Gate
  | gate g => some g
  | fence _ => none

def Step.of? (place : Qubit → Nat) (op : NativeOp) : Option Step :=
  match Gate.ofOp op (op.qubits.map place) with
  | .ok (some g) => some (.gate g)
  | _ => if op.code = "barrier" then some (.fence (op.qubits.map place)) else none

def headText (angle : String) : Gate → String
  | .x _ => "x"
  | .z _ => "z"
  | .h _ => "h"
  | .ry _ _ => "ry(" ++ angle ++ ")"
  | .cx _ _ => "cx"
  | .cz _ _ => "cz"
  | .swap _ _ => "swap"

def wireTexts (qubits : List Nat) : String := ",".intercalate (qubits.map fun k => s!"q[{k}]")

/-- A fence without qubits is one about the whole register. -/
def fenceText (qubits : List Nat) : String :=
  if qubits = [] then "barrier q;" else "barrier " ++ wireTexts qubits ++ ";"

/-- The line says what the step is, on a register of some qubits; angles are spelled as told. -/
inductive Line (spells : String → Float → Prop) (width : Nat) : Step → String → Prop where
  | gate (g : Gate) (angle : String) (spelled : ∀ x k, g = .ry x k → spells angle x)
      (distinct : g.qubits.Nodup) (inside : ∀ k ∈ g.qubits, k < width) :
      Line spells width (.gate g) (headText angle g ++ " " ++ wireTexts g.qubits ++ ";")
  | fence (qubits : List Nat) (distinct : qubits.Nodup) (inside : ∀ k ∈ qubits, k < width) :
      Line spells width (.fence qubits) (fenceText qubits)

def widthOf (ops : List NativeOp) : Nat := (ops.flatMap NativeOp.qubits).toFinset.card

def linesOf (text : String) : List String := (text.split '\n').toList.map fun line => line.copy

/-- The listing records a circuit's run: what is declared, done and read, with angles spelled as told. -/
structure Records (spells : String → Float → Prop) (ops : List NativeOp) (c : Circuit)
    (text : String) : Prop where
  /-- The dense numbers tell the qubits in use apart, and are within the register. -/
  apart : ∀ op ∈ ops, ∀ p ∈ op.qubits, ∀ op' ∈ ops, ∀ q ∈ op'.qubits,
    Circuit.denseOf c.dense p = Circuit.denseOf c.dense q → p = q
  inside : ∀ op ∈ ops, ∀ q ∈ op.qubits, Circuit.denseOf c.dense q < widthOf ops
  /-- The operations with a step are those that measure nothing. -/
  steps : ∀ op ∈ ops, (Step.of? (Circuit.denseOf c.dense) op).isSome = (op.code != "measure")
  /-- Those among the steps that are gates are the gates that are simulated. -/
  gates : (ops.filterMap (Step.of? (Circuit.denseOf c.dense))).filterMap Step.gate? = c.gates
  reads : c.measured = Circuit.readout ops
  lines : ∃ body,
    List.Forall₂ (Line spells (widthOf ops)) (ops.filterMap (Step.of? (Circuit.denseOf c.dense)))
      body ∧
    linesOf text = ["OPENQASM 2.0;", "include \"qelib1.inc\";", s!"qreg q[{widthOf ops}];",
        s!"creg c[{c.measured.length}];"] ++ body ++
      c.measured.zipIdx.map fun m => s!"measure q[{Circuit.denseOf c.dense m.1}] -> c[{m.2}];"

section Told
variable {op : NativeOp} {qs : List Nat} {g : Gate} {dense : Table Qubit Nat}

theorem length_ofOp (made : Gate.ofOp op qs = .ok (some g)) :
    (op.code ∈ Gate.lone ∧ g.qubits.length = 1) ∨ (op.code ∈ Gate.paired ∧ g.qubits.length = 2) := by
  unfold Gate.ofOp at made
  split at made
  case h_4 code =>
    split at made
    · cases made
      exact Or.inl ⟨code ▸ by decide, rfl⟩
    · cases made
  case h_8 | h_9 => cases made
  case h_10 =>
    split at made
    · cases made
    · split at made <;> cases made
  case h_1 code | h_2 code | h_3 code =>
    cases made
    exact Or.inl ⟨code ▸ by decide, rfl⟩
  all_goals
    next code =>
    cases made
    exact Or.inr ⟨code ▸ by decide, rfl⟩

theorem idle_ofOp (made : Gate.ofOp op qs = .ok none) :
    op.code = "measure" ∨ op.code = "barrier" := by
  unfold Gate.ofOp at made
  split at made
  case h_4 => split at made <;> cases made
  case h_8 code => exact Or.inl code
  case h_9 code => exact Or.inr code
  case h_10 =>
    split at made
    · cases made
    · split at made <;> cases made
  all_goals cases made

def angleText (op : NativeOp) : String :=
  match op.args with
  | a :: _ => a.text
  | [] => ""

theorem opLine?_gate (made : Gate.ofOp op qs = .ok (some g)) : opLine? dense op =
    some (headText (angleText op) g ++ " " ++ wireTexts (op.qubits.map (Circuit.denseOf dense)) ++
      ";") := by
  have wires : ",".intercalate (op.qubits.map (qubitText dense)) =
      wireTexts (op.qubits.map (Circuit.denseOf dense)) := by
    rw [wireTexts, List.map_map]
    rfl
  have space : ") " = ")" ++ " " := rfl
  unfold Gate.ofOp at made
  split at made
  case h_4 code =>
    split at made
    · cases made
      have line : opLine? dense op = some ("ry(" ++ angleText op ++ ") " ++
          ",".intercalate (op.qubits.map (qubitText dense)) ++ ";") := by
        simp only [opLine?, code]
        rfl
      rw [line, wires, space]
      simp only [headText, String.append_assoc]
    · cases made
  case h_8 | h_9 => cases made
  case h_10 =>
    split at made
    · cases made
    · split at made <;> cases made
  all_goals
    next code =>
    cases made
    simp only [opLine?, code, wires, headText]
    rfl

theorem told (simulable : op.Simulable) (dense : Table Qubit Nat) :
    (op.code = "measure" ∧ op.gate? = none ∧ Step.of? (Circuit.denseOf dense) op = none ∧
      opLine? dense op = none) ∨
    (op.code = "barrier" ∧ op.gate? = none ∧ Step.of? (Circuit.denseOf dense) op =
        some (.fence (op.qubits.map (Circuit.denseOf dense))) ∧
      opLine? dense op = some (fenceText (op.qubits.map (Circuit.denseOf dense)))) ∨
    ∃ g, Gate.ofOp op (op.qubits.map (Circuit.denseOf dense)) = .ok (some g) ∧
      op.gate?.map (Gate.rename (Circuit.denseOf dense)) = some g ∧ op.code ≠ "measure" ∧
      Step.of? (Circuit.denseOf dense) op = some (.gate g) := by
  obtain ⟨g, made⟩ := simulable
  have placed := Gate.ofOp_map op (Circuit.denseOf dense) op.qubits
  rw [made] at placed
  have gate : op.gate? = g := by simp only [NativeOp.gate?, made]
  cases g with
  | some g =>
    refine Or.inr (Or.inr ⟨_, placed, by rw [gate]; rfl, fun code => ?_, ?_⟩)
    · simp [Gate.ofOp, code] at made
    · simp only [Step.of?, placed, Except.map, Option.map_some]
  | none =>
    have idle : Gate.ofOp op (op.qubits.map (Circuit.denseOf dense)) = .ok none := placed
    rcases idle_ofOp made with code | code
    · exact Or.inl ⟨code, gate, by simp [Step.of?, idle, code], by simp [opLine?, code]⟩
    · refine Or.inr (Or.inl ⟨code, gate, by simp [Step.of?, idle, code], ?_⟩)
      have wires : op.qubits.map (qubitText dense) =
          (op.qubits.map (Circuit.denseOf dense)).map fun k => s!"q[{k}]" := by
        rw [List.map_map]
        rfl
      simp only [opLine?, code, fenceText, wireTexts, wires, List.isEmpty_iff, List.map_eq_nil_iff]

end Told

section Lists
variable {α β γ : Type} {f : α → Option β} {g : α → Option γ} {R : β → γ → Prop} {xs : List α}

theorem forall₂_filterMap (same : ∀ x ∈ xs, (f x).isSome = (g x).isSome) :
    List.Forall₂ R (xs.filterMap f) (xs.filterMap g) ↔
      ∀ x ∈ xs, ∀ b, f x = some b → ∀ c, g x = some c → R b c := by
  induction xs with
  | nil => simp
  | cons x xs ih =>
    have rest := ih fun y mem => same y (List.mem_cons_of_mem x mem)
    have here := same x List.mem_cons_self
    cases fx : f x with
    | none =>
      have gx : g x = none := by simpa [fx] using here
      rw [List.filterMap_cons_none fx, List.filterMap_cons_none gx, rest]
      simp [fx]
    | some b =>
      obtain ⟨c, gx⟩ : ∃ c, g x = some c := Option.isSome_iff_exists.mp (by simpa [fx] using here.symm)
      rw [List.filterMap_cons_some fx, List.filterMap_cons_some gx, List.forall₂_cons, rest]
      simp [fx, gx]

end Lists

section Plain
variable {s t : String} {ss : List String}

def Plain (s : String) : Prop := '\n' ∉ s.toList

instance (s : String) : Decidable (Plain s) := inferInstanceAs (Decidable ('\n' ∉ s.toList))

theorem plain_append : Plain (s ++ t) ↔ Plain s ∧ Plain t := by
  simp [Plain, String.toList_append]

theorem plain_digits (n : Nat) : Plain (toString n) := by
  intro mem
  rw [Nat.toString_eq_repr, Nat.toList_repr] at mem
  exact absurd (Decimal.isDigit_toDigits n _ mem) (by decide)

theorem plain_intercalate (plain : Plain s) (all : ∀ t ∈ ss, Plain t) : Plain (s.intercalate ss) := by
  induction ss with
  | nil => simp [Plain]
  | cons t ss ih =>
    obtain ⟨first, rest⟩ := List.forall_mem_cons.mp all
    by_cases last : ss = []
    · rw [last, String.intercalate_singleton]
      exact first
    · rw [String.intercalate_cons_of_ne_nil last, plain_append, plain_append]
      exact ⟨⟨first, plain⟩, ih rest⟩

theorem plain_wireTexts (qubits : List Nat) : Plain (wireTexts qubits) := by
  refine plain_intercalate (by decide) fun t mem => ?_
  obtain ⟨k, _, rfl⟩ := List.mem_map.mp mem
  exact plain_append.mpr ⟨plain_append.mpr ⟨by decide, plain_digits k⟩, by decide⟩

theorem plain_fenceText (qubits : List Nat) : Plain (fenceText qubits) := by
  unfold fenceText
  split
  · decide
  · exact plain_append.mpr ⟨plain_append.mpr ⟨by decide, plain_wireTexts qubits⟩, by decide⟩

theorem linesOf_intercalate (some : ss ≠ []) (plain : ∀ s ∈ ss, Plain s) :
    linesOf ("\n".intercalate ss) = ss := by
  have split := String.toList_split_intercalate plain
  rw [if_neg some] at split
  exact split

end Plain

section Circuits
variable {ops : List NativeOp} {allowed : Nat} {c : Circuit} {R : String → Float → Prop}

theorem widthOf_eq (ops : List NativeOp) : widthOf ops = (Circuit.touched ops).size := by
  have same : (ops.flatMap NativeOp.qubits).toFinset = (Circuit.touched ops).elems.toFinset := by
    ext q
    rw [List.mem_toFinset, List.mem_toFinset, Circuit.mem_touched, List.mem_flatMap]
  rw [widthOf, same, List.toFinset_card_of_nodup (Circuit.nodup_touched ops)]
  rfl

structure Fitting (ops : List NativeOp) : Prop where
  simulable : ∀ op ∈ ops, op.Simulable
  apart : ∀ op ∈ ops, op.Apart
  lone : ∀ op ∈ ops, op.code ∈ Gate.lone → op.qubits.length = 1

theorem Fitting.qubits_gate (fitting : Fitting ops) {op : NativeOp} (mem : op ∈ ops)
    {place : Qubit → Nat} {g : Gate} (made : Gate.ofOp op (op.qubits.map place) = .ok (some g)) :
    g.qubits = op.qubits.map place := by
  have part := Gate.sublist_ofOp made
  rcases length_ofOp made with ⟨code, one⟩ | ⟨code, two⟩
  · exact part.eq_of_length (by rw [one, List.length_map, fitting.lone op mem code])
  · exact part.eq_of_length (by rw [two, List.length_map, (fitting.apart op mem).two code])

theorem gates_listed (simulable : ∀ op ∈ ops, op.Simulable) (dense : Table Qubit Nat) :
    (ops.filterMap (Step.of? (Circuit.denseOf dense))).filterMap Step.gate? =
      (gatesOn ops).map (Gate.rename (Circuit.denseOf dense)) := by
  rw [gatesOn, List.filterMap_filterMap, List.map_filterMap]
  refine List.filterMap_congr fun op mem => ?_
  rcases told (simulable op mem) dense with ⟨_, gate, step, _⟩ | ⟨_, gate, step, _⟩ |
    ⟨g, _, gate, _, step⟩
  · rw [gate, step]
    rfl
  · rw [gate, step]
    rfl
  · rw [gate, step]
    rfl

theorem Fitting.line_iff (fitting : Fitting ops) {op : NativeOp} (mem : op ∈ ops) {width : Nat}
    {dense : Table Qubit Nat} (inside : ∀ q ∈ op.qubits, Circuit.denseOf dense q < width)
    (distinct : (op.qubits.map (Circuit.denseOf dense)).Nodup) :
    (∀ s, Step.of? (Circuit.denseOf dense) op = some s → ∀ l, opLine? dense op = some l →
      Line R width s l) ↔
    ∀ x k, Gate.ofOp op (op.qubits.map (Circuit.denseOf dense)) = .ok (some (.ry x k)) →
      R (angleText op) x := by
  have inside' : ∀ k ∈ op.qubits.map (Circuit.denseOf dense), k < width := by
    intro k at_k
    obtain ⟨q, at_q, rfl⟩ := List.mem_map.mp at_k
    exact inside q at_q
  rcases told (fitting.simulable op mem) dense with ⟨_, _, step, _⟩ | ⟨code, _, step, line⟩ |
    ⟨g, made, _, _, step⟩
  · refine iff_of_true (fun s same => ?_) fun x k made => ?_
    · rw [step] at same
      cases same
    · rw [Step.of?, made] at step
      cases step
  · refine iff_of_true (fun s same l same' => ?_) fun x k made => ?_
    · rw [step] at same
      rw [line] at same'
      cases same
      cases same'
      exact .fence _ distinct inside'
    · rw [Step.of?, made] at step
      cases step
  · have whole := fitting.qubits_gate mem made
    have line : opLine? dense op = some (headText (angleText op) g ++ " " ++ wireTexts g.qubits ++
        ";") := by
      rw [whole]
      exact opLine?_gate made
    constructor
    · intro told x k turn
      obtain rfl : g = .ry x k := by
        rw [made] at turn
        exact Option.some.inj (Except.ok.inj turn)
      have told := told _ step _ line
      generalize same : headText (angleText op) (.ry x k) ++ " " ++ wireTexts (Gate.ry x k).qubits ++
        ";" = l at told
      cases told with
      | gate _ angle spelled _ _ =>
        have same : angleText op = angle := by
          simpa [headText, String.append_assoc, ← String.toList_inj] using same
        exact same ▸ spelled x k rfl
    · intro spelled s same l same'
      rw [step] at same
      rw [line] at same'
      cases same
      cases same'
      exact .gate g (angleText op) (fun x k turn => spelled x k (turn ▸ made))
        (whole ▸ distinct) (whole ▸ inside')

theorem denseOf_lt {q : Qubit} (mem : q ∈ (Circuit.touched ops).elems) :
    Circuit.denseOf (Circuit.denseNumbers (Circuit.touched ops)) q < widthOf ops := by
  obtain ⟨k, less, found⟩ := Circuit.number_touched mem
  rw [Circuit.denseOf, found, widthOf_eq]
  exact less

theorem reads_eq {measured : List Qubit} (used : ∀ q ∈ measured, q ∈ (Circuit.touched ops).elems) :
    (measured.zipIdx.filterMap fun m =>
      measureLine? (Circuit.denseNumbers (Circuit.touched ops)) m.2 m.1) =
      measured.zipIdx.map fun m =>
        s!"measure q[{Circuit.denseOf (Circuit.denseNumbers (Circuit.touched ops)) m.1}] -> c[{m.2}];" := by
  rw [← List.filterMap_eq_map]
  refine List.filterMap_congr fun m mem => ?_
  obtain ⟨k, _, found⟩ := Circuit.number_touched (used m.1 (List.fst_mem_of_mem_zipIdx mem))
  rw [measureLine?, found]
  simp [Circuit.denseOf, found]

theorem plain_of_line {width : Nat} {step : Step} {line : String}
    (told : Line (fun text _ => Plain text) width step line) : Plain line := by
  cases told with
  | gate g angle spelled =>
    refine plain_append.mpr ⟨plain_append.mpr ⟨plain_append.mpr ⟨?_, by decide⟩,
      plain_wireTexts _⟩, by decide⟩
    cases g with
    | ry x k => exact plain_append.mpr ⟨plain_append.mpr ⟨by decide, spelled x k rfl⟩, by decide⟩
    | _ =>
      simp only [headText]
      decide
  | fence qubits => exact plain_fenceText qubits

theorem isSome_told (simulable : ∀ op ∈ ops, op.Simulable) (dense : Table Qubit Nat) :
    ∀ op ∈ ops, (Step.of? (Circuit.denseOf dense) op).isSome = (opLine? dense op).isSome := by
  intro op mem
  rcases told (simulable op mem) dense with ⟨_, _, step, line⟩ | ⟨_, _, step, line⟩ |
    ⟨g, made, _, _, step⟩
  · rw [step, line]
    rfl
  · rw [step, line]
    rfl
  · rw [step, opLine?_gate made]
    rfl

theorem Fitting.lines (fitting : Fitting ops) (made : Circuit.ofOps allowed ops = .ok c)
    (plain : ∀ op ∈ ops, ∀ x k,
      Gate.ofOp op (op.qubits.map (Circuit.denseOf c.dense)) = .ok (some (.ry x k)) →
        Plain (angleText op)) :
    linesOf (render ops c.dense c.measured) =
      ["OPENQASM 2.0;", "include \"qelib1.inc\";", s!"qreg q[{widthOf ops}];",
        s!"creg c[{c.measured.length}];"] ++ ops.filterMap (opLine? c.dense) ++
      c.measured.zipIdx.map fun m => s!"measure q[{Circuit.denseOf c.dense m.1}] -> c[{m.2}];" := by
  obtain ⟨_, _, _, _, rfl⟩ := Circuit.ofOps_eq_ok.mp made
  have laid := Circuit.laid_of_apart fitting.apart
  have reads := reads_eq (Circuit.readout_touched ops)
  have width : (Circuit.denseNumbers (Circuit.touched ops)).size = widthOf ops := by
    rw [Circuit.size_denseNumbers, widthOf_eq]
  dsimp only at plain ⊢
  rw [render, reads, header, width]
  refine linesOf_intercalate (by simp) fun line mem => ?_
  rcases List.mem_append.mp mem with mem | mem
  · rcases List.mem_append.mp mem with mem | mem
    · simp only [List.mem_cons, List.not_mem_nil, or_false] at mem
      rcases mem with rfl | rfl | rfl | rfl
      · decide
      · decide
      · exact plain_append.mpr ⟨plain_append.mpr ⟨by decide, plain_digits _⟩, by decide⟩
      · exact plain_append.mpr ⟨plain_append.mpr ⟨by decide, plain_digits _⟩, by decide⟩
    · obtain ⟨op, among, line_eq⟩ := List.mem_filterMap.mp mem
      obtain ⟨step, step_eq⟩ := Option.isSome_iff_exists.mp
        ((isSome_told fitting.simulable _ op among).trans (by rw [line_eq]; rfl))
      exact plain_of_line ((fitting.line_iff among
        (fun q at_q => denseOf_lt ((Circuit.mem_touched ops q).mpr ⟨op, among, at_q⟩))
        (laid.nodup op among)).mpr (plain op among) step step_eq line line_eq)
  · obtain ⟨m, _, rfl⟩ := List.mem_map.mp mem
    exact plain_append.mpr ⟨plain_append.mpr ⟨plain_append.mpr ⟨plain_append.mpr
      ⟨by decide, plain_digits _⟩, by decide⟩, plain_digits _⟩, by decide⟩

theorem Fitting.records_iff (fitting : Fitting ops) (made : Circuit.ofOps allowed ops = .ok c)
    (plain : ∀ op ∈ ops, ∀ x k,
      Gate.ofOp op (op.qubits.map (Circuit.denseOf c.dense)) = .ok (some (.ry x k)) →
        Plain (angleText op)) :
    Records R ops c (render ops c.dense c.measured) ↔ ∀ op ∈ ops, ∀ x k,
      Gate.ofOp op (op.qubits.map (Circuit.denseOf c.dense)) = .ok (some (.ry x k)) →
        R (angleText op) x := by
  have lines := fitting.lines made plain
  obtain ⟨_, _, _, _, rfl⟩ := Circuit.ofOps_eq_ok.mp made
  have laid := Circuit.laid_of_apart fitting.apart
  dsimp only at lines plain ⊢
  have used : ∀ op ∈ ops, ∀ q ∈ op.qubits, q ∈ (Circuit.touched ops).elems :=
    fun op mem q at_q => (Circuit.mem_touched ops q).mpr ⟨op, mem, at_q⟩
  have told_iff : List.Forall₂ (Line R (widthOf ops))
      (ops.filterMap (Step.of? (Circuit.denseOf (Circuit.denseNumbers (Circuit.touched ops)))))
      (ops.filterMap (opLine? (Circuit.denseNumbers (Circuit.touched ops)))) ↔
      ∀ op ∈ ops, ∀ x k, Gate.ofOp op (op.qubits.map
        (Circuit.denseOf (Circuit.denseNumbers (Circuit.touched ops)))) = .ok (some (.ry x k)) →
        R (angleText op) x := by
    rw [forall₂_filterMap (isSome_told fitting.simulable _)]
    exact forall₂_congr fun op mem => fitting.line_iff mem
      (fun q at_q => denseOf_lt (used op mem q at_q)) (laid.nodup op mem)
  rw [← told_iff]
  constructor
  · intro records
    obtain ⟨body, told, split⟩ := records.lines
    rw [lines] at split
    have same := List.append_cancel_left (List.append_cancel_right split)
    rw [same]
    exact told
  · intro told
    refine ⟨fun op mem p at_p op' mem' q at_q =>
        Circuit.denseOf_injOn (used op mem p at_p) (used op' mem' q at_q),
      fun op mem q at_q => denseOf_lt (used op mem q at_q), fun op mem => ?_,
      gates_listed fitting.simulable _, rfl, _, told, lines⟩
    rcases Qasm.told (fitting.simulable op mem) (Circuit.denseNumbers (Circuit.touched ops)) with
      ⟨code, _, step, _⟩ | ⟨code, _, step, _⟩ | ⟨g, _, _, code, step⟩
    · rw [step, code]
      rfl
    · rw [step, code]
      rfl
    · rw [step]
      exact (bne_iff_ne.mpr code).symm

end Circuits

end Qasm
end LazyCast
