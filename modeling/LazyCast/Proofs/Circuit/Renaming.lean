import LazyCast.Proofs.Circuit.Instructions
import LazyCast.Simulator
import Mathlib.Order.Monotone.Basic
/-!
Qubits by other numbers. A circuit numbers its qubits anew, in their order, and only reads its own
numbers from then on. So a program whose qubits are renamed in order runs as the program does: it
fails alike, or draws the same counts for the renamed qubits.
-/
namespace LazyCast
variable {f : Qubit → Qubit}

namespace Operand
variable (o : Operand)

def rename (f : Qubit → Qubit) : Operand → Operand
  | qubit q => qubit (f q)
  | o => o

@[simp] theorem reg?_rename : (o.rename f).reg? = o.reg? := by cases o <;> rfl

@[simp] theorem literal?_rename : (o.rename f).literal? = o.literal? := by cases o <;> rfl

theorem rename_of_not_qubit {o : Operand} (none : o.qubit? = none) : o.rename f = o := by
  cases o with
  | qubit q => cases none
  | _ => rfl

end Operand

@[simp] theorem qubitsOf_rename (operands : List Operand) :
    qubitsOf (operands.map (Operand.rename f)) = (qubitsOf operands).map f := by
  unfold qubitsOf
  rw [List.filterMap_map, ← List.filterMap_eq_map, List.filterMap_filterMap]
  congr 1
  funext o
  cases o <;> rfl

namespace NativeOp

def rename (f : Qubit → Qubit) (op : NativeOp) : NativeOp :=
  { op with args := op.args.map (Operand.rename f), guard := op.guard.map (Operand.rename f) }

@[simp] theorem qubits_rename (op : NativeOp) : (op.rename f).qubits = op.qubits.map f :=
  qubitsOf_rename op.args

end NativeOp

def Program.rename (f : Qubit → Qubit) (p : Program) : Program :=
  { p with ops := p.ops.map (NativeOp.rename f) }

def MeasuredSample.rename (f : Qubit → Qubit) (m : MeasuredSample) : MeasuredSample :=
  { m with qubits := m.qubits.map f }

section Sets
variable {S : Set Nat}

theorem OrderedSet.insertElem_map (rising : StrictMonoOn f S) {x : Nat} (member : x ∈ S)
    {ys : List Nat} (inside : ∀ y ∈ ys, y ∈ S) :
    insertElem (f x) (ys.map f) = (insertElem x ys).map f := by
  induction ys with
  | nil => rfl
  | cons y ys ih =>
    obtain ⟨here, inside⟩ := List.forall_mem_cons.mp inside
    have same : f x = f y ↔ x = y := rising.injOn.eq_iff member here
    have less : f x < f y ↔ x < y := rising.lt_iff_lt member here
    rw [List.map_cons, insertElem, insertElem, ih inside]
    simp only [same, Key.before, less]
    split
    · rfl
    · split <;> rfl

theorem OrderedSet.ofList_map (rising : StrictMonoOn f S) {xs : List Nat}
    (inside : ∀ x ∈ xs, x ∈ S) : ofList (xs.map f) = ⟨(ofList xs).elems.map f⟩ := by
  have from_start : ∀ (xs : List Nat) (s : OrderedSet Nat), (∀ x ∈ xs, x ∈ S) →
      (∀ y ∈ s.elems, y ∈ S) →
        (xs.map f).foldl insert ⟨s.elems.map f⟩ = ⟨(xs.foldl insert s).elems.map f⟩ := by
    intro xs
    induction xs with
    | nil => exact fun _ _ _ => rfl
    | cons x xs ih =>
      intro s inside held
      obtain ⟨here, inside⟩ := List.forall_mem_cons.mp inside
      have next : insert ⟨s.elems.map f⟩ (f x) = ⟨(s.insert x).elems.map f⟩ :=
        congrArg OrderedSet.mk (insertElem_map rising here held)
      rw [List.map_cons, List.foldl_cons, List.foldl_cons, next]
      apply ih _ inside
      intro y mem
      rcases (mem_insertElem x y s.elems).mp mem with rfl | old
      · exact here
      · exact held y old
  exact from_start xs .empty inside (fun y none => by cases none)

end Sets

theorem Table.find?_renamed {α : Type} {entries : List (Nat × α)} {q : Nat}
    (apart : ∀ e ∈ entries, f e.1 = f q → e.1 = q) :
    (Table.mk (entries.map fun e => (f e.1, e.2))).find? (f q) = (Table.mk entries).find? q := by
  change findEntry (f q) (entries.map fun e => (f e.1, e.2)) = findEntry q entries
  induction entries with
  | nil => rfl
  | cons e entries ih =>
    obtain ⟨here, later⟩ := List.forall_mem_cons.mp apart
    obtain ⟨l, a⟩ := e
    have same : f l = f q ↔ l = q := ⟨here, congrArg f⟩
    rw [List.map_cons, findEntry, findEntry, ih later]
    simp only [same]

namespace Gate

theorem angleOf?_rename (op : NativeOp) : angleOf? (op.rename f) = angleOf? op := by
  unfold angleOf? NativeOp.rename
  cases op.args with
  | nil => rfl
  | cons o rest => exact congrArg (fun v => Option.bind v Value.toFloat?) o.literal?_rename

theorem ofOp_rename (op : NativeOp) (qs : List Nat) : ofOp (op.rename f) qs = ofOp op qs := by
  have code : (op.rename f).code = op.code := rfl
  unfold ofOp
  rw [code, angleOf?_rename]

end Gate

namespace Circuit
variable {c : Circuit} {ops : List NativeOp} {allowed : Nat}

/-- The circuit of renamed qubits: it keeps their dense numbers. -/
def rename (f : Qubit → Qubit) (c : Circuit) : Circuit :=
  ⟨⟨c.dense.entries.map fun e => (f e.1, e.2)⟩, c.measured.map f, c.gates⟩

@[simp] theorem isBound_rename (op : NativeOp) : isBound (op.rename f) = isBound op := by
  simp [isBound, NativeOp.rename, List.all_map, Function.comp_def]

theorem qubits_rename (ops : List NativeOp) :
    (ops.map (NativeOp.rename f)).flatMap NativeOp.qubits =
      (ops.flatMap NativeOp.qubits).map f := by
  simp [List.flatMap_map, List.map_flatMap]

theorem distinct_map {S : Set Nat} (injective : Set.InjOn f S) {qs : List Qubit}
    (inside : ∀ q ∈ qs, q ∈ S) : distinct (qs.map f) = (distinct qs).map f := by
  have from_start : ∀ (qs seen : List Qubit), (∀ q ∈ qs, q ∈ S) → (∀ q ∈ seen, q ∈ S) →
      (qs.map f).foldl (fun seen q => if q ∈ seen then seen else seen ++ [q]) (seen.map f) =
        (qs.foldl (fun seen q => if q ∈ seen then seen else seen ++ [q]) seen).map f := by
    intro qs
    induction qs with
    | nil => exact fun _ _ _ => rfl
    | cons q qs ih =>
      intro seen inside held
      obtain ⟨here, inside⟩ := List.forall_mem_cons.mp inside
      have known : f q ∈ seen.map f ↔ q ∈ seen := by
        constructor
        · intro mem
          obtain ⟨p, old, same⟩ := List.mem_map.mp mem
          exact injective (held p old) here same ▸ old
        · exact List.mem_map_of_mem
      have next : (if f q ∈ seen.map f then seen.map f else seen.map f ++ [f q]) =
          (if q ∈ seen then seen else seen ++ [q]).map f := by
        simp only [known]
        split <;> simp
      rw [List.map_cons, List.foldl_cons, List.foldl_cons, next]
      apply ih _ inside
      intro p mem
      split at mem
      · exact held p mem
      · rcases List.mem_append.mp mem with old | new
        · exact held p old
        · rw [List.mem_singleton.mp new]
          exact here
  exact from_start qs [] inside (fun q none => by cases none)

def used (ops : List NativeOp) : Set Qubit := {q | ∃ op ∈ ops, q ∈ op.qubits}

section Renamed
variable (rising : StrictMonoOn f (used ops))
include rising

theorem touched_rename :
    touched (ops.map (NativeOp.rename f)) = ⟨(touched ops).elems.map f⟩ := by
  unfold touched
  rw [qubits_rename]
  apply OrderedSet.ofList_map rising
  intro q mem
  obtain ⟨op, among, at_q⟩ := List.mem_flatMap.mp mem
  exact ⟨op, among, at_q⟩

theorem measuredBy_rename :
    measuredBy (ops.map (NativeOp.rename f)) = (measuredBy ops).map f := by
  have codes : (ops.map (NativeOp.rename f)).filter (fun op => op.code == "measure") =
      (ops.filter fun op => op.code == "measure").map (NativeOp.rename f) := by
    rw [List.filter_map]
    rfl
  unfold measuredBy
  rw [codes, qubits_rename]
  apply distinct_map rising.injOn
  intro q mem
  obtain ⟨op, among, at_q⟩ := List.mem_flatMap.mp mem
  exact ⟨op, (List.mem_filter.mp among).1, at_q⟩

theorem readout_rename : readout (ops.map (NativeOp.rename f)) = (readout ops).map f := by
  unfold readout
  rw [touched_rename rising, measuredBy_rename rising, List.isEmpty_map]
  split <;> rfl

omit rising in
theorem denseNumbers_map (qs : List Qubit) :
    denseNumbers ⟨qs.map f⟩ =
      ⟨(denseNumbers ⟨qs⟩).entries.map fun e => (f e.1, e.2)⟩ := by
  unfold denseNumbers
  rw [List.zipIdx_map]
  rfl

theorem find?_rename {op : NativeOp} (mem : op ∈ ops) {q : Qubit} (at_q : q ∈ op.qubits) :
    (denseNumbers (touched (ops.map (NativeOp.rename f)))).find? (f q) =
      (denseNumbers (touched ops)).find? q := by
  rw [touched_rename rising, denseNumbers_map]
  apply Table.find?_renamed
  intro e among same
  have inside : e.1 ∈ (touched ops).elems := List.fst_mem_of_mem_zipIdx among
  exact rising.injOn ((mem_touched ops e.1).mp inside) ⟨op, mem, at_q⟩ same

theorem gatesOf_rename : gatesOf (denseNumbers (touched (ops.map (NativeOp.rename f))))
    (ops.map (NativeOp.rename f)) = gatesOf (denseNumbers (touched ops)) ops := by
  have each : ∀ op ∈ ops, Gate.ofOp (op.rename f)
      ((op.rename f).qubits.map (denseOf (denseNumbers (touched (ops.map (NativeOp.rename f)))))) =
        Gate.ofOp op (op.qubits.map (denseOf (denseNumbers (touched ops)))) := by
    intro op mem
    rw [Gate.ofOp_rename, NativeOp.qubits_rename, List.map_map]
    congr 1
    apply List.map_congr_left
    intro q at_q
    exact congrArg (fun n => Option.getD n 0) (find?_rename rising mem at_q)
  unfold gatesOf
  rw [List.mapM_map]
  congr 1
  generalize denseNumbers (touched (ops.map (NativeOp.rename f))) = dense at each ⊢
  generalize denseNumbers (touched ops) = dense' at each ⊢
  clear rising
  induction ops with
  | nil => rfl
  | cons op ops ih =>
    obtain ⟨here, each⟩ := List.forall_mem_cons.mp each
    rw [List.mapM_cons, List.mapM_cons, ih each]
    exact congrArg (fun g => g >>= _) here

theorem ofOps_rename : ofOps allowed (ops.map (NativeOp.rename f)) =
    (ofOps allowed ops).map (rename f) := by
  have bound : (ops.map (NativeOp.rename f)).all isBound = ops.all isBound := by
    rw [List.all_map]
    exact congrArg (fun g => ops.all g) (funext isBound_rename)
  have size : (touched (ops.map (NativeOp.rename f))).size = (touched ops).size := by
    rw [touched_rename rising]
    exact List.length_map f
  have dense : denseNumbers (touched (ops.map (NativeOp.rename f))) =
      ⟨(denseNumbers (touched ops)).entries.map fun e => (f e.1, e.2)⟩ := by
    rw [touched_rename rising, denseNumbers_map]
  rw [ofOps_eq, ofOps_eq, bound, size, gatesOf_rename rising, readout_rename rising, dense]
  simp only [List.map_eq_nil_iff]
  split
  · split
    · rfl
    · split
      · rfl
      · cases gatesOf (denseNumbers (touched ops)) ops <;> rfl
  · rfl

end Renamed
end Circuit

namespace Qasm
variable {ops : List NativeOp} {dense dense' : Table Qubit Nat}

theorem opLine?_rename {op : NativeOp} (simulable : op.Simulable)
    (same : ∀ q ∈ op.qubits, dense'.find? (f q) = dense.find? q) :
    opLine? dense' (op.rename f) = opLine? dense op := by
  have texts : (op.rename f).qubits.map (qubitText dense') = op.qubits.map (qubitText dense) := by
    rw [NativeOp.qubits_rename, List.map_map]
    apply List.map_congr_left
    intro q mem
    exact congrArg (fun n => "q[" ++ toString (Option.getD n 0) ++ "]") (same q mem)
  -- The angle of a turn that can be simulated is a number, which has no other name.
  have angle : op.code = "ry" → op.args.head?.map (Operand.rename f) = op.args.head? := by
    intro turns
    obtain ⟨g, made⟩ := simulable
    cases args : op.args with
    | nil => rfl
    | cons o rest =>
      cases o with
      | qubit q =>
        have none : Gate.angleOf? op = none := by
          unfold Gate.angleOf?
          rw [args]
          rfl
        unfold Gate.ofOp at made
        cases qubits : op.qubits with
        | nil => simp [turns, qubits] at made
        | cons k ks => simp [turns, qubits, none] at made
      | _ => rfl
  have code : (op.rename f).code = op.code := rfl
  unfold opLine?
  rw [texts, code]
  dsimp only
  split
  · rfl
  · rename_i turns
    have head := angle turns
    cases args : op.args with
    | nil =>
      simp only [NativeOp.rename, args, List.map_nil]
    | cons o rest =>
      rw [args] at head
      simp only [NativeOp.rename, args, List.map_cons]
      rw [Option.some.inj head]
  · rfl
  · rfl

theorem render_rename (simulable : ∀ op ∈ ops, op.Simulable)
    (rising : StrictMonoOn f (Circuit.used ops)) :
    render (ops.map (NativeOp.rename f))
        (Circuit.denseNumbers (Circuit.touched (ops.map (NativeOp.rename f))))
        (Circuit.readout (ops.map (NativeOp.rename f))) =
      render ops (Circuit.denseNumbers (Circuit.touched ops)) (Circuit.readout ops) := by
  have same : ∀ op ∈ ops, ∀ q ∈ op.qubits,
      (Circuit.denseNumbers (Circuit.touched (ops.map (NativeOp.rename f)))).find? (f q) =
        (Circuit.denseNumbers (Circuit.touched ops)).find? q :=
    fun op mem q at_q => Circuit.find?_rename rising mem at_q
  have lines : (ops.map (NativeOp.rename f)).filterMap
      (opLine? (Circuit.denseNumbers (Circuit.touched (ops.map (NativeOp.rename f))))) =
        ops.filterMap (opLine? (Circuit.denseNumbers (Circuit.touched ops))) := by
    rw [List.filterMap_map]
    apply List.filterMap_congr
    intro op mem
    exact opLine?_rename (simulable op mem) (same op mem)
  have measures : ((Circuit.readout ops).map f).zipIdx.filterMap (fun m => measureLine?
      (Circuit.denseNumbers (Circuit.touched (ops.map (NativeOp.rename f)))) m.2 m.1) =
        (Circuit.readout ops).zipIdx.filterMap fun m =>
          measureLine? (Circuit.denseNumbers (Circuit.touched ops)) m.2 m.1 := by
    rw [List.zipIdx_map, List.filterMap_map]
    apply List.filterMap_congr
    intro m mem
    have read : m.1 ∈ Circuit.readout ops := List.fst_mem_of_mem_zipIdx mem
    obtain ⟨op, among, at_q⟩ :=
      (Circuit.mem_touched ops m.1).mp (Circuit.readout_touched ops m.1 read)
    exact congrArg (Option.map _) (same op among m.1 at_q)
  have size : (Circuit.denseNumbers (Circuit.touched (ops.map (NativeOp.rename f)))).size =
      (Circuit.denseNumbers (Circuit.touched ops)).size := by
    rw [Circuit.touched_rename rising, Circuit.denseNumbers_map]
    exact List.length_map _
  unfold render header
  rw [lines, Circuit.readout_rename rising, measures, size, List.length_map]

end Qasm

namespace Simulator
variable {ops : List NativeOp} {c : Circuit}

theorem sample_rename (s : Simulator) (run : Nat) (rising : StrictMonoOn f (Circuit.used ops))
    (made : Circuit.ofOps s.maxQubits ops = .ok c) :
    s.sample run (ops.map (NativeOp.rename f)) (c.rename f) = (s.sample run ops c).rename f := by
  have made' : Circuit.ofOps s.maxQubits (ops.map (NativeOp.rename f)) = .ok (c.rename f) := by
    rw [Circuit.ofOps_rename rising, made]
    rfl
  obtain ⟨_, _, _, simulable, here⟩ := Circuit.ofOps_eq_ok.mp made
  obtain ⟨_, _, _, _, there⟩ := Circuit.ofOps_eq_ok.mp made'
  have text : Qasm.render (ops.map (NativeOp.rename f)) (c.rename f).dense (c.rename f).measured =
      Qasm.render ops c.dense c.measured := by
    rw [there, here]
    exact Qasm.render_rename simulable rising
  have amplitudes : (c.rename f).amplitudes floatTrigonometry = c.amplitudes floatTrigonometry := by
    have size : (c.rename f).dense.size = c.dense.size := List.length_map _
    unfold Circuit.amplitudes
    rw [size]
    rfl
  have outcome : (c.rename f).outcome = c.outcome := by
    funext basis
    unfold Circuit.outcome
    congr 1
    change ((c.measured.map f).reverse.map _) = _
    rw [← List.map_reverse, List.map_map]
    apply List.map_congr_left
    intro q mem
    have read : q ∈ Circuit.readout ops := by
      rw [here] at mem
      exact List.mem_reverse.mp mem
    obtain ⟨op, among, at_q⟩ := (Circuit.mem_touched ops q).mp (Circuit.readout_touched ops q read)
    have found : (c.rename f).dense.find? (f q) = c.dense.find? q := by
      rw [there, here]
      exact Circuit.find?_rename rising among at_q
    have same : Circuit.denseOf (c.rename f).dense (f q) = Circuit.denseOf c.dense q :=
      congrArg (fun n => Option.getD n 0) found
    exact congrArg (fun k => if basis.testBit k then '1' else '0') same
  unfold sample Circuit.tally
  rw [text, amplitudes, outcome]
  rfl

theorem execute_rename (s : Simulator) (run : Nat) (p : Program)
    (rising : StrictMonoOn f (Circuit.used p.ops)) :
    s.execute run (p.rename f) = (s.execute run p).map (MeasuredSample.rename f) := by
  unfold execute Program.rename
  dsimp only
  rw [Circuit.ofOps_rename rising]
  cases made : Circuit.ofOps s.maxQubits p.ops with
  | error e => rfl
  | ok c => exact congrArg Except.ok (sample_rename s run rising made)

end Simulator
end LazyCast
