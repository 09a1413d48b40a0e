import LazyCast.Proofs.Circuit.Dense
import LazyCast.Proofs.Circuit.Distribution
import LazyCast.Proofs.Text.Ascii
import LazyCast.Reading
/-!
Reading one outcome. The label of a basis state on some qubits, cut down to some of them, is its
label on these, and the number it writes has their bits, the first of them the least significant.
-/
namespace LazyCast
open Circuit (label)

def digit (b : Bool) : Char := if b then '1' else '0'

theorem ascii_digits (bits : List Bool) : Ascii (String.ofList (bits.map digit)) := by
  have small : ∀ b, (digit b).toNat < 128 := by decide
  intro c mem
  rw [String.toList_ofList] at mem
  obtain ⟨b, _, rfl⟩ := List.mem_map.mp mem
  exact small b

theorem utf8ByteSize_digits (bits : List Bool) :
    (String.ofList (bits.map digit)).utf8ByteSize = bits.length := by
  rw [(ascii_digits bits).utf8ByteSize, String.length_ofList, List.length_map]

section Labels
variable {qubits targets : List Qubit} {s : Nat}

theorem label_eq (qubits : List Qubit) (s : Nat) :
    label qubits s = String.ofList ((qubits.reverse.map s.testBit).map digit) := by
  rw [label, List.map_map]
  rfl

theorem utf8ByteSize_label (qubits : List Qubit) (s : Nat) :
    (label qubits s).utf8ByteSize = qubits.length := by
  rw [label_eq, utf8ByteSize_digits, List.length_map, List.length_reverse]

theorem binaryValue?_append (acc : Nat) (xs ys : List Bool) :
    binaryValue? acc ((xs ++ ys).map digit) =
      (binaryValue? acc (xs.map digit)).bind fun acc => binaryValue? acc (ys.map digit) := by
  induction xs generalizing acc with
  | nil => rfl
  | cons b rest ih => cases b <;> exact ih _

theorem binaryValue?_bits (qubits : List Qubit) (s : Nat) :
    binaryValue? 0 ((qubits.reverse.map s.testBit).map digit) = some (gather qubits s) := by
  induction qubits with
  | nil => rfl
  | cons q rest ih =>
    rw [List.reverse_cons, List.map_append, binaryValue?_append, ih]
    cases set : s.testBit q <;> simp [digit, binaryValue?, gather, set, Nat.add_comm]

theorem outcomeValue?_label (some : qubits ≠ []) (few : qubits.length ≤ 64) :
    outcomeValue? (label qubits s) = .some (gather qubits s) := by
  have long : ¬ (qubits.length = 0 ∨ 64 < qubits.length) := by
    rintro (none | many)
    · exact some (List.length_eq_zero_iff.mp none)
    · omega
  have value := binaryValue?_bits qubits s
  rw [outcomeValue?, utf8ByteSize_label, if_neg long, label_eq, String.toList_ofList]
  cases bits : qubits.reverse.map s.testBit with
  | nil => exact absurd (by simpa using bits) some
  | cons b rest =>
    rw [bits] at value
    cases b <;> exact value

theorem positions?_eq (inside : ∀ q ∈ targets, q ∈ qubits) :
    MeasuredSample.positions? qubits targets = some (targets.map qubits.idxOf) := by
  have found : ∀ q ∈ qubits,
      (qubits.findIdx? fun r => decide (r = q)) = some (qubits.idxOf q) := by
    intro q mem
    rw [List.findIdx?_eq_some_iff_findIdx_eq]
    have same : (fun r => decide (r = q)) = fun r => r == q := by
      funext r
      rfl
    rw [same]
    exact ⟨List.idxOf_lt_length_of_mem mem, rfl⟩
  unfold MeasuredSample.positions?
  induction targets with
  | nil => rfl
  | cons q rest ih =>
    rw [List.mapM_cons, found q (inside q List.mem_cons_self),
      ih fun r mem => inside r (List.mem_cons_of_mem q mem)]
    rfl

theorem MeasuredSample.isSome_positions? :
    (MeasuredSample.positions? qubits targets).isSome = true ↔ ∀ q ∈ targets, q ∈ qubits := by
  have found : ∀ q, (qubits.findIdx? fun r => decide (r = q)).isSome = true ↔ q ∈ qubits := by
    intro q
    rw [List.findIdx?_isSome]
    simp
  unfold MeasuredSample.positions?
  induction targets with
  | nil => simp
  | cons q rest ih =>
    rw [List.mapM_cons, List.forall_mem_cons]
    refine Iff.trans ?_ (and_congr (found q) ih)
    cases qubits.findIdx? fun r => decide (r = q) with
    | none => simp
    | some p => cases rest.mapM fun t => qubits.findIdx? fun r => decide (r = t) <;> simp

theorem pick_ascii {o : String} (ascii : Ascii o) (places : List Nat) :
    MeasuredSample.pick places o =
      String.ofList (places.reverse.map fun i => o.toList.reverse[i]?.getD (Char.ofNat 0)) := by
  unfold MeasuredSample.pick
  dsimp only
  rw [ascii.toUTF8, ← List.map_reverse]
  congr 1
  refine List.map_congr_left fun i _ => ?_
  rw [List.getElem?_map]
  cases found : o.toList.reverse[i]? with
  | none => rfl
  | some c => exact Ascii.ofNat_toUInt8 (ascii c (List.mem_reverse.mp (List.mem_of_getElem? found)))

theorem pick_label (inside : ∀ q ∈ targets, q ∈ qubits) :
    MeasuredSample.pick (targets.map qubits.idxOf) (label qubits s) = label targets s := by
  have ascii : Ascii (label qubits s) := label_eq qubits s ▸ ascii_digits _
  have shown : (label qubits s).toList.reverse = qubits.map fun q => digit (s.testBit q) := by
    rw [label_eq, String.toList_ofList, List.map_map, ← List.map_reverse, List.reverse_reverse]
    rfl
  rw [pick_ascii ascii, shown, label_eq, ← List.map_reverse, List.map_map, List.map_map]
  congr 1
  refine List.map_congr_left fun q mem => ?_
  have here := inside q (List.mem_reverse.mp mem)
  have found : qubits[qubits.idxOf q]? = some q := by
    rw [List.getElem?_eq_getElem (List.idxOf_lt_length_of_mem here), List.getElem_idxOf]
  simp only [Function.comp_apply, List.getElem?_map, found, Option.map_some, Option.getD_some]

theorem MeasuredSample.project_label {m : MeasuredSample} {count : Nat}
    (counts : m.counts = ⟨[(label m.qubits s, count)]⟩) (inside : ∀ q ∈ targets, q ∈ m.qubits) :
    m.project targets =
      some { m with counts := ⟨[(label targets s, count)]⟩, qubits := targets } := by
  rw [project, positions?_eq inside, counts]
  simp [utf8ByteSize_label, pick_label inside, Counts.ofPairs, Counts.add, Table.update,
    Table.updateEntry, Table.empty]

theorem wellFormedOutcome_label (qubits : List Qubit) (s : Nat) :
    Interpreter.wellFormedOutcome (label qubits s) qubits.length = true := by
  rw [Interpreter.wellFormedOutcome, utf8ByteSize_label, label_eq, String.toList_ofList]
  have digits : ∀ b, (digit b == '0' || digit b == '1') = true := by decide
  simp [digits]

def MeasuredSample.Formed (m : MeasuredSample) : Prop :=
  ∀ e ∈ m.counts.entries, Interpreter.wellFormedOutcome e.1 m.qubits.length = true

theorem Interpreter.flaw?_eq_none {m : MeasuredSample} (formed : m.Formed)
    (drawn : m.counts.total ≠ 0) (some : m.qubits ≠ []) (few : m.qubits.length ≤ 64) :
    flaw? m = none := by
  have width : ¬ (m.qubits.length = 0 ∨ 64 < m.qubits.length) := by
    rintro (none | many)
    · exact some (List.length_eq_zero_iff.mp none)
    · omega
  have whole : (m.counts.keys.find? fun o => !wellFormedOutcome o m.qubits.length) = none := by
    refine List.find?_eq_none.mpr fun o mem => ?_
    obtain ⟨e, among, rfl⟩ := List.mem_map.mp mem
    simp [formed e among]
  rw [flaw?, if_neg drawn, if_neg width, whole]
  rfl

theorem Interpreter.interpret_label {i : Interpreter} {target : TypeName} {m : MeasuredSample}
    {count : Nat} (policy : i.find? target = some .majorityVote)
    (counts : m.counts = ⟨[(label m.qubits s, count)]⟩) (drawn : count ≠ 0)
    (some : m.qubits ≠ []) (few : m.qubits.length ≤ 64) :
    i.interpret (.measured m) target =
      .ok (.bits (UInt64.ofNat (gather m.qubits s)) m.qubits.length) := by
  have formed : m.Formed := by
    intro e mem
    rw [counts] at mem
    rw [List.mem_singleton.mp mem]
    exact wellFormedOutcome_label m.qubits s
  have total : m.counts.total ≠ 0 := by
    rw [counts]
    simpa [Counts.total, Table.values, sumOf] using drawn
  have most : m.counts.mostFrequent? = .some (label m.qubits s, count) := by
    rw [counts]
    rfl
  unfold interpret read
  rw [policy]
  simp only [flaw?_eq_none formed total some few, readMeasured, most, bitsOf,
    outcomeValue?_label some few]
  rfl

end Labels
end LazyCast
