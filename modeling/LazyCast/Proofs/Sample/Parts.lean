import LazyCast.Proofs.Circuit.Readout
import LazyCast.Proofs.Sample.Tallies
/-!
A sample on some of its qubits. An outcome of 0s and 1s is the label of a basis state on its places,
so its digits at some of the places are the label of the same state on these, and the numbers that
they write are slices of one another. The chart of a part of a sample is a tally of such numbers.
-/
namespace LazyCast
open Circuit (label)
open Interpreter (wellFormedOutcome)
open MeasuredSample (pick)

theorem testBit_gather_any (qs : List Qubit) (s j : Nat) :
    (gather qs s).testBit j = (qs[j]?).any s.testBit := by
  by_cases inside : j < qs.length
  · rw [testBit_gather qs inside, List.getElem?_eq_getElem inside]
    rfl
  · have beyond : gather qs s < 2 ^ j :=
      (gather_lt qs s).trans_le (Nat.pow_le_pow_right (by decide) (Nat.le_of_not_lt inside))
    rw [Nat.testBit_lt_two_pow beyond, List.getElem?_eq_none (Nat.le_of_not_lt inside)]
    rfl

theorem gather_slice (qs : List Qubit) (offset width s : Nat) :
    gather ((qs.drop offset).take width) s = (gather qs s >>> offset) % 2 ^ width := by
  refine Nat.eq_of_testBit_eq fun j => ?_
  rw [testBit_gather_any, Nat.testBit_mod_two_pow, Nat.testBit_shiftRight, testBit_gather_any,
    List.getElem?_take]
  by_cases within : j < width
  · rw [if_pos within, List.getElem?_drop, decide_eq_true within, Bool.true_and]
  · rw [if_neg within, decide_eq_false within, Bool.false_and]
    rfl

section Outcomes
variable {o : String} {n : Nat} {places : List Nat}

theorem exists_label (formed : wellFormedOutcome o n = true) : ∃ s, o = label (List.range n) s := by
  obtain ⟨size, digits⟩ := (Bool.and_eq_true _ _).mp formed
  let bits := o.toList.map fun c => c == '1'
  have written : o = String.ofList (bits.map digit) := by
    have kept : bits.map digit = o.toList := by
      rw [List.map_map]
      refine (List.map_congr_left fun c mem => ?_).trans (List.map_id _)
      have either := List.all_eq_true.mp digits c mem
      rcases (Bool.or_eq_true _ _).mp either with zero | one
      · rw [eq_of_beq zero]
        rfl
      · rw [eq_of_beq one]
        rfl
    rw [kept, String.ofList_toList]
  have long : bits.length = n := by
    rw [← utf8ByteSize_digits, ← written]
    exact of_decide_eq_true size
  refine ⟨Nat.ofBits fun i : Fin n => bits.reverse.get ⟨i, by simp [long]⟩, ?_⟩
  rw [label_eq, written]
  congr 2
  rw [List.map_reverse]
  refine List.reverse_eq_iff.mp (List.ext_getElem (by simp [long]) fun i _ inside => ?_)
  rw [List.length_map, List.length_range] at inside
  rw [List.getElem_map, List.getElem_range, Nat.testBit_ofBits_lt _ _ inside]
  rfl

theorem map_idxOf_range (inside : ∀ i ∈ places, i < n) :
    places.map (List.range n).idxOf = places := by
  refine (List.map_congr_left fun i mem => ?_).trans (List.map_id _)
  have place := List.nodup_range.idxOf_getElem i (by simpa using inside i mem)
  rwa [List.getElem_range] at place

/-- One basis state accounts for what an outcome shows at any of its places. -/
theorem exists_pick (formed : wellFormedOutcome o n = true) :
    ∃ s, ∀ places : List Nat, (∀ i ∈ places, i < n) → pick places o = label places s := by
  obtain ⟨s, rfl⟩ := exists_label formed
  refine ⟨s, fun places inside => ?_⟩
  have picked : pick (places.map (List.range n).idxOf) (label (List.range n) s) = label places s :=
    pick_label fun i mem => List.mem_range.mpr (inside i mem)
  rwa [map_idxOf_range inside] at picked

def numberAt (places : List Nat) (o : String) : Nat := (outcomeValue? (pick places o)).getD 0

theorem outcomeValue?_pick (formed : wellFormedOutcome o n = true)
    (inside : ∀ i ∈ places, i < n) (some : places ≠ []) (few : places.length ≤ 64) :
    outcomeValue? (pick places o) = .some (numberAt places o) := by
  obtain ⟨s, shown⟩ := exists_pick formed
  rw [numberAt, shown places inside, outcomeValue?_label some few]
  rfl

theorem numberAt_lt (formed : wellFormedOutcome o n = true) (inside : ∀ i ∈ places, i < n)
    (some : places ≠ []) (few : places.length ≤ 64) : numberAt places o < 2 ^ places.length := by
  obtain ⟨s, shown⟩ := exists_pick formed
  rw [numberAt, shown places inside, outcomeValue?_label some few]
  exact gather_lt places s

theorem numberAt_slice (formed : wellFormedOutcome o n = true) (inside : ∀ i ∈ places, i < n)
    (few : places.length ≤ 64) {offset width : Nat} (some : (places.drop offset).take width ≠ []) :
    numberAt ((places.drop offset).take width) o =
      (numberAt places o >>> offset) % 2 ^ width := by
  obtain ⟨s, shown⟩ := exists_pick formed
  have among : ∀ i ∈ (places.drop offset).take width, i ∈ places := fun i mem =>
    List.mem_of_mem_drop (List.mem_of_mem_take mem)
  have fewer : ((places.drop offset).take width).length ≤ 64 := by
    rw [List.length_take, List.length_drop]
    omega
  have whole : places ≠ [] := by
    rintro rfl
    simp at some
  rw [numberAt, numberAt, shown places inside, shown _ fun i mem => inside i (among i mem),
    outcomeValue?_label whole few, outcomeValue?_label some fewer]
  exact gather_slice places offset width s

end Outcomes

namespace MeasuredSample

theorem histogram?_eq {s : MeasuredSample} (number : String → Nat)
    (read : ∀ e ∈ s.counts.entries, outcomeValue? e.1 = some (number e.1)) :
    s.histogram? = some (Table.empty.tally (s.counts.entries.map fun e => (number e.1, e.2))) := by
  have each : (s.counts.entries.mapM fun e => (outcomeValue? e.1).map fun v => (v, e.2)) =
      some (s.counts.entries.map fun e => (number e.1, e.2)) := by
    generalize s.counts.entries = es at read
    induction es with
    | nil => rfl
    | cons e es ih =>
      rw [List.mapM_cons, read e List.mem_cons_self,
        ih fun x mem => read x (List.mem_cons_of_mem e mem)]
      rfl
  rw [histogram?, each]
  rfl

def places (s : MeasuredSample) (targets : List Qubit) : List Nat := targets.map s.qubits.idxOf

def part (s : MeasuredSample) (targets : List Qubit) : MeasuredSample :=
  { s with
    counts := Table.empty.tally (s.counts.entries.map fun e => (pick (s.places targets) e.1, e.2))
    qubits := targets }

def chart (s : MeasuredSample) (targets : List Qubit) : Histogram :=
  Table.empty.tally ((s.part targets).counts.entries.map fun e => ((outcomeValue? e.1).getD 0, e.2))

section Parts
variable {s : MeasuredSample} {targets : List Qubit}

theorem places_lt (covered : ∀ q ∈ targets, q ∈ s.qubits) :
    ∀ i ∈ s.places targets, i < s.qubits.length := by
  intro i mem
  obtain ⟨q, among, rfl⟩ := List.mem_map.mp mem
  exact List.idxOf_lt_length_of_mem (covered q among)

theorem project_eq_some {p : MeasuredSample} : s.project targets = some p ↔
    (∀ q ∈ targets, q ∈ s.qubits) ∧
      (∀ e ∈ s.counts.entries, e.1.utf8ByteSize = s.qubits.length) ∧ p = s.part targets := by
  have fits : (s.counts.entries.all fun e => decide (e.1.utf8ByteSize = s.qubits.length)) = true ↔
      ∀ e ∈ s.counts.entries, e.1.utf8ByteSize = s.qubits.length := by
    rw [List.all_eq_true]
    exact forall₂_congr fun e _ => decide_eq_true_iff
  unfold project
  by_cases covered : ∀ q ∈ targets, q ∈ s.qubits
  · rw [positions?_eq covered]
    change (if _ then some (s.part targets) else none) = some p ↔ _
    by_cases sized : ∀ e ∈ s.counts.entries, e.1.utf8ByteSize = s.qubits.length
    · rw [if_pos (fits.mpr sized), Option.some.injEq]
      exact ⟨fun same => ⟨covered, sized, same.symm⟩, fun all => all.2.2.symm⟩
    · rw [if_neg (mt fits.mp sized)]
      exact ⟨fun no => (by cases no), fun all => absurd all.2.1 sized⟩
  · have missing : positions? s.qubits targets = none := by
      rw [← Option.not_isSome_iff_eq_none, isSome_positions?]
      exact covered
    rw [missing]
    exact ⟨fun no => (by cases no), fun all => absurd all.1 covered⟩

theorem project_eq (formed : s.Formed) (covered : ∀ q ∈ targets, q ∈ s.qubits) :
    s.project targets = some (s.part targets) := by
  refine project_eq_some.mpr ⟨covered, fun e mem => ?_, rfl⟩
  exact of_decide_eq_true ((Bool.and_eq_true _ _).mp (formed e mem)).1

theorem mem_part {e : String × Nat} (mem : e ∈ (s.part targets).counts.entries) :
    ∃ x ∈ s.counts.entries, pick (s.places targets) x.1 = e.1 := by
  rcases Table.mem_keys_tally mem with old | ⟨y, among, same⟩
  · cases old
  · obtain ⟨x, mem, rfl⟩ := List.mem_map.mp among
    exact ⟨x, mem, same⟩

theorem formed_part (formed : s.Formed) (covered : ∀ q ∈ targets, q ∈ s.qubits) :
    (s.part targets).Formed := by
  intro e mem
  obtain ⟨x, among, same⟩ := mem_part mem
  obtain ⟨state, shown⟩ := exists_pick (formed x among)
  have long : (s.places targets).length = targets.length := List.length_map _
  rw [← same, shown _ (places_lt covered)]
  change wellFormedOutcome _ targets.length = true
  rw [← long]
  exact wellFormedOutcome_label _ _

theorem amountWhere_part (s : MeasuredSample) (targets : List Qubit) (p : String → Bool) :
    amountWhere p (s.part targets).counts.entries =
      amountWhere (fun o => p (pick (s.places targets) o)) s.counts.entries := by
  change amountWhere p (Table.tally _ _).entries = _
  rw [Table.amountWhere_tally, amountWhere_map]
  exact Nat.zero_add _

theorem total_part (s : MeasuredSample) (targets : List Qubit) :
    (s.part targets).counts.total = s.counts.total := by
  have all := amountWhere_part s targets fun _ => true
  rwa [amountWhere_all, amountWhere_all] at all

theorem histogram?_part (formed : s.Formed) (covered : ∀ q ∈ targets, q ∈ s.qubits)
    (some : targets ≠ []) (few : targets.length ≤ 64) :
    (s.part targets).histogram? = .some (s.chart targets) := by
  refine histogram?_eq (fun o => (outcomeValue? o).getD 0) fun e mem => ?_
  obtain ⟨x, among, same⟩ := mem_part mem
  have read := outcomeValue?_pick (formed x among) (places_lt covered)
    (by simpa [places] using some) (by simpa [places] using few)
  rw [← same, read]
  rfl

theorem amountWhere_chart (s : MeasuredSample) (targets : List Qubit) (p : Nat → Bool) :
    amountWhere p (s.chart targets).entries =
      amountWhere (fun o => p (numberAt (s.places targets) o)) s.counts.entries := by
  rw [chart, Table.amountWhere_tally,
    amountWhere_map fun o => (outcomeValue? o).getD 0, amountWhere_part]
  exact Nat.zero_add _

theorem ascending_chart (s : MeasuredSample) (targets : List Qubit) :
    (s.chart targets).Ascending :=
  Table.Ascending.tally List.Pairwise.nil _

theorem total_chart (s : MeasuredSample) (targets : List Qubit) :
    sumOf (s.chart targets).values = s.counts.total := by
  have all := amountWhere_chart s targets fun _ => true
  rwa [amountWhere_all, amountWhere_all] at all

theorem chart_lt (formed : s.Formed) (covered : ∀ q ∈ targets, q ∈ s.qubits) (some : targets ≠ [])
    (few : targets.length ≤ 64) : ∀ e ∈ (s.chart targets).entries, e.1 < 2 ^ targets.length := by
  intro e mem
  rcases Table.mem_keys_tally mem with old | ⟨y, among, same⟩
  · cases old
  · obtain ⟨x, mem, rfl⟩ := List.mem_map.mp among
    obtain ⟨z, among, shown⟩ := mem_part mem
    have below := numberAt_lt (formed z among) (places_lt covered) (by simpa [places] using some)
      (by simpa [places] using few)
    rw [numberAt, shown, places, List.length_map] at below
    exact same ▸ below

theorem interpret_part {i : Interpreter} {target : TypeName}
    (policy : i.find? target = .some .histogram) (formed : s.Formed)
    (covered : ∀ q ∈ targets, q ∈ s.qubits) (some : targets ≠ []) (few : targets.length ≤ 64)
    (drawn : s.counts.total ≠ 0) :
    i.interpret (.measured (s.part targets)) target = .ok (.histogram (s.chart targets)) := by
  have total : (s.part targets).counts.total ≠ 0 := total_part s targets ▸ drawn
  unfold Interpreter.interpret Interpreter.read
  rw [policy]
  simp only [Interpreter.flaw?_eq_none (formed_part formed covered) total some few,
    Interpreter.readMeasured, histogram?_part formed covered some few]
  rfl

end Parts
end MeasuredSample
end LazyCast
