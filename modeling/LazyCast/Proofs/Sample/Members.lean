import LazyCast.Proofs.Sample.Parts
import LazyCast.Session.Casting
/-!
Members of one root. The members of a composite lie back to back, each inside its root, so a sample
shows of a member the marginal of what it shows of the root.
-/
namespace LazyCast
open MeasuredSample

namespace TypeTable

theorem layOut_inside {types : List (String × TypeDef)} {offset : Nat} {m : Member}
    (among : m ∈ layOut offset types) :
    m.offset + m.width ≤ offset + sumOf ((layOut offset types).map Member.width) := by
  induction types generalizing offset with
  | nil => cases among
  | cons x types ih =>
    obtain ⟨name, d⟩ := x
    rw [layOut, List.map_cons, sumOf_cons]
    rcases List.mem_cons.mp among with rfl | later
    · exact Nat.add_le_add_left (Nat.le_add_right _ _) _
    · exact (ih later).trans (Nat.add_assoc _ _ _).le

theorem defineComposite_inside {t t' : TypeTable} {name : TypeName}
    {members : List (String × TypeName)} {d : TypeDef}
    (defined : t.defineComposite name members = .ok (d, t')) {m : Member}
    (among : m ∈ d.members) : m.offset + m.width ≤ d.width := by
  unfold defineComposite at defined
  cases resolved : resolve t members with
  | error e =>
    rw [resolved] at defined
    cases defined
  | ok types =>
    rw [resolved] at defined
    cases defined
    exact (layOut_inside among).trans (Nat.zero_add _).le

end TypeTable

namespace MeasuredSample
variable {s : MeasuredSample} {targets : List Qubit}

theorem chart_slice (formed : s.Formed) (covered : ∀ q ∈ targets, q ∈ s.qubits)
    (few : targets.length ≤ 64) {offset width : Nat} (some : (targets.drop offset).take width ≠ [])
    (k : Nat) :
    ((s.chart ((targets.drop offset).take width)).find? k).getD 0 =
      ∑ o ∈ (Finset.range (2 ^ targets.length)).filter fun o => (o >>> offset) % 2 ^ width = k,
        ((s.chart targets).find? o).getD 0 := by
  have whole : targets ≠ [] := by
    rintro rfl
    simp at some
  have cut : s.places ((targets.drop offset).take width) =
      ((s.places targets).drop offset).take width := by
    rw [places, List.map_take, List.map_drop, places]
  have sliced : ∀ e ∈ s.counts.entries, numberAt (((s.places targets).drop offset).take width) e.1 =
      (numberAt (s.places targets) e.1 >>> offset) % 2 ^ width := fun e mem =>
    numberAt_slice (formed e mem) (places_lt covered) (by simpa [places] using few)
      (by rw [← cut]; simpa [places] using some)
  calc ((s.chart ((targets.drop offset).take width)).find? k).getD 0
      = amountWhere (fun o => decide (numberAt (((s.places targets).drop offset).take width) o = k))
          s.counts.entries := by
        rw [(ascending_chart s _).getD_find?, amountWhere_chart, cut]
    _ = amountWhere (fun o => decide ((numberAt (s.places targets) o >>> offset) % 2 ^ width = k))
          s.counts.entries :=
        amountWhere_congr fun e mem => by rw [sliced e mem]
    _ = amountWhere (fun o => decide ((o >>> offset) % 2 ^ width = k)) (s.chart targets).entries :=
        (amountWhere_chart s targets fun o => decide ((o >>> offset) % 2 ^ width = k)).symm
    _ = _ := by
        rw [← sum_amountWhere _ (chart_lt formed covered whole few)]
        exact Finset.sum_congr rfl fun o _ => ((ascending_chart s targets).getD_find? o).symm

end MeasuredSample

namespace Session
variable {session : Session} {chain : CastChain} {s : MeasuredSample} {targets : List Qubit}

theorem readSample_chart (policy : session.interpreter.find? chain.firstTarget = some .histogram)
    (formed : s.Formed) (covered : ∀ q ∈ targets, q ∈ s.qubits) (some : targets ≠ [])
    (few : targets.length ≤ 64) (drawn : s.counts.total ≠ 0) :
    session.readSample (.measured s) targets chain = chain.apply (.histogram (s.chart targets)) := by
  unfold readSample
  simp only [project_eq formed covered, interpret_part policy formed covered some few drawn]
  rfl

end Session

/-- What is read for a member is the marginal of what is read for its root, and both have the total
    of the sample. Read by a session, these are the histograms that the casts start from. -/
theorem member_marginal {t t' : TypeTable} {name : TypeName} {members : List (String × TypeName)}
    {d : TypeDef} (defined : t.defineComposite name members = .ok (d, t')) (few : d.width ≤ 64)
    {m : Member} (among : m ∈ d.members) (wide : 0 < m.width)
    {v : LazyValue} (sized : v.width = d.width) {s : MeasuredSample}
    (formed : ∀ e ∈ s.counts.entries, Interpreter.wellFormedOutcome e.1 s.qubits.length = true)
    (covered : ∀ q ∈ v.qubits, q ∈ s.qubits) :
    ∃ qubits root part ofRoot ofMember,
      Session.memberQubits? v m = some qubits ∧
      s.project v.qubits = some root ∧ root.histogram? = some ofRoot ∧
      s.project qubits = some part ∧ part.histogram? = some ofMember ∧
      (∀ e ∈ ofRoot.entries, e.1 < 2 ^ d.width) ∧
      (∀ k, (ofMember.find? k).getD 0 =
        ∑ o ∈ (Finset.range (2 ^ d.width)).filter fun o => (o >>> m.offset) % 2 ^ m.width = k,
          (ofRoot.find? o).getD 0) ∧
      sumOf ofRoot.values = s.counts.total ∧ sumOf ofMember.values = s.counts.total ∧
      ∀ (session : Session) (chain : CastChain),
        session.interpreter.find? chain.firstTarget = some .histogram → s.counts.total ≠ 0 →
        session.readSample (.measured s) v.qubits chain = chain.apply (.histogram ofRoot) ∧
        session.readSample (.measured s) qubits chain = chain.apply (.histogram ofMember) := by
  have inside : m.offset + m.width ≤ v.qubits.length :=
    (TypeTable.defineComposite_inside defined among).trans sized.ge
  have fewQubits : v.qubits.length ≤ 64 := sized.trans_le few
  let slice := (v.qubits.drop m.offset).take m.width
  have long : slice.length = m.width := by
    rw [List.length_take, List.length_drop]
    omega
  have sliceSome : slice ≠ [] := List.ne_nil_of_length_pos (long ▸ wide)
  have rootSome : v.qubits ≠ [] := List.ne_nil_of_length_pos (by omega)
  have sliceFew : slice.length ≤ 64 := by omega
  have sliceCovered : ∀ q ∈ slice, q ∈ s.qubits := fun q mem =>
    covered q (List.mem_of_mem_drop (List.mem_of_mem_take mem))
  refine ⟨slice, s.part v.qubits, s.part slice, s.chart v.qubits, s.chart slice, if_pos inside,
    project_eq formed covered, histogram?_part formed covered rootSome fewQubits,
    project_eq formed sliceCovered, histogram?_part formed sliceCovered sliceSome sliceFew,
    sized ▸ chart_lt formed covered rootSome fewQubits,
    sized ▸ chart_slice formed covered fewQubits sliceSome,
    total_chart s v.qubits, total_chart s slice, fun session chain policy drawn => ⟨?_, ?_⟩⟩
  · exact Session.readSample_chart policy formed covered rootSome fewQubits drawn
  · exact Session.readSample_chart policy formed sliceCovered sliceSome sliceFew drawn

def flagged : TypeDef :=
  ⟨"flagged", .quantum, .composite [⟨"flag", "@bool", 0, 1⟩, ⟨"n", "@u2", 1, 2⟩]⟩

def crowded : MeasuredSample :=
  ⟨⟨[("0010", 1), ("0110", 5), ("0111", 3), ("1010", 2)]⟩, 11, [7, 9, 4, 2], none⟩

theorem crowded_marginal : ∃ ofRoot ofMember,
    (crowded.project [4, 9, 2]).bind histogram? = some ofRoot ∧
    (crowded.project [9, 2]).bind histogram? = some ofMember ∧
    (∀ k, (ofMember.find? k).getD 0 =
      ∑ o ∈ (Finset.range 8).filter fun o => (o >>> 1) % 4 = k, (ofRoot.find? o).getD 0) ∧
    sumOf ofRoot.values = 11 ∧ sumOf ofMember.values = 11 := by
  have defined : TypeTable.builtin.defineComposite "flagged" [("flag", "@bool"), ("n", "@u2")] =
      .ok (flagged, TypeTable.builtin.define flagged) := by rfl
  let v : LazyValue := ⟨0, "flagged", .quantum, ⟨0, 0⟩, [4, 9, 2]⟩
  obtain ⟨qubits, root, part, ofRoot, ofMember, slice, seen, read, seenPart, readPart, _, marginal,
    totalRoot, totalMember, _⟩ := member_marginal defined (by decide) (m := ⟨"n", "@u2", 1, 2⟩)
      (by simp [flagged, TypeDef.members]) (by decide) (v := v) (by decide) (s := crowded)
      (by decide +kernel) (by decide)
  cases slice
  have shown : crowded.project [9, 2] = some part := seenPart
  refine ⟨ofRoot, ofMember, ?_, ?_, marginal, totalRoot, totalMember⟩
  · rw [seen]
    exact read
  · rw [shown]
    exact readPart

end LazyCast
