import LazyCast.Proofs.Sample.Parts
/-!
Projection. On some of its qubits a sample counts what its outcomes show there: amounts of outcomes
that look alike add up and none is lost. What is seen of a part is seen of the whole, so projections
compose, and a sample projected on all of its qubits is itself.
-/
namespace LazyCast
open MeasuredSample (pick places part)

section Lookups
variable {κ α : Type} [BEq κ] [LawfulBEq κ]

theorem lookup_zip {ks : List κ} {k : κ} (mem : k ∈ ks) (as : List α) :
    (ks.zip as).lookup k = as[ks.idxOf k]? := by
  induction ks generalizing as with
  | nil => cases mem
  | cons l ks ih =>
    cases as with
    | nil => simp
    | cons a as =>
      rw [List.zip_cons_cons, List.lookup_cons, List.idxOf_cons]
      by_cases same : k = l
      · simp [same]
      · have other : (k == l) = false := beq_eq_false_iff_ne.mpr same
        have other' : (l == k) = false := beq_eq_false_iff_ne.mpr (Ne.symm same)
        rw [other, other']
        exact ih ((List.mem_cons.mp mem).resolve_left same) as

theorem map_lookup_zip {ks : List κ} (nodup : ks.Nodup) {as : List α}
    (long : as.length = ks.length) : ks.map (fun k => (ks.zip as).lookup k) = as.map some := by
  induction ks generalizing as with
  | nil =>
    cases List.length_eq_zero_iff.mp long
    rfl
  | cons l ks ih =>
    obtain ⟨a, as, rfl⟩ := List.exists_cons_of_length_eq_add_one long
    obtain ⟨fresh, nodup⟩ := List.nodup_cons.mp nodup
    rw [List.map_cons, List.map_cons, ← ih nodup (Nat.succ.inj long)]
    congr 1
    · simp
    · refine List.map_congr_left fun k mem => ?_
      have other : (k == l) = false := by
        apply beq_eq_false_iff_ne.mpr
        rintro rfl
        exact fresh mem
      rw [List.zip_cons_cons, List.lookup_cons, other]

end Lookups

/-- The character that an outcome has for a qubit. The rightmost one is that of the first qubit; of
    a qubit that is listed twice, the first place counts. -/
def charOf? (qubits : List Qubit) (outcome : String) (q : Qubit) : Option Char :=
  (qubits.zip outcome.toList.reverse).lookup q

/-- The outcome's characters at some targets, the rightmost one at the first target, are those of a
    word. -/
def Spells (qubits targets : List Qubit) (outcome word : String) : Prop :=
  targets.map (charOf? qubits outcome) = word.toList.reverse.map some

instance (qubits targets : List Qubit) (outcome word : String) :
    Decidable (Spells qubits targets outcome word) :=
  inferInstanceAs (Decidable (_ = _))

section Words
variable {qubits targets others : List Qubit} {o w w' : String}

theorem Spells.unique (spells : Spells qubits targets o w) (spells' : Spells qubits targets o w') :
    w = w' := by
  have same : w.toList.reverse.map some = w'.toList.reverse.map some := spells.symm.trans spells'
  have chars := List.map_injective_iff.mpr (Option.some_injective Char) same
  exact String.toList_inj.mp (List.reverse_injective chars)

theorem spells_pick (ascii : Ascii o) (long : o.length = qubits.length)
    (covered : ∀ q ∈ targets, q ∈ qubits) :
    Spells qubits targets o (pick (targets.map qubits.idxOf) o) := by
  unfold Spells
  rw [pick_ascii ascii, String.toList_ofList, ← List.map_reverse, List.reverse_reverse,
    List.map_map, List.map_map]
  refine List.map_congr_left fun q mem => ?_
  have inside : qubits.idxOf q < o.toList.reverse.length := by
    rw [List.length_reverse, String.length_toList, long]
    exact List.idxOf_lt_length_of_mem (covered q mem)
  rw [charOf?, lookup_zip (covered q mem), List.getElem?_eq_getElem inside]
  simp only [Function.comp_apply, List.getElem?_eq_getElem inside, Option.getD_some]

theorem pick_eq_iff (ascii : Ascii o) (long : o.length = qubits.length)
    (covered : ∀ q ∈ targets, q ∈ qubits) :
    pick (targets.map qubits.idxOf) o = w ↔ Spells qubits targets o w := by
  have picked := spells_pick ascii long covered
  constructor
  · rintro rfl
    exact picked
  · exact picked.unique

theorem Spells.charOf? (spells : Spells qubits targets o w) {q : Qubit} (mem : q ∈ targets) :
    LazyCast.charOf? targets w q = LazyCast.charOf? qubits o q := by
  have here : targets[targets.idxOf q]? = some q := by
    rw [List.getElem?_eq_getElem (List.idxOf_lt_length_of_mem mem), List.getElem_idxOf]
  have both := congrArg (fun cs => cs[targets.idxOf q]?) spells
  rw [List.getElem?_map, List.getElem?_map, here] at both
  obtain ⟨c, found, same⟩ := Option.map_eq_some_iff.mp both.symm
  rw [LazyCast.charOf?, lookup_zip mem, found, same]

theorem ascii_pick (ascii : Ascii o) (places : List Nat) : Ascii (pick places o) := by
  intro c mem
  rw [pick_ascii ascii, String.toList_ofList] at mem
  obtain ⟨i, _, rfl⟩ := List.mem_map.mp mem
  cases found : o.toList.reverse[i]? with
  | none => decide
  | some c => exact ascii c (List.mem_reverse.mp (List.mem_of_getElem? found))

theorem length_pick (ascii : Ascii o) (places : List Nat) :
    (pick places o).length = places.length := by
  rw [pick_ascii ascii, String.length_ofList, List.length_map, List.length_reverse]

theorem pick_pick (ascii : Ascii o) (long : o.length = qubits.length)
    (covered : ∀ q ∈ targets, q ∈ qubits) (among : ∀ q ∈ others, q ∈ targets) :
    pick (others.map targets.idxOf) (pick (targets.map qubits.idxOf) o) =
      pick (others.map qubits.idxOf) o := by
  have part := spells_pick ascii long covered
  have sized : (pick (targets.map qubits.idxOf) o).length = targets.length := by
    rw [length_pick ascii, List.length_map]
  rw [pick_eq_iff (ascii_pick ascii _) sized among, Spells,
    ← spells_pick ascii long fun q mem => covered q (among q mem)]
  exact List.map_congr_left fun q mem => part.charOf? (among q mem)

theorem pick_all (nodup : qubits.Nodup) (ascii : Ascii o) (long : o.length = qubits.length) :
    pick (qubits.map qubits.idxOf) o = o := by
  rw [pick_eq_iff ascii long fun q mem => mem]
  refine map_lookup_zip nodup ?_
  rw [List.length_reverse, String.length_toList, long]

end Words

namespace MeasuredSample
variable {s : MeasuredSample} {targets others : List Qubit}

theorem count_part (ascii : ∀ e ∈ s.counts.entries, Ascii e.1)
    (long : ∀ e ∈ s.counts.entries, e.1.length = s.qubits.length)
    (covered : ∀ q ∈ targets, q ∈ s.qubits) (w : String) :
    (s.part targets).counts.count w =
      amountWhere (fun o => decide (Spells s.qubits targets o w)) s.counts.entries := by
  have tallied : (s.part targets).counts.Ascending := Table.Ascending.tally List.Pairwise.nil _
  rw [Counts.count, tallied.getD_find?, amountWhere_part]
  exact amountWhere_congr fun e mem =>
    decide_eq_decide.mpr (pick_eq_iff (ascii e mem) (long e mem) covered)

theorem part_part (ascii : ∀ e ∈ s.counts.entries, Ascii e.1)
    (long : ∀ e ∈ s.counts.entries, e.1.length = s.qubits.length)
    (covered : ∀ q ∈ targets, q ∈ s.qubits) (among : ∀ q ∈ others, q ∈ targets) :
    (s.part targets).part others = s.part others := by
  have counts : ((s.part targets).part others).counts = (s.part others).counts := by
    refine (Table.tally_map_tally (pick ((s.part targets).places others)) _).trans ?_
    rw [List.map_map]
    refine congrArg Table.empty.tally (List.map_congr_left fun e mem => ?_)
    exact Prod.ext (pick_pick (ascii e mem) (long e mem) covered among) rfl
  unfold part at counts ⊢
  dsimp only at counts ⊢
  rw [counts]

theorem part_all (tallied : s.counts.Ascending) (nodup : s.qubits.Nodup)
    (ascii : ∀ e ∈ s.counts.entries, Ascii e.1)
    (long : ∀ e ∈ s.counts.entries, e.1.length = s.qubits.length) : s.part s.qubits = s := by
  have kept : (s.counts.entries.map fun e => (pick (s.places s.qubits) e.1, e.2)) =
      s.counts.entries := by
    refine (List.map_congr_left fun e mem => ?_).trans (List.map_id _)
    exact Prod.ext (pick_all nodup (ascii e mem) (long e mem)) rfl
  unfold part
  rw [kept, tallied.tally_entries]

/-- A projection exists just when it can be read off the outcomes. It counts each word as often as
    the outcomes that spell it, with no count lost; projecting it again is projecting at once, and
    onto all of its qubits, distinct ones, a sample is itself. -/
theorem project_marginalises (tallied : s.counts.Ascending)
    (ascii : ∀ e ∈ s.counts.entries, Ascii e.1) (targets : List Qubit) :
    ((s.project targets).isSome = true ↔ (∀ q ∈ targets, q ∈ s.qubits) ∧
      ∀ e ∈ s.counts.entries, e.1.length = s.qubits.length) ∧
    ∀ p, s.project targets = some p →
      p.qubits = targets ∧ p.counts.total = s.counts.total ∧
      (∀ w, p.counts.count w =
        amountWhere (fun o => decide (Spells s.qubits targets o w)) s.counts.entries) ∧
      (∀ others, (∀ q ∈ others, q ∈ targets) →
        ∃ r, p.project others = some r ∧ s.project others = some r) ∧
      (s.qubits.Nodup → s.project s.qubits = some s) := by
  have sized : (∀ e ∈ s.counts.entries, e.1.utf8ByteSize = s.qubits.length) ↔
      ∀ e ∈ s.counts.entries, e.1.length = s.qubits.length :=
    forall₂_congr fun e mem => by rw [(ascii e mem).utf8ByteSize]
  constructor
  · rw [Option.isSome_iff_exists]
    constructor
    · rintro ⟨p, seen⟩
      obtain ⟨covered, fits, _⟩ := project_eq_some.mp seen
      exact ⟨covered, sized.mp fits⟩
    · rintro ⟨covered, long⟩
      exact ⟨_, project_eq_some.mpr ⟨covered, sized.mpr long, rfl⟩⟩
  · intro p seen
    obtain ⟨covered, fits, rfl⟩ := project_eq_some.mp seen
    have long := sized.mp fits
    refine ⟨rfl, total_part s targets, count_part ascii long covered, ?_, ?_⟩
    · intro others among
      refine ⟨s.part others, ?_, ?_⟩
      · rw [project_eq_some, part_part ascii long covered among]
        refine ⟨among, ?_, rfl⟩
        intro e mem
        obtain ⟨x, whole, same⟩ := mem_part mem
        rw [← same, (ascii_pick (ascii x whole) _).utf8ByteSize, length_pick (ascii x whole)]
        exact List.length_map _
      · exact project_eq_some.mpr ⟨fun q mem => covered q (among q mem), fits, rfl⟩
    · intro nodup
      exact project_eq_some.mpr ⟨fun q mem => mem, fits, (part_all tallied nodup ascii long).symm⟩

def skewed : MeasuredSample := ⟨⟨[("010", 2), ("011", 3), ("110", 5)]⟩, 10, [4, 9, 2], none⟩

theorem skewed_marginalises : ∃ p, skewed.project [9, 4, 9] = some p ∧ p.counts.total = 10 ∧
    p.counts.count "101" = 7 ∧ p.counts.count "111" = 3 ∧ p.project [4] = skewed.project [4] ∧
    skewed.project [4, 9, 2] = some skewed := by
  obtain ⟨exists_iff, seen⟩ :=
    project_marginalises (s := skewed) (by decide +kernel) (by decide +kernel) [9, 4, 9]
  obtain ⟨p, found⟩ := Option.isSome_iff_exists.mp (exists_iff.mpr (by decide +kernel))
  obtain ⟨_, total, count, compose, whole⟩ := seen p found
  obtain ⟨r, onPart, onWhole⟩ := compose [4] (by decide)
  refine ⟨p, found, total, (count "101").trans ?_, (count "111").trans ?_,
    onPart.trans onWhole.symm, whole (by decide)⟩
  · decide +kernel
  · decide +kernel

end MeasuredSample
end LazyCast
