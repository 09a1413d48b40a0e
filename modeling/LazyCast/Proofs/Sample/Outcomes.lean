import LazyCast.Proofs.Sample.Numerals
/-!
Outcomes as they are read. A text of binary digits writes one number, bit by bit from its right end.
An outcome reads as a number exactly when its digits spell it, possibly after one plus sign, and a
histogram holds what was counted for each number that is read.
-/
namespace LazyCast

/-- There are digits, all of them binary, and the i-th from the right is bit i of a number. -/
structure Writes (digits : List Char) (v : Nat) : Prop where
  some : digits ≠ []
  binary : ∀ c ∈ digits, c = '0' ∨ c = '1'
  bits : ∀ i, v.testBit i = decide (digits.reverse[i]? = .some '1')

/-- One to sixty-four digits that write a number. -/
def SpellsOut (outcome : String) (v : Nat) : Prop :=
  outcome.length ≤ 64 ∧ Writes outcome.toList v

def Signed (outcome : String) : Prop :=
  outcome.length ≤ 64 ∧ ∃ digits v, outcome.toList = '+' :: digits ∧ Writes digits v

/-- At most sixty-four characters that spell a number, at once or after a plus sign. -/
def Reads (outcome : String) (v : Nat) : Prop :=
  outcome.length ≤ 64 ∧
    (Writes outcome.toList v ∨ ∃ digits, outcome.toList = '+' :: digits ∧ Writes digits v)

section Digits
variable {digits : List Char} {v : Nat}

theorem testBit_valueOf (digits : List Char) (i : Nat) :
    (valueOf digits).testBit i = decide (digits.reverse[i]? = some '1') := by
  induction digits with
  | nil => exact Nat.zero_testBit i
  | cons c digits ih =>
    rw [valueOf_cons, Nat.add_comm, Nat.testBit_two_pow_mul_add _ (valueOf_lt digits),
      List.reverse_cons]
    by_cases later : i < digits.length
    · rw [if_pos later, ih, List.getElem?_append_left (by simpa using later)]
    · rw [if_neg later, List.getElem?_append_right (by simpa using later), List.length_reverse]
      -- The first digit is the last from the right, so beyond it there are no bits.
      rcases Nat.eq_zero_or_pos (i - digits.length) with last | beyond
      · by_cases one : c = '1' <;> simp [last, one]
      · have none : [c][i - digits.length]? = .none := List.getElem?_eq_none beyond
        rw [none]
        have small : (if c = '1' then 1 else 0) < 2 ^ (i - digits.length) := by
          have power := Nat.pow_le_pow_right (n := 2) (by decide) beyond
          split <;> omega
        exact Nat.testBit_lt_two_pow small

theorem writes_valueOf (some : digits ≠ []) (binary : ∀ c ∈ digits, c = '0' ∨ c = '1') :
    Writes digits (valueOf digits) := ⟨some, binary, testBit_valueOf digits⟩

theorem Writes.eq_valueOf (writes : Writes digits v) : v = valueOf digits := by
  apply Nat.eq_of_testBit_eq
  intro i
  rw [writes.bits, testBit_valueOf]

theorem binary_of_binaryValue? {acc : Nat} (read : binaryValue? acc digits = some v) :
    ∀ c ∈ digits, c = '0' ∨ c = '1' := by
  fun_induction binaryValue? acc digits with
  | case1 acc =>
    intro c mem
    cases mem
  | case2 acc rest ih =>
    intro c mem
    rcases List.mem_cons.mp mem with first | later
    · exact .inl first
    · exact ih read c later
  | case3 acc rest ih =>
    intro c mem
    rcases List.mem_cons.mp mem with first | later
    · exact .inr first
    · exact ih read c later
  | case4 => cases read

theorem binaryValue?_iff (some : digits ≠ []) :
    binaryValue? 0 digits = .some v ↔ Writes digits v := by
  constructor
  · intro read
    have binary := binary_of_binaryValue? read
    rw [binaryValue?_eq binary, Nat.mul_zero, Nat.add_zero, Option.some.injEq] at read
    exact read ▸ writes_valueOf some binary
  · intro writes
    rw [binaryValue?_eq writes.binary, writes.eq_valueOf]
    rfl

end Digits

section Reading
variable {o : String} {v : Nat}

theorem ascii_of_writes
    (writes : Writes o.toList v ∨ ∃ digits, o.toList = '+' :: digits ∧ Writes digits v) :
    Ascii o := by
  have small : ∀ d : Char, d = '0' ∨ d = '1' → d.toNat < 128 := by
    rintro d (rfl | rfl) <;> decide
  intro c mem
  rcases writes with writes | ⟨digits, text, writes⟩
  · exact small c (writes.binary c mem)
  · rw [text] at mem
    rcases List.mem_cons.mp mem with rfl | later
    · decide
    · exact small c (writes.binary c later)

theorem Reads.length_pos (reads : Reads o v) : 0 < o.length := by
  change 0 < o.toList.length
  rcases reads.2 with writes | ⟨digits, text, _⟩
  · exact List.length_pos_of_ne_nil writes.some
  · rw [text]
    exact Nat.succ_pos digits.length

theorem outcomeValue?_eq_some_iff (some : o.utf8ByteSize ≠ 0) (few : o.utf8ByteSize ≤ 64) :
    outcomeValue? o = .some v ↔
      Writes o.toList v ∨ ∃ digits, o.toList = '+' :: digits ∧ Writes digits v := by
  have bytes : ¬ (o.utf8ByteSize = 0 ∨ 64 < o.utf8ByteSize) := by omega
  have signless : ∀ {cs : List Char}, ¬ Writes ('+' :: cs) v := by
    intro cs writes
    rcases writes.binary '+' List.mem_cons_self with no | no <;> cases no
  rw [outcomeValue?, if_neg bytes]
  split
  · -- The sign stands alone.
    rename_i alone
    constructor
    · intro read
      cases read
    · rintro (writes | ⟨digits, text, writes⟩)
      · exact absurd (alone ▸ writes) signless
      · rw [alone] at text
        cases text
        exact absurd rfl writes.some
  · rename_i digits signed text
    rw [binaryValue?_iff fun empty => signed empty]
    constructor
    · intro writes
      exact .inr ⟨digits, text, writes⟩
    · rintro (writes | ⟨digits', text', writes⟩)
      · exact absurd (text ▸ writes) signless
      · rw [text] at text'
        cases text'
        exact writes
  · rename_i alone unsigned
    have digits : o.toList ≠ [] := by
      intro empty
      apply some
      rw [← String.ofList_toList (s := o), empty]
      rfl
    rw [binaryValue?_iff digits]
    constructor
    · exact .inl
    · rintro (writes | ⟨digits, text, _⟩)
      · exact writes
      · exact absurd text (unsigned digits)

theorem outcomeValue?_iff : outcomeValue? o = .some v ↔ Reads o v := by
  constructor
  · intro read
    have bytes : o.utf8ByteSize ≠ 0 ∧ o.utf8ByteSize ≤ 64 := by
      by_contra bad
      rw [outcomeValue?, if_pos (by omega)] at read
      cases read
    have writes := (outcomeValue?_eq_some_iff bytes.1 bytes.2).mp read
    have ascii := ascii_of_writes writes
    exact ⟨ascii.utf8ByteSize ▸ bytes.2, writes⟩
  · intro reads
    have size := (ascii_of_writes reads.2).utf8ByteSize
    have pos := reads.length_pos
    have few := reads.1
    exact (outcomeValue?_eq_some_iff (by omega) (by omega)).mpr reads.2

theorem SpellsOut.reads (spells : SpellsOut o v) : Reads o v := ⟨spells.1, .inl spells.2⟩

theorem Signed.not_spellsOut (signed : Signed o) : ¬ SpellsOut o v := by
  rintro ⟨-, writes⟩
  obtain ⟨-, digits, _, text, -⟩ := signed
  rw [text] at writes
  rcases writes.binary '+' List.mem_cons_self with no | no <;> cases no

theorem Signed.reads (signed : Signed o) : ∃ v, Reads o v := by
  obtain ⟨few, digits, v, text, writes⟩ := signed
  exact ⟨v, few, .inr ⟨digits, text, writes⟩⟩

theorem Reads.spellsOut (reads : Reads o v) (unsigned : ¬ Signed o) : SpellsOut o v := by
  obtain ⟨few, writes | ⟨digits, text, writes⟩⟩ := reads
  · exact ⟨few, writes⟩
  · exact absurd ⟨few, digits, v, text, writes⟩ unsigned

theorem spelled_iff_unsigned (o : String) :
    (∀ v, outcomeValue? o = .some v ↔ SpellsOut o v) ↔ ¬ Signed o := by
  constructor
  · intro spelled signed
    obtain ⟨v, reads⟩ := signed.reads
    exact signed.not_spellsOut ((spelled v).mp (outcomeValue?_iff.mpr reads))
  · intro unsigned v
    rw [outcomeValue?_iff]
    exact ⟨fun reads => reads.spellsOut unsigned, SpellsOut.reads⟩

theorem Reads.lt (reads : Reads o v) : v < 2 ^ 64 := by
  have bound : ∀ {digits : List Char}, Writes digits v → digits.length ≤ o.length → v < 2 ^ 64 := by
    intro digits writes short
    rw [writes.eq_valueOf]
    have below := valueOf_lt digits
    have power := Nat.pow_le_pow_right (n := 2) (by decide) (short.trans reads.1)
    omega
  rcases reads.2 with writes | ⟨digits, text, writes⟩
  · exact bound writes (Nat.le_refl _)
  · apply bound writes
    change digits.length ≤ o.toList.length
    rw [text]
    exact Nat.le_succ _

end Reading

namespace MeasuredSample

theorem read_of_histogram? {s : MeasuredSample} {h : Histogram} (made : s.histogram? = some h) :
    ∀ e ∈ s.counts.entries, ∃ v, outcomeValue? e.1 = some v := by
  unfold histogram? at made
  obtain ⟨pairs, each, -⟩ := Option.bind_eq_some_iff.mp made
  generalize s.counts.entries = es at each
  induction es generalizing pairs with
  | nil =>
    intro e mem
    cases mem
  | cons x es ih =>
    rw [List.mapM_cons] at each
    obtain ⟨pair, first, each⟩ := Option.bind_eq_some_iff.mp each
    obtain ⟨rest, later, -⟩ := Option.bind_eq_some_iff.mp each
    intro e mem
    rcases List.mem_cons.mp mem with rfl | among
    · obtain ⟨v, read, -⟩ := Option.map_eq_some_iff.mp first
      exact ⟨v, read⟩
    · exact ih rest later e among

theorem histogram?_of_read {s : MeasuredSample}
    (read : ∀ e ∈ s.counts.entries, ∃ v, outcomeValue? e.1 = some v) :
    s.histogram? = some (Table.empty.tally
      (s.counts.entries.map fun e => ((outcomeValue? e.1).getD 0, e.2))) := by
  apply histogram?_eq fun o => (outcomeValue? o).getD 0
  intro e mem
  obtain ⟨v, number⟩ := read e mem
  rw [number]
  rfl

theorem isSome_histogram? (s : MeasuredSample) :
    s.histogram?.isSome ↔ ∀ o ∈ s.counts.keys, ∃ v, Reads o v := by
  constructor
  · intro made o mem
    obtain ⟨h, made⟩ := Option.isSome_iff_exists.mp made
    obtain ⟨e, among, rfl⟩ := List.mem_map.mp mem
    obtain ⟨v, read⟩ := read_of_histogram? made e among
    exact ⟨v, outcomeValue?_iff.mp read⟩
  · intro all
    have read : ∀ e ∈ s.counts.entries, ∃ v, outcomeValue? e.1 = some v := by
      intro e mem
      obtain ⟨v, reads⟩ := all e.1 (List.mem_map_of_mem mem)
      exact ⟨v, outcomeValue?_iff.mpr reads⟩
    rw [histogram?_of_read read]
    rfl

theorem find?_histogram? {s : MeasuredSample} {h : Histogram} (made : s.histogram? = some h)
    (k n : Nat) :
    h.find? k = some n ↔ (∃ o ∈ s.counts.keys, Reads o k) ∧
      n = amountWhere (fun o => decide (outcomeValue? o = some k)) s.counts.entries := by
  have read := read_of_histogram? made
  have at_k : ∀ e ∈ s.counts.entries,
      ((outcomeValue? e.1).getD 0 = k ↔ outcomeValue? e.1 = some k) := by
    intro e mem
    obtain ⟨v, number⟩ := read e mem
    rw [number, Option.getD_some, Option.some.injEq]
  rw [histogram?_of_read read, Option.some.injEq] at made
  have start : (Table.empty : Histogram).Ascending := List.Pairwise.nil
  have found := start.find?_tally
    (s.counts.entries.map fun e => ((outcomeValue? e.1).getD 0, e.2)) k
  have amount : amountWhere (fun v => decide (v = k))
      (s.counts.entries.map fun e => ((outcomeValue? e.1).getD 0, e.2)) =
        amountWhere (fun o => decide (outcomeValue? o = some k)) s.counts.entries := by
    rw [amountWhere_map fun o => (outcomeValue? o).getD 0]
    apply amountWhere_congr
    intro e mem
    exact decide_eq_decide.mpr (at_k e mem)
  have seen : (∃ e ∈ s.counts.entries.map fun e => ((outcomeValue? e.1).getD 0, e.2), e.1 = k) ↔
      ∃ o ∈ s.counts.keys, Reads o k := by
    constructor
    · rintro ⟨_, mem, same⟩
      obtain ⟨e, among, rfl⟩ := List.mem_map.mp mem
      exact ⟨e.1, List.mem_map_of_mem among, outcomeValue?_iff.mp ((at_k e among).mp same)⟩
    · rintro ⟨o, mem, reads⟩
      obtain ⟨e, among, rfl⟩ := List.mem_map.mp mem
      exact ⟨_, List.mem_map_of_mem among, (at_k e among).mpr (outcomeValue?_iff.mpr reads)⟩
  rw [← made, found, amount]
  by_cases some : ∃ o ∈ s.counts.keys, Reads o k
  · rw [if_pos (seen.mpr some), Option.some.injEq]
    constructor
    · intro same
      exact ⟨some, same.symm.trans (Nat.zero_add _)⟩
    · intro both
      exact (Nat.zero_add _).trans both.2.symm
  · rw [if_neg (mt seen.mp some)]
    constructor
    · intro none
      cases none
    · intro both
      exact absurd both.1 some

theorem isSome_spelled_iff (s : MeasuredSample) :
    (s.histogram?.isSome ↔ ∀ o ∈ s.counts.keys, ∃ v, SpellsOut o v) ↔
      ¬ (s.histogram?.isSome ∧ ∃ o ∈ s.counts.keys, Signed o) := by
  constructor
  · rintro spelled ⟨made, o, mem, signed⟩
    obtain ⟨v, spells⟩ := spelled.mp made o mem
    exact signed.not_spellsOut spells
  · intro unsigned
    constructor
    · intro made o mem
      obtain ⟨v, reads⟩ := (isSome_histogram? s).mp made o mem
      exact ⟨v, reads.spellsOut fun signed => unsigned ⟨made, o, mem, signed⟩⟩
    · intro spelled
      apply (isSome_histogram? s).mpr
      intro o mem
      obtain ⟨v, spells⟩ := spelled o mem
      exact ⟨v, spells.reads⟩

/-- An outcome is read as the number that its digits spell, and not read if there are other
    characters than digits or too many or none, unless it starts with a sign: a plus sign is taken
    too, in front of digits. So a histogram is made exactly when all outcomes are such, and it holds
    for each number what was counted for the outcomes that read as it. -/
theorem outcomes_spelled (o : String) (s : MeasuredSample) :
    ((∀ v, outcomeValue? o = some v ↔ SpellsOut o v) ↔ ¬ Signed o) ∧
    (∀ v, (outcomeValue? o = some v ↔ Reads o v) ∧ (Reads o v → v < 2 ^ 64)) ∧
    ((s.histogram?.isSome ↔ ∀ o ∈ s.counts.keys, ∃ v, SpellsOut o v) ↔
      ¬ (s.histogram?.isSome ∧ ∃ o ∈ s.counts.keys, Signed o)) ∧
    (s.histogram?.isSome ↔ ∀ o ∈ s.counts.keys, ∃ v, Reads o v) ∧
    ∀ h, s.histogram? = some h → ∀ k n, h.find? k = some n ↔
      (∃ o ∈ s.counts.keys, Reads o k) ∧
        n = amountWhere (fun o => decide (outcomeValue? o = some k)) s.counts.entries := by
  refine ⟨spelled_iff_unsigned o, ?_, isSome_spelled_iff s, isSome_histogram? s, ?_⟩
  · intro v
    exact ⟨outcomeValue?_iff, Reads.lt⟩
  · intro h made
    exact find?_histogram? made

/-- A text with a sign is read, although not all of its characters are digits. -/
theorem plus_one_read :
    outcomeValue? "+1" = some 1 ∧ ¬ Binary "+1" ∧ ¬ SpellsOut "+1" 1 := by
  refine ⟨by decide +kernel, by decide +kernel, ?_⟩
  intro spells
  have sign := spells.2.binary '+' (by decide +kernel)
  revert sign
  decide

end MeasuredSample
end LazyCast
