import Mathlib.Data.Prod.Lex
import Mathlib.Data.String.Basic
import LazyCast.Proofs.Sample.Numerals
/-!
What a reading means. A sample can be read when it has shots and its outcomes are as many binary
digits as it has qubits, on at most sixty-four of them; a direct reading wants one outcome. The value
is then the number of the outcome that leads, or the chart of all of them, and it hangs on how often
each outcome was seen in all, whatever the observations were like and in whatever order the counts
are gone through.
-/
namespace LazyCast

namespace Counts

section Scan
variable {α : Type} [Preorder α] (rank : String × Nat → α)
  {takes : String × Nat → String × Nat → Bool}
  (up : ∀ a b, takes a b = true → rank a ≤ rank b)
  (down : ∀ a b, takes a b = false → rank b ≤ rank a)
include up down

theorem foldl_scan (rest : List (String × Nat)) {e r : String × Nat}
    (ended : rest.foldl (fun kept next => if takes kept next then next else kept) e = r) :
    (r = e ∨ r ∈ rest) ∧ rank e ≤ rank r ∧ ∀ x ∈ rest, rank x ≤ rank r := by
  induction rest generalizing e with
  | nil => exact ⟨Or.inl ended.symm, ended ▸ le_rfl, fun x none => by cases none⟩
  | cons x rest ih =>
    rw [List.foldl_cons] at ended
    cases goes : takes e x with
    | true =>
      rw [goes, if_pos rfl] at ended
      obtain ⟨among, above, others⟩ := ih ended
      refine ⟨Or.inr ?_, (up e x goes).trans above, List.forall_mem_cons.mpr ⟨above, others⟩⟩
      exact List.mem_cons.mpr among
    | false =>
      rw [goes, if_neg Bool.false_ne_true] at ended
      obtain ⟨among, above, others⟩ := ih ended
      refine ⟨among.imp_right (List.mem_cons_of_mem x), above, ?_⟩
      exact List.forall_mem_cons.mpr ⟨(down e x goes).trans above, others⟩

theorem scan_eq_some {es : List (String × Nat)} {e : String × Nat}
    (found : scan takes es = some e) : e ∈ es ∧ ∀ x ∈ es, rank x ≤ rank e := by
  cases es with
  | nil => cases found
  | cons b rest =>
    obtain ⟨among, above, others⟩ := foldl_scan rank up down rest (Option.some.inj found)
    exact ⟨List.mem_cons.mpr among, List.forall_mem_cons.mpr ⟨above, others⟩⟩

end Scan

theorem scan_eq_none {takes : String × Nat → String × Nat → Bool} {es : List (String × Nat)} :
    scan takes es = none ↔ es = [] := by
  cases es <;> simp [scan]

variable {beats : Nat → Nat → Prop} {c c' : Counts} {e e' : String × Nat}

def Tops (c : Counts) (beats : Nat → Nat → Prop) (e : String × Nat) : Prop :=
  e ∈ c.entries ∧ ∀ x ∈ c.entries, beats e.2 x.2 ∨ x.2 = e.2 ∧ e.1 ≤ x.1

theorem tops_mostFrequent (found : c.mostFrequent? = some e) : c.Tops (fun n m => m < n) e := by
  -- Of entries with one count the one with the least outcome is the greatest.
  have below : ∀ a b : String × Nat, (compare a.2 b.2).then (compare b.1 a.1) = .gt ↔
      toLex (b.2, OrderDual.toDual b.1) < toLex (a.2, OrderDual.toDual a.1) := by
    intro a b
    rw [Ordering.then_eq_gt, Prod.Lex.toLex_lt_toLex, compare_gt_iff_gt, compare_eq_iff_eq,
      compare_gt_iff_gt, OrderDual.toDual_lt_toDual, eq_comm]
  obtain ⟨mem, greatest⟩ := scan_eq_some (fun e => toLex (e.2, OrderDual.toDual e.1))
    (fun a b goes => not_lt.mp fun less => bne_iff_ne.mp goes ((below a b).mpr less))
    (fun a b stays => ((below a b).mp (by simpa using stays)).le) found
  refine ⟨mem, fun x among => ?_⟩
  simpa only [Prod.Lex.toLex_le_toLex, OrderDual.toDual_le_toDual] using greatest x among

theorem tops_leastFrequent (found : c.leastFrequent? = some e) : c.Tops (fun n m => n < m) e := by
  have above : ∀ a b : String × Nat, (compare a.2 b.2).then (compare a.1 b.1) = .gt ↔
      toLex (b.2, b.1) < toLex (a.2, a.1) := by
    intro a b
    rw [Ordering.then_eq_gt, Prod.Lex.toLex_lt_toLex, compare_gt_iff_gt, compare_eq_iff_eq,
      compare_gt_iff_gt, eq_comm]
  obtain ⟨mem, least⟩ := scan_eq_some (fun e => OrderDual.toDual (toLex (e.2, e.1)))
    (fun a b goes => OrderDual.toDual_le_toDual.mpr ((above a b).mp (beq_iff_eq.mp goes)).le)
    (fun a b stays => OrderDual.toDual_le_toDual.mpr
      (not_lt.mp fun less => beq_eq_false_iff_ne.mp stays ((above a b).mpr less))) found
  refine ⟨mem, fun x among => ?_⟩
  simpa only [OrderDual.toDual_le_toDual, Prod.Lex.toLex_le_toLex, eq_comm] using least x among

theorem Tops.unique (asymm : ∀ n m, beats n m → ¬ beats m n) (tops : c.Tops beats e)
    (tops' : c.Tops beats e') : e = e' := by
  rcases tops.2 e' tops'.1 with more | ⟨same, least⟩
  · rcases tops'.2 e tops.1 with more' | ⟨same, _⟩
    · exact absurd more' (asymm _ _ more)
    · rw [same] at more
      exact absurd more (asymm _ _ more)
  · rcases tops'.2 e tops.1 with more' | ⟨_, least'⟩
    · rw [same] at more'
      exact absurd more' (asymm _ _ more')
    · exact Prod.ext (le_antisymm least least') same.symm

theorem scan_perm {takes : String × Nat → String × Nat → Bool}
    (tops : ∀ {c : Counts} {e}, scan takes c.entries = some e → c.Tops beats e)
    (asymm : ∀ n m, beats n m → ¬ beats m n) (perm : c'.entries.Perm c.entries) :
    scan takes c'.entries = scan takes c.entries := by
  cases found : scan takes c.entries with
  | none =>
    rw [scan_eq_none.mp found] at perm
    exact scan_eq_none.mpr perm.eq_nil
  | some e =>
    cases found' : scan takes c'.entries with
    | none =>
      rw [scan_eq_none.mp found'] at perm
      rw [← perm.nil_eq] at found
      cases found
    | some e' =>
      have moved : c.Tops beats e' := by
        obtain ⟨mem, above⟩ := tops found'
        exact ⟨perm.mem_iff.mp mem, fun x among => above x (perm.mem_iff.mpr among)⟩
      rw [moved.unique asymm (tops found)]

/-- No entry beats this one, and of those that it does not beat it has the least number. -/
def Leads (c : Counts) (beats : Nat → Nat → Prop) (e : String × Nat) : Prop :=
  e ∈ c.entries ∧ (∀ x ∈ c.entries, ¬ beats x.2 e.2) ∧
    ∀ x ∈ c.entries, ¬ beats e.2 x.2 → numeral e.1 ≤ numeral x.1

theorem Tops.leads (asymm : ∀ n m, beats n m → ¬ beats m n) {n : Nat}
    (formed : ∀ e ∈ c.entries, e.1.length = n ∧ Binary e.1) (tops : c.Tops beats e) :
    c.Leads beats e := by
  obtain ⟨mem, above⟩ := tops
  refine ⟨mem, fun x among more => ?_, fun x among level => ?_⟩
  · rcases above x among with less | ⟨same, _⟩
    · exact asymm _ _ less more
    · rw [same] at more
      exact asymm _ _ more more
  · obtain ⟨_, least⟩ := (above x among).resolve_left level
    rcases least.eq_or_lt with same | less
    · rw [same]
    · have long := (formed e mem).1.trans (formed x among).1.symm
      exact (numeral_lt_numeral long (formed e mem).2 (formed x among).2 less).le

end Counts

namespace MeasuredSample

/-- Shots, on one to sixty-four qubits, each outcome with a binary digit for every qubit. -/
structure Readable (s : MeasuredSample) : Prop where
  seen : s.counts.entries ≠ []
  drawn : 0 < s.counts.total
  some : 1 ≤ s.qubits.length
  few : s.qubits.length ≤ 64
  digits : ∀ e ∈ s.counts.entries, e.1.length = s.qubits.length ∧ Binary e.1

/-- The value has the bits of an outcome, as many as the sample has qubits. -/
def Shows (s : MeasuredSample) (outcome : String) (v : Value) : Prop :=
  ∃ bits : UInt64, v = .bits bits s.qubits.length ∧ bits.toNat = numeral outcome

/-- A table of the numbers of all outcomes, each with the count of its outcome. -/
def Charts (s : MeasuredSample) (h : Histogram) : Prop :=
  (∀ k n, h.find? k = some n ↔ ∃ o, (o, n) ∈ s.counts.entries ∧ numeral o = k) ∧
    sumOf h.values = s.counts.total

def Means (s : MeasuredSample) : ReadingPolicy → Value → Prop
  | .majorityVote, v => ∃ e, s.counts.Leads (fun n m => m < n) e ∧ s.Shows e.1 v
  | .leastFrequent, v => ∃ e, s.counts.Leads (fun n m => n < m) e ∧ s.Shows e.1 v
  | .histogram, v => ∃ h, s.Charts h ∧ v = .histogram h
  | .expectation, v => ∃ h, s.Charts h ∧ h.Ascending ∧
      v = .f64 ((h.entries.map fun e => Float.ofNat e.1 * Float.ofNat e.2).foldl (· + ·) 0 /
        Float.ofNat s.counts.total)
  | .direct, v => ∃ e, s.counts.entries = [e] ∧ s.Shows e.1 v

variable {s : MeasuredSample}

theorem readable_iff_formed : s.Readable ↔
    s.Formed ∧ 0 < s.counts.total ∧ s.qubits ≠ [] ∧ s.qubits.length ≤ 64 := by
  constructor
  · intro readable
    exact ⟨fun e mem => wellFormedOutcome_iff.mpr (readable.digits e mem), readable.drawn,
      List.ne_nil_of_length_pos readable.some, readable.few⟩
  · rintro ⟨formed, drawn, some, few⟩
    refine ⟨?_, drawn, List.length_pos_of_ne_nil some, few,
      fun e mem => wellFormedOutcome_iff.mp (formed e mem)⟩
    intro empty
    rw [Counts.total, Table.values, empty] at drawn
    exact Nat.lt_irrefl 0 drawn

theorem Readable.outcomeValue? (readable : s.Readable) {e : String × Nat}
    (mem : e ∈ s.counts.entries) : LazyCast.outcomeValue? e.1 = .some (numeral e.1) := by
  obtain ⟨long, binary⟩ := readable.digits e mem
  have some := readable.some
  have few := readable.few
  exact outcomeValue?_eq binary (by omega) (by omega)

theorem Readable.bitsOf (readable : s.Readable) {e : String × Nat}
    (mem : e ∈ s.counts.entries) :
    ∃ v, Interpreter.bitsOf e.1 s.qubits.length = .ok v ∧ s.Shows e.1 v := by
  have few := readable.few
  have fits : numeral e.1 < 2 ^ 64 :=
    (numeral_lt e.1).trans_le (Nat.pow_le_pow_right (by decide) ((readable.digits e mem).1 ▸ few))
  refine ⟨.bits (UInt64.ofNat (numeral e.1)) s.qubits.length, ?_, _, rfl, ?_⟩
  · rw [Interpreter.bitsOf, readable.outcomeValue? mem]
  · rw [UInt64.toNat_ofNat', Nat.mod_eq_of_lt fits]

theorem Readable.numeral_injective (readable : s.Readable) {x y : String × Nat}
    (left : x ∈ s.counts.entries) (right : y ∈ s.counts.entries)
    (same : numeral x.1 = numeral y.1) : x.1 = y.1 := by
  obtain ⟨long, binary⟩ := readable.digits x left
  obtain ⟨long', binary'⟩ := readable.digits y right
  exact LazyCast.numeral_injective (long.trans long'.symm) binary binary' same

def numbered (s : MeasuredSample) : Histogram :=
  Table.empty.tally (s.counts.entries.map fun e => (numeral e.1, e.2))

/-- No two outcomes have one number, so a number is seen as often as its outcome. -/
theorem Readable.find?_numbered (readable : s.Readable) (distinct : s.counts.keys.Nodup)
    {e : String × Nat} (mem : e ∈ s.counts.entries) :
    s.numbered.find? (numeral e.1) = .some e.2 := by
  have alone : amountWhere (fun o => decide (numeral o = numeral e.1)) s.counts.entries =
      amountWhere (fun o => decide (o = e.1)) s.counts.entries := by
    refine amountWhere_congr fun x among => decide_eq_decide.mpr ?_
    exact ⟨readable.numeral_injective among mem, congrArg numeral⟩
  have own : amountWhere (fun k => decide (k = numeral e.1))
      (s.counts.entries.map fun e => (numeral e.1, e.2)) = e.2 := by
    rw [amountWhere_map, alone, amountWhere_self distinct mem]
  have start : (Table.empty : Histogram).Ascending := List.Pairwise.nil
  rw [numbered, start.find?_tally, if_pos ⟨_, List.mem_map_of_mem mem, rfl⟩, own]
  exact congrArg Option.some (Nat.zero_add _)

theorem Readable.histogram? (readable : s.Readable) : s.histogram? = .some s.numbered :=
  histogram?_eq _ fun _ mem => readable.outcomeValue? mem

theorem Readable.charts (readable : s.Readable) (distinct : s.counts.keys.Nodup) :
    s.Charts s.numbered := by
  refine ⟨fun k n => ⟨fun found => ?_, ?_⟩, ?_⟩
  · rcases Table.mem_keys_tally (Table.mem_of_find? found) with none | ⟨x, mem, same⟩
    · cases none
    · obtain ⟨e, among, rfl⟩ := List.mem_map.mp mem
      have same : numeral e.1 = k := same
      rw [← same, readable.find?_numbered distinct among] at found
      cases found
      exact ⟨e.1, among, same⟩
  · rintro ⟨o, mem, rfl⟩
    exact readable.find?_numbered distinct (e := (o, n)) mem
  · have counts : (s.counts.entries.map fun e => (numeral e.1, e.2)).map Prod.snd =
        s.counts.entries.map Prod.snd := by
      rw [List.map_map]
      rfl
    rw [numbered, Table.sumOf_tally, counts]
    rfl

end MeasuredSample

namespace Interpreter
variable {i : Interpreter} {target : TypeName} {policy : ReadingPolicy} {s s' : MeasuredSample}

theorem flaw?_eq_none_iff : flaw? s = none ↔ s.Readable := by
  constructor
  · intro none
    unfold flaw? at none
    dsimp only at none
    split at none
    · cases none
    · rename_i drawn
      split at none
      · cases none
      · rename_i width
        have whole := List.find?_eq_none.mp (Option.map_eq_none_iff.mp none)
        refine MeasuredSample.readable_iff_formed.mpr ⟨fun e mem => ?_, Nat.pos_of_ne_zero drawn,
          fun empty => width (Or.inl (List.length_eq_zero_iff.mpr empty)), by omega⟩
        simpa using whole e.1 (List.mem_map_of_mem mem)
  · intro readable
    obtain ⟨formed, drawn, some, few⟩ := MeasuredSample.readable_iff_formed.mp readable
    exact flaw?_eq_none formed drawn.ne' some few

theorem flaw?_cause {cause : ReadingCause} (flaw : flaw? s = some cause) :
    (∀ o, cause ≠ .badOutcome o) ∧ cause ≠ .unreadableOutcomes := by
  unfold flaw? at flaw
  dsimp only at flaw
  split at flaw
  · cases flaw
    simp
  · split at flaw
    · cases flaw
      simp
    · obtain ⟨o, _, rfl⟩ := Option.map_eq_some_iff.mp flaw
      simp

theorem readMeasured_means (readable : s.Readable) (distinct : s.counts.keys.Nodup)
    (policy : ReadingPolicy) :
    (∃ v, readMeasured policy s = .ok v ∧ s.Means policy v ∧
        (policy = .direct → s.counts.size = 1)) ∨
      policy = .direct ∧ s.counts.size ≠ 1 ∧
        readMeasured policy s = .error (.severalOutcomes s.counts.size) := by
  unfold readMeasured
  dsimp only
  cases policy with
  | majorityVote =>
    obtain ⟨e, found⟩ : ∃ e, s.counts.mostFrequent? = some e :=
      Option.ne_none_iff_exists'.mp (mt Counts.scan_eq_none.mp readable.seen)
    have leads := (Counts.tops_mostFrequent found).leads (fun _ _ => lt_asymm) readable.digits
    obtain ⟨v, read, shows⟩ := readable.bitsOf leads.1
    simp only [found]
    exact Or.inl ⟨v, read, ⟨e, leads, shows⟩, fun no => by cases no⟩
  | leastFrequent =>
    obtain ⟨e, found⟩ : ∃ e, s.counts.leastFrequent? = some e :=
      Option.ne_none_iff_exists'.mp (mt Counts.scan_eq_none.mp readable.seen)
    have leads := (Counts.tops_leastFrequent found).leads (fun _ _ => lt_asymm) readable.digits
    obtain ⟨v, read, shows⟩ := readable.bitsOf leads.1
    simp only [found]
    exact Or.inl ⟨v, read, ⟨e, leads, shows⟩, fun no => by cases no⟩
  | histogram =>
    simp only [readable.histogram?]
    exact Or.inl ⟨_, rfl, ⟨_, readable.charts distinct, rfl⟩, fun no => by cases no⟩
  | expectation =>
    have charts := readable.charts distinct
    have ascending : s.numbered.Ascending := Table.Ascending.tally List.Pairwise.nil _
    simp only [readable.histogram?]
    refine Or.inl ⟨_, rfl, ⟨_, charts, ascending, ?_⟩, fun no => by cases no⟩
    rw [mean, charts.2]
  | direct =>
    by_cases one : s.counts.size = 1
    · obtain ⟨e, only⟩ := List.length_eq_one_iff.mp one
      have mem : e ∈ s.counts.entries := only ▸ List.mem_singleton_self e
      have found : s.counts.mostFrequent? = some e := by
        rw [Counts.mostFrequent?, only]
        rfl
      obtain ⟨v, read, shows⟩ := readable.bitsOf mem
      simp only [one, if_true, found]
      exact Or.inl ⟨v, read, ⟨e, only, shows⟩, fun _ => trivial⟩
    · rw [if_neg one]
      exact Or.inr ⟨rfl, one, rfl⟩

theorem interpret_flawed (registered : i.find? target = some policy) {cause : ReadingCause}
    (flaw : flaw? s = some cause) :
    i.interpret (.measured s) target = .error (.reading target cause) := by
  unfold interpret read
  rw [registered]
  simp only [flaw]
  rfl

theorem interpret_readable (registered : i.find? target = some policy) (readable : s.Readable) :
    i.interpret (.measured s) target = (readMeasured policy s).mapError (.reading target) := by
  unfold interpret read
  rw [registered]
  simp only [flaw?_eq_none_iff.mpr readable]

theorem interpret_congr (counts : s'.counts = s.counts) (qubits : s'.qubits = s.qubits) :
    i.interpret (.measured s') target = i.interpret (.measured s) target := by
  cases s
  cases s'
  cases counts
  cases qubits
  rfl

section Reordered
variable (perm : s'.counts.entries.Perm s.counts.entries) (qubits : s'.qubits = s.qubits)
include perm qubits

theorem readable_perm : s'.Readable ↔ s.Readable := by
  have total : s'.counts.total = s.counts.total := sumOf_perm (perm.map _)
  rw [MeasuredSample.readable_iff_formed, MeasuredSample.readable_iff_formed,
    MeasuredSample.Formed, MeasuredSample.Formed, total, qubits]
  simp only [perm.mem_iff]

theorem readMeasured_perm (readable : s.Readable) (policy : ReadingPolicy) :
    readMeasured policy s' = readMeasured policy s := by
  have readable' := (readable_perm perm qubits).mpr readable
  have most : s'.counts.mostFrequent? = s.counts.mostFrequent? :=
    Counts.scan_perm Counts.tops_mostFrequent (fun _ _ => lt_asymm) perm
  have least : s'.counts.leastFrequent? = s.counts.leastFrequent? :=
    Counts.scan_perm Counts.tops_leastFrequent (fun _ _ => lt_asymm) perm
  have chart : s'.numbered = s.numbered := by
    have perm := perm.map fun e => (numeral e.1, e.2)
    exact Table.tally_congr (fun k => by simp only [perm.mem_iff]) fun k => amountWhere_perm perm
  have size : s'.counts.size = s.counts.size := perm.length_eq
  unfold readMeasured
  simp only [most, least, size, qubits, readable.histogram?, readable'.histogram?, chart]

/-- A check of the entries in another order comes to the same, but it may meet another malformed
    outcome first. -/
theorem flaw?_perm : flaw? s' = flaw? s ∨
    ∃ o o', flaw? s = some (.malformedOutcome o s.qubits.length) ∧
      flaw? s' = some (.malformedOutcome o' s.qubits.length) := by
  have total : s'.counts.total = s.counts.total := sumOf_perm (perm.map _)
  have keys : s'.counts.keys.Perm s.counts.keys := perm.map _
  unfold flaw?
  dsimp only
  rw [total, qubits]
  split
  · exact Or.inl rfl
  split
  · exact Or.inl rfl
  have either : (s'.counts.keys.find? fun o => !wellFormedOutcome o s.qubits.length) = none ↔
      (s.counts.keys.find? fun o => !wellFormedOutcome o s.qubits.length) = none := by
    rw [List.find?_eq_none, List.find?_eq_none]
    simp only [keys.mem_iff]
  cases found : s.counts.keys.find? fun o => !wellFormedOutcome o s.qubits.length with
  | none =>
    rw [either.mpr found]
    exact Or.inl rfl
  | some o =>
    obtain ⟨o', found'⟩ := Option.ne_none_iff_exists'.mp
      (mt either.mp (by rw [found]; exact Option.some_ne_none o))
    rw [found']
    exact Or.inr ⟨o, o', rfl, rfl⟩

theorem interpret_perm (registered : i.find? target = some policy) :
    i.interpret (.measured s') target = i.interpret (.measured s) target ∨
      ∃ o o', i.interpret (.measured s) target =
          .error (.reading target (.malformedOutcome o s.qubits.length)) ∧
        i.interpret (.measured s') target =
          .error (.reading target (.malformedOutcome o' s.qubits.length)) := by
  rcases flaw?_perm perm qubits with same | ⟨o, o', flaw, flaw'⟩
  · left
    cases flaw : flaw? s with
    | some cause =>
      rw [interpret_flawed registered flaw, interpret_flawed registered (same.trans flaw)]
    | none =>
      have readable := flaw?_eq_none_iff.mp flaw
      rw [interpret_readable registered readable,
        interpret_readable registered ((readable_perm perm qubits).mpr readable),
        readMeasured_perm perm qubits readable]
  · right
    exact ⟨o, o', interpret_flawed registered flaw, interpret_flawed registered flaw'⟩

end Reordered

theorem interpret_ok (registered : i.find? target = some policy) (indirect : policy ≠ .direct)
    (readable : s.Readable) (distinct : s.counts.keys.Nodup) :
    ∃ v, i.interpret (.measured s) target = .ok v := by
  rw [interpret_readable registered readable]
  rcases readMeasured_means readable distinct policy with ⟨v, read, _⟩ | ⟨direct, _⟩
  · rw [read]
    exact ⟨v, rfl⟩
  · exact absurd direct indirect

/-- A sample is read just when it is readable, and directly only if it has one outcome. What it is
    read as is what the policy means, and the same for all observations that come to the same
    counts. No outcome that passes the check fails to be a number. The counts may stand in any
    order: the answer is the same, or an error that names a malformed outcome names another. -/
theorem reading_means (registered : i.find? target = some policy)
    (distinct : s.counts.keys.Nodup) :
    ((∃ v, i.interpret (.measured s) target = .ok v) ↔
      s.Readable ∧ (policy = .direct → s.counts.size = 1)) ∧
    (∀ v, i.interpret (.measured s) target = .ok v → s.Means policy v) ∧
    (∀ o, i.interpret (.measured s) target ≠ .error (.reading target (.badOutcome o))) ∧
    i.interpret (.measured s) target ≠ .error (.reading target .unreadableOutcomes) ∧
    (∀ (s' : MeasuredSample) (pairs pairs' : List (String × Nat)),
      s.counts = .ofPairs pairs → s'.counts = .ofPairs pairs' → s'.qubits = s.qubits →
      (∀ o, (∃ e ∈ pairs, e.1 = o) ↔ ∃ e ∈ pairs', e.1 = o) →
      (∀ o, amountWhere (fun k => decide (k = o)) pairs =
        amountWhere (fun k => decide (k = o)) pairs') →
      i.interpret (.measured s') target = i.interpret (.measured s) target) ∧
    ∀ s' : MeasuredSample, s'.counts.entries.Perm s.counts.entries → s'.qubits = s.qubits →
      i.interpret (.measured s') target = i.interpret (.measured s) target ∨
        ∃ o o', i.interpret (.measured s) target =
            .error (.reading target (.malformedOutcome o s.qubits.length)) ∧
          i.interpret (.measured s') target =
            .error (.reading target (.malformedOutcome o' s.qubits.length)) := by
  refine and_assoc.mp (and_assoc.mp (and_assoc.mp ⟨?_, ?_, fun s' perm qubits =>
    interpret_perm perm qubits registered⟩))
  · cases flaw : flaw? s with
    | some cause =>
      have unread : ¬ s.Readable := by
        intro readable
        rw [flaw?_eq_none_iff.mpr readable] at flaw
        cases flaw
      obtain ⟨number, chart⟩ := flaw?_cause flaw
      simp [interpret_flawed registered flaw, unread, number, chart]
    | none =>
      have readable := flaw?_eq_none_iff.mp flaw
      rw [interpret_readable registered readable]
      rcases readMeasured_means readable distinct policy with
        ⟨v, read, means, one⟩ | ⟨rfl, several, read⟩
      · simpa [Except.mapError, read, readable, means] using one
      · simp [Except.mapError, read, several]
  · intro s' pairs pairs' counts counts' qubits keys amounts
    refine interpret_congr ?_ qubits
    rw [counts, counts']
    exact (Table.tally_congr keys amounts).symm

def tied : MeasuredSample := ⟨⟨[("001", 2), ("011", 5), ("110", 5)]⟩, 12, [4, 9, 2], none⟩

/-- The lesser number wins a tie. -/
theorem tied_means : ∃ bits : UInt64,
    builtin.interpret (.measured tied) "u64" = .ok (.bits bits 3) ∧ bits.toNat = 3 := by
  have registered : builtin.find? "u64" = some .majorityVote := by decide
  have readable : tied.Readable :=
    ⟨by decide, by decide, by decide, by decide, by decide +kernel⟩
  obtain ⟨reads, means, _⟩ := reading_means registered (s := tied) (by decide +kernel)
  obtain ⟨v, read⟩ := reads.mpr ⟨readable, by decide⟩
  obtain ⟨e, ⟨mem, most, least⟩, bits, rfl, number⟩ := means v read
  refine ⟨bits, read, number.trans ?_⟩
  simp only [tied, List.mem_cons, List.not_mem_nil, or_false] at mem
  rcases mem with rfl | rfl | rfl
  · exact absurd (by decide) (most ("011", 5) (by decide))
  · decide +kernel
  · exact absurd (least ("011", 5) (by decide) (by decide)) (by decide +kernel)

end Interpreter
end LazyCast
