import LazyCast.Proofs.Circuit.Confined
/-!
Qubits that are tied to one another. A spread of the first of some qubits and a controlled flip from
each to the next leave possible only the states in which all of them agree, whatever other gates
come in between on other qubits.
-/
namespace LazyCast.Gate
variable {qs rest : List Nat} {t : Trigonometry Float} {g : Gate} {gs : List Gate}

def Meets (qs : List Nat) (g : Gate) : Prop := ∃ q ∈ g.qubits, q ∈ qs

instance (qs : List Nat) (g : Gate) : Decidable (g.Meets qs) :=
  inferInstanceAs (Decidable (∃ q ∈ g.qubits, q ∈ qs))

def links : List Nat → List Gate
  | p :: q :: rest => cx p q :: links (q :: rest)
  | _ => []

def tie : List Nat → List Gate
  | [] => []
  | q :: rest => h q :: links (q :: rest)

theorem mem_links (mem : g ∈ links qs) : ∃ p ∈ qs, ∃ q ∈ qs, g = cx p q := by
  induction qs with
  | nil => cases mem
  | cons p rest ih =>
    cases rest with
    | nil => cases mem
    | cons q rest =>
      rcases List.mem_cons.mp mem with rfl | later
      · exact ⟨p, List.mem_cons_self, q, List.mem_cons_of_mem p List.mem_cons_self, rfl⟩
      · obtain ⟨c, control, d, target, same⟩ := ih later
        exact ⟨c, List.mem_cons_of_mem p control, d, List.mem_cons_of_mem p target, same⟩

theorem nodup_links (nodup : qs.Nodup) : (links qs).Nodup := by
  induction qs with
  | nil => exact List.nodup_nil
  | cons p rest ih =>
    cases rest with
    | nil => exact List.nodup_nil
    | cons q rest =>
      obtain ⟨fresh, nodup⟩ := List.nodup_cons.mp nodup
      apply List.nodup_cons.mpr
      constructor
      · intro again
        obtain ⟨c, control, d, _, same⟩ := mem_links again
        cases same
        exact fresh control
      · exact ih nodup

theorem nodup_tie (nodup : qs.Nodup) : (tie qs).Nodup := by
  cases qs with
  | nil => exact List.nodup_nil
  | cons q rest =>
    apply List.nodup_cons.mpr
    constructor
    · intro again
      obtain ⟨_, _, _, _, same⟩ := mem_links again
      cases same
    · exact nodup_links nodup

theorem meets_tie (mem : g ∈ tie qs) : g.Meets qs := by
  cases qs with
  | nil => cases mem
  | cons q rest =>
    rcases List.mem_cons.mp mem with rfl | later
    · exact ⟨q, List.mem_singleton_self q, List.mem_cons_self⟩
    · obtain ⟨p, control, d, _, rfl⟩ := mem_links later
      exact ⟨p, List.mem_cons_self, control⟩

/-- The states in which some qubits agree, those of a rest apart, which are not set. -/
def Tied (qs rest : List Nat) (i : Nat) : Prop :=
  (∀ p ∈ qs, ∀ q ∈ qs, p ∉ rest → q ∉ rest → i.testBit p = i.testBit q) ∧
    ∀ q ∈ rest, i.testBit q = false

theorem Tied.apart (apart : ¬ g.Meets qs) (inside : rest ⊆ qs) {i j : Nat}
    (source : j ∈ g.sources i) (tied : Tied qs rest j) : Tied qs rest i := by
  have same : ∀ q ∈ qs, j.testBit q = i.testBit q := by
    intro q mem
    apply testBit_sources _ source
    intro at_q
    exact apart ⟨q, at_q, mem⟩
  obtain ⟨agree, clear⟩ := tied
  constructor
  · intro p memp q memq outp outq
    rw [← same p memp, ← same q memq]
    exact agree p memp q memq outp outq
  · intro q mem
    rw [← same q (inside mem)]
    exact clear q mem

theorem Tied.start {q : Nat} (nodup : (q :: rest).Nodup) {i j : Nat}
    (source : j ∈ (h q).sources i) (tied : Tied (q :: rest) (q :: rest) j) :
    Tied (q :: rest) rest i := by
  obtain ⟨fresh, _⟩ := List.nodup_cons.mp nodup
  have first : ∀ p ∈ q :: rest, p ∉ rest → p = q := by
    intro p mem out
    exact (List.mem_cons.mp mem).resolve_right out
  constructor
  · intro p memp r memr outp outr
    rw [first p memp outp, first r memr outr]
  · intro p mem
    have other : p ∉ (h q).qubits := by
      intro same
      rw [List.mem_singleton.mp same] at mem
      exact fresh mem
    rw [← testBit_sources other source]
    exact tied.2 p (List.mem_cons_of_mem q mem)

theorem Tied.link {p q : Nat} (nodup : (p :: q :: rest).Nodup) (inside : p :: q :: rest ⊆ qs)
    {i j : Nat} (source : j ∈ (cx p q).sources i) (tied : Tied qs (q :: rest) j) :
    Tied qs rest i := by
  obtain ⟨before, nodup⟩ := List.nodup_cons.mp nodup
  obtain ⟨fresh, _⟩ := List.nodup_cons.mp nodup
  obtain ⟨agree, clear⟩ := tied
  have apart : p ≠ q := by
    rintro rfl
    exact before List.mem_cons_self
  have moved : j = if i.testBit p ∧ p ≠ q then Amplitudes.flip q i else i :=
    List.mem_singleton.mp source
  have off : j.testBit q = false := clear q List.mem_cons_self
  have target : i.testBit q = i.testBit p := by
    cases on : i.testBit p with
    | false =>
      rw [on, if_neg (by simp)] at moved
      rw [moved] at off
      exact off
    | true =>
      rw [on, if_pos ⟨rfl, apart⟩] at moved
      rw [moved, Amplitudes.testBit_flip] at off
      simpa using off
  have others : ∀ r, r ≠ q → j.testBit r = i.testBit r := by
    intro r other
    rw [moved]
    split
    · simp [Amplitudes.testBit_flip, Ne.symm other]
    · rfl
  have joins : ∀ r ∈ qs, r ∉ rest → i.testBit r = i.testBit p := by
    intro r mem out
    by_cases same : r = q
    · rw [same]
      exact target
    · rw [← others r same, ← others p apart]
      apply agree r mem p (inside List.mem_cons_self)
      · simp [same, out]
      · exact before
  constructor
  · intro r memr s mems outr outs
    rw [joins r memr outr, joins s mems outs]
  · intro r mem
    have other : r ≠ q := by
      rintro rfl
      exact fresh mem
    rw [← others r other]
    exact clear r (List.mem_cons_of_mem q mem)

/-- Gates that clear a rest, each tying the next qubit of it to the qubits before. -/
inductive Tying (qs : List Nat) : List Gate → List Nat → Prop
  | done : Tying qs [] []
  | step {q : Nat} {rest : List Nat} {g : Gate} {gs : List Gate}
      (ties : ∀ i j, j ∈ g.sources i → Tied qs (q :: rest) j → Tied qs rest i)
      (later : Tying qs gs rest) : Tying qs (g :: gs) (q :: rest)

theorem tying_links {p : Nat} (nodup : (p :: rest).Nodup) (inside : p :: rest ⊆ qs) :
    Tying qs (links (p :: rest)) rest := by
  induction rest generalizing p with
  | nil => exact .done
  | cons q rest ih =>
    apply Tying.step
    · intro i j source
      exact Tied.link nodup inside source
    · exact ih (List.nodup_cons.mp nodup).2 (List.cons_subset.mp inside).2

theorem tying_tie (nodup : qs.Nodup) : Tying qs (tie qs) qs := by
  cases qs with
  | nil => exact .done
  | cons q rest =>
    apply Tying.step
    · intro i j source
      exact Tied.start nodup source
    · exact tying_links nodup (List.Subset.refl _)

/-- Gates of which those on some qubits tie them, from a rest of them on, leave only states in
    which all of them agree. -/
theorem confined_tying {ψ : Nat → Float} (own : Tying qs (gs.filter fun g => g.Meets qs) rest)
    (inside : rest ⊆ qs) (finite : ∀ g ∈ gs, g.Finite t) (confined : Confined (Tied qs rest) ψ) :
    Confined (Tied qs []) (gs.foldl (fun ψ g => g.wave t ψ) ψ) := by
  induction gs generalizing rest ψ with
  | nil =>
    cases own
    exact confined
  | cons g gs ih =>
    obtain ⟨first, later⟩ := List.forall_mem_cons.mp finite
    by_cases meets : g.Meets qs
    · rw [List.filter_cons_of_pos (by simpa using meets)] at own
      cases own with
      | step ties own =>
        apply ih own (List.cons_subset.mp inside).2 later
        apply confined.wave first
        intro i j source
        exact ties i j source
    · rw [List.filter_cons_of_neg (by simpa using meets)] at own
      apply ih own inside later
      apply confined.wave first
      intro i j source
      exact Tied.apart meets inside source

theorem confined_vacuum : Confined (Tied qs qs) vacuum := by
  intro i loose
  apply Or.inl
  apply if_neg
  rintro rfl
  apply loose
  constructor
  · intro p _ q _ _ _
    rw [Nat.zero_testBit, Nat.zero_testBit]
  · intro q _
    exact Nat.zero_testBit q

end LazyCast.Gate
