import LazyCast.Proofs.Circuit.Distribution
import LazyCast.Simulator
/-!
Waves that are one basis state. A gate that turns no qubit moves basis states about, up to sign, so
it takes such a wave to such a wave. This holds of floats as it stands: the amplitudes are zeros and
ones, on which their arithmetic is exact.
-/
namespace LazyCast
namespace Gate
open Amplitudes

def isPermuting : Gate → Bool
  | h _ => false
  | ry _ _ => false
  | _ => true

/-- Where a gate takes a basis state, its sign apart. -/
def moves : Gate → Nat → Nat
  | x k, i => flip k i
  | cx control target, i => if i.testBit control ∧ control ≠ target then flip target i else i
  | swap p q, i => if i.testBit p = i.testBit q then i else flip q (flip p i)
  | _, i => i

theorem moves_moves (g : Gate) (i : Nat) : g.moves (g.moves i) = i := by
  cases g with
  | x k => exact flip_flip k i
  | cx control target =>
    by_cases on : i.testBit control = true ∧ control ≠ target
    · have moved : (cx control target).moves i = flip target i := if_pos on
      have still : (flip target i).testBit control = true ∧ control ≠ target := by
        rw [testBit_flip]
        simp [on.1, on.2, Ne.symm on.2]
      rw [moved]
      exact (if_pos still).trans (flip_flip target i)
    · have same : (cx control target).moves i = i := if_neg on
      rw [same, same]
  | swap p q =>
    by_cases same : i.testBit p = i.testBit q
    · have same : (swap p q).moves i = i := if_pos same
      rw [same, same]
    · have moved : (swap p q).moves i = flip q (flip p i) := if_neg same
      have apart : p ≠ q := fun equal => same (equal ▸ rfl)
      have still : ¬ (flip q (flip p i)).testBit p = (flip q (flip p i)).testBit q := by
        simp only [testBit_flip]
        cases hp : i.testBit p <;> cases hq : i.testBit q <;>
          simp_all [Ne.symm apart]
      rw [moved]
      refine (if_neg still).trans ?_
      rw [flip_comm q p (flip q (flip p i)), Amplitudes.flip_flip, Amplitudes.flip_flip]
  | _ => rfl

theorem testBit_moves {g : Gate} {k : Nat} (outside : k ∉ g.qubits) (i : Nat) :
    (g.moves i).testBit k = i.testBit k := by
  cases g with
  | x q =>
    have apart : q ≠ k := by simpa [qubits, eq_comm] using outside
    simp [moves, testBit_flip, apart]
  | cx control target =>
    have apart : target ≠ k := fun same => outside (by simp [qubits, same])
    simp only [moves]
    split <;> simp [testBit_flip, apart]
  | swap p q =>
    have first : p ≠ k := fun same => outside (by simp [qubits, same])
    have second : q ≠ k := fun same => outside (by simp [qubits, same])
    simp only [moves]
    split <;> simp [testBit_flip, first, second]
  | _ => rfl

/-- A permuting gate shows each amplitude at the state it was moved to, as it was or negated. -/
theorem wave_moves {α : Type} [Add α] [Mul α] [Neg α] (t : Trigonometry α) {g : Gate}
    (permuting : g.isPermuting = true) (ψ : Nat → α) (i : Nat) :
    g.wave t ψ i = ψ (g.moves i) ∨ g.wave t ψ i = -ψ (g.moves i) := by
  cases g with
  | x k => exact Or.inl rfl
  | cx control target =>
    refine Or.inl ?_
    simp only [wave, moves]
    split <;> rfl
  | swap p q =>
    refine Or.inl ?_
    simp only [wave, moves]
    split <;> rfl
  | z k =>
    simp only [wave, moves]
    split
    · exact Or.inr rfl
    · exact Or.inl rfl
  | cz p q =>
    simp only [wave, moves]
    split
    · exact Or.inr rfl
    · exact Or.inl rfl
  | h k => cases permuting
  | ry angle k => cases permuting

def Certain (a : Float) : Prop := a = 1 ∨ a = -1

def Impossible (a : Float) : Prop := a = 0 ∨ a = -0

theorem Certain.neg {a : Float} (certain : Certain a) : Certain (-a) := by
  rcases certain with rfl | rfl
  · exact Or.inr rfl
  · exact Or.inl (by decide +kernel)

theorem Impossible.neg {a : Float} (impossible : Impossible a) : Impossible (-a) := by
  rcases impossible with rfl | rfl
  · exact Or.inr rfl
  · exact Or.inl (by decide +kernel)

/-- The wave is the basis state `s`, up to sign. -/
structure Definite (ψ : Nat → Float) (s : Nat) : Prop where
  here : Certain (ψ s)
  elsewhere : ∀ i, i ≠ s → Impossible (ψ i)

theorem definite_vacuum : Definite vacuum 0 :=
  ⟨Or.inl rfl, fun _ other => Or.inl (if_neg other)⟩

theorem Definite.wave {ψ : Nat → Float} {s : Nat} (definite : Definite ψ s)
    (t : Trigonometry Float) {g : Gate} (permuting : g.isPermuting = true) :
    Definite (g.wave t ψ) (g.moves s) := by
  refine ⟨?_, fun i other => ?_⟩
  · have here := definite.here
    rcases wave_moves t permuting ψ (g.moves s) with same | negated
    · rwa [same, moves_moves]
    · rw [negated, moves_moves]
      exact here.neg
  · have other : g.moves i ≠ s := fun same => other (by rw [← same, moves_moves])
    have there := definite.elsewhere _ other
    rcases wave_moves t permuting ψ i with same | negated
    · rwa [same]
    · rw [negated]
      exact there.neg

end Gate

def movesOf (ops : List NativeOp) (s : Nat) : Nat := (gatesOn ops).foldl (fun s g => g.moves s) s

def Permuting (ops : List NativeOp) : Prop := ∀ g ∈ gatesOn ops, g.isPermuting = true

section Operations
variable {ops xs ys : List NativeOp}

theorem gatesOn_append (xs ys : List NativeOp) : gatesOn (xs ++ ys) = gatesOn xs ++ gatesOn ys :=
  List.filterMap_append

theorem movesOf_append (xs ys : List NativeOp) (s : Nat) :
    movesOf (xs ++ ys) s = movesOf ys (movesOf xs s) := by
  rw [movesOf, gatesOn_append, List.foldl_append]
  rfl

theorem Permuting.sublist (permuting : Permuting xs) (sublist : ys.Sublist xs) : Permuting ys :=
  fun g mem => permuting g ((sublist.filterMap _).subset mem)

theorem definite_waveOf (permuting : Permuting ops) (t : Trigonometry Float) :
    Gate.Definite (waveOf t ops) (movesOf ops 0) := by
  have steps : ∀ (gs : List Gate) (ψ : Nat → Float) (s : Nat),
      (∀ g ∈ gs, g.isPermuting = true) → Gate.Definite ψ s →
        Gate.Definite (gs.foldl (fun ψ g => g.wave t ψ) ψ) (gs.foldl (fun s g => g.moves s) s) := by
    intro gs
    induction gs with
    | nil => exact fun _ _ _ definite => definite
    | cons g gs ih =>
      exact fun ψ s all definite => ih _ _ (fun g mem => all g (List.mem_cons_of_mem _ mem))
        (definite.wave t (all g List.mem_cons_self))
  exact steps _ _ _ permuting Gate.definite_vacuum

theorem testBit_movesOf {k : Nat} (outside : k ∉ (Circuit.touched ops).elems) (s : Nat) :
    (movesOf ops s).testBit k = s.testBit k := by
  have steps : ∀ (gs : List Gate) (s : Nat), (∀ g ∈ gs, k ∉ g.qubits) →
      (gs.foldl (fun s g => g.moves s) s).testBit k = s.testBit k := by
    intro gs
    induction gs with
    | nil => exact fun _ _ => rfl
    | cons g gs ih =>
      intro s apart
      rw [List.foldl_cons, ih _ fun g mem => apart g (List.mem_cons_of_mem _ mem),
        Gate.testBit_moves (apart g List.mem_cons_self)]
  exact steps _ s fun g mem inside => outside (qubits_gatesOn mem k inside)

end Operations

namespace Amplitudes
variable {as : List Float}

theorem runningSums_impossible (impossible : ∀ a ∈ as, Gate.Impossible a) (sum : Float) (i : Nat) :
    runningSums Simulator.threshold sum i as = [] := by
  induction as generalizing i with
  | nil => rfl
  | cons a rest ih =>
    have low : a * a ≤ Simulator.threshold := by
      rcases impossible a List.mem_cons_self with rfl | rfl <;> decide +kernel
    rw [runningSums, if_pos low]
    exact ih (fun b mem => impossible b (List.mem_cons_of_mem _ mem)) _

theorem runningSums_certain {a : Float} {j : Nat} (at_j : as[j]? = some a)
    (certain : Gate.Certain a) (others : ∀ k b, as[k]? = some b → k ≠ j → Gate.Impossible b)
    (i : Nat) : runningSums Simulator.threshold 0 i as = [(i + j, 1)] := by
  induction as generalizing i j with
  | nil => cases at_j
  | cons b rest ih =>
    cases j with
    | zero =>
      obtain rfl : b = a := by simpa using at_j
      have high : ¬ b * b ≤ Simulator.threshold := by
        rcases certain with rfl | rfl <;> decide +kernel
      have one : (0 : Float) + b * b = 1 := by
        rcases certain with rfl | rfl <;> decide +kernel
      have later : ∀ c ∈ rest, Gate.Impossible c := by
        intro c mem
        obtain ⟨k, found⟩ := List.mem_iff_getElem?.mp mem
        exact others (k + 1) c (by simpa using found) (Nat.succ_ne_zero k)
      rw [runningSums, if_neg high, one, runningSums_impossible later]
      rfl
    | succ j =>
      have low : b * b ≤ Simulator.threshold := by
        rcases others 0 b rfl (Nat.succ_ne_zero j).symm with rfl | rfl <;> decide +kernel
      rw [runningSums, if_pos low, ih (by simpa using at_j)
        fun k c found other => others (k + 1) c (by simpa using found) (by omega)]
      congr 2
      omega

theorem pick_single {α : Type} [LT α] [DecidableLT α] (j : Nat) (sum r : α) :
    pick [(j, sum)] r = j := by
  unfold pick
  by_cases less : r < sum <;> simp [less]

end Amplitudes

namespace Circuit
variable {c : Circuit} {ops : List NativeOp} {allowed : Nat}

theorem tally_single {α : Type} [LT α] [DecidableLT α] (c : Circuit) (j : Nat) (sum : α)
    {draws : List α} (some : draws ≠ []) :
    c.tally [(j, sum)] draws = ⟨[(c.outcome j, draws.length)]⟩ := by
  have drawn : ∀ (draws : List α) (n : Nat), draws.foldl
      (fun (t : Table Nat Nat) r =>
        t.update (Amplitudes.pick [(j, sum)] r) fun seen => seen.getD 0 + 1) ⟨[(j, n)]⟩ =
          ⟨[(j, n + draws.length)]⟩ := by
    intro draws
    induction draws with
    | nil => exact fun _ => rfl
    | cons r rest ih =>
      intro n
      have step : (Table.mk [(j, n)]).update (Amplitudes.pick [(j, sum)] r)
          (fun seen => seen.getD 0 + 1) = ⟨[(j, n + 1)]⟩ := by
        simp [Amplitudes.pick_single, Table.update, Table.updateEntry]
      rw [List.foldl_cons, step, ih, List.length_cons]
      congr 3
      omega
  obtain ⟨r, rest, rfl⟩ := List.exists_cons_of_ne_nil some
  have first : (Table.empty : Table Nat Nat).update (Amplitudes.pick [(j, sum)] r)
      (fun seen => seen.getD 0 + 1) = ⟨[(j, 1)]⟩ := by
    simp [Amplitudes.pick_single, Table.update, Table.updateEntry, Table.empty]
  unfold tally
  rw [List.foldl_cons, first, drawn]
  simp [Counts.ofPairs, Counts.add, Table.update, Table.updateEntry, Table.empty, Nat.add_comm]

theorem runningSums_of_permuting (made : ofOps allowed ops = .ok c) (permuting : Permuting ops) :
    ∃ j, Amplitudes.runningSums Simulator.threshold 0 0 (c.amplitudes floatTrigonometry).toList =
      [(j, 1)] ∧ c.outcome j = label (readout ops) (movesOf ops 0) := by
  have nodup := nodup_touched ops
  have definite := definite_waveOf permuting floatTrigonometry
  have held : ∀ k, (movesOf ops 0).testBit k = true → k ∈ (touched ops).elems := by
    intro k set
    by_contra outside
    rw [testBit_movesOf outside] at set
    simp at set
  have placed := spread_gather nodup held
  have inside : gather (touched ops).elems (movesOf ops 0) < pow2 (touched ops).size :=
    gather_lt _ _
  refine ⟨gather (touched ops).elems (movesOf ops 0), ?_, by rw [outcome_eq made, placed]⟩
  have entry : ∀ k b, (c.amplitudes floatTrigonometry).toList[k]? = some b →
      k < pow2 (touched ops).size ∧
        b = waveOf floatTrigonometry ops (spread (touched ops).elems k) := by
    intro k b found
    rw [amplitudes_eq made] at found
    simp only [Amplitudes.ofFunction, Array.toList_ofFn, List.getElem?_ofFn] at found
    split at found
    · rename_i within
      exact ⟨within, (Option.some.inj found).symm⟩
    · cases found
  have found : (c.amplitudes floatTrigonometry).toList[gather (touched ops).elems (movesOf ops 0)]? =
      some (waveOf floatTrigonometry ops (movesOf ops 0)) := by
    rw [amplitudes_eq made, Array.getElem?_toList, Amplitudes.getElem?_ofFunction inside, placed]
  rw [Amplitudes.runningSums_certain found definite.here fun k b found other => ?_, Nat.zero_add]
  obtain ⟨within, rfl⟩ := entry k b found
  refine definite.elsewhere _ fun same => other ?_
  exact spread_injective nodup within inside (same.trans placed.symm)

end Circuit

namespace Random

theorem size_quarterRound (i j k l : Nat) (b : Block) :
    (quarterRound i j k l b).words.size = b.words.size := by
  simp [quarterRound, mix, Block.set]

theorem size_doubleRound (b : Block) : (doubleRound b).words.size = b.words.size := by
  simp only [doubleRound, size_quarterRound]

theorem length_block (key : List Word) (counter : Nat) :
    (block key counter).length = key.length + 8 := by
  have before : (start key counter).words.size = key.length + 8 := by
    simp [start, constants]
  simp [block, size_doubleRound, before]

theorem length_keyWords (n : Nat) (state : UInt64) : (keyWords n state).length = n := by
  induction n generalizing state with
  | zero => rfl
  | succ n ih => rw [keyWords, List.length_cons, ih]

theorem length_pairUp (words : List Word) : (pairUp words).length = words.length / 2 := by
  fun_induction pairUp words with
  | case1 low high rest ih =>
    rw [List.length_cons, ih, List.length_cons, List.length_cons]
    omega
  | case2 words few =>
    rcases words with _ | ⟨low, _ | ⟨high, rest⟩⟩
    · rfl
    · simp
    · exact absurd rfl (few low high rest)

theorem length_draws (seed : UInt64) (n : Nat) : (draws seed n).length = n := by
  have key : (keyOf seed).length = 8 := length_keyWords 8 seed
  have each : ∀ i, (pairUp (block (keyOf seed) i)).length = 8 := by
    intro i
    rw [length_pairUp, length_block, key]
  unfold draws
  dsimp only
  rw [List.length_take, List.length_flatMap]
  simp only [each, List.map_const', List.length_range, List.sum_replicate, smul_eq_mul]
  omega

theorem draws_ne_nil (seed : UInt64) {n : Nat} (some : n ≠ 0) : draws seed n ≠ [] := by
  intro none
  have long := length_draws seed n
  rw [none] at long
  exact some long.symm

end Random

namespace Simulator
variable {s : Simulator} {ops : List NativeOp} {c : Circuit}

theorem sample_of_permuting (made : Circuit.ofOps s.maxQubits ops = .ok c)
    (permuting : Permuting ops) (shots : s.shots ≠ 0) (run : Nat) :
    ∃ count, count ≠ 0 ∧ (s.sample run ops c).counts =
      ⟨[(Circuit.label (Circuit.readout ops) (movesOf ops 0), count)]⟩ := by
  obtain ⟨j, sums, outcome⟩ := Circuit.runningSums_of_permuting made permuting
  have some := Random.draws_ne_nil (s.seedOf run) shots
  refine ⟨_, fun none => some (List.length_eq_zero_iff.mp none), ?_⟩
  unfold sample
  dsimp only
  rw [sums, Circuit.tally_single c j 1 some, outcome]

end Simulator
end LazyCast
