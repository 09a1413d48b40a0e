import Mathlib.Data.List.Forall2
/-!
Two lists gone through side by side. Each keeps its order, and the elements may be changed on the
way, each to one that is related to it.
-/
namespace LazyCast
variable {α β γ δ : Type}

/-- Every element of the last list stands for the next one of either of the other two. -/
inductive Shuffles (R : α → β → Prop) : List α → List α → List β → Prop where
  | nil : Shuffles R [] [] []
  | left {x : α} {z : β} {xs ys : List α} {zs : List β} (related : R x z)
      (rest : Shuffles R xs ys zs) : Shuffles R (x :: xs) ys (z :: zs)
  | right {y : α} {z : β} {xs ys : List α} {zs : List β} (related : R y z)
      (rest : Shuffles R xs ys zs) : Shuffles R xs (y :: ys) (z :: zs)

namespace Shuffles
variable {R : α → β → Prop} {xs ys : List α} {zs : List β}

theorem symm (s : Shuffles R xs ys zs) : Shuffles R ys xs zs := by
  induction s with
  | nil => exact .nil
  | left related _ ih => exact .right related ih
  | right related _ ih => exact .left related ih

theorem append_left {as : List α} {cs : List β} (front : List.Forall₂ R as cs)
    (s : Shuffles R xs ys zs) : Shuffles R (as ++ xs) ys (cs ++ zs) := by
  induction front with
  | nil => exact s
  | cons related _ ih => exact .left related ih

theorem append_right {as : List α} {cs : List β} (front : List.Forall₂ R as cs)
    (s : Shuffles R xs ys zs) : Shuffles R xs (as ++ ys) (cs ++ zs) :=
  (s.symm.append_left front).symm

theorem left_mem (s : Shuffles R xs ys zs) : ∀ x ∈ xs, ∃ z ∈ zs, R x z := by
  induction s with
  | nil => intro x mem; cases mem
  | @left x z xs ys zs related _ ih =>
    intro a mem
    rcases List.mem_cons.mp mem with rfl | mem
    · exact ⟨z, List.mem_cons_self, related⟩
    · obtain ⟨c, among, related⟩ := ih a mem
      exact ⟨c, List.mem_cons_of_mem z among, related⟩
  | @right y z xs ys zs _ _ ih =>
    intro a mem
    obtain ⟨c, among, related⟩ := ih a mem
    exact ⟨c, List.mem_cons_of_mem z among, related⟩

theorem mem (s : Shuffles R xs ys zs) :
    ∀ z ∈ zs, (∃ x ∈ xs, R x z) ∨ ∃ y ∈ ys, R y z := by
  induction s with
  | nil => intro z mem; cases mem
  | @left x z xs ys zs related _ ih =>
    intro c mem
    rcases List.mem_cons.mp mem with rfl | mem
    · exact Or.inl ⟨x, List.mem_cons_self, related⟩
    · rcases ih c mem with ⟨a, among, related⟩ | other
      · exact Or.inl ⟨a, List.mem_cons_of_mem x among, related⟩
      · exact Or.inr other
  | @right y z xs ys zs related _ ih =>
    intro c mem
    rcases List.mem_cons.mp mem with rfl | mem
    · exact Or.inr ⟨y, List.mem_cons_self, related⟩
    · rcases ih c mem with other | ⟨b, among, related⟩
      · exact Or.inl other
      · exact Or.inr ⟨b, List.mem_cons_of_mem y among, related⟩

theorem flatMap {Q : γ → δ → Prop} {f : α → List γ} {g : β → List δ}
    (each : ∀ {x z}, R x z → List.Forall₂ Q (f x) (g z)) (s : Shuffles R xs ys zs) :
    Shuffles Q (xs.flatMap f) (ys.flatMap f) (zs.flatMap g) := by
  induction s with
  | nil => exact .nil
  | left related _ ih => exact ih.append_left (each related)
  | right related _ ih => exact ih.append_right (each related)

theorem filterMap {f : α → Option γ} {g : β → Option γ} (each : ∀ {x z}, R x z → f x = g z)
    (s : Shuffles R xs ys zs) : Shuffles Eq (xs.filterMap f) (ys.filterMap f) (zs.filterMap g) := by
  induction s with
  | nil => exact .nil
  | @left x z xs ys zs related _ ih =>
    rw [List.filterMap_cons, List.filterMap_cons, each related]
    cases g z with
    | none => exact ih
    | some c => exact .left rfl ih
  | @right y z xs ys zs related _ ih =>
    rw [List.filterMap_cons, List.filterMap_cons, each related]
    cases g z with
    | none => exact ih
    | some c => exact .right rfl ih

theorem follow {Q : β → γ → Prop} {T : α → γ → Prop}
    (each : ∀ {x z w}, R x z → Q z w → T x w) (s : Shuffles R xs ys zs) {ws : List γ}
    (others : List.Forall₂ Q zs ws) : Shuffles T xs ys ws := by
  induction s generalizing ws with
  | nil =>
    cases others
    exact .nil
  | left related _ ih =>
    cases others with
    | cons first rest => exact .left (each related first) (ih rest)
  | right related _ ih =>
    cases others with
    | cons first rest => exact .right (each related first) (ih rest)

theorem lead {P : α → γ → Prop} {P' : β → δ → Prop} {Q : γ → δ → Prop}
    (each : ∀ {x z p}, x ∈ xs ∨ x ∈ ys → R x z → P x p → ∃ q, P' z q ∧ Q p q)
    (s : Shuffles R xs ys zs) {ps qs : List γ} (lefts : List.Forall₂ P xs ps)
    (rights : List.Forall₂ P ys qs) : ∃ rs, List.Forall₂ P' zs rs ∧ Shuffles Q ps qs rs := by
  induction s generalizing ps qs with
  | nil =>
    cases lefts
    cases rights
    exact ⟨[], .nil, .nil⟩
  | left related _ ih =>
    cases lefts with
    | cons first lefts =>
      obtain ⟨r, leads, same⟩ := each (Or.inl List.mem_cons_self) related first
      obtain ⟨rs, others, shuffled⟩ :=
        ih (fun mem => each (mem.imp_left (List.mem_cons_of_mem _))) lefts rights
      exact ⟨r :: rs, .cons leads others, .left same shuffled⟩
  | right related _ ih =>
    cases rights with
    | cons first rights =>
      obtain ⟨r, leads, same⟩ := each (Or.inr List.mem_cons_self) related first
      obtain ⟨rs, others, shuffled⟩ :=
        ih (fun mem => each (mem.imp_right (List.mem_cons_of_mem _))) lefts rights
      exact ⟨r :: rs, .cons leads others, .right same shuffled⟩

end Shuffles
end LazyCast
