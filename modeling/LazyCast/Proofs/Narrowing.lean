import LazyCast.InstructionSet
/-!
Instruction sets narrowed to the opcodes of another one. What is recognized afterwards is what both
recognize. What is native afterwards is what was native and is still recognized, save in one case: a
native list that loses all of its opcodes reads like one that was never given, so every opcode that is
left counts as native, one that decomposes among them.
-/
namespace LazyCast

theorem OrderedSet.isEmpty_iff {s : OrderedSet String} :
    s.isEmpty = true ↔ ∀ x, s.contains x = false := by
  rw [isEmpty, List.isEmpty_iff, List.eq_nil_iff_forall_not_mem]
  exact forall_congr' fun _ => decide_eq_false_iff_not.symm

namespace InstructionSet
variable {a b : InstructionSet} {opcode : String}

def LosesNative (a b : InstructionSet) : Prop :=
  a.native.isEmpty = false ∧ ∀ opcode, a.native.contains opcode = true → b.contains opcode = false

/-- What narrowing should leave native: the opcodes that were, as far as they are still recognized. -/
def KeepsNative (a b : InstructionSet) : Prop :=
  ∀ opcode, (a.intersect b).isNative opcode = true ↔
    a.isNative opcode = true ∧ b.contains opcode = true

theorem contains_intersect (a b : InstructionSet) (opcode : String) :
    (a.intersect b).contains opcode = (a.contains opcode && b.contains opcode) :=
  OrderedSet.contains_inter a.opcodes b.opcodes opcode

theorem isNative_of_unlisted (unlisted : a.native.isEmpty = true) :
    a.isNative opcode = a.contains opcode :=
  if_pos unlisted

theorem isNative_of_listed (listed : a.native.isEmpty = false) :
    a.isNative opcode = a.native.contains opcode :=
  if_neg (by simp [listed])

theorem native_intersect (a b : InstructionSet) (opcode : String) :
    (a.intersect b).native.contains opcode = (a.native.contains opcode && b.contains opcode) :=
  OrderedSet.contains_inter a.native b.opcodes opcode

theorem unlisted_intersect_iff : (a.intersect b).native.isEmpty = true ↔
    a.native.isEmpty = true ∨ a.LosesNative b := by
  have gone : (a.intersect b).native.isEmpty = true ↔
      ∀ opcode, a.native.contains opcode = true → b.contains opcode = false := by
    rw [OrderedSet.isEmpty_iff]
    refine forall_congr' fun opcode => ?_
    rw [native_intersect]
    cases a.native.contains opcode <;> simp
  rw [gone]
  constructor
  · intro none
    cases listed : a.native.isEmpty with
    | true => exact Or.inl rfl
    | false => exact Or.inr ⟨listed, none⟩
  · rintro (unlisted | ⟨_, none⟩)
    · intro opcode mem
      rw [OrderedSet.isEmpty_iff.mp unlisted opcode] at mem
      cases mem
    · exact none

theorem LosesNative.invents (lost : a.LosesNative b) (known : a.contains opcode = true)
    (shared : b.contains opcode = true) :
    a.isNative opcode = false ∧ (a.intersect b).isNative opcode = true := by
  constructor
  · rw [isNative_of_listed lost.1]
    cases listed : a.native.contains opcode with
    | false => rfl
    | true => rw [lost.2 opcode listed] at shared; cases shared
  · rw [isNative_of_unlisted (unlisted_intersect_iff.mpr (Or.inr lost)), contains_intersect, known,
      shared, Bool.and_self]

theorem keepsNative_of_listed (listed : (a.intersect b).native.isEmpty = false) :
    a.KeepsNative b := by
  have given : a.native.isEmpty = false := by
    cases unlisted : a.native.isEmpty with
    | false => rfl
    | true => rw [unlisted_intersect_iff.mpr (Or.inl unlisted)] at listed; cases listed
  intro opcode
  rw [isNative_of_listed listed, isNative_of_listed given, native_intersect, Bool.and_eq_true]

theorem keepsNative_of_unlisted (unlisted : a.native.isEmpty = true) : a.KeepsNative b := by
  intro opcode
  rw [isNative_of_unlisted (unlisted_intersect_iff.mpr (Or.inl unlisted)),
    isNative_of_unlisted unlisted, contains_intersect, Bool.and_eq_true]

/-- Narrowing leaves the opcodes that both recognize. It leaves the native ones among them native,
    and no others, unless the native list loses all its opcodes while others are left; then every
    opcode that is left has become native. -/
theorem intersect_narrows (a b : InstructionSet) :
    (∀ opcode, (a.intersect b).contains opcode = true ↔
      a.contains opcode = true ∧ b.contains opcode = true) ∧
    (a.KeepsNative b ↔
      ¬ (a.LosesNative b ∧ ∃ opcode, a.contains opcode = true ∧ b.contains opcode = true)) ∧
    (a.LosesNative b → ∀ opcode, a.contains opcode = true → b.contains opcode = true →
      a.isNative opcode = false ∧ (a.intersect b).isNative opcode = true) := by
  refine ⟨fun opcode => ?_, ⟨?_, ?_⟩, fun lost opcode => lost.invents⟩
  · rw [contains_intersect, Bool.and_eq_true]
  · rintro keeps ⟨lost, opcode, known, shared⟩
    obtain ⟨before, after⟩ := lost.invents known shared
    rw [((keeps opcode).mp after).1] at before
    cases before
  · intro spared
    cases listed : (a.intersect b).native.isEmpty with
    | false => exact keepsNative_of_listed listed
    | true =>
      rcases unlisted_intersect_iff.mp listed with unlisted | lost
      · exact keepsNative_of_unlisted unlisted
      -- The list is lost, but nothing is left that could have become native.
      · intro opcode
        have none : ∀ opcode, ¬ (a.contains opcode = true ∧ b.contains opcode = true) :=
          fun opcode both => spared ⟨lost, opcode, both⟩
        rw [isNative_of_unlisted listed, contains_intersect, Bool.and_eq_true,
          isNative_of_listed lost.1]
        constructor
        · exact fun both => absurd both (none opcode)
        · rintro ⟨native, shared⟩
          rw [lost.2 opcode native] at shared
          cases shared

def foreignNative : InstructionSet := (ofOpcodes ["init", "qft"]).withNative ["qft"]

/-- Narrowed to the simulator's opcodes, `init` turns from a decomposed opcode into a native one. -/
theorem init_turns_native :
    foreignNative.contains "init" = true ∧ foreignNative.isNative "init" = false ∧
      (foreignNative.intersect stateVector).isNative "init" = true ∧
      ¬ ∀ a b : InstructionSet, a.KeepsNative b := by
  refine ⟨by decide, by decide, by decide, fun keeps => ?_⟩
  have turned := (keeps foreignNative stateVector "init").mp (by decide)
  exact absurd turned.1 (by decide)

end InstructionSet
end LazyCast
