import LazyCast.Instruction
import Mathlib
/-!
Operands compared. Floats compare equal when they are one number, so zero and its negative do, and a
NaN does not even with itself; all else compares equal when it is the same. Comparing is symmetric and
transitive for all operands, and finds each that holds no NaN equal to itself.
-/
namespace LazyCast

open Float.Model (UnpackedFloat)

def unsignedZero : UnpackedFloat → UnpackedFloat
  | .zero _ => .zero .positive
  | u => u

theorem unpacked_beq_iff (u v : UnpackedFloat) :
    u.beq v = true ↔ u.isNaN = false ∧ v.isNaN = false ∧ unsignedZero u = unsignedZero v := by
  cases u with
  | notANumber => simp [UnpackedFloat.beq, UnpackedFloat.compare, UnpackedFloat.isNaN]
  | infinity s | zero s | finite s m e pos =>
    cases s <;> cases v with
    | notANumber => simp [UnpackedFloat.beq, UnpackedFloat.compare, UnpackedFloat.isNaN]
    | infinity s' | zero s' | finite s' m' e' pos' =>
      cases s' <;>
        simp [UnpackedFloat.beq, UnpackedFloat.compare, UnpackedFloat.isNaN, unsignedZero, and_comm] <;>
        decide

theorem float_beq_iff {x y : Float} : (x == y) = true ↔ x.isNaN = false ∧ y.isNaN = false ∧
    unsignedZero x.toModel.unpack = unsignedZero y.toModel.unpack :=
  unpacked_beq_iff x.toModel.unpack y.toModel.unpack

instance floatPartialEquiv : PartialEquivBEq Float where
  symm same := by
    rw [float_beq_iff] at same ⊢
    exact ⟨same.2.1, same.1, same.2.2.symm⟩
  trans first second := by
    rw [float_beq_iff] at first second ⊢
    exact ⟨first.1, second.2.1, first.2.2.trans second.2.2⟩

theorem Operand.same_or_floats {a b : Operand} (same : (a == b) = true) :
    a = b ∨ ∃ x y, a = .float x ∧ b = .float y ∧ (x == y) = true := by
  cases a <;> cases b
  case float.float x y => exact Or.inr ⟨x, y, rfl, rfl, same⟩
  case int.int n m => exact Or.inl (congrArg Operand.int (of_decide_eq_true same))
  case bool.bool n m => exact Or.inl (congrArg Operand.bool (of_decide_eq_true same))
  case qubit.qubit n m => exact Or.inl (congrArg Operand.qubit (of_decide_eq_true same))
  case reg.reg n m => exact Or.inl (congrArg Operand.reg (of_decide_eq_true same))
  case symbol.symbol n m => exact Or.inl (congrArg Operand.symbol (of_decide_eq_true same))
  all_goals cases same

instance operandPartialEquiv : PartialEquivBEq Operand where
  symm same := by
    rcases Operand.same_or_floats same with rfl | ⟨x, y, rfl, rfl, floats⟩
    · exact same
    · have turned : (y == x) = true := BEq.symm floats
      exact turned
  trans first second := by
    rcases Operand.same_or_floats first with rfl | ⟨x, y, rfl, rfl, floats⟩
    · exact second
    · rcases Operand.same_or_floats second with rfl | ⟨y', z, same, rfl, floats'⟩
      · exact first
      · cases same
        have joined : (x == z) = true := BEq.trans floats floats'
        exact joined

theorem Operand.beq_self {a : Operand} (number : ∀ x, a = .float x → x.isNaN = false) :
    (a == a) = true := by
  cases a with
  | float x => exact float_beq_iff.mpr ⟨number x rfl, number x rfl, rfl⟩
  | int n => exact decide_eq_true (Eq.refl n)
  | bool b => exact decide_eq_true (Eq.refl b)
  | qubit q => exact decide_eq_true (Eq.refl q)
  | reg name => exact decide_eq_true (Eq.refl name)
  | symbol text => exact decide_eq_true (Eq.refl text)

theorem forall₂_trans {α : Type} {R : α → α → Prop} (step : ∀ x y z, R x y → R y z → R x z)
    {xs ys zs : List α} (first : List.Forall₂ R xs ys) (second : List.Forall₂ R ys zs) :
    List.Forall₂ R xs zs := by
  induction first generalizing zs with
  | nil => exact second
  | cons here _ ih =>
    cases second with
    | cons here' later => exact .cons (step _ _ _ here here') (ih later)

theorem beq_iff_forall₂ {α : Type} [BEq α] {xs ys : List α} :
    (xs == ys) = true ↔ List.Forall₂ (fun x y => (x == y) = true) xs ys := by
  induction xs generalizing ys with
  | nil => cases ys <;> simp
  | cons x xs ih => cases ys <;> simp [ih]

instance listPartialEquiv {α : Type} [BEq α] [PartialEquivBEq α] : PartialEquivBEq (List α) where
  symm same := by
    rw [beq_iff_forall₂] at same ⊢
    exact (same.imp fun _ _ here => BEq.symm here).flip
  trans first second := by
    rw [beq_iff_forall₂] at first second ⊢
    have step : ∀ x y z : α, (x == y) = true → (y == z) = true → (x == z) = true :=
      fun _ _ _ here next => BEq.trans here next
    exact forall₂_trans step first second

end LazyCast
