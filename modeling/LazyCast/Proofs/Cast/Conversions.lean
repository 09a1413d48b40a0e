import LazyCast.Proofs.Decimal.Truncation
import LazyCast.Proofs.Session.CastFaults
import LazyCast.Proofs.Value.Integers
/-!
Conversions into integers. An integer that is in the range of the target comes out as it went in, and
so does a float cut off toward zero; all else is an overflow. Along a chain of such casts an integer
arrives just when every type on the way has a value for it.
-/
namespace LazyCast

open Float.Model (UnpackedFloat)

namespace Value

/-- The sign, the significand and the exponent of a floating-point value. -/
def unpacked? : Value → Option UnpackedFloat
  | .float x => some x.toModel.unpack
  | .f64 x => some x.toModel.unpack
  | .f32 x => some x.toModel.unpack
  | _ => none

/-- A conversion of what stands for an integer: the same integer, or an overflow. -/
structure ConvertsAs (v : Value) (type : TypeName) (n : Int) : Prop where
  fits : Holds type n → ∃ w, v.convert type = .ok w ∧ w.typeName = type ∧ w.toInt? = some n
  overflows : ¬ Holds type n → v.convert type = .error (.overflow v type)

variable {v : Value} {type : TypeName} {n : Int} {u : UnpackedFloat} {q : ℚ}

theorem convert_eq_fitted (v : Value) (integers : type ∈ integerTypes) :
    v.convert type = v.fitted type (word? type) := by
  rcases mem_integerTypes.mp integers with rfl | rfl | rfl | rfl | rfl <;> rfl

theorem convertsAs_of_integerFor (integers : type ∈ integerTypes)
    (stands : v.integerFor type = .ok n) : v.ConvertsAs type n := by
  constructor
  · intro inside
    obtain ⟨w, made, typed, same⟩ := word?_of_holds integers inside
    refine ⟨w, ?_, typed, same⟩
    rw [convert_eq_fitted v integers, fitted, stands, Except.bind, made]
  · intro outside
    rw [convert_eq_fitted v integers, fitted, stands, Except.bind, word?_eq_none integers outside]

theorem integerFor_of_toInt? (number : v.toInt? = some n) (type : TypeName) :
    v.integerFor type = .ok n := by
  rw [integerFor, number]

theorem reading?_unpacked (floating : v.unpacked? = some u) :
    v.toInt? = none ∧ ∃ r, v.reading? = some r ∧ r.number? = Decimal.valueOf? u := by
  cases v with
  | float x =>
    cases floating
    exact ⟨rfl, _, rfl, Decimal.number?_ofFloat x⟩
  | f64 x =>
    cases floating
    exact ⟨rfl, _, rfl, Decimal.number?_ofFloat x⟩
  | f32 x =>
    cases floating
    exact ⟨rfl, _, rfl, Decimal.number?_ofFloat32 x⟩
  | _ => cases floating

theorem integerFor_float (floating : v.unpacked? = some u) (type : TypeName) : v.integerFor type =
    match Decimal.valueOf? u with
    | some q => .ok (saturate128 (Decimal.towardZero q))
    | none => .error (.overflow v type) := by
  obtain ⟨noInt, r, read, number⟩ := reading?_unpacked floating
  rw [integerFor, noInt, read]
  dsimp only
  rw [Decimal.truncate?_eq, number]
  cases Decimal.valueOf? u <;> rfl

theorem convertsAs_float (integers : type ∈ integerTypes) (floating : v.unpacked? = some u)
    (finite : Decimal.valueOf? u = some q) : v.ConvertsAs type (Decimal.towardZero q) := by
  have stands := integerFor_float floating type
  rw [finite] at stands
  have converts := convertsAs_of_integerFor integers stands
  constructor
  · intro inside
    rw [← saturate128_of_holds inside]
    exact converts.fits (holds_saturate128.mpr inside)
  · intro outside
    exact converts.overflows fun inside => outside (holds_saturate128.mp inside)

theorem convert_notFinite (integers : type ∈ integerTypes) (floating : v.unpacked? = some u)
    (infinite : Decimal.valueOf? u = none) : v.convert type = .error (.overflow v type) := by
  have stands := integerFor_float floating type
  rw [infinite] at stands
  rw [convert_eq_fitted v integers, fitted, stands]
  rfl

end Value

namespace CastTable
variable {t : CastTable} {a b : TypeName} {chain : CastChain} {v : Value} {n : Int}

theorem foldlM_integers {steps : List (TypeName × CastFunction)}
    (each : ∀ step ∈ steps, step.1 ∈ integerTypes ∧ step.2 = convertTo step.1)
    (number : v.toInt? = some n) :
    ((∃ w, steps.foldlM (fun v step => step.2 v) v = .ok w) ↔ ∀ step ∈ steps, Holds step.1 n) ∧
    ∀ w, steps.foldlM (fun v step => step.2 v) v = .ok w → w.toInt? = some n := by
  induction steps generalizing v with
  | nil =>
    constructor
    · exact ⟨fun _ => List.forall_mem_nil _, fun _ => ⟨v, rfl⟩⟩
    · intro w made
      cases made
      exact number
  | cons step rest ih =>
    obtain ⟨⟨integers, conversion⟩, later⟩ := List.forall_mem_cons.mp each
    have here := Value.convertsAs_of_integerFor integers
      (Value.integerFor_of_toInt? number step.1)
    have first : step.2 v = v.convert step.1 := congrFun conversion v
    rw [List.foldlM_cons, first, List.forall_mem_cons]
    by_cases inside : Holds step.1 n
    · obtain ⟨w, made, _, same⟩ := here.fits inside
      obtain ⟨arrives, kept⟩ := ih later same
      rw [made]
      exact ⟨arrives.trans ⟨fun all => ⟨inside, all⟩, fun all => all.2⟩, kept⟩
    · rw [here.overflows inside]
      refine ⟨⟨?_, fun all => absurd all.1 inside⟩, ?_⟩
      · rintro ⟨w, no⟩
        cases no
      · intro w no
        cases no

theorem steps_builtin (policy : Transitivity)
    (compiled : { builtin with transitivity := policy }.compile a b = .ok chain)
    (integers : ∀ type ∈ chain.path.tail, type ∈ integerTypes) :
    ∀ step ∈ chain.steps, step.1 ∈ integerTypes ∧ step.2 = convertTo step.1 := by
  intro step mem
  have integer := integers step.1 (List.mem_map_of_mem mem)
  refine ⟨integer, ?_⟩
  rcases plain_builtin step (compile_lists compiled step mem) with conversion | rfl
  · exact conversion
  · simp [integerTypes] at integer

/-- Conversion into a type of integers never changes a number: it gives the same integer, or a float
    cut off, where the range allows it, and an overflow everywhere else. So a chain of such casts
    gives an answer just when all its types can hold the integer, and then the same integer. -/
theorem conversions_exact :
    (∀ type ∈ integerTypes, ∀ v : Value,
      (∀ n, v.toInt? = some n → v.ConvertsAs type n) ∧
      ∀ u, v.unpacked? = some u →
        (u.isFinite = true →
          ∃ q, Decimal.valueOf? u = some q ∧ v.ConvertsAs type (Decimal.towardZero q)) ∧
        (u.isFinite = false → v.convert type = .error (.overflow v type))) ∧
    ∀ policy a b chain, { builtin with transitivity := policy }.compile a b = .ok chain →
      (∀ type ∈ chain.path.tail, type ∈ integerTypes) → ∀ v n, v.toInt? = some n →
        ((∃ w, chain.apply v = .ok w) ↔ ∀ type ∈ chain.path.tail, Holds type n) ∧
        ∀ w, chain.apply v = .ok w → w.toInt? = some n := by
  constructor
  · intro type integers v
    refine ⟨fun n number => ?_, fun u floating => ⟨fun finite => ?_, fun infinite => ?_⟩⟩
    · exact Value.convertsAs_of_integerFor integers (Value.integerFor_of_toInt? number type)
    · rw [← Decimal.valueOf?_isSome] at finite
      obtain ⟨q, number⟩ := Option.isSome_iff_exists.mp finite
      exact ⟨q, number, Value.convertsAs_float integers floating number⟩
    · rw [← Decimal.valueOf?_isSome, Option.isSome_eq_false_iff, Option.isNone_iff_eq_none] at infinite
      exact Value.convert_notFinite integers floating infinite
  · intro policy a b chain compiled integers v n number
    obtain ⟨arrives, kept⟩ := foldlM_integers (steps_builtin policy compiled integers) number
    refine ⟨arrives.trans ?_, kept⟩
    change _ ↔ ∀ type ∈ chain.steps.map Prod.fst, Holds type n
    rw [List.forall_mem_map]

/-- The float `-2.75` comes out as `-2`; where chains are allowed an unsigned word of 64 bits gets to
    a signed one of 32 by way of `int`, and the word `3000000000` does not arrive. -/
theorem narrowing_exact :
    (∃ w, (Value.f64 (.ofBits 0xC006000000000000)).convert "i32" = .ok w ∧ w.toInt? = some (-2)) ∧
    ∃ chain, { builtin with transitivity := .chained 2 }.compile "u64" "i32" = .ok chain ∧
      chain.path = ["u64", "int", "i32"] ∧
      (∃ w, chain.apply (.u64 7) = .ok w) ∧ ¬ ∃ w, chain.apply (.u64 3000000000) = .ok w := by
  obtain ⟨single, along⟩ := conversions_exact
  constructor
  · obtain ⟨_, floats⟩ := single "i32" (by simp [integerTypes])
      (Value.f64 (.ofBits 0xC006000000000000))
    obtain ⟨q, number, converts⟩ := (floats _ rfl).1 rfl
    have value : q = -2.75 := by
      have same : some q = some (-((6192449487634432 : Nat) * (2 : ℚ) ^ (-51 : Int))) :=
        number.symm.trans rfl
      rw [Option.some.inj same]
      norm_num
    have cut : Decimal.towardZero q = -2 := by
      rw [value, Decimal.towardZero, if_neg (by norm_num), Int.ceil_eq_iff]
      norm_num
    rw [cut] at converts
    obtain ⟨w, made, _, same⟩ := converts.fits (by simp [Holds])
    exact ⟨w, made, same⟩
  · obtain ⟨chain, compiled, path⟩ : ∃ chain,
        { builtin with transitivity := .chained 2 }.compile "u64" "i32" = .ok chain ∧
        chain.path = ["u64", "int", "i32"] := ⟨_, rfl, rfl⟩
    have integers : ∀ type ∈ chain.path.tail, type ∈ integerTypes := by
      rw [path]
      decide
    refine ⟨chain, compiled, path, ?_, ?_⟩
    · obtain ⟨arrives, _⟩ := along _ _ _ chain compiled integers (.u64 7) 7 rfl
      rw [arrives, path]
      simp [Holds]
    · obtain ⟨arrives, _⟩ := along _ _ _ chain compiled integers (.u64 3000000000) 3000000000 rfl
      rw [arrives, path]
      simp [Holds]

end CastTable
end LazyCast
