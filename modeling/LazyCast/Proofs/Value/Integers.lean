import LazyCast.Value
/-!
Types of integers: the range of each, and the words that hold the integers of a range. A word is made
of an integer just when the integer lies in the range, and stands for that integer again.
-/
namespace LazyCast

def integerTypes : List TypeName := ["int", "u32", "u64", "i32", "i64"]

def Holds (type : TypeName) (n : Int) : Prop :=
  match type with
  | "int" => -9223372036854775808 ≤ n ∧ n < 9223372036854775808
  | "u32" => 0 ≤ n ∧ n < 4294967296
  | "u64" => 0 ≤ n ∧ n < 18446744073709551616
  | "i32" => -2147483648 ≤ n ∧ n < 2147483648
  | "i64" => -9223372036854775808 ≤ n ∧ n < 9223372036854775808
  | _ => False

def word? (type : TypeName) (n : Int) : Option Value :=
  match type with
  | "int" => (int64? n).map .int
  | "u32" => (uint32? n).map .u32
  | "u64" => (uint64? n).map .u64
  | "i32" => (int32? n).map .i32
  | "i64" => (int64? n).map .i64
  | _ => none

section Words
variable {n : Int}

theorem int64?_of_holds (inside : Holds "int" n) : ∃ w, int64? n = some w ∧ w.toInt = n := by
  obtain ⟨low, high⟩ : -9223372036854775808 ≤ n ∧ n < 9223372036854775808 := inside
  exact ⟨Int64.ofInt n, if_pos ⟨low, high⟩, Int64.toInt_ofInt_of_le (by omega) (by omega)⟩

theorem int64?_eq_none (outside : ¬ Holds "int" n) : int64? n = none := if_neg outside

theorem int32?_of_holds (inside : Holds "i32" n) : ∃ w, int32? n = some w ∧ w.toInt = n := by
  obtain ⟨low, high⟩ : -2147483648 ≤ n ∧ n < 2147483648 := inside
  exact ⟨Int32.ofInt n, if_pos ⟨low, high⟩, Int32.toInt_ofInt_of_le (by omega) (by omega)⟩

theorem uint64?_of_holds (inside : Holds "u64" n) : ∃ w, uint64? n = some w ∧ (w.toNat : Int) = n := by
  obtain ⟨low, high⟩ : 0 ≤ n ∧ n < 18446744073709551616 := inside
  have small : n.toNat < UInt64.size := by
    change n.toNat < 18446744073709551616
    omega
  refine ⟨UInt64.ofNat n.toNat, if_pos ⟨low, high⟩, ?_⟩
  rw [UInt64.toNat_ofNat_of_lt' small]
  omega

theorem uint32?_of_holds (inside : Holds "u32" n) : ∃ w, uint32? n = some w ∧ (w.toNat : Int) = n := by
  obtain ⟨low, high⟩ : 0 ≤ n ∧ n < 4294967296 := inside
  have small : n.toNat < UInt32.size := by
    change n.toNat < 4294967296
    omega
  refine ⟨UInt32.ofNat n.toNat, if_pos ⟨low, high⟩, ?_⟩
  rw [UInt32.toNat_ofNat_of_lt' small]
  omega

variable {type : TypeName}

theorem mem_integerTypes : type ∈ integerTypes ↔
    type = "int" ∨ type = "u32" ∨ type = "u64" ∨ type = "i32" ∨ type = "i64" := by
  simp [integerTypes]

theorem word?_of_holds (integers : type ∈ integerTypes) (inside : Holds type n) :
    ∃ w, word? type n = some w ∧ w.typeName = type ∧ w.toInt? = some n := by
  rcases mem_integerTypes.mp integers with rfl | rfl | rfl | rfl | rfl
  · obtain ⟨w, made, same⟩ := int64?_of_holds inside
    exact ⟨.int w, congrArg (Option.map Value.int) made, rfl, congrArg some same⟩
  · obtain ⟨w, made, same⟩ := uint32?_of_holds inside
    exact ⟨.u32 w, congrArg (Option.map Value.u32) made, rfl, congrArg some same⟩
  · obtain ⟨w, made, same⟩ := uint64?_of_holds inside
    exact ⟨.u64 w, congrArg (Option.map Value.u64) made, rfl, congrArg some same⟩
  · obtain ⟨w, made, same⟩ := int32?_of_holds inside
    exact ⟨.i32 w, congrArg (Option.map Value.i32) made, rfl, congrArg some same⟩
  · obtain ⟨w, made, same⟩ := int64?_of_holds inside
    exact ⟨.i64 w, congrArg (Option.map Value.i64) made, rfl, congrArg some same⟩

theorem word?_eq_none (integers : type ∈ integerTypes) (outside : ¬ Holds type n) :
    word? type n = none := by
  rcases mem_integerTypes.mp integers with rfl | rfl | rfl | rfl | rfl
  · exact congrArg (Option.map Value.int) (if_neg outside)
  · exact congrArg (Option.map Value.u32) (if_neg outside)
  · exact congrArg (Option.map Value.u64) (if_neg outside)
  · exact congrArg (Option.map Value.i32) (if_neg outside)
  · exact congrArg (Option.map Value.i64) (if_neg outside)

/-- No range reaches the ends of 128 bits. -/
theorem saturate128_of_holds (inside : Holds type n) : saturate128 n = n := by
  have fits : -170141183460469231731687303715884105728 ≤ n ∧
      n ≤ 170141183460469231731687303715884105727 := by
    unfold Holds at inside
    split at inside
    all_goals first | omega | cases inside
  unfold saturate128
  omega

theorem holds_saturate128 : Holds type (saturate128 n) ↔ Holds type n := by
  constructor
  · intro inside
    by_cases same : saturate128 n = n
    · rwa [same] at inside
    · have stays := saturate128_of_holds inside
      unfold saturate128 at same inside stays
      unfold Holds at inside
      split at inside
      all_goals first | omega | cases inside
  · intro inside
    rwa [saturate128_of_holds inside]

end Words
end LazyCast
