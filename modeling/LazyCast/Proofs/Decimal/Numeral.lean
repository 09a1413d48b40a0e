import LazyCast.Decimal.Positional
import LazyCast.Proofs.Decimal.Shortest
import Mathlib.Data.List.TakeWhile
/-!
Decimal numerals, and the floats that they denote. A numeral is digits, with a point and more digits
behind perhaps, and a minus sign in front perhaps. The text of a finite float is a numeral that denotes
it; the texts of the other floats are none.
-/
namespace LazyCast.Decimal

def pointed (digits : List Char) (places : Nat) : ℚ := Nat.ofDigitChars 10 digits 0 / 10 ^ places

def unsigned? (text : List Char) : Option ℚ :=
  let whole := text.takeWhile Char.isDigit
  if whole = [] then none
  else match text.dropWhile Char.isDigit with
    | [] => some (pointed whole 0)
    | point :: places =>
      if point = '.' ∧ places ≠ [] ∧ places.all Char.isDigit then
        some (pointed (whole ++ places) places.length)
      else none

def numeral? (text : List Char) : Option (Bool × ℚ) :=
  if text.head? = some '-' then (unsigned? text.tail).map fun q => (true, q)
  else (unsigned? text).map fun q => (false, q)

/-- The text is a numeral, and the float that its number rounds to is this one, sign included. -/
def Denotes (text : String) (x : Float) : Prop :=
  ∃ negative q m, numeral? text.toList = some (negative, q) ∧ ofFloat x = .finite negative m ∧
    m.Rounds q

section Reading
variable {text whole places : List Char} {q : ℚ}

theorem unsigned?_whole (some : whole ≠ []) (digits : ∀ c ∈ whole, c.isDigit = true) :
    unsigned? whole = .some (pointed whole 0) := by
  have all : whole.takeWhile Char.isDigit = whole := List.takeWhile_eq_self_iff.mpr digits
  have rest : whole.dropWhile Char.isDigit = [] := List.dropWhile_eq_nil_iff.mpr digits
  unfold unsigned?
  dsimp only
  rw [all, rest, if_neg some]

theorem unsigned?_pointed (some : whole ≠ []) (digits : ∀ c ∈ whole, c.isDigit = true)
    (some' : places ≠ []) (digits' : ∀ c ∈ places, c.isDigit = true) :
    unsigned? (whole ++ '.' :: places) = .some (pointed (whole ++ places) places.length) := by
  have before : (whole ++ '.' :: places).takeWhile Char.isDigit = whole := by
    rw [List.takeWhile_append_of_pos digits, List.takeWhile_cons_of_neg (by decide), List.append_nil]
  have behind : (whole ++ '.' :: places).dropWhile Char.isDigit = '.' :: places := by
    rw [List.dropWhile_append_of_pos digits, List.dropWhile_cons_of_neg (by decide)]
  unfold unsigned?
  dsimp only
  rw [before, behind, if_neg some]
  exact if_pos ⟨rfl, some', List.all_eq_true.mpr digits'⟩

theorem mem_of_unsigned? (read : unsigned? text = .some q) :
    ∀ c ∈ text, c.isDigit = true ∨ c = '.' := by
  intro c mem
  rw [← List.takeWhile_append_dropWhile (p := Char.isDigit) (l := text)] at mem
  unfold unsigned? at read
  dsimp only at read
  split at read
  · cases read
  rcases List.mem_append.mp mem with front | back
  · exact Or.inl (List.mem_takeWhile_imp front)
  · split at read
    · next none =>
      rw [none] at back
      cases back
    · next point places rest =>
      rw [rest] at back
      split at read
      · next fits =>
        rcases List.mem_cons.mp back with rfl | back
        · exact Or.inr fits.1
        · exact Or.inl (List.all_eq_true.mp fits.2.2 c back)
      · cases read

theorem mem_of_numeral? {negative : Bool} (read : numeral? text = .some (negative, q)) :
    ∀ c ∈ text, c.isDigit = true ∨ c = '.' ∨ c = '-' := by
  intro c mem
  unfold numeral? at read
  split at read
  · next minus =>
    obtain ⟨q', body, _⟩ := Option.map_eq_some_iff.mp read
    obtain ⟨rest, rfl⟩ : ∃ rest, text = '-' :: rest := by
      cases text with
      | nil => cases minus
      | cons first rest =>
        cases minus
        exact ⟨rest, rfl⟩
    rcases List.mem_cons.mp mem with rfl | mem
    · exact Or.inr (Or.inr rfl)
    · exact (mem_of_unsigned? body c mem).imp_right Or.inl
  · obtain ⟨q', body, _⟩ := Option.map_eq_some_iff.mp read
    exact (mem_of_unsigned? body c mem).imp_right Or.inl

theorem numeral?_signed {s : String} (negative : Bool) (read : unsigned? s.toList = .some q) :
    numeral? ((if negative then "-" else "") ++ s).toList = .some (negative, q) := by
  cases negative with
  | true =>
    have minus : ((if true then "-" else "") ++ s).toList = '-' :: s.toList := by
      simp [String.toList_append]
    rw [minus, numeral?, if_pos List.head?_cons, List.tail_cons, read]
    rfl
  | false =>
    have bare : ((if false then "-" else "") ++ s).toList = s.toList := by simp
    have unsigned : s.toList.head? ≠ some '-' := by
      intro minus
      have mem : '-' ∈ s.toList := List.mem_of_mem_head? minus
      rcases mem_of_unsigned? read '-' mem with digit | point
      · exact absurd digit (by decide)
      · exact absurd point (by decide)
    rw [bare, numeral?, if_neg unsigned, read]
    rfl

end Reading

section Digits

theorem isDigit_toDigits (n : Nat) : ∀ c ∈ Nat.toDigits 10 n, c.isDigit = true :=
  fun _ mem => Nat.isDigit_of_mem_toDigits (by decide) (by decide) mem

theorem pointed_toDigits (n : Nat) : pointed (Nat.toDigits 10 n) 0 = n := by
  rw [pointed, Nat.ofDigitChars_ten_toDigits, pow_zero, div_one]

theorem unsigned?_repr (n : Nat) : unsigned? (toString n).toList = some (n : ℚ) := by
  rw [Nat.toString_eq_repr, Nat.toList_repr,
    unsigned?_whole Nat.toDigits_ne_nil (isDigit_toDigits n), pointed_toDigits]

theorem isDigit_replicate (n : Nat) : ∀ c ∈ List.replicate n '0', c.isDigit = true := by
  intro c mem
  rw [List.eq_of_mem_replicate mem]
  decide

theorem ofDigitChars_padded (zeros n : Nat) :
    Nat.ofDigitChars 10 (List.replicate zeros '0' ++ Nat.toDigits 10 n) 0 = n := by
  rw [Nat.ofDigitChars_append, Nat.ofDigitChars_replicate_zero, Nat.mul_zero,
    Nat.ofDigitChars_ten_toDigits]

theorem unsigned?_zeros {n : Nat} (zeros : Nat) :
    unsigned? (toString n ++ String.ofList (List.replicate zeros '0')).toList =
      some ((n : ℚ) * 10 ^ zeros) := by
  have text : (toString n ++ String.ofList (List.replicate zeros '0')).toList =
      Nat.toDigits 10 n ++ List.replicate zeros '0' := by
    rw [String.toList_append, String.toList_ofList, Nat.toString_eq_repr, Nat.toList_repr]
  rw [text, unsigned?_whole (by simp)]
  · rw [pointed, Nat.ofDigitChars_append, Nat.ofDigitChars_ten_toDigits,
      Nat.ofDigitChars_replicate_zero, pow_zero, div_one]
    push_cast
    rw [mul_comm]
  · intro c mem
    rcases List.mem_append.mp mem with mem | mem
    · exact isDigit_toDigits n c mem
    · exact isDigit_replicate zeros c mem

theorem unsigned?_places {digits : List Char} {k : Nat} (positive : 0 < k)
    (long : k < digits.length) (all : ∀ c ∈ digits, c.isDigit = true) :
    unsigned? (String.ofList (digits.take (digits.length - k)) ++ "." ++
      String.ofList (digits.drop (digits.length - k))).toList =
      some ((Nat.ofDigitChars 10 digits 0 : ℚ) / 10 ^ k) := by
  have text : (String.ofList (digits.take (digits.length - k)) ++ "." ++
      String.ofList (digits.drop (digits.length - k))).toList =
      digits.take (digits.length - k) ++ '.' :: digits.drop (digits.length - k) := by
    rw [String.toList_append, String.toList_append, String.toList_ofList, String.toList_ofList,
      String.toList_ofList, List.append_assoc]
    rfl
  have places : (digits.drop (digits.length - k)).length = k := by
    rw [List.length_drop]
    omega
  rw [text, unsigned?_pointed, List.take_append_drop, places, pointed]
  · exact List.ne_nil_of_length_pos (by rw [List.length_take]; omega)
  · exact fun c mem => all c (List.mem_of_mem_take mem)
  · exact List.ne_nil_of_length_pos (by omega)
  · exact fun c mem => all c (List.mem_of_mem_drop mem)

theorem unsigned?_positional (d : Scientific) : unsigned? d.positional.toList = some d.number := by
  unfold Scientific.positional
  dsimp only
  by_cases integral : 0 ≤ d.exponent
  · obtain ⟨k, same⟩ := Int.eq_ofNat_of_zero_le integral
    rw [if_pos integral]
    by_cases none : d.digits = 0
    · have zero : d.number = 0 := by simp [Scientific.number, none]
      have read := unsigned?_repr 0
      rw [if_pos none]
      rwa [Nat.cast_zero, ← zero] at read
    · rw [if_neg none, unsigned?_zeros, Scientific.number, same, Int.toNat_natCast, zpow_natCast]
  · obtain ⟨k, same⟩ := Int.eq_ofNat_of_zero_le (show 0 ≤ -d.exponent by omega)
    have padded : (Text.padLeft '0' (k + 1) (toString d.digits)).toList =
        List.replicate (k + 1 - (Nat.toDigits 10 d.digits).length) '0' ++
          Nat.toDigits 10 d.digits := by
      rw [Text.padLeft, String.toList_append, String.toList_ofList, ← String.length_toList,
        Nat.toString_eq_repr, Nat.toList_repr]
    rw [if_neg integral, same, Int.toNat_natCast, padded, unsigned?_places, ofDigitChars_padded,
      Scientific.number, show d.exponent = -(k : Int) by omega, zpow_neg, zpow_natCast,
      div_eq_mul_inv]
    · omega
    · rw [List.length_append, List.length_replicate]
      omega
    · intro c mem
      rcases List.mem_append.mp mem with mem | mem
      · exact isDigit_replicate _ c mem
      · exact isDigit_toDigits _ c mem

theorem denotes_floatText {x : Float} {negative : Bool} {m : Magnitude}
    (read : ofFloat x = .finite negative m) : Denotes (floatText x) x := by
  refine ⟨negative, m.shortest.number, m, ?_, read, Magnitude.rounds_shortest (canonical_ofFloat read)⟩
  unfold floatText
  rw [read, Reading.text]
  exact numeral?_signed negative (unsigned?_positional _)

end Digits
end LazyCast.Decimal
