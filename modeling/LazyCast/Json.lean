/-!
JSON documents. A document keeps how its numbers are written, since `64` and `64.0` differ where an
integer is asked for. Text in a document may hold escapes that no character answers to, and numbers
may be too large for a float; both spoil a document only where it is read, not where it is skipped.
-/
namespace LazyCast

structure Numeral where
  negative : Bool
  whole : List Char
  /-- Digits behind the point, when there is one. -/
  fraction : Option (List Char)
  exponent : Option Int

inductive Json where
  | null
  | bool (b : Bool)
  | number (n : Numeral)
  /-- None when an escape stands for half a surrogate pair. -/
  | string (text : Option String)
  | array (items : List Json)
  /-- Members in the order of the text, repetitions included. -/
  | object (members : List (Option String × Json))

/-- The number that decimal digits write. -/
def decimalValue (digits : List Char) : Nat :=
  digits.foldl (fun n c => 10 * n + (c.toNat - '0'.toNat)) 0

namespace Numeral

/-- An integer literal has neither fraction nor exponent; a negative zero is a float. -/
def toInt? (n : Numeral) : Option Int :=
  match n.fraction, n.exponent with
  | none, none =>
    let v := decimalValue n.whole
    if n.negative then (if v = 0 then none else some (-(v : Int))) else some v
  | _, _ => none

/-- Takes digits into a 64-bit significand while they fit; the rest is returned. -/
def absorb (significand : Nat) : List Char → Nat × List Char
  | [] => (significand, [])
  | c :: cs =>
    let next := 10 * significand + (c.toNat - '0'.toNat)
    if next < 18446744073709551616 then absorb next cs else (significand, c :: cs)

/-- Whether a float can hold the number: its leading digits, scaled by the power of ten that is
    left, must stay finite. -/
def isFinite (n : Numeral) : Bool :=
  let fraction := n.fraction.getD []
  let (whole, dropped) := absorb 0 n.whole
  let (significand, unread) := absorb whole fraction
  let scale := n.exponent.getD 0 + (dropped.length : Int) - ((fraction.length - unread.length : Nat) : Int)
  if significand = 0 ∨ scale ≤ 0 then true
  else if 308 < scale then false
  else (Float.ofNat significand * Float.ofScientific 1 false scale.toNat).isFinite

end Numeral

namespace Json

def ofNat (n : Nat) : Json := number ⟨false, Nat.toDigits 10 n, none, none⟩

/-- The last member of a name. -/
def field? (name : String) : Json → Option Json
  | object members => (members.reverse.find? fun m => decide (m.1 = some name)).map Prod.snd
  | _ => none

def string? : Json → Option String
  | string text => text
  | _ => none

def bool? : Json → Option Bool
  | bool b => some b
  | _ => none

def int? : Json → Option Int
  | number n => n.toInt?
  | _ => none

def items? : Json → Option (List Json)
  | array items => some items
  | _ => none

def uint64? (j : Json) : Option UInt64 :=
  match j.int? with
  | some n => if 0 ≤ n ∧ n < 18446744073709551616 then some (UInt64.ofNat n.toNat) else none
  | none => none

mutual

/-- Everything in the document can be read: texts are whole, numbers finite, and arrays and objects
    are nested at most `depth` deep. -/
def readable (depth : Nat) : Json → Bool
  | null => true
  | bool _ => true
  | number n => n.isFinite
  | string text => text.isSome
  | array items => decide (0 < depth) && allReadable (depth - 1) items
  | object members => decide (0 < depth) && membersReadable (depth - 1) members

def allReadable (depth : Nat) : List Json → Bool
  | [] => true
  | j :: rest => readable depth j && allReadable depth rest

def membersReadable (depth : Nat) : List (Option String × Json) → Bool
  | [] => true
  | (name, j) :: rest => name.isSome && readable depth j && membersReadable depth rest

end

end Json
end LazyCast
