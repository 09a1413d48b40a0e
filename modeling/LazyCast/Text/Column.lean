/-!
Text laid out in columns: a field shorter than its column is padded on the left, a longer one is
kept whole.
-/
namespace LazyCast.Text

def padLeft (fill : Char) (width : Nat) (text : String) : String :=
  String.ofList (List.replicate (width - text.length) fill) ++ text

/-- A column four wide, where listings put sequence numbers. -/
def numberColumn (n : Nat) : String := padLeft ' ' 4 (toString n)

/-- Binary digits, at least `width` of them. -/
def binary (width : Nat) (n : Nat) : String :=
  padLeft '0' width (String.ofList (Nat.toDigits 2 n))

end LazyCast.Text
