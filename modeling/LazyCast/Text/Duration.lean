/-!
Lengths of time as text: whole seconds with what is left over behind a point, or milliseconds when
less than a second, or none at all.
-/
namespace LazyCast.Text

/-- Three decimal places without their trailing zeros. -/
def thousandths (n : Nat) : String :=
  let digits := [n / 100 % 10, n / 10 % 10, n % 10]
  String.join ((digits.reverse.dropWhile (· = 0)).reverse.map toString)

def duration (milliseconds : Nat) : String :=
  if milliseconds = 0 then "0ns"
  else if milliseconds < 1000 then toString milliseconds ++ "ms"
  else
    let whole := toString (milliseconds / 1000)
    if milliseconds % 1000 = 0 then whole ++ "s"
    else whole ++ "." ++ thousandths milliseconds ++ "s"

end LazyCast.Text
