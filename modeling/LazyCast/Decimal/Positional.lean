import LazyCast.Decimal.Shortest
import LazyCast.Text.Column
/-!
Floating-point numbers as text: the shortest digits that read back, never with an exponent, without
a point for integral values, the sign of a negative zero kept.
-/
namespace LazyCast.Decimal

def Scientific.positional (d : Scientific) : String :=
  let digits := toString d.digits
  if 0 ≤ d.exponent then
    if d.digits = 0 then "0" else digits ++ String.ofList (List.replicate d.exponent.toNat '0')
  else
    let places := (-d.exponent).toNat
    let padded := (Text.padLeft '0' (places + 1) digits).toList
    String.ofList (padded.take (padded.length - places)) ++ "." ++
      String.ofList (padded.drop (padded.length - places))

def Reading.text : Reading → String
  | .nan => "NaN"
  | .infinite negative => if negative then "-inf" else "inf"
  | .finite negative m => (if negative then "-" else "") ++ m.shortest.positional

def floatText (x : Float) : String := (ofFloat x).text

def float32Text (x : Float32) : String := (ofFloat32 x).text

end LazyCast.Decimal
