import LazyCast.Json
/-!
Reading JSON text, strictly: no trailing commas, comments, byte order mark, raw control characters
or leading zeros. Every step of the reader returns what it left unread; the depth of nesting is
bounded by the length of the text.
-/
namespace LazyCast.Json

def isSpace (c : Char) : Bool := c == ' ' || c == '\t' || c == '\n' || c == '\r'

def skipSpace (cs : List Char) : List Char := cs.dropWhile isSpace

def hexDigit? (c : Char) : Option Nat :=
  if '0' ≤ c ∧ c ≤ '9' then some (c.toNat - '0'.toNat)
  else if 'a' ≤ c ∧ c ≤ 'f' then some (c.toNat - 'a'.toNat + 10)
  else if 'A' ≤ c ∧ c ≤ 'F' then some (c.toNat - 'A'.toNat + 10)
  else none

/-- A unit of text: a character, or one half of a surrogate pair. -/
inductive TextUnit where
  | char (c : Char)
  | half (code : Nat)

def hexUnit? : List Char → Option (TextUnit × List Char)
  | a :: b :: c :: d :: rest => do
    let a ← hexDigit? a
    let b ← hexDigit? b
    let c ← hexDigit? c
    let d ← hexDigit? d
    let code := ((a * 16 + b) * 16 + c) * 16 + d
    return (if 0xD800 ≤ code ∧ code ≤ 0xDFFF then .half code else .char (Char.ofNat code), rest)
  | _ => none

def escapedChar? : Char → Option Char
  | '"' => some '"'
  | '\\' => some '\\'
  | '/' => some '/'
  | 'b' => some '\x08'
  | 'f' => some '\x0c'
  | 'n' => some '\n'
  | 'r' => some '\r'
  | 't' => some '\t'
  | _ => none

/-- The units of a text up to its closing quote, read backwards into `taken`. -/
def textUnits (fuel : Nat) (taken : List TextUnit) (cs : List Char) :
    Option (List TextUnit × List Char) :=
  match fuel, cs with
  | 0, _ => none
  | _, [] => none
  | _ + 1, '"' :: rest => some (taken.reverse, rest)
  | fuel + 1, '\\' :: 'u' :: rest => do
    let (u, rest) ← hexUnit? rest
    textUnits fuel (u :: taken) rest
  | fuel + 1, '\\' :: c :: rest => do
    let c ← escapedChar? c
    textUnits fuel (.char c :: taken) rest
  | fuel + 1, c :: rest =>
    if c.toNat < 0x20 ∨ c = '\\' then none else textUnits fuel (.char c :: taken) rest

/-- Joins the halves of surrogate pairs; none when a half stands alone. -/
def joinUnits : List TextUnit → Option (List Char)
  | [] => some []
  | .char c :: rest => (joinUnits rest).map (c :: ·)
  | .half high :: .half low :: rest =>
    if high < 0xDC00 ∧ 0xDC00 ≤ low then
      (joinUnits rest).map (Char.ofNat (0x10000 + (high - 0xD800) * 0x400 + (low - 0xDC00)) :: ·)
    else none
  | .half _ :: _ => none

def readText (cs : List Char) : Option (Option String × List Char) := do
  let (units, rest) ← textUnits (cs.length + 1) [] cs
  return ((joinUnits units).map String.ofList, rest)

def digits (cs : List Char) : List Char × List Char := cs.span Char.isDigit

/-- The digits before the point: a zero alone, or no zero in front. -/
def wholePart? (cs : List Char) : Option (List Char × List Char) :=
  match digits cs with
  | ([], _) => none
  | ('0' :: _ :: _, _) => none
  | (whole, rest) => some (whole, rest)

def fractionPart? : List Char → Option (Option (List Char) × List Char)
  | '.' :: cs =>
    match digits cs with
    | ([], _) => none
    | (fraction, rest) => some (some fraction, rest)
  | cs => some (none, cs)

def signed (sign : Int) (cs : List Char) : Option (Option Int × List Char) :=
  match digits cs with
  | ([], _) => none
  | (ds, rest) => some (some (sign * decimalValue ds), rest)

def exponentPart? : List Char → Option (Option Int × List Char)
  | c :: cs =>
    if c = 'e' ∨ c = 'E' then
      match cs with
      | '+' :: cs => signed 1 cs
      | '-' :: cs => signed (-1) cs
      | cs => signed 1 cs
    else some (none, c :: cs)
  | [] => some (none, [])

def readNumeral (negative : Bool) (cs : List Char) : Option (Numeral × List Char) := do
  let (whole, cs) ← wholePart? cs
  let (fraction, cs) ← fractionPart? cs
  let (exponent, cs) ← exponentPart? cs
  return (⟨negative, whole, fraction, exponent⟩, cs)

def literal (word : String) (j : Json) (cs : List Char) : Option (Json × List Char) :=
  if word.toList.isPrefixOf cs then some (j, cs.drop word.length) else none

mutual

def readValue (fuel : Nat) (cs : List Char) : Option (Json × List Char) :=
  match fuel with
  | 0 => none
  | fuel + 1 =>
    match skipSpace cs with
    | [] => none
    | '"' :: rest => (readText rest).map fun (text, rest) => (string text, rest)
    | '[' :: rest =>
      match skipSpace rest with
      | ']' :: rest => some (array [], rest)
      | rest => (readItems fuel rest).map fun (items, rest) => (array items, rest)
    | '\x7b' :: rest =>
      match skipSpace rest with
      | '\x7d' :: rest => some (object [], rest)
      | rest => (readMembers fuel rest).map fun (members, rest) => (object members, rest)
    | '-' :: rest => (readNumeral true rest).map fun (n, rest) => (number n, rest)
    | 'n' :: rest => literal "ull" null rest
    | 't' :: rest => literal "rue" (bool true) rest
    | 'f' :: rest => literal "alse" (bool false) rest
    | cs => (readNumeral false cs).map fun (n, rest) => (number n, rest)

def readItems (fuel : Nat) (cs : List Char) : Option (List Json × List Char) :=
  match fuel with
  | 0 => none
  | fuel + 1 => do
    let (j, rest) ← readValue fuel cs
    match skipSpace rest with
    | ',' :: rest =>
      let (items, rest) ← readItems fuel rest
      return (j :: items, rest)
    | ']' :: rest => return ([j], rest)
    | _ => none

def readMembers (fuel : Nat) (cs : List Char) :
    Option (List (Option String × Json) × List Char) :=
  match fuel with
  | 0 => none
  | fuel + 1 =>
    match skipSpace cs with
    | '"' :: rest => do
      let (name, rest) ← readText rest
      match skipSpace rest with
      | ':' :: rest =>
        let (j, rest) ← readValue fuel rest
        match skipSpace rest with
        | ',' :: rest =>
          let (members, rest) ← readMembers fuel rest
          return ((name, j) :: members, rest)
        | '\x7d' :: rest => return ([(name, j)], rest)
        | _ => none
      | _ => none
    | _ => none

end

/-- A text that is one JSON document, with nothing but space around it. -/
def parse? (text : String) : Option Json := do
  let cs := text.toList
  let (j, rest) ← readValue (cs.length + 1) cs
  if (skipSpace rest).isEmpty then return j else none

end LazyCast.Json
