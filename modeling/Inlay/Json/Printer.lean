import Inlay.Json.Basic
import Inlay.Number.Shortest

/-! JSON texts of values: one on a single line without blanks, one with two blanks of indentation
for each level. Numbers other than integers are written with the fewest digits that read back. -/

namespace Inlay

/-! ## Numbers -/

/-- Where positional notation ends: the point lies at most this many places after the first digit,
and at most this many zeros stand between point and first digit. -/
structure RealFormat where
  maxPlaces : Int
  maxZeros : Int

/-- Numbers from 1e-5 up to but not including 1e16 are positional and show a digit after the point;
others have an exponent without plus sign. -/
def Json.reals : RealFormat := ⟨16, 5⟩

def zeros (n : Nat) : String := String.ofList (List.replicate n '0')

namespace RealFormat

def exponential (digits : List Char) (e : Int) : String :=
  match digits with
  | [d] => String.ofList [d] ++ "e" ++ toString e
  | d :: ds => String.ofList (d :: '.' :: ds) ++ "e" ++ toString e
  | [] => ""

def magnitude (f : RealFormat) (d : Double.Decimal) : String :=
  let digits := Nat.toDigits 10 d.digits
  let point : Int := digits.length + d.exponent
  if 0 ≤ d.exponent && point ≤ f.maxPlaces then
    String.ofList digits ++ zeros d.exponent.toNat ++ ".0"
  else if 0 < point && point ≤ f.maxPlaces then
    String.ofList (digits.take point.toNat) ++ "." ++ String.ofList (digits.drop point.toNat)
  else if -f.maxZeros < point && point ≤ 0 then
    "0." ++ zeros (-point).toNat ++ String.ofList digits
  else exponential digits (point - 1)

def render (f : RealFormat) (x : Double) : String :=
  (if x.negative then "-" else "") ++ (if x.isZero then "0.0" else f.magnitude x.shortest)

end RealFormat

def Number.render : Number → String
  | .int i => toString i
  | .real x => Json.reals.render x

/-! ## Strings -/

namespace Json

def hexDigit (n : Nat) : Char := Char.ofNat (if n < 10 then 48 + n else 87 + n)

def escapeChar (c : Char) : List Char :=
  if c = '"' then ['\\', '"']
  else if c = '\\' then ['\\', '\\']
  else if c.toNat = 8 then ['\\', 'b']
  else if c.toNat = 9 then ['\\', 't']
  else if c.toNat = 10 then ['\\', 'n']
  else if c.toNat = 12 then ['\\', 'f']
  else if c.toNat = 13 then ['\\', 'r']
  else if c.toNat < 32 then
    ['\\', 'u', '0', '0', hexDigit (c.toNat / 16), hexDigit (c.toNat % 16)]
  else [c]

/-- A string in quotes, with control characters, quotes and backslashes escaped. -/
def quote (s : String) : String :=
  String.ofList ('"' :: s.toList.flatMap escapeChar ++ ['"'])

/-! ## Values -/

mutual

def compact : Json → String
  | .null => "null"
  | .bool b => if b then "true" else "false"
  | .num n => n.render
  | .str s => quote s
  | .arr items => "[" ++ ",".intercalate (compactItems items) ++ "]"
  | .obj fields => "\x7b" ++ ",".intercalate (compactFields fields) ++ "\x7d"

def compactItems : List Json → List String
  | [] => []
  | j :: rest => compact j :: compactItems rest

def compactFields : List (String × Json) → List String
  | [] => []
  | (n, j) :: rest => (quote n ++ ":" ++ compact j) :: compactFields rest

end

def indentation (depth : Nat) : String := String.ofList (List.replicate (2 * depth) ' ')

/-- Parts between brackets, each on a line of its own; nothing between them when there is none. -/
def bracket (left right : String) (depth : Nat) : List String → String
  | [] => left ++ right
  | parts =>
    left ++ "\n" ++ ",\n".intercalate (parts.map (indentation (depth + 1) ++ ·)) ++ "\n"
      ++ indentation depth ++ right

mutual

/-- The value over several lines, inside `depth` levels. -/
def prettyAt (depth : Nat) : Json → String
  | .null => "null"
  | .bool b => if b then "true" else "false"
  | .num n => n.render
  | .str s => quote s
  | .arr items => bracket "[" "]" depth (prettyItems (depth + 1) items)
  | .obj fields => bracket "\x7b" "\x7d" depth (prettyFields (depth + 1) fields)

def prettyItems (depth : Nat) : List Json → List String
  | [] => []
  | j :: rest => prettyAt depth j :: prettyItems depth rest

def prettyFields (depth : Nat) : List (String × Json) → List String
  | [] => []
  | (n, j) :: rest => (quote n ++ ": " ++ prettyAt depth j) :: prettyFields depth rest

end

def pretty (j : Json) : String := prettyAt 0 j

end Json
end Inlay
