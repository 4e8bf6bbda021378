import Inlay.Json.Reader
import Inlay.Text.Blank
import Inlay.Text.CharClass

/-! The relaxed JSON of configuration files: comments, single quotes, bare names, hexadecimal
numbers, and commas that may be missing between two parts or stand after the last. -/

namespace Inlay
namespace Relaxed

inductive Token where
  | openArray
  | closeArray
  | openObject
  | closeObject
  | comma
  | colon
  | value (j : Json)
  | number (text : String) (j : Json)
  | string (s : String)
  | word (s : String)

/-! ## Tokens -/

def isHexDigit (c : Char) : Bool := c.isDigit || ('a' ≤ c && c ≤ 'f') || ('A' ≤ c && c ≤ 'F')

/-- Whether a backslash may stand before a character, given what follows it. A quote may be escaped
only inside quotes of its own kind. -/
def isEscape (quote c : Char) (rest : List Char) : Bool :=
  if c = '"' || c = '\'' then c = quote
  else if c = 'u' then 4 ≤ rest.length && (rest.take 4).all isHexDigit
  else c = '\\' || c = '/' || c = 'b' || c = 'f' || c = 'n' || c = 'r' || c = 't'

/-- The characters up to the closing quote, escapes kept, and what follows it. -/
def quotedRest? (quote : Char) : List Char → Option (List Char × List Char)
  | [] => none
  | [c] => if c = quote then some ([], []) else none
  | c :: d :: rest =>
    if c = quote then some ([], d :: rest)
    else if c = '\\' then
      if !isEscape quote d rest then none
      else
        (quotedRest? quote rest).map fun (body, rest) =>
          (if d = '\'' then d :: body else c :: d :: body, rest)
    else (quotedRest? quote (d :: rest)).map fun (body, rest) => (c :: body, rest)

def string? (quote : Char) (cs : List Char) : Option (String × List Char) := do
  let (body, rest) ← quotedRest? quote cs
  let s ← RawJson.stringOf? (Text.ofChars body)
  some (s, rest)

def blockRest? : List Char → Option (List Char)
  | [] => none
  | [_] => none
  | c :: d :: rest => if c = '*' && d = '/' then some rest else blockRest? (d :: rest)

def isDigit (c : Char) : Bool := c.isDigit

/-- At least one character of a class, and what follows. -/
def run? (p : Char → Bool) (cs : List Char) : Option (List Char × List Char) :=
  match cs with
  | c :: _ => if p c then some (cs.takeWhile p, cs.dropWhile p) else none
  | [] => none

def fraction? : List Char → Option (List Char × List Char)
  | '.' :: cs => (run? isDigit cs).map fun (ds, rest) => ('.' :: ds, rest)
  | cs => some ([], cs)

def exponentDigits? (mark : List Char) (cs : List Char) : Option (List Char × List Char) :=
  (run? isDigit cs).map fun (ds, rest) => (mark ++ ds, rest)

def exponent? : List Char → Option (List Char × List Char)
  | c :: cs =>
    if c = 'e' || c = 'E' then
      match cs with
      | '-' :: cs => exponentDigits? [c, '-'] cs
      | '+' :: cs => exponentDigits? [c, '+'] cs
      | cs => exponentDigits? [c] cs
    else some ([], c :: cs)
  | [] => some ([], [])

/-- A decimal number without sign; a leading zero is all of its integer part. -/
def decimal? (cs : List Char) : Option (List Char × List Char) := do
  let (whole, cs) ←
    match cs with
    | '0' :: cs => some (['0'], cs)
    | cs => run? isDigit cs
  let (fraction, cs) ← fraction? cs
  let (exponent, cs) ← exponent? cs
  some (whole ++ fraction ++ exponent, cs)

def hexadecimal? : List Char → Option (List Char × List Char)
  | '0' :: x :: cs =>
    if x = 'x' || x = 'X' then (run? isHexDigit cs).map fun (ds, rest) => (['0', x] ++ ds, rest)
    else none
  | _ => none

def isHexadecimal (cs : List Char) : Bool :=
  match cs with
  | '0' :: x :: _ => x == 'x' || x == 'X'
  | _ => false

def hexValue (ds : List Char) : Nat :=
  ds.foldl (fun n c => 16 * n + (Text.hexValue? c.toNat.toUInt8).getD 0) 0

def maxHexadecimal : Nat := 9223372036854775807

/-- The number that a text without sign means, or the whole text where the number is too large. -/
def numberValue (isNegative : Bool) (text digits : List Char) : Json :=
  let asText := Json.str (String.ofList text)
  if isHexadecimal digits then
    let n := hexValue (digits.drop 2)
    if n ≤ maxHexadecimal then .num (.int (if isNegative then -n else n)) else asText
  else
    match Number.ofText? (Text.ofChars (if isNegative then '-' :: digits else digits)) with
    | some n => .num n
    | none => asText

def number? (cs : List Char) : Option (Token × List Char) :=
  let (sign, body) :=
    match cs with
    | '-' :: rest => (['-'], rest)
    | '+' :: rest => (['+'], rest)
    | _ => ([], cs)
  (if isHexadecimal body then hexadecimal? body else decimal? body).map fun (digits, rest) =>
    (.number (String.ofList (sign ++ digits)) (numberValue (sign == ['-']) (sign ++ digits) digits),
      rest)

def isNameChar (c : Char) : Bool := Text.isAlphanumericChar c || c == '-' || c == '_'

def isNameEnd (c : Char) : Bool := Text.isBlank c || c == ':'

/-- A word reaches up to a blank or a colon. -/
def word? (cs : List Char) : Option (Token × List Char) :=
  let name := cs.takeWhile (!isNameEnd ·)
  if name.isEmpty || !name.all isNameChar then none
  else some (.word (String.ofList name), cs.dropWhile (!isNameEnd ·))

def afterConstant? (constant : String) (cs : List Char) : Option (List Char) :=
  let rest := cs.drop constant.length
  if constant.toList.isPrefixOf cs
      && !(rest.head?.map fun c => Text.isAlphanumericChar c || c == '-').getD false then some rest
  else none

def constants : List (String × Json) :=
  [("true", .bool true), ("false", .bool false), ("null", .null)]

def constantOrWord? (cs : List Char) : Option (Token × List Char) :=
  match constants.findSome? fun (name, j) => (afterConstant? name cs).map ((Token.value j), ·) with
  | some found => some found
  | none => word? cs

/-- What a text starts with, blanks and comments being no tokens. -/
def token? (c : Char) (rest : List Char) : Option (Option Token × List Char) :=
  if Text.isBlank c then some (none, rest)
  else
    match c with
    | '[' => some (some .openArray, rest)
    | ']' => some (some .closeArray, rest)
    | '\x7b' => some (some .openObject, rest)
    | '\x7d' => some (some .closeObject, rest)
    | ',' => some (some .comma, rest)
    | ':' => some (some .colon, rest)
    | '"' => (string? '"' rest).map fun (s, rest) => (some (.string s), rest)
    | '\'' => (string? '\'' rest).map fun (s, rest) => (some (.string s), rest)
    | '/' =>
      match rest with
      | '/' :: rest => some (none, rest.dropWhile (· != '\n'))
      | '*' :: rest => (blockRest? rest).map (none, ·)
      | _ => none
    | c =>
      (if c.isDigit || c = '-' || c = '+' then number? (c :: rest)
        else constantOrWord? (c :: rest)).map fun (t, rest) => (some t, rest)

/-- The tokens of a text. `fuel` is as long as the text. -/
def tokens? : Nat → List Char → Option (List Token)
  | _, [] => some []
  | 0, _ => none
  | fuel + 1, c :: cs => do
    let (token, rest) ← token? c cs
    let more ← tokens? fuel rest
    some (token.toList ++ more)

/-! ## Values -/

/-- An array or object still open, its parts in reverse. -/
inductive Frame where
  | array (items : List Json)
  | object (fields : List (String × Json))
  | field (fields : List (String × Json)) (name : String)

/-- The open parts, whether a comma may come next, and the finished value. -/
structure Builder where
  stack : List Frame
  allowsComma : Bool
  result : Option Json
  awaitsColon : Bool

namespace Builder

def start : Builder := ⟨[], false, none, false⟩

def place? (b : Builder) (j : Json) : Option Builder :=
  if b.awaitsColon then none
  else
    match b.stack with
    | [] => if b.result.isSome then none else some { b with result := some j }
    | .array items :: rest =>
      some { b with stack := .array (j :: items) :: rest, allowsComma := true }
    | .field fields name :: rest =>
      some { b with stack := .object ((name, j) :: fields) :: rest, allowsComma := true }
    | .object _ :: _ => none

def name? (b : Builder) (name : String) : Option Builder :=
  match b.stack with
  | .object fields :: rest =>
    some { b with stack := .field fields name :: rest, allowsComma := false, awaitsColon := true }
  | _ => none

def allowsValue (b : Builder) : Bool :=
  !b.awaitsColon
    && (match b.stack with
      | [] => b.result.isNone
      | .object _ :: _ => false
      | _ => true)

def push (b : Builder) (f : Frame) : Builder :=
  { b with stack := f :: b.stack, allowsComma := false }

def step (b : Builder) (token : Token) : Option Builder :=
  match token with
  | .openArray => if b.allowsValue then some (b.push (.array [])) else none
  | .openObject => if b.allowsValue then some (b.push (.object [])) else none
  | .closeArray =>
    match b.stack with
    | .array items :: rest => { b with stack := rest }.place? (.arr items.reverse)
    | _ => none
  | .closeObject =>
    match b.stack with
    | .object fields :: rest => { b with stack := rest }.place? (.obj fields.reverse)
    | _ => none
  | .comma => if b.allowsComma then some { b with allowsComma := false } else none
  | .colon => if b.awaitsColon then some { b with awaitsColon := false } else none
  | .value j => b.place? j
  | .number text j => (b.name? text).or (b.place? j)
  | .string s => (b.name? s).or (b.place? (.str s))
  | .word s => b.name? s

end Builder

/-- The value in a text, or `none` in it when it holds only blanks and comments. -/
def ofText? (t : Text) : Option (Option Json) := do
  let cs ← t.chars?
  let tokens ← tokens? cs.length cs
  let b ← tokens.foldlM Builder.step Builder.start
  if b.stack.isEmpty then some (b.result.map Json.canonical) else none

end Relaxed
end Inlay
