import Inlay.Text.Basic

/-! The grammar of JSON texts. A raw value keeps strings and numbers as they are written, so that a
part nobody looks at is only held to the grammar: its strings need not be UTF-8, its numbers may be
of any size and its nesting of any depth. Reading is two passes, each a fold: bytes to tokens, then
tokens to a value, with the open arrays and objects on a stack. -/

namespace Inlay

inductive RawJson where
  | null
  | bool (b : Bool)
  | number (text : Text)
  | string (text : Text)
  | array (items : List RawJson)
  | object (fields : List (Text × RawJson))
deriving Inhabited

namespace RawJson

inductive Token where
  | openArray
  | closeArray
  | openObject
  | closeObject
  | comma
  | colon
  | scalar (value : RawJson)
  | quoted (text : Text)

/-! ## Numbers -/

def skipDigits (t : Text) : Option Text :=
  match t with
  | b :: _ => if Text.isDigit b then some (t.dropWhile Text.isDigit) else none
  | [] => none

/-- Drops an integer without superfluous zeros. -/
def skipInteger : Text → Option Text
  | 48 :: t => some t
  | t => skipDigits t

def skipFraction : Text → Option Text
  | 46 :: t => skipDigits t
  | t => some t

def skipSign : Text → Text
  | 43 :: t => t
  | 45 :: t => t
  | t => t

def skipExponent : Text → Option Text
  | 101 :: t => skipDigits (skipSign t)
  | 69 :: t => skipDigits (skipSign t)
  | t => some t

def skipMinus : Text → Text
  | 45 :: t => t
  | t => t

/-- An optional minus, an integer, and optionally a fraction and an exponent. -/
def isNumber (t : Text) : Bool :=
  ((skipInteger (skipMinus t)).bind skipFraction).bind skipExponent == some []

/-! ## Tokens -/

inductive Mode where
  | between
  | word (text : Text)
  | number (text : Text)
  | string (text : Text)
  | escape (text : Text)
  | hex (left : Nat) (text : Text)

/-- Tokens read so far and the one being read, both in reverse. -/
structure Lexer where
  mode : Mode := .between
  tokens : List Token := []

def isSpace (b : UInt8) : Bool := b == 32 || b == 10 || b == 9 || b == 13

def isNumberByte (b : UInt8) : Bool :=
  Text.isDigit b || b == 43 || b == 45 || b == 46 || b == 101 || b == 69

def wordToken? (t : Text) : Option Token :=
  if t = Text.ofString "null" then some (.scalar .null)
  else if t = Text.ofString "true" then some (.scalar (.bool true))
  else if t = Text.ofString "false" then some (.scalar (.bool false))
  else none

namespace Lexer

def start (tokens : List Token) (b : UInt8) : Option Lexer :=
  if isSpace b then some ⟨.between, tokens⟩
  else if b = 34 then some ⟨.string [], tokens⟩
  else if b = 91 then some ⟨.between, .openArray :: tokens⟩
  else if b = 93 then some ⟨.between, .closeArray :: tokens⟩
  else if b = 123 then some ⟨.between, .openObject :: tokens⟩
  else if b = 125 then some ⟨.between, .closeObject :: tokens⟩
  else if b = 44 then some ⟨.between, .comma :: tokens⟩
  else if b = 58 then some ⟨.between, .colon :: tokens⟩
  else if b = 45 || Text.isDigit b then some ⟨.number [b], tokens⟩
  else if Text.isLetter b then some ⟨.word [b], tokens⟩
  else none

def flush (l : Lexer) : Option (List Token) :=
  match l.mode with
  | .between => some l.tokens
  | .word t => (wordToken? t.reverse).map (· :: l.tokens)
  | .number t => if isNumber t.reverse then some (.scalar (.number t.reverse) :: l.tokens) else none
  | _ => none

def isSimpleEscape (b : UInt8) : Bool :=
  b == 34 || b == 92 || b == 47 || b == 98 || b == 102 || b == 110 || b == 114 || b == 116

def step (l : Lexer) (b : UInt8) : Option Lexer :=
  match l.mode with
  | .between => start l.tokens b
  | .word t =>
    if Text.isLetter b then some { l with mode := .word (b :: t) }
    else l.flush.bind (start · b)
  | .number t =>
    if isNumberByte b then some { l with mode := .number (b :: t) }
    else l.flush.bind (start · b)
  | .string t =>
    if b = 34 then some ⟨.between, .quoted t.reverse :: l.tokens⟩
    else if b = 92 then some { l with mode := .escape (b :: t) }
    else if b < 32 then none
    else some { l with mode := .string (b :: t) }
  | .escape t =>
    if isSimpleEscape b then some { l with mode := .string (b :: t) }
    else if b = 117 then some { l with mode := .hex 4 (b :: t) }
    else none
  | .hex left t =>
    if (Text.hexValue? b).isSome then
      some { l with mode := if left = 1 then .string (b :: t) else .hex (left - 1) (b :: t) }
    else none

end Lexer

def tokens? (t : Text) : Option (List Token) :=
  ((t.foldlM Lexer.step {}).bind Lexer.flush).map List.reverse

/-! ## Values -/

/-- An array or object still open, its parts in reverse. -/
inductive Frame where
  | array (items : List RawJson)
  | object (fields : List (Text × RawJson)) (name : Text)

inductive Expect where
  | value
  | valueOrClose
  | name (fields : List (Text × RawJson))
  | nameOrClose
  | colon (fields : List (Text × RawJson)) (name : Text)
  | separator
  | nothing (value : RawJson)

structure Builder where
  expect : Expect := .value
  stack : List Frame := []

namespace Builder

def place (value : RawJson) : List Frame → Builder
  | [] => ⟨.nothing value, []⟩
  | .array items :: stack => ⟨.separator, .array (value :: items) :: stack⟩
  | .object fields name :: stack => ⟨.separator, .object ((name, value) :: fields) name :: stack⟩

def beginValue (stack : List Frame) : Token → Option Builder
  | .openArray => some ⟨.valueOrClose, .array [] :: stack⟩
  | .openObject => some ⟨.nameOrClose, stack⟩
  | .scalar value => some (place value stack)
  | .quoted text => some (place (.string text) stack)
  | _ => none

def step (s : Builder) (token : Token) : Option Builder :=
  match s.expect, token, s.stack with
  | .valueOrClose, .closeArray, .array items :: stack => some (place (.array items.reverse) stack)
  | .value, token, stack => beginValue stack token
  | .valueOrClose, token, stack => beginValue stack token
  | .nameOrClose, .closeObject, stack => some (place (.object []) stack)
  | .nameOrClose, .quoted name, stack => some ⟨.colon [] name, stack⟩
  | .name fields, .quoted name, stack => some ⟨.colon fields name, stack⟩
  | .colon fields name, .colon, stack => some ⟨.value, .object fields name :: stack⟩
  | .separator, .comma, .array items :: stack => some ⟨.value, .array items :: stack⟩
  | .separator, .comma, .object fields _ :: stack => some ⟨.name fields, stack⟩
  | .separator, .closeArray, .array items :: stack => some (place (.array items.reverse) stack)
  | .separator, .closeObject, .object fields _ :: stack =>
    some (place (.object fields.reverse) stack)
  | _, _, _ => none

end Builder

/-- The one value that a text holds, blanks around it aside. -/
def ofText? (t : Text) : Option RawJson := do
  let tokens ← tokens? t
  let s ← tokens.foldlM Builder.step {}
  match s.expect with
  | .nothing value => some value
  | _ => none

end RawJson
end Inlay
