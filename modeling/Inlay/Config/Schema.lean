import Inlay.Json.Printer

/-! Schemas for JSON values, and the first way in which a value falls short of one: a wrong type
comes first, then the parts in order, then fields that are missing. -/

namespace Inlay

inductive Schema where
  | string (minLength : Nat)
  | boolean
  | integer (minimum : Int)
  | oneOf (names : List String)
  | array (items : Schema)
  | object (fields : List (String × Schema)) (required : List String)

inductive Fault where
  | wrongType (value : Json) (type : String)
  | unexpected (name : String)
  | missing (name : String)
  | notOneOf (value : Json) (names : List String)
  | tooShort (value : Json) (minLength : Nat)
  | belowMinimum (value : Json) (minimum : Int)

/-- A fault and where it is, outermost first. -/
structure Violation where
  fault : Fault
  place : List String

namespace Fault

def quoted (s : String) : String := "\"" ++ s ++ "\""

def orList : List String → String
  | [] => ""
  | [a] => a
  | [a, b] => a ++ " or " ++ b
  | a :: rest => a ++ ", " ++ orList rest

def describe : Fault → String
  | .wrongType value type => value.compact ++ " is not of type " ++ quoted type
  | .unexpected name =>
    "Additional properties are not allowed ('" ++ name ++ "' was unexpected)"
  | .missing name => quoted name ++ " is a required property"
  | .notOneOf value names => value.compact ++ " is not one of " ++ orList (names.map quoted)
  | .tooShort value n =>
    value.compact ++ " is shorter than " ++ toString n
      ++ (if n = 1 then " character" else " characters")
  | .belowMinimum value n => value.compact ++ " is less than the minimum of " ++ toString n

end Fault

namespace Violation

/-- The place as a pointer, a slash before each step. -/
def pointer (v : Violation) : String := String.join (v.place.map ("/" ++ ·))

def message (v : Violation) : String := v.fault.describe ++ " at " ++ v.pointer

def inside (step : String) (v : Violation) : Violation := { v with place := step :: v.place }

end Violation

namespace Number

def isWhole : Number → Bool
  | .int _ => true
  | .real x => x.numerator % x.denominator == 0

def isBelow (n : Number) (bound : Int) : Bool :=
  match n with
  | .int i => i < bound
  | .real x =>
    let numerator : Int := if x.negative then -x.numerator else x.numerator
    numerator < bound * x.denominator

end Number

namespace Schema

def fail {α : Type} (f : Fault) : Except Violation α := .error ⟨f, []⟩

def inStep {α : Type} (step : String) : Except Violation α → Except Violation α
  | .ok a => .ok a
  | .error v => .error (v.inside step)

mutual

def check : Schema → Json → Except Violation Unit
  | .string minLength, j =>
    match j with
    | .str s => if s.length < minLength then fail (.tooShort j minLength) else .ok ()
    | _ => fail (.wrongType j "string")
  | .boolean, j =>
    match j with
    | .bool _ => .ok ()
    | _ => fail (.wrongType j "boolean")
  | .integer minimum, j =>
    match j with
    | .num n =>
      if !n.isWhole then fail (.wrongType j "integer")
      else if n.isBelow minimum then fail (.belowMinimum j minimum)
      else .ok ()
    | _ => fail (.wrongType j "integer")
  | .oneOf names, j =>
    match j with
    | .str s => if names.contains s then .ok () else fail (.notOneOf j names)
    | _ => fail (.notOneOf j names)
  | .array items, .arr js => checkItems items 0 js
  | .array _, j => fail (.wrongType j "array")
  | .object fields required, .obj given => do
    checkFields fields given
    match required.find? fun name => (given.lookup name).isNone with
    | some name => fail (.missing name)
    | none => .ok ()
  | .object _ _, j => fail (.wrongType j "object")

/-- Checks the items of an array, counted from `index`. -/
def checkItems (items : Schema) (index : Nat) : List Json → Except Violation Unit
  | [] => .ok ()
  | j :: rest => do
    inStep (toString index) (check items j)
    checkItems items (index + 1) rest

/-- Checks the fields of an object in the order in which they stand. -/
def checkFields (fields : List (String × Schema)) :
    List (String × Json) → Except Violation Unit
  | [] => .ok ()
  | (name, j) :: rest => do
    match fields.lookup name with
    | some schema => inStep name (check schema j)
    | none => fail (.unexpected name)
    checkFields fields rest

end

end Schema
end Inlay
