import Inlay.Number.Double

/-! JSON values. An object keeps its fields as they were written, repeated names included; its
canonical form sorts them by name and lets the last of several equal names win. -/

namespace Inlay

/-- Integers of 64 bits are exact, all other numbers are binary64. -/
inductive Number where
  | int (i : Int)
  | real (x : Double)
deriving DecidableEq, Repr

inductive Json where
  | null
  | bool (b : Bool)
  | num (n : Number)
  | str (s : String)
  | arr (items : List Json)
  | obj (fields : List (String × Json))
deriving Repr, Inhabited

namespace Json

def nat (n : Nat) : Json := .num (.int n)

def ofOption (o : Option Json) : Json := o.getD .null

abbrev Fields := List (String × Json)

def setField (name : String) (value : Json) : Fields → Fields
  | [] => [(name, value)]
  | (n, v) :: rest =>
    if name < n then (name, value) :: (n, v) :: rest
    else if name = n then (name, value) :: rest
    else (n, v) :: setField name value rest

/-- The fields sorted by name, the last of several equal names winning. -/
def sortFields (fields : Fields) : Fields :=
  fields.foldl (fun sorted f => setField f.1 f.2 sorted) []

mutual

/-- The value with the fields of every object sorted and free of repetitions. -/
def canonical : Json → Json
  | .arr items => .arr (canonicalItems items)
  | .obj fields => .obj (sortFields (canonicalFields fields))
  | j => j

def canonicalItems : List Json → List Json
  | [] => []
  | j :: rest => canonical j :: canonicalItems rest

def canonicalFields : List (String × Json) → List (String × Json)
  | [] => []
  | (n, j) :: rest => (n, canonical j) :: canonicalFields rest

end

def get? (name : String) : Json → Option Json
  | .obj fields => fields.lookup name
  | _ => none

def str? : Json → Option String
  | .str s => some s
  | _ => none

def arr? : Json → Option (List Json)
  | .arr items => some items
  | _ => none

def bool? : Json → Option Bool
  | .bool b => some b
  | _ => none

def natBelow? (bound : Nat) : Json → Option Nat
  | .num (.int i) => if 0 ≤ i && i < bound then some i.toNat else none
  | _ => none

def isNull : Json → Bool
  | .null => true
  | _ => false

end Json
end Inlay
