import Inlay.Tree.Node
import Inlay.Json.Reader
import Inlay.Number.Word

/-! The tree that an external parser prints. A node is an object, or an array of its parts in the
order kind, value, body, children, location. A repeated or ill-typed field fails the whole tree, but
inside a value or body it only means that no node stands there. Other fields are not looked at. -/

namespace Inlay
namespace TreeWire

/-! ## Locations -/

def word? (bound : Nat) : Json → Option (Option Nat)
  | .null => some none
  | j => (j.natBelow? bound).map some

def single? (fields : List (String × Json)) (name : String) : Option (Option Json) :=
  match fields.filter (·.1 == name) with
  | [] => some none
  | [f] => some (some f.2)
  | _ => none

def part? {α : Type} (read : Json → Option (Option α)) : Option Json → Option (Option α)
  | none => some none
  | some .null => some none
  | some j => read j

/-- Reads an object's parts by name, or an array's parts in the given order and full number. -/
def parts? {α : Type} (readers : List (String × (Json → Option (Option α)))) :
    Json → Option (List (Option α))
  | .arr items =>
    if items.length = readers.length then
      (readers.zip items).mapM fun pair => part? pair.1.2 (some pair.2)
    else none
  | .obj fields => readers.mapM fun reader => (single? fields reader.1).bind (part? reader.2)
  | _ => none

def positionReaders : List (String × (Json → Option (Option Nat))) :=
  [("offset", word? Word.bound64), ("line", word? Word.bound32), ("column", word? Word.bound32)]

def position? (j : Json) : Option (Option Position) := do
  match ← parts? positionReaders j with
  | [offset, line, column] => some do some ⟨← offset, ← line, ← column⟩
  | _ => none

def locationReaders : List (String × (Json → Option (Option Position))) :=
  [("start", position?), ("end", position?)]

/-- A location is absent when incomplete or inverted. -/
def location? (j : Json) : Option (Option Location) := do
  match ← parts? locationReaders j with
  | [start, stop] =>
    some do
      let loc : Location := ⟨← start, ← stop⟩
      if loc.isInverted then none else some loc
  | _ => none

/-! ## Nodes -/

inductive Slot where
  | node (n : Node)
  | text (s : String)
  | other

def Slot.node? : Slot → Option Node
  | .node n => some n
  | _ => none

def Slot.text? : Slot → Option Text
  | .text s => some (Text.ofString s)
  | _ => none

structure Draft where
  kind : Option String := none
  value : Option (Option Slot) := none
  body : Option (Option Slot) := none
  children : Option (List Node) := none
  loc : Option (Option Location) := none

def structural? : String → Option ContainerKind
  | "Program" => some .program
  | "Import" => some .import
  | "Object" => some .object
  | "Property" => some .property
  | _ => none

namespace Draft

/-- The script text of a node: its value, or else its body. -/
def code? (d : Draft) : Option Text :=
  (d.value.join.bind Slot.text?).or (d.body.join.bind Slot.text?)

def ofKind (d : Draft) (kind : String) : Node :=
  let loc := d.loc.join
  match ScriptKind.ofName? kind with
  | some script =>
    match d.code? with
    | some code => .script script code loc
    | none => .container (.unrecognized kind) none [] loc
  | none =>
    if kind = "Comment" then .comment ((d.value.join.bind Slot.text?).getD []) loc
    else .container ((structural? kind).getD (.unrecognized kind)) (d.value.join.bind Slot.node?)
      (d.children.getD []) loc

/-- The node, once its kind is known. -/
def finish? (d : Draft) : Option Node := d.kind.map d.ofKind

def put? {α : Type} : Option α → Option α → Option (Option α)
  | none, some x => some (some x)
  | _, _ => none

/-- Sets the part with the given name. What stands there is read as a value or body or as children
only if the name asks for it. -/
def set? (d : Draft) (name : String) (j : Json) (slot : Unit → Option Slot)
    (children : Unit → Option (List Node)) : Option Draft :=
  if name = "kind" then (put? d.kind j.str?).map ({ d with kind := · })
  else if name = "value" then (put? d.value (some (slot ()))).map ({ d with value := · })
  else if name = "body" then (put? d.body (some (slot ()))).map ({ d with body := · })
  else if name = "children" then (put? d.children (children ())).map ({ d with children := · })
  else if name = "loc" then (put? d.loc (part? location? (some j))).map ({ d with loc := · })
  else some d

end Draft

/-- The parts of a node, in the order in which an array gives them. -/
def partNames : List String := ["kind", "value", "body", "children", "loc"]

mutual

def node? : Json → Option Node
  | .obj fields => (ofFields? {} fields).bind Draft.finish?
  | .arr items => (ofItems? {} partNames items).bind Draft.finish?
  | _ => none

/-- Whatever is no node and no string is left alone; null is absent. -/
def slot? : Json → Option Slot
  | .null => none
  | .str s => some (.text s)
  | .obj fields =>
    match (ofFields? {} fields).bind Draft.finish? with
    | some n => some (.node n)
    | none => some .other
  | .arr items =>
    match (ofItems? {} partNames items).bind Draft.finish? with
    | some n => some (.node n)
    | none => some .other
  | _ => some .other

def children? : Json → Option (List Node)
  | .null => some []
  | .arr items => nodes? items
  | _ => none

def nodes? : List Json → Option (List Node)
  | [] => some []
  | j :: rest => do
    let n ← node? j
    let ns ← nodes? rest
    some (n :: ns)

def ofFields? (d : Draft) : List (String × Json) → Option Draft
  | [] => some d
  | (name, j) :: rest => do
    let d ← d.set? name j (fun _ => slot? j) fun _ => children? j
    ofFields? d rest

def ofItems? (d : Draft) (names : List String) : List Json → Option Draft
  | [] => some d
  | j :: rest =>
    match names with
    | [] => none
    | name :: names => do
      let d ← d.set? name j (fun _ => slot? j) fun _ => children? j
      ofItems? d names rest

end

/-! ## From text

Fields that are no part of a node, a location or a position are taken out before the value is read,
so that only the grammar holds for them. -/

def pruneNamed (keep : List (String × (RawJson → RawJson))) :
    List (Text × RawJson) → List (Text × RawJson) :=
  List.map fun (name, value) =>
    match (RawJson.stringOf? name).bind (List.lookup · keep) with
    | some prune => (name, prune value)
    | none => (name, .null)

def prunePosition : RawJson → RawJson
  | .object fields => .object (pruneNamed [("offset", id), ("line", id), ("column", id)] fields)
  | r => r

def pruneLocation : RawJson → RawJson
  | .object fields =>
    .object (pruneNamed [("start", prunePosition), ("end", prunePosition)] fields)
  | .array items => .array (items.map prunePosition)
  | r => r

mutual

def pruneNode : RawJson → RawJson
  | .object fields => .object (pruneFields fields)
  | .array items => .array (pruneItems partNames items)
  | r => r

def pruneChildren : RawJson → RawJson
  | .array items => .array (pruneNodes items)
  | r => r

def pruneNodes : List RawJson → List RawJson
  | [] => []
  | r :: rest => pruneNode r :: pruneNodes rest

def pruneItems (names : List String) : List RawJson → List RawJson
  | [] => []
  | r :: rest =>
    (if names.head? = some "children" then pruneChildren r
      else if names.head? = some "loc" then pruneLocation r
      else r)
      :: pruneItems names.tail rest

def pruneFields : List (Text × RawJson) → List (Text × RawJson)
  | [] => []
  | (name, r) :: rest =>
    let known := RawJson.stringOf? name
    (name,
      if known = some "children" then pruneChildren r
      else if known = some "loc" then pruneLocation r
      else if known = some "kind" || known = some "value" || known = some "body" then r
      else .null)
      :: pruneFields rest

end

/-- The tree that a JSON text holds, where null stands for an empty document. -/
def ofText? (t : Text) : Option (Option Node) := do
  match ← RawJson.toJson? 0 (pruneNode (← RawJson.ofText? t)) with
  | .null => some none
  | j => (node? j).map some

end TreeWire
end Inlay
