import Inlay.Message.Basic
import Inlay.Json.Reader
import Inlay.Number.Word

/-! The wire form of messages. Reading refuses a known field that is repeated or has the wrong type;
all other fields are kept, the last of several equal names winning. A fix is read from an object or
from a range and a text in an array. -/

namespace Inlay

namespace Json

/-- The value of a field that may be missing but not repeated. -/
def single? (name : String) (fields : Fields) : Option (Option Json) :=
  match fields.filter (·.1 == name) with
  | [] => some none
  | [f] => some (some f.2)
  | _ => none

end Json

namespace Fix

def toJson (f : Fix) : Json :=
  .obj [("range", .arr [.nat f.start, .nat f.stop]), ("text", .str f.text)]

def ofParts? : Json → Json → Option Fix
  | .arr [a, b], .str text => do
    some ⟨← a.natBelow? Word.bound64, ← b.natBelow? Word.bound64, text⟩
  | _, _ => none

def ofJson? : Json → Option Fix
  | .arr [range, text] => ofParts? range text
  | .obj fields => do
    let range ← Json.single? "range" fields
    let text ← Json.single? "text" fields
    ofParts? (← range) (← text)
  | _ => none

end Fix

namespace Message

def knownNames : List String :=
  ["ruleId", "severity", "message", "line", "column", "endLine", "endColumn", "fix"]

/-- Reads a field that is absent when missing or null. -/
def optional? {α : Type} (read : Json → Option α) : Option Json → Option (Option α)
  | none => some none
  | some .null => some none
  | some j => (read j).map some

def defaulted? {α : Type} (default : α) (read : Json → Option α) : Option Json → Option α
  | none => some default
  | some j => read j

def severityOf? (j : Json) : Option Severity := (j.natBelow? 256).bind Severity.ofLevel?

def word32? (j : Json) : Option Nat := j.natBelow? Word.bound32

/-- The fields that are not part of every message, in canonical form. -/
def extraOf (fields : Json.Fields) : Json.Fields :=
  Json.sortFields (Json.canonicalFields (fields.filter fun f => !knownNames.contains f.1))

def ofFields? (fields : Json.Fields) : Option Message := do
  let ruleId ← (Json.single? "ruleId" fields).bind (optional? Json.str?)
  let severity ← (Json.single? "severity" fields).bind (defaulted? .error severityOf?)
  let text ← (← Json.single? "message" fields).bind Json.str?
  let line ← (Json.single? "line" fields).bind (defaulted? 0 word32?)
  let column ← (Json.single? "column" fields).bind (defaulted? 0 word32?)
  let endLine ← (Json.single? "endLine" fields).bind (optional? word32?)
  let endColumn ← (Json.single? "endColumn" fields).bind (optional? word32?)
  let fix ← (Json.single? "fix" fields).bind (optional? Fix.ofJson?)
  some ⟨ruleId, severity, text, line, column, endLine, endColumn, fix, extraOf fields⟩

def ofJson? : Json → Option Message
  | .obj fields => ofFields? fields
  | _ => none

def listOfJson? : Json → Option (List Message)
  | .arr items => items.mapM ofJson?
  | _ => none

def field (name : String) : Option Json → Json.Fields
  | none => []
  | some j => [(name, j)]

/-- The fields of a message: those of every message first, then the others. -/
def toFields (m : Message) : Json.Fields :=
  [("ruleId", Json.ofOption (m.ruleId.map .str)), ("severity", .nat m.severity.level),
    ("message", .str m.text), ("line", .nat m.line), ("column", .nat m.column)]
  ++ field "endLine" (m.endLine.map .nat) ++ field "endColumn" (m.endColumn.map .nat)
  ++ field "fix" (m.fix.map Fix.toJson) ++ m.extra

def toJson (m : Message) : Json := .obj m.toFields

def listToJson (ms : List Message) : Json := .arr (ms.map toJson)

/-! ## From text

A field of a fix that is neither its range nor its text is not looked at. -/

def pruneFixFields : List (Text × RawJson) → List (Text × RawJson) :=
  List.map fun (name, value) =>
    if ["range", "text"].map some |>.contains (RawJson.stringOf? name) then (name, value)
    else (name, .null)

def pruneField : Text × RawJson → Text × RawJson
  | (name, .object fields) =>
    if RawJson.stringOf? name = some "fix" then (name, .object (pruneFixFields fields))
    else (name, .object fields)
  | f => f

def prune : RawJson → RawJson
  | .object fields => .object (fields.map pruneField)
  | r => r

def ofText? (t : Text) : Option Message := do
  ofJson? (← RawJson.toJson? 0 (prune (← RawJson.ofText? t)))

def pruneGroups : RawJson → RawJson
  | .array groups => .array (groups.map fun
    | .array items => .array (items.map prune)
    | r => r)
  | r => r

def groupsOfJson? : Json → Option (List (List Message))
  | .arr groups => groups.mapM listOfJson?
  | _ => none

/-- The lists of messages, one for each block, that a JSON text holds. -/
def groupsOfText? (t : Text) : Option (List (List Message)) := do
  groupsOfJson? (← RawJson.toJson? 0 (pruneGroups (← RawJson.ofText? t)))

end Message
end Inlay
