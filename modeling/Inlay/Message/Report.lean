import Inlay.Message.Wire
import Inlay.Text.Blank

/-! What a linter prints: a list of reports, each with its messages, or a list of messages. Reports
are tried first, on the whole list. Blank output holds no messages. -/

namespace Inlay

inductive OutputFault where
  | notUtf8
  | malformedJson
  | wrongShape
  | other (text : String)
deriving DecidableEq, Repr

def OutputFault.message : OutputFault → String
  | .notUtf8 => "not UTF-8"
  | .malformedJson => "malformed JSON"
  | .wrongShape => "data did not match any variant of untagged enum LinterOutput"
  | .other text => text

namespace LinterOutput

/-- The messages of one report: an object with a list of them, or an array of just that list. -/
def reportOf? : Json → Option (List Message)
  | .arr [ms] => Message.listOfJson? ms
  | .obj fields => do Message.listOfJson? (← (← Json.single? "messages" fields))
  | _ => none

def reportsOf? : Json → Option (List (List Message))
  | .arr items => items.mapM reportOf?
  | _ => none

def ofJson? (j : Json) : Option (List Message) :=
  match reportsOf? j with
  | some reports => some reports.flatten
  | none => Message.listOfJson? j

def ofText (t : Text) : Except OutputFault (List Message) :=
  if !t.isUtf8 then .error .notUtf8
  else if t.isBlankText then .ok []
  else
    match Json.ofText? t with
    | none => .error .malformedJson
    | some j =>
      match ofJson? j with
      | some ms => .ok ms
      | none => .error .wrongShape

end LinterOutput
end Inlay
