import Inlay.Block.Basic
import Inlay.Json.Printer
import Inlay.Message.Wire
import Inlay.Number.Total
import Inlay.Path.Basic

/-! What the commands print. -/

namespace Inlay

structure FileReport where
  path : Path
  messages : List Message

namespace FileReport

def errors (r : FileReport) : List Message := r.messages.filter Message.isError

def warnings (r : FileReport) : List Message := r.messages.filter (!·.isError)

def hasErrors (r : FileReport) : Bool := r.messages.any Message.isError

def toJson (r : FileReport) : Json :=
  .obj [("errorCount", .nat r.errors.length), ("filePath", .str r.path.toString),
    ("messages", Message.listToJson r.messages), ("warningCount", .nat r.warnings.length)]

end FileReport

namespace Cli

def severityName : Severity → String
  | .error => "error"
  | .warning => "warning"

/-- A message on a line of its own. One without a rule is fatal. -/
def messageLine (m : Message) : String :=
  "  " ++ toString m.line ++ ":" ++ toString m.column ++ " " ++ severityName m.severity
    ++ " [" ++ m.ruleId.getD "fatal" ++ "]: " ++ m.text ++ "\n"

def reportLines (r : FileReport) : String :=
  if r.messages.isEmpty then ""
  else "\n" ++ r.path.toString ++ ":\n" ++ String.join (r.messages.map messageLine)

def reportsText (rs : List FileReport) : String :=
  String.join (rs.map reportLines) ++ "\nChecked " ++ toString rs.length ++ " files, found "
    ++ toString (total (rs.map (·.messages.length))) ++ " issues\n"

def jsonText (j : Json) : String := j.canonical.pretty ++ "\n"

def reportsJson (rs : List FileReport) : String := jsonText (.arr (rs.map FileReport.toJson))

def positionJson (p : Position) : Json :=
  .obj [("column", .nat p.column), ("line", .nat p.line), ("offset", .nat p.offset)]

def locationJson (l : Location) : Json :=
  .obj [("end", positionJson l.stop), ("start", positionJson l.start)]

def blockJson (b : Block) : Json :=
  .obj [("indent", .nat b.indent), ("kind", .str b.kind.name),
    ("loc", Json.ofOption (b.loc.map locationJson)), ("source", .str b.sourceText.toStringLossy)]

def blocksJson (bs : List Block) : String := jsonText (.arr (bs.map blockJson))

def blockText (b : Block) (index : Nat) : String :=
  let line := (b.loc.map fun l => toString l.start.line).getD "?"
  "--- block " ++ toString index ++ " (" ++ b.kind.name ++ ", line " ++ line ++ ") ---\n"
    ++ b.sourceText.toStringLossy

def blocksText (bs : List Block) : String :=
  String.join (bs.zipIdx.map fun (b, i) => blockText b i)

end Cli
end Inlay
