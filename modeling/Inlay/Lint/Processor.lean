import Inlay.Lint.Cycle
import Inlay.Markdown.Document
import Inlay.Message.Fixing

/-! Documents are read by a parser, their scripts linted block by block, and the messages brought
back to the document. -/

namespace Inlay

/-- Whatever turns a document into a tree. A blank document may have none. -/
structure DocumentParser where
  name : String
  indentStyle : IndentStyle
  parse : Text → Except ParseError (Option Node)

namespace DocumentParser

def markdown (languages : List Text) : DocumentParser :=
  ⟨"markdown", .column, fun document => .ok (Markdown.parse languages document)⟩

def ofCommand (c : ParserCommand) (runner : Runner) : DocumentParser :=
  ⟨c.command, c.indentStyle, c.parse runner⟩

def ofConfig (c : Config) (runner : Runner) : DocumentParser :=
  match c.parserCommand? with
  | some command => ofCommand command runner
  | none =>
    if c.languages.isEmpty then markdown Markdown.defaultLanguages
    else markdown (c.languages.map Text.ofString)

end DocumentParser

structure Processor where
  parser : DocumentParser
  indentWidth : Nat
  filter : MessageFilter

namespace Processor

/-- Fixes in the messages about a document can be applied to it. -/
def supportsAutofix : Bool := true

def ofConfig (c : Config) (runner : Runner) : Processor :=
  ⟨.ofConfig c runner, c.indentWidth, c.messageFilter⟩

def preprocess (p : Processor) (document : Text) : Except Failure Cycle := do
  let tree ← Failure.lift .parse (p.parser.parse document)
  let blocks ← Failure.lift .overflow
    (Cycle.extract document p.parser.indentStyle p.indentWidth tree)
  return ⟨blocks, p.filter⟩

/-- Lints a document. The first block that the linter fails on stops the work. -/
def lint (p : Processor) (linter : Linter) (document : Text) : Except Failure (List Message) := do
  let cycle ← p.preprocess document
  let groups ← Failure.lift .lint (cycle.sources.mapM linter)
  cycle.postprocess groups

end Processor
end Inlay
