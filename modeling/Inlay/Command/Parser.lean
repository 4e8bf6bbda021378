import Inlay.Command.Program
import Inlay.Block.Basic
import Inlay.Tree.Wire

/-! Parsers that are programs. The program is given a document, as its last argument or on its
input, and prints the document's tree. -/

namespace Inlay

inductive ParserInput where
  | argument
  | stdin
deriving DecidableEq, Repr

namespace ParserInput

def name : ParserInput → String
  | .argument => "argument"
  | .stdin => "stdin"

def ofName? : String → Option ParserInput
  | "argument" => some .argument
  | "stdin" => some .stdin
  | _ => none

end ParserInput

inductive ParseError where
  | spawn (program : String) (cause : SystemError)
  | failed (program : String) (status : ExitStatus) (complaint : String)
  | malformedTree
deriving DecidableEq, Repr

def ParseError.message : ParseError → String
  | .spawn program cause => "Failed to run parser `" ++ program ++ "`: " ++ cause.message
  | .failed program status complaint =>
    "Parser `" ++ program ++ "` exited with " ++ status.describe ++ ": " ++ complaint
  | .malformedTree => "Invalid parser output: malformed JSON tree"

structure ParserCommand where
  command : String
  args : List String
  input : ParserInput
  indentStyle : IndentStyle
deriving DecidableEq, Repr

namespace ParserCommand

/-- The tree in what a parser printed, unless it failed. -/
def treeOf (program : String) (o : Outcome) : Except ParseError (Option Node) :=
  if o.status.isSuccess then
    match TreeWire.ofText? o.stdout with
    | some tree => .ok tree
    | none => .error .malformedTree
  else .error (.failed program o.status o.complaint)

def parse (c : ParserCommand) (runner : Runner) (document : Text) :
    Except ParseError (Option Node) :=
  let args := c.args.map Text.ofString
  let outcome :=
    match c.input with
    | .argument => runner.run c.command (args ++ [document]) []
    | .stdin => runner.run c.command args document
  match outcome with
  | .error cause => .error (.spawn c.command cause)
  | .ok o => treeOf c.command o

end ParserCommand
end Inlay
