import Inlay.Command.Program
import Inlay.Message.Report

/-! Linters that are programs. The program reads a block on its input and prints its messages. Many
linters exit with a failure when they find something, so the status counts only where the output
cannot be used. -/

namespace Inlay

inductive LintError where
  | spawn (program : String) (cause : SystemError)
  | failed (program : String) (status : ExitStatus) (complaint : String)
  | invalidOutput (fault : OutputFault)
deriving DecidableEq, Repr

def LintError.message : LintError → String
  | .spawn program cause => "Failed to run linter `" ++ program ++ "`: " ++ cause.message
  | .failed program status complaint =>
    "Linter `" ++ program ++ "` exited with " ++ status.describe ++ ": " ++ complaint
  | .invalidOutput fault => "Invalid linter output: " ++ fault.message

/-- Whatever turns the text of a block into messages about it. -/
abbrev Linter := Text → Except LintError (List Message)

structure LinterCommand where
  command : String
  args : List String
deriving DecidableEq, Repr

namespace LinterCommand

def default : LinterCommand := ⟨"eslint", ["--stdin", "--format", "json"]⟩

def messagesOf (program : String) (o : Outcome) : Except LintError (List Message) :=
  let failure := LintError.failed program o.status o.complaint
  if !o.status.isSuccess && o.stdout.all Text.isAsciiBlank then .error failure
  else
    match LinterOutput.ofText o.stdout with
    | .ok ms => .ok ms
    | .error fault => if o.status.isSuccess then .error (.invalidOutput fault) else .error failure

def lint (c : LinterCommand) (runner : Runner) : Linter := fun source =>
  match runner.run c.command (c.args.map Text.ofString) source with
  | .error cause => .error (.spawn c.command cause)
  | .ok o => messagesOf c.command o

end LinterCommand
end Inlay
