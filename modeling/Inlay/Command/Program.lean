import Inlay.Text.Blank

/-! Programs run by a command. Whoever runs them is a function from program, arguments and input to
what came of it, so that nothing else here depends on the machine. -/

namespace Inlay

inductive SystemError where
  | notFound
  | permissionDenied
  | notDirectory
  | isDirectory
  | notUtf8
  | nulByte
deriving DecidableEq, Repr

def SystemError.message : SystemError → String
  | .notFound => "No such file or directory (os error 2)"
  | .permissionDenied => "Permission denied (os error 13)"
  | .notDirectory => "Not a directory (os error 20)"
  | .isDirectory => "Is a directory (os error 21)"
  | .notUtf8 => "stream did not contain valid UTF-8"
  | .nulByte => "nul byte found in provided data"

inductive ExitStatus where
  | code (n : Nat)
  | signal (n : Nat)
deriving DecidableEq, Repr

namespace ExitStatus

def isSuccess (s : ExitStatus) : Bool := s == .code 0

def signalNames : List (Nat × String) :=
  [(1, "SIGHUP"), (2, "SIGINT"), (3, "SIGQUIT"), (4, "SIGILL"), (6, "SIGABRT"), (8, "SIGFPE"),
    (9, "SIGKILL"), (10, "SIGUSR1"), (11, "SIGSEGV"), (12, "SIGUSR2"), (13, "SIGPIPE"),
    (14, "SIGALRM"), (15, "SIGTERM")]

def describe : ExitStatus → String
  | .code n => "exit status: " ++ toString n
  | .signal n =>
    "signal: " ++ toString n
      ++ (match signalNames.lookup n with
        | some name => " (" ++ name ++ ")"
        | none => "")

end ExitStatus

structure Outcome where
  status : ExitStatus
  stdout : Text
  stderr : Text

/-- The standard error of a program as it is reported, trimmed. -/
def Outcome.complaint (o : Outcome) : String := String.ofList (Text.trimChars o.stderr.charsLossy)

/-- Runs a program with arguments and an input. -/
abbrev Runner := String → List Text → Text → Except SystemError Outcome

/-- Runs a program. An argument cannot hold a zero byte. -/
def Runner.run (r : Runner) (program : String) (args : List Text) (input : Text) :
    Except SystemError Outcome :=
  if args.any (·.contains 0) then .error .nulByte else r program args input

end Inlay
