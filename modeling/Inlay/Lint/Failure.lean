import Inlay.Config.Basic

/-! What can stop the work on a document, and how it is reported. -/

namespace Inlay

inductive Failure where
  | config (cause : ConfigError)
  | parse (cause : ParseError)
  | lint (cause : LintError)
  | groupCount (expected actual : Nat)
  | unreadable (path : Path) (cause : SystemError)
  | unwritable (path : Path) (cause : SystemError)
  | overflow (cause : Overflow)

def Failure.message : Failure → String
  | .config cause => "Configuration error: " ++ cause.message
  | .parse cause => "Parse error: " ++ cause.message
  | .lint cause => "Linter error: " ++ cause.message
  | .groupCount expected actual =>
    "Expected " ++ toString expected ++ " message group(s), one per extracted block, got "
      ++ toString actual
  | .unreadable path cause =>
    "File error: Failed to read " ++ path.toString ++ ": " ++ cause.message
  | .unwritable path cause =>
    "File error: Failed to write " ++ path.toString ++ ": " ++ cause.message
  | .overflow cause => cause.message

def Failure.lift {ε α : Type} (name : ε → Failure) : Except ε α → Except Failure α
  | .ok a => .ok a
  | .error e => .error (name e)

end Inlay
