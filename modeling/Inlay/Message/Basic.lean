import Inlay.Json.Basic

/-! Messages of a linter. A message says what is wrong and where, and may carry a fix: a byte range
and the text to put there. Fields the linter adds beyond these travel along untouched. -/

namespace Inlay

inductive Severity where
  | warning
  | error
deriving DecidableEq, Repr

namespace Severity

def level : Severity → Nat
  | .warning => 1
  | .error => 2

def ofLevel? : Nat → Option Severity
  | 1 => some .warning
  | 2 => some .error
  | _ => none

def invalidLevel (n : Nat) : String := "invalid severity level " ++ toString n

def name : Severity → String
  | .warning => "warning"
  | .error => "error"

theorem ofLevel?_level (s : Severity) : ofLevel? s.level = some s := by cases s <;> rfl

end Severity

/-- Replace the bytes from `start` up to `stop` by `text`. -/
structure Fix where
  start : Nat
  stop : Nat
  text : String
deriving DecidableEq, Repr

namespace Fix

def insert (offset : Nat) (text : String) : Fix := ⟨offset, offset, text⟩

def delete (start stop : Nat) : Fix := ⟨start, stop, ""⟩

end Fix

structure Message where
  ruleId : Option String
  severity : Severity
  text : String
  line : Nat
  column : Nat
  endLine : Option Nat
  endColumn : Option Nat
  fix : Option Fix
  extra : Json.Fields

namespace Message

def ofRule (ruleId text : String) (line column : Nat) : Message :=
  ⟨some ruleId, .error, text, line, column, none, none, none, []⟩

def withSeverity (m : Message) (s : Severity) : Message := { m with severity := s }

def withEnd (m : Message) (line column : Nat) : Message :=
  { m with endLine := some line, endColumn := some column }

def withFix (m : Message) (f : Fix) : Message := { m with fix := some f }

def isError (m : Message) : Bool := m.severity == .error

end Message
end Inlay
