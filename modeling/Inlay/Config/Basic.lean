import Inlay.Block.Relocate
import Inlay.Command.Linter
import Inlay.Command.Parser
import Inlay.Config.Relaxed
import Inlay.Config.Schema
import Inlay.Path.Basic

/-! The configuration. It is read from relaxed JSON, checked against a schema and then decoded; its
own JSON form reads back. -/

namespace Inlay

structure Config where
  parser : Option ParserCommand
  languages : List String
  unsatisfiableRules : List String
  fix : Bool
  indentWidth : Nat
  linter : LinterCommand
  included : List String
  excluded : List String
  /-- The directory of the file it was read from. -/
  baseDir : Option Path

inductive ConfigError where
  | malformed
  | violation (v : Violation)
  | undecodable
  | unreadable (path : Path) (cause : SystemError)
  | badPattern (pattern : String)
  | badPatternSet (reason : String)

def ConfigError.message : ConfigError → String
  | .malformed => "Invalid JSON"
  | .violation v => "Config validation failed: " ++ v.message
  | .undecodable => "Invalid config"
  | .unreadable path cause => "Failed to read " ++ path.toString ++ ": " ++ cause.message
  | .badPattern pattern => "Invalid pattern '" ++ pattern ++ "'"
  | .badPatternSet reason => "Failed to build globset: " ++ reason

namespace Config

def default : Config := ⟨none, [], [], true, 4, .default, [], [], none⟩

/-! ## Schema -/

def texts : Schema := .array (.string 0)

def commandFields : List (String × Schema) := [("command", .string 1), ("args", texts)]

def schema : Schema :=
  .object
    [("$schema", .string 0),
      ("parser", .object
        (commandFields
          ++ [("input", .oneOf ["argument", "stdin"]),
            ("indentStyle", .oneOf ["nesting", "column"])])
        ["command"]),
      ("languages", .array (.string 1)), ("unsatisfiableRules", texts), ("fix", .boolean),
      ("indentWidth", .integer 0), ("linter", .object commandFields ["command"]),
      ("include", texts), ("exclude", texts)]
    []

/-! ## Decoding -/

def fieldOr {α : Type} (j : Json) (name : String) (missing : α) (decode : Json → Option α) :
    Option α :=
  match j.get? name with
  | none => some missing
  | some v => decode v

def stringsOf? (j : Json) : Option (List String) := do (← j.arr?).mapM Json.str?

def linterOf? (j : Json) : Option LinterCommand := do
  let command ← (← j.get? "command").str?
  let args ← fieldOr j "args" [] stringsOf?
  some ⟨command, args⟩

def parserOf? (j : Json) : Option ParserCommand := do
  let command ← (← j.get? "command").str?
  let args ← fieldOr j "args" [] stringsOf?
  let input ← fieldOr j "input" .argument fun v => v.str?.bind ParserInput.ofName?
  let indentStyle ← fieldOr j "indentStyle" .nesting fun v => v.str?.bind IndentStyle.ofName?
  some ⟨command, args, input, indentStyle⟩

def decode? (j : Json) : Option Config := do
  let parser ← fieldOr j "parser" none fun v =>
    if v.isNull then some none else (parserOf? v).map some
  let languages ← fieldOr j "languages" [] stringsOf?
  let unsatisfiableRules ← fieldOr j "unsatisfiableRules" [] stringsOf?
  let fix ← fieldOr j "fix" true Json.bool?
  let indentWidth ← fieldOr j "indentWidth" 4 (Json.natBelow? Word.bound64)
  let linter ← fieldOr j "linter" .default linterOf?
  let included ← fieldOr j "include" [] stringsOf?
  let excluded ← fieldOr j "exclude" [] stringsOf?
  some ⟨parser, languages, unsatisfiableRules, fix, indentWidth, linter, included, excluded, none⟩

def ofJson (j : Json) : Except ConfigError Config :=
  match schema.check j with
  | .error v => .error (.violation v)
  | .ok () =>
    match decode? j with
    | some c => .ok c
    | none => .error .undecodable

/-- The configuration in a text. A text without a value is the default. -/
def ofText (t : Text) : Except ConfigError Config :=
  match Relaxed.ofText? t with
  | none => .error .malformed
  | some j => ofJson (j.getD (.obj []))

/-! ## JSON form -/

def strings (ss : List String) : Json := .arr (ss.map .str)

def parserToJson (p : ParserCommand) : Json :=
  .obj [("args", strings p.args), ("command", .str p.command),
    ("indentStyle", .str p.indentStyle.name), ("input", .str p.input.name)]

def linterToJson (l : LinterCommand) : Json :=
  .obj [("args", strings l.args), ("command", .str l.command)]

/-- All settings but the base directory, in order of their names. -/
def toJson (c : Config) : Json :=
  .obj ([("exclude", strings c.excluded), ("fix", .bool c.fix), ("include", strings c.included),
      ("indentWidth", .nat c.indentWidth), ("languages", strings c.languages),
      ("linter", linterToJson c.linter)]
    ++ (c.parser.map fun p => ("parser", parserToJson p)).toList
    ++ [("unsatisfiableRules", strings c.unsatisfiableRules)])

/-! ## What it says -/

/-- A relative command of more than one component is taken from the base directory. -/
def resolve (c : Config) (command : String) : String :=
  let p := Path.ofString command
  match c.baseDir with
  | some base =>
    if !p.isAbsolute && 1 < p.components.length then (base.join p).toString else command
  | none => command

def parserCommand? (c : Config) : Option ParserCommand :=
  c.parser.map fun p => { p with command := c.resolve p.command }

def linterCommand (c : Config) : LinterCommand :=
  { c.linter with command := c.resolve c.linter.command }

def messageFilter (c : Config) : MessageFilter := .ofRules c.unsatisfiableRules c.fix

end Config
end Inlay
