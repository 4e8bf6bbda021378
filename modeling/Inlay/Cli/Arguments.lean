import Inlay.Text.Basic

/-! The command line: what is to be done, and with which options. Options may stand anywhere; those
of all commands also before the command's name. -/

namespace Inlay
namespace Cli

inductive OutputFormat where
  | text
  | json
deriving DecidableEq, Repr

inductive Command where
  | preprocess (file : String) (format : OutputFormat)
  | postprocess (file messages : String) (format : OutputFormat)
  | lint (patterns : List String) (format : OutputFormat) (fix : Bool)
deriving DecidableEq, Repr

inductive Invocation where
  | version
  | help
  | run (command : Command) (config : Option String)
deriving DecidableEq, Repr

namespace Command

/-- What a command may have to read: the files it names, or what may be one. -/
def mentions : Command → List String
  | .preprocess file _ => [file]
  | .postprocess file messages _ => [file, messages]
  | .lint patterns _ _ => patterns

def readsInput : Command → Bool
  | .postprocess _ messages _ => messages == "-"
  | _ => false

end Command

inductive OptionName where
  | config
  | verbose
  | format
  | messages
  | fix
  | help
  | version
deriving DecidableEq, Repr

namespace OptionName

def takesValue : OptionName → Bool
  | .config => true
  | .format => true
  | .messages => true
  | _ => false

def long : OptionName → String
  | .config => "config"
  | .verbose => "verbose"
  | .format => "format"
  | .messages => "messages"
  | .fix => "fix"
  | .help => "help"
  | .version => "version"

def letter? : OptionName → Option Char
  | .config => some 'c'
  | .verbose => some 'v'
  | .format => some 'f'
  | .messages => some 'm'
  | .fix => none
  | .help => some 'h'
  | .version => some 'V'

end OptionName

def OutputFormat.ofName? : String → Option OutputFormat
  | "text" => some .text
  | "json" => some .json
  | _ => none

/-- Whether an option takes a value. A path has to be spelled somehow. -/
def OptionName.accepts (name : OptionName) (value : String) : Bool :=
  match name with
  | .config => !value.isEmpty
  | .messages => !value.isEmpty
  | .format => (OutputFormat.ofName? value).isSome
  | _ => true

/-- What the values of a command are: one file, or any number of patterns. -/
inductive Values where
  | none
  | file
  | patterns
deriving DecidableEq, Repr

structure Grammar where
  options : List OptionName
  values : Values

inductive CommandName where
  | preprocess
  | postprocess
  | lint
deriving DecidableEq, Repr

namespace CommandName

def ofString? : String → Option CommandName
  | "preprocess" => some .preprocess
  | "postprocess" => some .postprocess
  | "lint" => some .lint
  | _ => none

def grammar : CommandName → Grammar
  | .preprocess => ⟨[.config, .verbose, .format, .help], .file⟩
  | .postprocess => ⟨[.config, .verbose, .format, .messages, .help], .file⟩
  | .lint => ⟨[.config, .verbose, .format, .fix, .help], .patterns⟩

end CommandName

def front : Grammar := ⟨[.config, .verbose, .help, .version], .none⟩

structure Level where
  given : List (OptionName × String)
  values : List String

/-- An option asks for help or the version at once; all others are collected. -/
inductive Outcome where
  | level (l : Level) (rest : List String)
  | shown (i : Invocation)

namespace Level

def empty : Level := ⟨[], []⟩

def get? (l : Level) (name : OptionName) : Option String := l.given.lookup name

def add? (l : Level) (name : OptionName) (value : String) : Option Level :=
  if (l.get? name).isSome then none else some { l with given := (name, value) :: l.given }

/-- Adds an option whose value stands in the same argument, which has to be one it takes. -/
def addAttached? (l : Level) (name : OptionName) (value : String) : Option Level :=
  if name.accepts value then l.add? name value else none

def push? (l : Level) (g : Grammar) (value : String) : Option Level :=
  match g.values, l.values with
  | .patterns, values => some { l with values := values ++ [value] }
  | .file, [] => some { l with values := [value] }
  | _, _ => none

def isAcceptable (l : Level) (g : Grammar) : Bool :=
  (l.given.all fun (name, value) => name.accepts value)
    && (g.values != .file || l.values.all (!·.isEmpty))

end Level

def findLong? (allowed : List OptionName) (name : String) : Option OptionName :=
  allowed.find? (·.long == name)

def findLetter? (allowed : List OptionName) (c : Char) : Option OptionName :=
  allowed.find? (·.letter? == some c)

/-- Whether an argument looks like an option rather than a value. A single dash is a value. -/
def isOptionLike (s : String) : Bool := s.toList.head? == some '-' && s != "-"

def splitLong (cs : List Char) : String × Option String :=
  let name := cs.takeWhile (· != '=')
  match cs.dropWhile (· != '=') with
  | _ :: value => (String.ofList name, some (String.ofList value))
  | [] => (String.ofList name, none)

def shown? : OptionName → Option Invocation
  | .help => some .help
  | .version => some .version
  | _ => none

def takeNext? (l : Level) (name : OptionName) : List String → Option Outcome
  | value :: rest => if isOptionLike value then none else (l.add? name value).map (.level · rest)
  | [] => none

def long? (allowed : List OptionName) (l : Level) (cs : List Char) (rest : List String) :
    Option Outcome := do
  let (text, value) := splitLong cs
  let name ← findLong? allowed text
  match name.takesValue, value with
  | true, some value => (l.addAttached? name value).map (.level · rest)
  | true, none => takeNext? l name rest
  | false, some _ => none
  | false, none =>
    match shown? name with
    | some i => some (.shown i)
    | none => (l.add? name "").map (.level · rest)

/-- Letters after one dash. The rest of the argument is the value of a letter that takes one. -/
def letters? (allowed : List OptionName) (l : Level) (rest : List String) :
    List Char → Option Outcome
  | [] => some (.level l rest)
  | c :: cs => do
    let name ← findLetter? allowed c
    if name.takesValue then
      match cs with
      | [] => takeNext? l name rest
      | '=' :: value => (l.addAttached? name (String.ofList value)).map (.level · rest)
      | value => (l.addAttached? name (String.ofList value)).map (.level · rest)
    else
      match shown? name with
      | some i => some (.shown i)
      | none => (l.add? name "").bind fun l => letters? allowed l rest cs

/-- Reads an argument that looks like an option, once all before it proves acceptable. -/
def option? (g : Grammar) (l : Level) (argument : String) (rest : List String) : Option Outcome :=
  if !l.isAcceptable g then none
  else
    match argument.toList with
    | '-' :: '-' :: cs => long? g.options l cs rest
    | '-' :: cs => letters? g.options l rest cs
    | _ => none

/-- Reads the arguments after a command's name. `fuel` is their number. -/
def arguments? (g : Grammar) : Nat → Level → List String → Option Outcome
  | _, l, [] => some (.level l [])
  | 0, _, _ => none
  | fuel + 1, l, a :: rest =>
    if a = "--" then (rest.foldlM (fun (l : Level) value => l.push? g value) l).map (.level · [])
    else if isOptionLike a then do
      match ← option? g l a rest with
      | .level l rest => arguments? g fuel l rest
      | .shown i => some (.shown i)
    else (l.push? g a).bind fun l => arguments? g fuel l rest

/-- What a level says about a command. Text is the format if none is named. -/
def command? (name : CommandName) (l : Level) : Option Command := do
  let format ← OutputFormat.ofName? ((l.get? .format).getD "text")
  match name, l.values with
  | .preprocess, [file] => return .preprocess file format
  | .postprocess, [file] => return .postprocess file (← l.get? .messages) format
  | .lint, p :: ps => return .lint (p :: ps) format (l.get? .fix).isSome
  | _, _ => none

/-- Help can be asked for the whole program or for one command, itself among them. -/
def helpTopic? : List String → Option Invocation
  | [] => some .help
  | ["help"] => some .help
  | [name] => (CommandName.ofString? name).map fun _ => .help
  | _ => none

def front? : Nat → Level → List String →
    Option (Except Invocation (Level × CommandName × List String))
  | _, _, [] => none
  | 0, _, _ => none
  | fuel + 1, l, a :: rest =>
    if isOptionLike a then do
      match ← option? front l a rest with
      | .level l rest => front? fuel l rest
      | .shown i => some (.error i)
    else if a = "help" then (helpTopic? rest).map .error
    else (CommandName.ofString? a).map fun name => .ok (l, name, rest)

/-- Follows a command line, or refuses it. A configuration named after the command wins. -/
def parse? (args : List String) : Option Invocation := do
  match ← front? args.length .empty args with
  | .error i => some i
  | .ok (before, name, rest) =>
    match ← arguments? name.grammar rest.length .empty rest with
    | .shown i => some i
    | .level l _ =>
      if l.isAcceptable name.grammar && before.isAcceptable front then
        return .run (← command? name l) ((l.get? .config).or (before.get? .config))
      else none

end Cli
end Inlay
