import Inlay.Cli.Arguments
import Inlay.Cli.Report
import Inlay.Config.Load
import Inlay.Files.Finder
import Inlay.Files.Fixing
import Inlay.Lint.Processor

/-! The commands, as functions of the files, the programs and the input they find. -/

namespace Inlay
namespace Cli

structure World where
  files : FileTree
  runner : Runner
  compiler : GlobCompiler
  stdin : Text

/-- What came of a command: its exit code, what it printed, the files that could not be linted, and
all files afterwards. -/
structure Result where
  code : Nat
  stdout : String
  failures : List (Path × String)
  files : FileTree

def version : String := "embedlint 0.1.0"

/-- The code of a command that could not be carried out. Arithmetic that runs over ends it
differently. -/
def failureCode : Failure → Nat
  | .overflow _ => 101
  | _ => 2

inductive Stop where
  | failure (cause : Failure)
  | unreadableInput
  | malformedGroups

def Stop.code : Stop → Nat
  | .failure cause => failureCode cause
  | _ => 2

def findConfig (files : FileTree) (given : Option String) : Except Failure Config :=
  Failure.lift .config <|
    match given with
    | some path => Config.ofFile files (.ofString path)
    | none => Config.load files ⟨Path.dot⟩

def orStop {α : Type} : Except Failure α → Except Stop α
  | .ok a => .ok a
  | .error cause => .error (.failure cause)

def readDocument (files : FileTree) (path : String) : Except Stop Text :=
  match files.readText (.ofString path) with
  | .ok text => .ok text
  | .error _ => .error .unreadableInput

def preprocess (w : World) (config : Config) (file : String) (format : OutputFormat) :
    Except Stop String := do
  let text ← readDocument w.files file
  let cycle ← orStop ((Processor.ofConfig config w.runner).preprocess text)
  return match format with
    | .text => blocksText cycle.blocks
    | .json => blocksJson cycle.blocks

/-- Groups of messages from a file, or from the input for a single dash. -/
def readGroups (w : World) (messages : String) : Except Stop (List (List Message)) := do
  let text ←
    if messages = "-" then if w.stdin.isUtf8 then .ok w.stdin else .error .unreadableInput
    else readDocument w.files messages
  match Message.groupsOfText? text with
  | some groups => .ok groups
  | none => .error .malformedGroups

def printReports (format : OutputFormat) (rs : List FileReport) : String :=
  match format with
  | .text => reportsText rs
  | .json => reportsJson rs

/-- The code is one if an error was reported. -/
def codeOf (rs : List FileReport) : Nat := if rs.any FileReport.hasErrors then 1 else 0

def postprocess (w : World) (config : Config) (file messages : String) (format : OutputFormat) :
    Except Stop (Nat × String) := do
  let text ← readDocument w.files file
  let groups ← readGroups w messages
  let cycle ← orStop ((Processor.ofConfig config w.runner).preprocess text)
  let ms ← orStop (cycle.postprocess groups)
  let reports := [⟨.ofString file, ms⟩]
  return (codeOf reports, printReports format reports)

/-! ## Linting -/

/-- The reports of the files that could be linted, and why the others could not. -/
structure Linted where
  reports : List FileReport
  failures : List (Path × String)

def lintFile (p : Processor) (linter : Linter) (files : FileTree) (path : Path) :
    Except Failure (Except String (List Message)) :=
  match files.readText path with
  | .error _ => .ok (.error ("Failed to read " ++ path.toString))
  | .ok text =>
    match p.lint linter text with
    | .ok ms => .ok (.ok ms)
    | .error (.overflow cause) => .error (.overflow cause)
    | .error cause => .ok (.error cause.message)

def lintAll (p : Processor) (linter : Linter) (files : FileTree) :
    List Path → Except Failure Linted
  | [] => .ok ⟨[], []⟩
  | path :: rest => do
    let result ← lintFile p linter files path
    let linted ← lintAll p linter files rest
    return match result with
      | .ok ms => { linted with reports := ⟨path, ms⟩ :: linted.reports }
      | .error message => { linted with failures := (path, message) :: linted.failures }

/-- Fixes the file of one report. The messages whose fix was applied are dropped from it. -/
def fixReport (files : FileTree) (r : FileReport) : FileReport × FileTree :=
  if r.messages.any fun m => m.fix.isSome then
    match files.fix r.path r.messages with
    | .ok (result, files) => ({ r with messages := result.remaining r.messages }, files)
    | .error _ => (r, files)
  else (r, files)

def fixAll (files : FileTree) : List FileReport → List FileReport × FileTree
  | [] => ([], files)
  | r :: rest =>
    let (fixed, files) := fixReport files r
    let (others, files) := fixAll files rest
    (fixed :: others, files)

def lint (w : World) (config : Config) (patterns : List String) (format : OutputFormat)
    (fix : Bool) : Except Failure Result := do
  let filter ← Failure.lift .config
    (PathFilter.ofPatterns w.compiler config.included config.excluded)
  let paths ← Failure.lift .config (filter.discover w.compiler w.files patterns ⟨Path.dot⟩)
  let linted ← lintAll (Processor.ofConfig config w.runner) (config.linterCommand.lint w.runner)
    w.files paths
  let (reports, files) :=
    if fix && Processor.supportsAutofix then fixAll w.files linted.reports
    else (linted.reports, w.files)
  let code := if linted.failures.isEmpty then codeOf reports else 1
  return ⟨code, printReports format reports, linted.failures, files⟩

/-! ## Command lines -/

def stopped (w : World) (stop : Stop) : Result := ⟨stop.code, "", [], w.files⟩

def runCommand (w : World) (config : Config) : Command → Except Stop Result
  | .preprocess file format => do
    return ⟨0, ← preprocess w config file format, [], w.files⟩
  | .postprocess file messages format => do
    let (code, stdout) ← postprocess w config file messages format
    return ⟨code, stdout, [], w.files⟩
  | .lint patterns format fix => orStop (lint w config patterns format fix)

def run (w : World) (args : List String) : Result :=
  match parse? args with
  | none => ⟨2, "", [], w.files⟩
  | some .version => ⟨0, version ++ "\n", [], w.files⟩
  | some .help => ⟨0, "", [], w.files⟩
  | some (.run command given) =>
    match orStop (findConfig w.files given) with
    | .error stop => stopped w stop
    | .ok config =>
      match runCommand w config command with
      | .ok result => result
      | .error stop => stopped w stop

end Cli
end Inlay
