import Inlay.Config.Basic
import Inlay.Files.Tree
import Inlay.Path.GlobSet

/-! Which files to work on. An argument that names a file stands for it; any other is a pattern for
the files that a walk comes by. Files that the filter rejects are left out either way. -/

namespace Inlay

/-- Patterns for paths to keep and to leave out. No patterns to keep means that all are kept. -/
structure PathFilter where
  included : List Glob
  excluded : List Glob

def Glob.parse (pattern : String) : Except ConfigError Glob :=
  match Glob.ofString? pattern with
  | some g => .ok g
  | none => .error (.badPattern pattern)

/-- The set of some patterns. Nothing is compiled if there are none. -/
def GlobCompiler.parse (compiler : GlobCompiler) (patterns : List String) :
    Except ConfigError (List Glob) := do
  let globs ← patterns.mapM Glob.parse
  if globs.isEmpty then return globs
  else match compiler globs with
    | some reason => .error (.badPatternSet reason)
    | none => return globs

namespace PathFilter

def ofPatterns (compiler : GlobCompiler) (included excluded : List String) :
    Except ConfigError PathFilter := do
  let included ← compiler.parse included
  let excluded ← compiler.parse excluded
  return ⟨included, excluded⟩

/-- Whether a path is left out. Patterns to leave out win. -/
def rejects (f : PathFilter) (p : Path) : Bool :=
  f.excluded.any (·.isMatch p) || (!f.included.isEmpty && !f.included.any (·.isMatch p))

def dropRepeats : List Path → List Path
  | [] => []
  | [p] => [p]
  | p :: q :: rest =>
    match dropRepeats (q :: rest) with
    | [] => [p]
    | r :: others => if p.isSame r then p :: others else p :: r :: others

def inOrder (paths : List Path) : List Path := dropRepeats (paths.mergeSort Path.isAtMost)

/-- The files that arguments stand for, given which paths are files and what a walk comes by. -/
def select (f : PathFilter) (compiler : GlobCompiler) (isFile : Path → Bool) (walked : List Path)
    (arguments : List String) : Except ConfigError (List Path) := do
  let (named, patterns) := arguments.partition fun a => isFile (.ofString a)
  let globs ← compiler.parse patterns
  let found := walked.filter fun p => globs.any (·.isMatch p)
  return inOrder ((named.map Path.ofString ++ found).filter (!f.rejects ·))

/-- The files that arguments stand for, patterns being matched below `base`. -/
def discover (f : PathFilter) (compiler : GlobCompiler) (files : FileTree)
    (arguments : List String) (base : Path) : Except ConfigError (List Path) :=
  f.select compiler files.isFile (files.walk base) arguments

end PathFilter
end Inlay
