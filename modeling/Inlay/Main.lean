import Inlay.Cli.Run

/-! The program. It reads the files that a command line mentions, carries the command out on them,
and writes what came of it. Only files that it mentions are seen, and no other program is run: each
one that a configuration names is reported as missing. -/

namespace Inlay
namespace Program

def mentions : Cli.Invocation → List String
  | .run command config =>
    (match config with
      | some path => [path]
      | none => Config.fileNames) ++ command.mentions
  | _ => []

def readFile? (path : String) : IO (Option (String × Text)) := do
  try
    let content ← IO.FS.readBinFile path
    return some (path, content.toList)
  catch _ => return none

/-- Whether a file can be opened for writing. Its content stays. -/
def canWrite (path : String) : IO Bool := do
  try
    discard (IO.FS.Handle.mk path .readWrite)
    return true
  catch _ => return false

def readFiles (paths : List String) : IO FileTree := do
  let found ← paths.eraseDups.filterMapM readFile?
  let readOnly ← (found.map (·.1)).filterM fun path => return !(← canWrite path)
  return .ofFiles found readOnly (FileTree.placeOf [] (← IO.currentDir).toString)

/-- All that is left of a stream. -/
partial def readRest (stream : IO.FS.Stream) (done : ByteArray) : IO ByteArray := do
  let more ← stream.read 65536
  if more.isEmpty then return done else readRest stream (done ++ more)

def readInput : Cli.Invocation → IO Text
  | .run command _ => do
    if command.readsInput then return (← readRest (← IO.getStdin) .empty).toList else return []
  | _ => return []

/-- Writes the files that changed. -/
def writeChanges (before after : FileTree) : IO Unit := do
  for (path, content) in after.toFiles do
    if before.content? (FileTree.placeOf before.current path) != some content then
      IO.FS.writeBinFile path (ByteArray.mk content.toArray)

def reportFailures (failures : List (Path × String)) : IO Unit := do
  unless failures.isEmpty do
    IO.eprintln ("\n" ++ toString failures.length ++ " file(s) failed to lint:")
    for (path, message) in failures do
      IO.eprintln ("  " ++ path.toString ++ ": " ++ message)

def noPrograms : Runner := fun _ _ _ => .error .notFound

def run (args : List String) : IO UInt32 := do
  let invocation := (Cli.parse? args).getD .help
  let files ← readFiles (mentions invocation)
  let stdin ← readInput invocation
  let result := Cli.run ⟨files, noPrograms, .default, stdin⟩ args
  reportFailures result.failures
  writeChanges files result.files
  IO.print result.stdout
  return result.code.toUInt32

end Program
end Inlay

def main (args : List String) : IO UInt32 := Inlay.Program.run args
