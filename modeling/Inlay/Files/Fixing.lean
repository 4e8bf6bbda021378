import Inlay.Files.Tree
import Inlay.Lint.Failure
import Inlay.Message.Fixing

/-! Fixes applied to a file. A file is written only if something was applied. -/

namespace Inlay

def FileTree.fix (files : FileTree) (path : Path) (ms : List Message) :
    Except Failure (FixResult × FileTree) :=
  match files.readText path with
  | .error cause => .error (.unreadable path cause)
  | .ok content =>
    let result := applyFixes content ms
    if result.isModified then
      match files.write path result.content with
      | .error cause => .error (.unwritable path cause)
      | .ok files => .ok (result, files)
    else .ok (result, files)

end Inlay
