import Inlay.Config.Basic
import Inlay.Files.Tree

/-! Configuration files. A directory is searched for the names a configuration may have. -/

namespace Inlay
namespace Config

/-- Names of configuration files, the first one found counting. -/
def fileNames : List String := [".embedlint.jsonc", ".embedlint.json"]

/-- The configuration in a file. Commands are taken from the directory of the file. -/
def ofFile (files : FileTree) (path : Path) : Except ConfigError Config :=
  match files.readText path with
  | .error cause => .error (.unreadable path cause)
  | .ok text => (ofText text).map fun c => { c with baseDir := path.parent? }

def discover? (files : FileTree) (dir : Path) : Option Path :=
  (fileNames.map fun name => dir.join (.ofString name)).find? files.isFile

/-- The configuration of a directory, which is the default without a file. -/
def load (files : FileTree) (dir : Path) : Except ConfigError Config :=
  match discover? files dir with
  | some path => ofFile files path
  | none => .ok default

end Config
end Inlay
