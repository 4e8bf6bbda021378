import Inlay.Path.Basic
import Inlay.Command.Program

/-! A tree of files. Relative paths are looked up from its current directory and absolute ones from
the root. -/

namespace Inlay

/-- Names from the top down. -/
abbrev Names := List Text

/-- Files with their contents, directories that are there without a file, the current directory, and
the files that cannot be written. -/
structure FileTree where
  files : List (Names × Text)
  directories : List Names
  current : Names
  readOnly : List Names

inductive FileEntry where
  | file (content : Text)
  | directory

/-- Where a component leads. Above the root is the root. -/
def Component.next (at_ : Names) : Component → Names
  | .root => []
  | .here => at_
  | .above => at_.dropLast
  | .name n => at_ ++ [n]

namespace FileTree

/-- Where the spelling of a path leads from a directory if all of its directories are there. -/
def placeOf (current : Names) (s : String) : Names :=
  (Path.ofString s).components.foldl Component.next current

/-- The tree of some files. A spelling that ends in a slash stands for a directory. -/
def ofFiles (files : List (String × Text)) (readOnly : List String := [])
    (current : Names := []) : FileTree :=
  let (directories, files) := files.partition fun f => f.1.toList.getLast? == some '/'
  ⟨files.map fun f => (placeOf current f.1, f.2), directories.map fun f => placeOf current f.1,
    current, readOnly.map (placeOf current)⟩

/-- Names from the current directory where they lead down from it, and from the root otherwise. -/
def spell (t : FileTree) (names : Names) : Path :=
  if t.current.isPrefixOf names then
    ⟨List.intercalate [Path.slash] (names.drop t.current.length)⟩
  else ⟨List.intercalate [Path.slash] ([] :: names)⟩

def toFiles (t : FileTree) : List (String × Text) :=
  t.files.map fun f => ((t.spell f.1).toString, f.2)

def content? (t : FileTree) (names : Names) : Option Text := t.files.lookup names

/-- A directory is there if something is in it, if it is listed, or if the current one is at or
below it, as it always is for the root. -/
def isDirectory (t : FileTree) (names : Names) : Bool :=
  names.isPrefixOf t.current || t.directories.any names.isPrefixOf
    || t.files.any fun f => names.isPrefixOf f.1 && names != f.1

def entry? (t : FileTree) (names : Names) : Option FileEntry :=
  match t.content? names with
  | some content => some (.file content)
  | none => if t.isDirectory names then some .directory else none

/-- Follows components from a place, which has to be a directory for each step. -/
def follow (t : FileTree) (at_ : Names) : List Component → Except SystemError Names
  | [] => .ok at_
  | c :: rest =>
    match t.entry? at_ with
    | none => .error .notFound
    | some (.file _) => .error .notDirectory
    | some .directory => t.follow (c.next at_) rest

def asksForDirectory (p : Path) : Bool :=
  match p.pieces.getLast? with
  | some last => last = [] || last = Path.dot
  | none => false

def find (t : FileTree) (p : Path) : Except SystemError (Names × FileEntry) :=
  if p.text = [] then .error .notFound
  else
    match t.follow t.current p.components with
    | .error e => .error e
    | .ok names =>
      match t.entry? names with
      | none => .error .notFound
      | some (.file content) =>
        if asksForDirectory p then .error .notDirectory else .ok (names, .file content)
      | some .directory => .ok (names, .directory)

def isFile (t : FileTree) (p : Path) : Bool :=
  match t.find p with
  | .ok (_, .file _) => true
  | _ => false

def read (t : FileTree) (p : Path) : Except SystemError Text :=
  match t.find p with
  | .error e => .error e
  | .ok (_, .directory) => .error .isDirectory
  | .ok (_, .file content) => .ok content

def readText (t : FileTree) (p : Path) : Except SystemError Text :=
  match t.read p with
  | .error e => .error e
  | .ok content => if content.isUtf8 then .ok content else .error .notUtf8

def setContent (t : FileTree) (names : Names) (content : Text) : FileTree :=
  { t with files := t.files.map fun f => if f.1 = names then (names, content) else f }

def write (t : FileTree) (p : Path) (content : Text) : Except SystemError FileTree :=
  match t.find p with
  | .error e => .error e
  | .ok (_, .directory) => .error .isDirectory
  | .ok (names, .file _) =>
    if t.readOnly.contains names then .error .permissionDenied else .ok (t.setContent names content)

/-- The files at or below a path, spelled from that path on. -/
def walk (t : FileTree) (base : Path) : List Path :=
  match t.find base with
  | .error _ => []
  | .ok (_, .file _) => [base]
  | .ok (names, .directory) =>
    (t.files.filter fun f => names.isPrefixOf f.1).map fun f =>
      (f.1.drop names.length).foldl (fun p name => p.join ⟨name⟩) base

end FileTree
end Inlay
