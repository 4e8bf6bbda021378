import Inlay.Text.Utf8

/-! Paths as they are spelled. Two spellings mean one path when they have the same components, and
paths are ordered by components: the root, the current directory, the directory above, then names by
their bytes. -/

namespace Inlay

structure Path where
  text : Text
deriving DecidableEq, Repr, Inhabited

inductive Component where
  | root
  | here
  | above
  | name (bytes : Text)
deriving DecidableEq, Repr

/-- What components are ordered by, a zero at the end. -/
def Component.key : Component → List Nat
  | .root => [1, 0]
  | .here => [2, 0]
  | .above => [3, 0]
  | .name bytes => 4 :: bytes.map (·.toNat + 1) ++ [0]

def isAtMostInOrder : List Nat → List Nat → Bool
  | [], _ => true
  | _ :: _, [] => false
  | a :: as, b :: bs => a < b || (a == b && isAtMostInOrder as bs)

namespace Path

def slash : UInt8 := 47

def dot : Text := [46]

def dotDot : Text := [46, 46]

def ofString (s : String) : Path := ⟨Text.ofString s⟩

def toString (p : Path) : String := p.text.toStringLossy

def isAbsolute (p : Path) : Bool := p.text.head? == some slash

def pieces (p : Path) : List Text := p.text.split slash

/-- The component a piece stands for. Empty pieces and single dots stand for none. -/
def componentOf? (piece : Text) : Option Component :=
  if piece = [] || piece = dot then none
  else if piece = dotDot then some .above
  else some (.name piece)

/-- The components of a path. A single dot counts only at the front of a relative path. -/
def components (p : Path) : List Component :=
  (if p.isAbsolute then [.root] else if p.pieces.head? = some dot then [.here] else [])
    ++ p.pieces.filterMap componentOf?

def key (p : Path) : List Nat := p.components.flatMap Component.key

def isAtMost (p q : Path) : Bool := isAtMostInOrder p.key q.key

/-- Whether two spellings mean one path. -/
def isSame (p q : Path) : Bool := p.key == q.key

def join (base p : Path) : Path :=
  if p.isAbsolute || base.text = [] then p
  else if base.text.getLast? = some slash then ⟨base.text ++ p.text⟩
  else ⟨base.text ++ slash :: p.text⟩

/-- Pieces, last first, without those at the end that stand for no component. The first piece of a
path stays. -/
def dropIdle : List Text → List Text
  | [] => []
  | [first] => [first]
  | piece :: rest => if (componentOf? piece).isNone then dropIdle rest else piece :: rest

/-- The path without its last component, which must not be the root. -/
def parent? (p : Path) : Option Path :=
  match dropIdle p.pieces.reverse with
  | [] => none
  | [first] => if first = [] then none else some ⟨[]⟩
  | _ :: rest =>
    match dropIdle rest with
    | [[]] => some ⟨[slash]⟩
    | kept => some ⟨List.intercalate [slash] kept.reverse⟩

end Path
end Inlay
