import Inlay.Text.Basic

/-! Places in a document. Offsets count bytes from zero; lines and columns count from one. -/

namespace Inlay

structure Position where
  offset : Nat
  line : Nat
  column : Nat
deriving DecidableEq, Repr, Inhabited

/-- From `start` up to but not including `stop`. -/
structure Location where
  start : Position
  stop : Position
deriving DecidableEq, Repr, Inhabited

namespace Location

def isInverted (l : Location) : Bool := l.stop.offset < l.start.offset

/-- The text at a location, when the location fits the document. -/
def textIn? (l : Location) (document : Text) : Option Text :=
  document.slice? l.start.offset l.stop.offset

def fits (l : Location) (document : Text) : Bool := (l.textIn? document).isSome

end Location
end Inlay
