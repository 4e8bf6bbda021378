import Inlay.Tree.Location

/-! Lines of a Markdown document and places in them. A line ends at `\n`, `\r\n` or `\r`. A tab
fills its line up to the next column that is one more than a multiple of four, and the columns it fills
can be used up one by one. -/

namespace Inlay
namespace Markdown

def space : UInt8 := 32

def tab : UInt8 := 9

def isGap (b : UInt8) : Bool := b == space || b == tab

def columnAfter (column : Nat) (b : UInt8) : Nat :=
  if b = tab then (column + 3) / 4 * 4 + 1 else column + 1

structure Line where
  number : Nat
  offset : Nat
  column : Nat
  bytes : Text
  ending : Text
deriving Inhabited

namespace Line

/-- Adds a byte in front of lines read from the right, each with its ending. -/
def breakAt (b : UInt8) : List (Text × Text) → List (Text × Text)
  | [] => [([b], [])]
  | (bytes, ending) :: rest =>
    if b = Text.newline then ([], [b]) :: (bytes, ending) :: rest
    else if b = Text.carriageReturn then
      if bytes.isEmpty && ending == [Text.newline] then ([], b :: ending) :: rest
      else ([], [b]) :: (bytes, ending) :: rest
    else (b :: bytes, ending) :: rest

def place (first : Line) : List (Text × Text) → List Line
  | [] => []
  | (bytes, ending) :: rest =>
    let line := { first with bytes, ending }
    line :: place ⟨first.number + 1, first.offset + bytes.length + ending.length, 1, [], []⟩ rest

def byteOrderMark : Text := [0xEF, 0xBB, 0xBF]

/-- Where the text of the first line starts, a byte order mark being passed over. -/
def first (document : Text) : Line :=
  if byteOrderMark.isPrefixOf document then ⟨1, 3, 4, [], []⟩ else ⟨1, 0, 1, [], []⟩

/-- The lines of a document. Nothing after the last line ending is no line. -/
def ofDocument (document : Text) : List Line :=
  let start := first document
  let pieces := (document.drop start.offset).foldr breakAt [([], [])]
  (place start pieces).filter fun l => !(l.bytes.isEmpty && l.ending.isEmpty)

def start (l : Line) : Position := ⟨l.offset, l.number, l.column⟩

def stop (l : Line) : Position :=
  ⟨l.offset + l.bytes.length, l.number, l.bytes.foldl columnAfter l.column⟩

def next (l : Line) : Position :=
  if l.ending.isEmpty then l.stop
  else ⟨l.offset + l.bytes.length + l.ending.length, l.number + 1, 1⟩

end Line

/-- A place in a line, with what follows, and how many columns of a tab ahead are used up. -/
structure Cursor where
  offset : Nat
  line : Nat
  column : Nat
  rest : Text
  used : Nat
  ending : Text

namespace Cursor

def ofLine (l : Line) : Cursor := ⟨l.offset, l.number, l.column, l.bytes, 0, l.ending⟩

def position (c : Cursor) : Position := ⟨c.offset, c.line, c.column⟩

def skip (c : Cursor) : Cursor :=
  match c.rest with
  | [] => c
  | b :: rest =>
    { c with offset := c.offset + 1, column := columnAfter c.column b, rest, used := 0 }

def skipMany : Nat → Cursor → Cursor
  | 0, c => c
  | n + 1, c => skipMany n c.skip

def skipColumns : Nat → Cursor → Cursor
  | 0, c => c
  | n + 1, c =>
    match c.rest with
    | [] => c
    | b :: rest =>
      if b = space then skipColumns n c.skip
      else if b = tab then
        if c.column % 4 = 0 then skipColumns n c.skip
        else skipColumns n { c with column := c.column + 1, rest := b :: rest, used := c.used + 1 }
      else c

def skipGaps (c : Cursor) : Cursor := c.skipMany (c.rest.takeWhile isGap).length

def indent (c : Cursor) : Nat := c.skipGaps.column - c.column

def isBlank (c : Cursor) : Bool := c.rest.all isGap

/-- What follows as text. A tab with columns used up does not count. -/
def content (c : Cursor) : Text := if c.used = 0 then c.rest else c.rest.drop 1

/-- The width of what lies between two places of a line: bytes, and four columns for a tab of which
some are used up at the first place. -/
def widthTo (c d : Cursor) : Nat :=
  (d.offset + (if d.used = 0 then 0 else d.used)) - (c.offset + (if c.used = 0 then 0 else 1))
    + (if c.used = 0 then 0 else 4 - c.used)

end Cursor

/-- A piece of a line up to its end, from which text is put together. -/
structure Strip where
  start : Position
  bytes : Text
  ending : Text
deriving Inhabited

def Cursor.strip (c : Cursor) : Strip :=
  let d := if c.used = 0 then c else c.skip
  ⟨d.position, d.rest, d.ending⟩

/-- A byte of running text and the places before and after it. A line ending is one `\n`, whatever
it is in the document, and reaches up to where the next line continues its containers. -/
structure Glyph where
  byte : UInt8
  start : Position
  stop : Position
deriving Inhabited

def placeAfter (p : Position) (bytes : Text) : Position :=
  ⟨p.offset + bytes.length, p.line, bytes.foldl columnAfter p.column⟩

def glyphsOf (p : Position) : Text → List Glyph
  | [] => []
  | b :: rest =>
    let q : Position := ⟨p.offset + 1, p.line, columnAfter p.column b⟩
    ⟨b, p, q⟩ :: glyphsOf q rest

def Strip.trimStart (s : Strip) : Strip :=
  let gaps := s.bytes.takeWhile isGap
  { s with start := placeAfter s.start gaps, bytes := s.bytes.dropWhile isGap }

/-- Running text over several lines, without the gaps that lines start with. -/
def glyphs : List Strip → List Glyph
  | [] => []
  | [s] => glyphsOf s.trimStart.start s.trimStart.bytes
  | s :: t :: rest =>
    glyphsOf s.trimStart.start s.trimStart.bytes
      ++ ⟨Text.newline, placeAfter s.start s.bytes, t.start⟩ :: glyphs (t :: rest)

def bytesOf (gs : List Glyph) : Text := gs.map (·.byte)

def spanOf (gs : List Glyph) : Location :=
  ⟨(gs.head?.map (·.start)).getD default, (gs.getLast?.map (·.stop)).getD default⟩

end Markdown
end Inlay
