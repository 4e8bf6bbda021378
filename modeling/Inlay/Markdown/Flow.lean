import Inlay.Markdown.Container
import Inlay.Markdown.Html

/-! The blocks of a document, built up line by line. A line first continues the containers that are
open, then opens new ones, and what is left of it continues or starts a leaf. A line of text that
continues a paragraph may leave out the marks of its containers. -/

namespace Inlay
namespace Markdown

/-- The block that the next line may continue. Lines are kept latest first. -/
inductive OpenLeaf where
  | none
  /-- Right after the underline of a heading, where another underline is plain text. -/
  | underlined
  | paragraph (strips : List Strip)
  | fence (fence : Fence) (code : List (Text × Text))
  | indented (start stop : Position)
  | html (kind : HtmlKind) (start : Position) (strips : List Strip)
  | table (start stop : Position) (rows : List Draft)

namespace OpenLeaf

def isParagraph : OpenLeaf → Bool
  | .paragraph _ => true
  | _ => false

/-- Whether every line is taken as it stands, marks of containers included. -/
def isVerbatim : OpenLeaf → Bool
  | .fence _ _ => true
  | .html _ _ _ => true
  | _ => false

def isUnending : OpenLeaf → Bool
  | .fence _ _ => true
  | .html kind _ _ => !kind.endsAtBlank
  | _ => false

end OpenLeaf

/-! ## Text of leaves -/

/-- The text of lines kept latest first. The last ending counts only if `isWhole`. -/
def joinLines (isWhole : Bool) : List (Text × Text) → Text
  | [] => []
  | (bytes, ending) :: earlier =>
    (earlier.reverse.flatMap fun (b, e) => b ++ e) ++ bytes ++ (if isWhole then ending else [])

def paragraphText (strips : List Strip) : List Glyph := glyphs strips.reverse

def splitDefinitions (text : List Glyph) : List Draft × List Glyph :=
  let (definitions, rest) := definitionsOf text.length text
  (definitions.map fun (label, loc) => .definition label loc, rest)

def paragraphDrafts (strips : List Strip) : List Draft :=
  let (definitions, rest) := splitDefinitions (paragraphText strips)
  definitions ++ if rest.isEmpty then [] else [.running .paragraph (spanOf rest) rest]

/-- Pieces of a row, of which each but the first starts at a bar. -/
def cellPieces (escaped : Bool) : List Glyph → List (List Glyph)
  | [] => [[]]
  | g :: rest =>
    match cellPieces (!escaped && g.byte == 92) rest with
    | piece :: pieces =>
      if g.byte = 124 && !escaped then [] :: (g :: piece) :: pieces else (g :: piece) :: pieces
    | [] => [[g]]

def isBarOrGap (g : Glyph) : Bool := isGap g.byte || g.byte == 124

/-- Joins pieces that hold nothing to the first or the last cell. -/
def joinPieces (pieces : List (List Glyph)) : List (List Glyph) :=
  let pieces := match pieces with
    | a :: b :: rest => if a.all isBarOrGap then (a ++ b) :: rest else pieces
    | _ => pieces
  match pieces.reverse with
  | a :: b :: rest => if a.all isBarOrGap then ((b ++ a) :: rest).reverse else pieces
  | _ => pieces

def cellText (piece : List Glyph) : List Glyph :=
  ((piece.dropWhile isBarOrGap).reverse.dropWhile isBarOrGap).reverse

def rowDraft (s : Strip) : Draft :=
  let pieces := joinPieces (cellPieces false (glyphsOf s.start s.bytes))
  .group .row ⟨s.start, placeAfter s.start s.bytes⟩
    (pieces.map fun p => .running .cell (spanOf p) (cellText p))

/-! ## Lines that start a leaf -/

inductive Start where
  | fence (fence : Fence)
  | html (kind : HtmlKind) (isEnded : Bool)
  | heading (content : Strip)
  | thematicBreak

/-- What a line with less than four columns before it starts, if it is not text. A tag alone on its
line counts only if `allowsTag`. -/
def start? (allowsTag : Bool) (c : Cursor) : Option Start :=
  let d := c.skipGaps
  if 4 ≤ c.indent then none
  else
    match fence? c.indent d with
    | some f => some (.fence f)
    | none =>
      match htmlStart? d.rest with
      | some (kind, rest) =>
        if kind = .complete && !allowsTag then none else some (.html kind (kind.isEndedBy rest))
      | none =>
        match heading? d with
        | some content => some (.heading content)
        | none => if isThematicBreak d.rest then some .thematicBreak else none

/-! ## Open blocks -/

structure Opened where
  container : Container
  start : Position
  children : List Draft

namespace Opened

def close (o : Opened) (stop : Position) : Draft :=
  let loc : Location := ⟨o.start, stop⟩
  let children := o.children.reverse
  match o.container with
  | .quote => .group .quote loc children
  | .item marker _ _ => .item marker loc (Draft.withoutBox children)
  | .footnote label => .footnote label loc children

/-- Continues containers, outermost first: those that the line continues, innermost first, those
that it does not, and the place that is reached. -/
def continueAll : List Opened → List Opened → Cursor → List Opened × List Opened × Cursor
  | kept, [], c => (kept, [], c)
  | kept, o :: rest, c =>
    match o.container.continue? c with
    | some (k, d) => continueAll ({ o with container := k } :: kept) rest d
    | none => (kept, o :: rest, c)

end Opened

/-- The open containers, innermost first, the finished blocks outside all of them, latest first, the
open leaf and the line before. -/
structure Flow where
  opened : List Opened
  top : List Draft
  leaf : OpenLeaf
  last : Line

namespace Flow

def add (s : Flow) (d : Draft) : Flow :=
  match s.opened with
  | o :: rest => { s with opened := { o with children := d :: o.children } :: rest }
  | [] => { s with top := d :: s.top }

def addAll (s : Flow) (ds : List Draft) : Flow := ds.foldl add s

def closeContainers (stop : Position) : Nat → Flow → Flow
  | 0, s => s
  | n + 1, s =>
    match s.opened with
    | o :: rest => closeContainers stop n ({ s with opened := rest }.add (o.close stop))
    | [] => s

/-- Where the open leaf ends when the document or its containers end. If they are cut off by a mark
of another container or by the end of the document, code and HTML include the last line ending. -/
def stop (s : Flow) (isWhole : Bool) : Position :=
  if isWhole && s.leaf.isUnending then s.last.next else s.last.stop

def closeLeaf (s : Flow) (isWhole : Bool) (stop : Position) : Flow :=
  { s with leaf := .none }.addAll <|
    match s.leaf with
    | .none => []
    | .underlined => []
    | .paragraph strips => paragraphDrafts strips
    | .fence f code =>
      [.leaf (.code f.language (trimEndings (joinLines isWhole code))) ⟨f.start, stop⟩]
    | .indented start stop => [.leaf .indentedCode ⟨start, stop⟩]
    | .html kind start strips =>
      let lines := strips.map fun (s : Strip) => (s.bytes, s.ending)
      [.leaf (.html (joinLines (isWhole && !kind.endsAtBlank) lines)) ⟨start, stop⟩]
    | .table start stop rows => [.group .table ⟨start, stop⟩ rows.reverse]

def begin (s : Flow) (c : Cursor) (l : Line) (start : Start) : Flow :=
  let loc : Location := ⟨c.skipGaps.position, l.stop⟩
  match start with
  | .fence f => { s with leaf := .fence f [([], l.ending)] }
  | .html kind isEnded =>
    let s := { s with leaf := .html kind c.position [c.strip] }
    if isEnded then s.closeLeaf false l.stop else s
  | .heading content => s.add (.running .heading loc (glyphsOf content.start content.bytes))
  | .thematicBreak => s.add (.leaf .thematicBreak loc)

def fresh (s : Flow) (c : Cursor) (l : Line) : Flow :=
  if c.isBlank then s
  else if 4 ≤ c.indent then { s with leaf := .indented c.position l.stop }
  else
    match start? true c with
    | some start => s.begin c l start
    | none => { s with leaf := .paragraph [c.strip] }

def afterParagraph (s : Flow) (strips : List Strip) (c : Cursor) (l : Line) : Flow :=
  let more : Flow := { s with leaf := .paragraph (c.strip :: strips) }
  let text := c.skipGaps.rest
  let head := strips.head?.getD default
  if c.isBlank then s.closeLeaf false s.last.stop
  else if 4 ≤ c.indent then more
  else if isUnderline text then
    let (definitions, rest) := splitDefinitions (paragraphText strips)
    if rest.isEmpty then more
    else
      { s with leaf := .underlined }.addAll
        (definitions ++ [Draft.running .heading ⟨(spanOf rest).start, l.stop⟩ rest])
  else if isDelimiterRow head.bytes text then
    { s with leaf := .table head.start l.stop [rowDraft head] }.addAll
      (paragraphDrafts (strips.drop 1))
  else
    match start? false c with
    | some start => (s.closeLeaf false s.last.stop).begin c l start
    | none => more

def continueLeaf (s : Flow) (c : Cursor) (l : Line) : Flow :=
  match s.leaf with
  | .none => s.fresh c l
  | .underlined =>
    if c.indent < 4 && isUnderline c.skipGaps.rest then { s with leaf := .paragraph [c.strip] }
    else { s with leaf := .none }.fresh c l
  | .paragraph strips => s.afterParagraph strips c l
  | .fence f code =>
    if f.isClosedBy c then s.closeLeaf true l.stop
    else { s with leaf := .fence f ((f.codeOn c, l.ending) :: code) }
  | .indented start _ =>
    if c.isBlank then s
    else if 4 ≤ c.indent then { s with leaf := .indented start l.stop }
    else (s.closeLeaf false s.last.stop).fresh c l
  | .html kind start strips =>
    if kind.endsAtBlank && c.isBlank then s.closeLeaf false s.last.stop
    else
      let more : Flow := { s with leaf := .html kind start (c.strip :: strips) }
      if kind.isEndedBy c.rest then more.closeLeaf false l.stop else more
  | .table start _ rows =>
    if c.isBlank || 4 ≤ c.indent || (start? true c).isSome then
      (s.closeLeaf false s.last.stop).fresh c l
    else { s with leaf := .table start l.stop (rowDraft c.strip :: rows) }

def closeDown (s : Flow) (isWhole : Bool) (kept : Nat) : Flow :=
  let stop := s.stop isWhole
  (s.closeLeaf isWhole stop).closeContainers stop (s.opened.length - kept)

def lazyLine (s : Flow) (kept : Nat) (c : Cursor) (l : Line) : Flow :=
  let closed := (s.closeDown false kept).fresh c l
  match s.leaf with
  | .paragraph strips =>
    if c.isBlank || (start? true c).isSome then closed
    else { s with leaf := .paragraph (c.strip :: strips) }
  | _ => closed

def step (s : Flow) (l : Line) : Flow :=
  let (kept, missed, c) := Opened.continueAll [] s.opened.reverse (.ofLine l)
  let s := { s with opened := missed.reverse ++ kept }
  let isLazy := !missed.isEmpty
  let (marks, d) :=
    if !isLazy && s.leaf.isVerbatim then ([], c)
    else Container.openAll l.bytes.length (!isLazy && s.leaf.isParagraph) c
  let next :=
    if !marks.isEmpty then
      let s := s.closeDown true kept.length
      let opened := marks.foldl (fun opened (k, start) => ⟨k, start, []⟩ :: opened) s.opened
      { s with opened }.fresh d l
    else if isLazy then s.lazyLine kept.length c l
    else s.continueLeaf c l
  { next with last := l }

def ofDocument (document : Text) : List Draft × Position :=
  let first := Line.first document
  let s := (Line.ofDocument document).foldl step ⟨[], [], .none, first⟩
  ((s.closeDown true 0).top.reverse, s.last.next)

end Flow
end Markdown
end Inlay
